import ChatCodes.Proofs.Token.Reading
import ChatCodes.Proofs.Token.Splicing

/-!
# Readers of named colors

A text that is a marker and one digit, nothing more, can be read as a named color by
itself.  Scanning finds that color alone in the text, and finds a named color alone in no
other text, whichever character is the marker and whatever else the dialect knows.
-/

namespace ChatCodes

theorem NamedColor.ofMarked?_eq_some_iff {marker : Char} {text : Text}
    {color : NamedColor} :
    ofMarked? marker text = some color ↔
      ∃ c, text = [marker, c] ∧ ofChar? c = some color := by
  constructor
  · intro h
    unfold ofMarked? at h
    split at h
    · next first c =>
        split at h
        · next hfirst => exact ⟨c, by rw [hfirst], h⟩
        · contradiction
    · contradiction
  · rintro ⟨c, rfl, hc⟩
    rw [ofMarked?, if_pos rfl, hc]

theorem Code.ofChar?_eq_named_iff {c : Char} {color : NamedColor} :
    ofChar? c = some (.setColor (.named color)) ↔ NamedColor.ofChar? c = some color := by
  unfold ofChar?
  split
  · next hcolor => simp [hcolor]
  · next hcolor _ => simp [hcolor]
  · next hcolor _ =>
      rw [hcolor]
      split <;> simp

/-- What a dialect may lack is no color. -/
theorem Dialect.code?_eq_setColor_iff {dialect : Dialect} {c : Char} {color : Color} :
    dialect.code? c = some (.setColor color) ↔ Code.ofChar? c = some (.setColor color) := by
  unfold code?
  split
  · next hobfuscated =>
      rw [hobfuscated]
      split <;> simp
  · rfl

/-! ## One token -/

variable {dialect : Dialect} {text : Text}

theorem Token.scan_eq_singleton_iff {token : Token} :
    scan dialect text = [token] ↔ Reads dialect text token [] := by
  constructor
  · intro h
    obtain ⟨pieces, hpieces⟩ := exists_cutting dialect text
    rw [hpieces.scan_eq] at h
    obtain ⟨⟨source, found⟩, rfl, rfl⟩ := List.map_eq_singleton_iff.mp h
    cases hpieces with
    | piece hreads hlater =>
        cases hlater
        rwa [List.append_nil]
  · intro h
    have hscan := scan_of_reads h
    rwa [List.append_nil, scan_nil] at hscan

theorem Reads.named_iff {behind : Text} {color : NamedColor} :
    Reads dialect text (.code (.setColor (.named color))) behind ↔
      ∃ c, text = [dialect.marker, c] ∧ NamedColor.ofChar? c = some color := by
  constructor
  · intro h
    cases h with
    | @code c _ _ _ hcode =>
        rw [Dialect.code?_eq_setColor_iff, Code.ofChar?_eq_named_iff] at hcode
        exact ⟨c, rfl, hcode⟩
  · rintro ⟨c, rfl, hc⟩
    have hcode : dialect.code? c = some (.setColor (.named color)) := by
      rwa [Dialect.code?_eq_setColor_iff, Code.ofChar?_eq_named_iff]
    exact .code (Dialect.not_startsWithHex_of_code? hcode behind) hcode

/--
A named color is read of a text by itself exactly if scanning the text, in a dialect with
that marker, finds this color and nothing else, and so does reading it with a cursor.  Of
any other text no color is read.
-/
theorem named_colors_read_alike (dialect : Dialect) (text : Text) :
    (∀ color, NamedColor.ofMarked? dialect.marker text = some color ↔
      Token.scan dialect text = [.code (.setColor (.named color))]) ∧
    (∀ color, NamedColor.ofMarked? dialect.marker text = some color ↔
      ∃ last, ({ dialect, text } : Cursor).readAll =
        .ok ([.code (.setColor (.named color))], last)) ∧
    (NamedColor.ofMarked? dialect.marker text = none ↔
      ∀ color, Token.scan dialect text ≠ [.code (.setColor (.named color))]) := by
  have hscan : ∀ color, NamedColor.ofMarked? dialect.marker text = some color ↔
      Token.scan dialect text = [.code (.setColor (.named color))] := by
    intro color
    rw [NamedColor.ofMarked?_eq_some_iff, Token.scan_eq_singleton_iff, Reads.named_iff]
  refine ⟨hscan, fun color => ?_, ?_⟩
  · rw [Cursor.readAll_start_iff]
    exact hscan color
  · simp only [Option.eq_none_iff_forall_ne_some, ne_eq, hscan]

/-- The marker is a digit too, and so is what would follow a `#`. -/
example :
    let dialect : Dialect := { marker := 'a', hexColors := true }
    NamedColor.ofMarked? 'a' ['a', 'A'] = some .green ∧
      Token.scan dialect ['a', 'A'] = [.code (.setColor (.named .green))] ∧
      NamedColor.ofMarked? 'a' ['a', '#'] = none := by
  decide +kernel

end ChatCodes
