import ChatCodes.Proofs.Token.Splicing

/-!
# Styled texts written with codes

Each span of a styled text is written behind a reset and the codes of its style: its
color, then its decorations.  Scanning finds these codes and texts again, so every
styled text whose colors and decorations the dialect knows can be written and is read
back, whether or not a color ends the decorations.
-/

namespace ChatCodes

/-- The marker and the code character, or the name of a hex color, which has none. -/
def Code.written (marker : Char) (code : Code) : Text :=
  match code.char? with
  | some c => [marker, c]
  | none => marker :: code.name

/-- What makes the style out of any other one. -/
def Style.codes (style : Style) : List Code :=
  .reset :: style.color.toList.map .setColor ++ style.decorations.toList.map .decorate

def Span.written (marker : Char) (span : Span) : Text :=
  span.style.codes.flatMap (Code.written marker) ++ span.text

/-- Hex colors, and obfuscated text, are left to the dialect. -/
def Dialect.knows (dialect : Dialect) : Code → Bool
  | .setColor (.hex _) => dialect.hexColors
  | .decorate .obfuscated => dialect.obfuscation
  | _ => true

/-! ## The style of its codes -/

theorem Style.foldl_decorate (colorEndsDecorations : Bool) (style : Style)
    (members : List Decoration) :
    (members.map Code.decorate).foldl (apply colorEndsDecorations) style =
      { style with decorations := members.foldl Decorations.insert style.decorations } := by
  induction members generalizing style with
  | nil => rfl
  | cons decoration members ih => exact ih (style.apply colorEndsDecorations _)

theorem Style.foldl_codes (colorEndsDecorations : Bool) (start style : Style) :
    style.codes.foldl (apply colorEndsDecorations) start = style := by
  obtain ⟨color, decorations⟩ := style
  have hmembers : decorations.toList.foldl Decorations.insert .empty = decorations :=
    Decorations.ofList_toList decorations
  cases color with
  | none => simp [codes, apply, foldl_decorate, plain, hmembers]
  | some color => simp [codes, apply, foldl_decorate, plain, hmembers]

/-! ## Scanning what is written -/

namespace Dialect

variable {dialect : Dialect}

theorem code?_of_char? {code : Code} {c : Char} (hknows : dialect.knows code = true)
    (h : code.char? = some c) : dialect.code? c = some code := by
  unfold code?
  rw [Code.ofChar?_of_char? h]
  split
  · next hsame =>
      cases hsame
      exact if_pos hknows
  · rfl

theorem spellsCode_written {code : Code} (h : dialect.knows code = true) :
    dialect.SpellsCode (code.written dialect.marker) code := by
  unfold Code.written
  split
  · next c hc => exact .char (code?_of_char? h hc)
  · next hnone =>
      cases code with
      | setColor color =>
          cases color with
          | named color => cases hnone
          | hex color =>
              have hcolor := Rgb.ofDigits?_eq_some_iff.mp (Rgb.ofDigits?_digits color)
              exact .hex ⟨h, .compact hcolor⟩
      | decorate decoration => cases hnone
      | reset => cases hnone

theorem scan_written_codes {codes : List Code}
    (h : ∀ code ∈ codes, dialect.knows code = true) (behind : Text) :
    Token.scan dialect (codes.flatMap (Code.written dialect.marker) ++ behind) =
      codes.map .code ++ Token.scan dialect behind := by
  induction codes with
  | nil => rfl
  | cons code codes ih =>
      obtain ⟨hcode, hcodes⟩ := List.forall_mem_cons.mp h
      rw [List.flatMap_cons, List.append_assoc, scan_of_spellsCode (spellsCode_written hcode),
        ih hcodes]
      rfl

/-- A span whose codes are known and whose text is there and has none of its own. -/
structure CanWrite (dialect : Dialect) (span : Span) : Prop where
  text_ne_nil : span.text ≠ []
  marker_not_mem : dialect.marker ∉ span.text
  knows : ∀ code ∈ span.style.codes, dialect.knows code = true

theorem head?_written (marker : Char) (spans : List Span) :
    ∀ c ∈ (spans.flatMap (Span.written marker)).head?, c = marker := by
  cases spans with
  | nil => simp
  | cons span spans => simp [Span.written, Style.codes, Code.written, Code.char?]

theorem literals_written {spans : List Span} (h : ∀ span ∈ spans, dialect.CanWrite span)
    (start : Style) :
    Span.ofTokens dialect.colorEndsDecorations start
      (Token.scan dialect (spans.flatMap (Span.written dialect.marker))) = spans := by
  induction spans generalizing start with
  | nil => simp [Span.ofTokens]
  | cons span spans ih =>
      obtain ⟨hspan, hspans⟩ := List.forall_mem_cons.mp h
      have hend := head?_written dialect.marker spans
      rw [List.flatMap_cons, Span.written, List.append_assoc, scan_written_codes hspan.knows,
        Token.scan_of_reads (.run hspan.text_ne_nil hspan.marker_not_mem hend),
        Span.ofTokens_codes_append, Style.foldl_codes, Span.ofTokens, ih hspans]

end Dialect

/--
A styled text written with codes is read back: the spans of what is written are those
of the styled text, with neighbours of equal style joined.
-/
theorem written_spans_read_back (converter : Converter) (spans : List Span)
    (h : ∀ span ∈ spans, converter.dialect.CanWrite span) (merged : List Span) :
    converter.spans (spans.flatMap (Span.written converter.settings.marker)) = merged ↔
      Span.IsMergeOf merged spans := by
  have hliterals : converter.dialect.literals
      (spans.flatMap (Span.written converter.settings.marker)) = spans :=
    Dialect.literals_written h .plain
  rw [Converter.spans, Dialect.spans, hliterals, Span.merge_eq_iff]

/-- Digits and letters directly behind a code belong to the text. -/
theorem written_spans_read_back_joined :
    let converter : Converter := ⟨.extended, by decide⟩
    let orange : Style := ⟨some (.hex ⟨0xff, 0x88, 0x00⟩), .ofList [.bold]⟩
    let red : Style := ⟨some (.named .red), .ofList [.obfuscated, .italic]⟩
    let spans : List Span := [⟨['f', '0'], orange⟩, ⟨['a'], orange⟩, ⟨['l'], red⟩]
    spans.flatMap (Span.written '&') =
      "&r&#ff8800&lf0&r&#ff8800&la&r&c&k&ol".toList ∧
    converter.spans (spans.flatMap (Span.written '&')) =
      [⟨['f', '0', 'a'], orange⟩, ⟨['l'], red⟩] := by
  intro converter orange red spans
  have horange : ∀ code ∈ orange.codes, converter.dialect.knows code = true := by decide
  have hred : ∀ code ∈ red.codes, converter.dialect.knows code = true := by decide
  have hspans : ∀ span ∈ spans, converter.dialect.CanWrite span := by
    intro span hspan
    simp only [spans, List.mem_cons, List.not_mem_nil, or_false] at hspan
    rcases hspan with rfl | rfl | rfl
    · exact ⟨by decide, by decide, horange⟩
    · exact ⟨by decide, by decide, horange⟩
    · exact ⟨by decide, by decide, hred⟩
  refine ⟨by decide, (written_spans_read_back converter spans hspans _).mpr ?_⟩
  exact Span.merge_eq_iff.mp (by decide)

end ChatCodes
