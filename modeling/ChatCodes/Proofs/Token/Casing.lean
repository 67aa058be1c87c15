import ChatCodes.Converter
import ChatCodes.Proofs.RunLength
import ChatCodes.Proofs.Text.Letters
import ChatCodes.Proofs.Token.Reading

/-!
# Codes in either case

The letters of a code are read alike in either case, those of a text are kept as they are.
A marker is no letter, so a text in which letters of the codes change their case falls
into pieces at the same places, and has the same tokens.
-/

namespace ChatCodes

/-- The texts differ at most in the case of their letters, those of ASCII. -/
def Text.SameLetters (first second : Text) : Prop :=
  first.map Char.toLower = second.map Char.toLower

instance (first second : Text) : Decidable (Text.SameLetters first second) :=
  inferInstanceAs (Decidable (_ = _))

/-- The text of the pieces, but for the case of letters inside the codes. -/
inductive Recased : List (Text × Token) → Text → Prop
  | done : Recased [] []
  | literal {source chars pieces behind} (later : Recased pieces behind) :
      Recased ((source, .literal chars) :: pieces) (source ++ behind)
  | code {source other code pieces behind} (h : Text.SameLetters other source)
      (later : Recased pieces behind) :
      Recased ((source, .code code) :: pieces) (other ++ behind)

namespace Text.SameLetters

variable {first second other text : Text} {c : Char}

theorem append {front back : Text} (hfirst : SameLetters first front)
    (hsecond : SameLetters second back) : SameLetters (first ++ second) (front ++ back) := by
  rw [SameLetters, List.map_append, List.map_append, hfirst, hsecond]

theorem eq_nil_iff (h : SameLetters other text) : other = [] ↔ text = [] := by
  rw [← List.map_eq_nil_iff, h, List.map_eq_nil_iff]

theorem exists_cons (h : SameLetters other (c :: text)) :
    ∃ d more, other = d :: more ∧ d.toLower = c.toLower ∧ SameLetters more text := by
  obtain ⟨d, more, rfl, hd, hmore⟩ := List.map_eq_cons_iff.mp h
  exact ⟨d, more, rfl, hd, hmore⟩

/-- What is no letter stays what it is. -/
theorem exists_eq_cons (h : SameLetters other (c :: text)) (hc : c.isAlpha = false) :
    ∃ more, other = c :: more ∧ SameLetters more text := by
  obtain ⟨d, more, rfl, hd, hmore⟩ := h.exists_cons
  exact ⟨more, by rw [eq_of_toLower_eq hc hd], hmore⟩

theorem exists_prefix (h : SameLetters other text) (hfirst : first <+: text) :
    ∃ front, front <+: other ∧ SameLetters front first := by
  obtain ⟨rest, rfl⟩ := hfirst
  rw [SameLetters, List.map_append] at h
  obtain ⟨front, back, rfl, hfront, -⟩ := List.map_eq_append_iff.mp h
  exact ⟨front, List.prefix_append _ _, hfront⟩

theorem mem_iff (h : SameLetters other text) (hc : c.isAlpha = false) :
    c ∈ other ↔ c ∈ text := by
  have hlower : ∀ chars : Text, c ∈ chars ↔ c.toLower ∈ chars.map Char.toLower := by
    intro chars
    rw [List.mem_map]
    constructor
    · intro hmem
      exact ⟨c, hmem, rfl⟩
    · rintro ⟨d, hd, hsame⟩
      exact eq_of_toLower_eq hc hsame ▸ hd
  rw [hlower other, h, ← hlower text]

end Text.SameLetters

/-! ## Codes -/

theorem Rgb.IsSpelledBy.of_sameLetters {color : Rgb} {digits other : Text}
    (h : color.IsSpelledBy digits) (hother : Text.SameLetters other digits) :
    color.IsSpelledBy other := by
  have hvalues : ∀ text : Text,
      text.map Text.hexValue? = (text.map Char.toLower).map Text.hexValue? := by
    intro text
    rw [List.map_map]
    exact List.map_congr_left fun c _ => (Text.hexValue?_toLower c).symm
  rwa [IsSpelledBy, hvalues other, hother, ← hvalues digits]

namespace HexForm

variable {marker : Char}

theorem exists_eq_marked (hmarker : marker.isAlpha = false) {digits other : Text}
    (h : Text.SameLetters other (marked marker digits)) :
    ∃ letters, other = marked marker letters ∧ Text.SameLetters letters digits := by
  induction digits generalizing other with
  | nil => exact ⟨[], h.eq_nil_iff.mpr rfl, rfl⟩
  | cons digit digits ih =>
      obtain ⟨behind, rfl, hbehind⟩ := h.exists_eq_cons hmarker
      obtain ⟨letter, more, rfl, hletter, hmore⟩ := hbehind.exists_cons
      obtain ⟨letters, rfl, hletters⟩ := ih hmore
      exact ⟨letter :: letters, rfl, congrArg₂ List.cons hletter hletters⟩

theorem Spells.of_sameLetters {form : HexForm} {source other : Text} {color : Rgb}
    (h : form.Spells marker source color) (hmarker : marker.isAlpha = false)
    (hother : Text.SameLetters other source) : form.Spells marker other color := by
  cases h with
  | compact hcolor =>
      obtain ⟨digits, rfl, hdigits⟩ := hother.exists_eq_cons rfl
      exact .compact (hcolor.of_sameLetters hdigits)
  | @spread x _ _ hx hcolor =>
      obtain ⟨y, marked, rfl, hy, hmarked⟩ := hother.exists_cons
      obtain ⟨digits, rfl, hdigits⟩ := exists_eq_marked hmarker hmarked
      refine .spread (Text.eq_or_eq_toUpper (d := 'x') ?_) (hcolor.of_sameLetters hdigits)
      rw [hy]
      rcases hx with rfl | rfl <;> rfl

end HexForm

namespace Dialect

variable {dialect : Dialect}

theorem StartsWithHex.of_sameLetters {text other : Text} (h : dialect.StartsWithHex text)
    (hmarker : dialect.marker.isAlpha = false) (hother : Text.SameLetters other text) :
    dialect.StartsWithHex other := by
  obtain ⟨form, source, color, ⟨hon, hspells⟩, hprefix⟩ := h
  obtain ⟨front, hfront, hsame⟩ := hother.exists_prefix hprefix
  exact ⟨form, front, color, ⟨hon, hspells.of_sameLetters hmarker hsame⟩, hfront⟩

@[simp] theorem code?_toLower (dialect : Dialect) (c : Char) :
    dialect.code? c.toLower = dialect.code? c := by
  simp only [code?, Code.ofChar?_toLower]

theorem code?_of_toLower_eq {c d : Char} (h : c.toLower = d.toLower) :
    dialect.code? c = dialect.code? d := by
  rw [← code?_toLower, h, code?_toLower]

end Dialect

/-! ## Pieces -/

section Pieces

variable {dialect : Dialect} {source behind : Text} {token : Token}
  {pieces : List (Text × Token)}

theorem Reads.recase {other later : Text} (h : Reads dialect source token behind)
    (hmarker : dialect.marker.isAlpha = false)
    (hliteral : ∀ chars, token = .literal chars → other = source)
    (hother : Text.SameLetters other source) (hlater : Text.SameLetters later behind) :
    Reads dialect other token later := by
  -- An incomplete hex color stays incomplete, also where a code behind it changes.
  have hhex : ∀ {c d}, d.toLower = c.toLower → ¬ dialect.StartsWithHex (c :: behind) →
      ¬ dialect.StartsWithHex (d :: later) := by
    intro c d hcase hnone hstarts
    exact hnone (hstarts.of_sameLetters hmarker (congrArg₂ List.cons hcase hlater).symm)
  cases h with
  | run htext hfree hend =>
      obtain rfl := hliteral _ rfl
      refine .run htext hfree ?_
      cases behind with
      | nil => simp [hlater.eq_nil_iff.mpr rfl]
      | cons c behind =>
          obtain rfl : c = dialect.marker := hend c rfl
          obtain ⟨more, rfl, -⟩ := hlater.exists_eq_cons hmarker
          rintro _ ⟨⟩
          rfl
  | lone =>
      obtain rfl := hliteral _ rfl
      rw [hlater.eq_nil_iff.mpr rfl]
      exact .lone
  | hex h =>
      obtain ⟨more, rfl, hmore⟩ := hother.exists_eq_cons hmarker
      exact .hex ⟨h.1, h.2.of_sameLetters hmarker hmore⟩
  | code hstarts hcode =>
      obtain ⟨more, rfl, hmore⟩ := hother.exists_eq_cons hmarker
      obtain ⟨d, last, rfl, hcase, hlast⟩ := hmore.exists_cons
      rw [hlast.eq_nil_iff.mpr rfl]
      exact .code (hhex hcase hstarts) ((Dialect.code?_of_toLower_eq hcase).trans hcode)
  | unknown hstarts hcode =>
      obtain rfl := hliteral _ rfl
      exact .unknown (hhex rfl hstarts) hcode

theorem Recased.sameLetters {text : Text} (h : Recased pieces text) :
    Text.SameLetters text (pieces.map Prod.fst).flatten := by
  induction h with
  | done => rfl
  | literal _ ih => exact .append rfl ih
  | code h _ ih => exact h.append ih

theorem Cutting.recase {text other : Text} (h : Cutting dialect text pieces)
    (hmarker : dialect.marker.isAlpha = false) (hother : Recased pieces other) :
    ∃ others, Cutting dialect other others ∧
      others.map Prod.snd = pieces.map Prod.snd := by
  -- What stands behind a piece changes too, so the other text is general.
  induction h generalizing other with
  | done =>
      cases hother
      exact ⟨[], .done, rfl⟩
  | @piece source token behind pieces hreads hlater ih =>
      cases hother with
      | @literal _ chars _ after later =>
          obtain ⟨others, hothers, htokens⟩ := ih later
          have hafter := hlater.flatten_eq ▸ later.sameLetters
          have hpiece := hreads.recase hmarker (fun _ _ => rfl) rfl hafter
          exact ⟨_, .piece hpiece hothers, congrArg (_ :: ·) htokens⟩
      | @code _ letters code _ after hsame later =>
          obtain ⟨others, hothers, htokens⟩ := ih later
          have hafter := hlater.flatten_eq ▸ later.sameLetters
          have hpiece := hreads.recase hmarker nofun hsame hafter
          exact ⟨_, .piece hpiece hothers, congrArg (_ :: ·) htokens⟩

end Pieces

theorem Dialect.strip_eq_of_scan_eq {dialect : Dialect} {first second : Text}
    (hscan : Token.scan dialect first = Token.scan dialect second)
    (hmarker : dialect.marker ∈ first ↔ dialect.marker ∈ second) :
    dialect.strip first = dialect.strip second := by
  have hcodes : dialect.withoutCodes first = dialect.withoutCodes second := by
    rw [withoutCodes, withoutCodes, hscan]
  by_cases hmem : dialect.marker ∈ first
  · rw [strip, strip, if_pos hmem, if_pos (hmarker.mp hmem), hcodes]
  · have hfirst := strip_eq_unchanged_iff.mpr ⟨hmem, rfl⟩
    have hsecond := strip_eq_unchanged_iff.mpr ⟨mt hmarker.mpr hmem, rfl⟩
    rw [← text_strip, ← text_strip, hfirst, hsecond] at hcodes
    rw [hfirst, hsecond]
    exact congrArg Stripped.unchanged hcodes

/--
Let a second text be the first one but for the case of letters inside the codes that are
found in the first.  Then the same tokens are found in it, so every literal is there as it
was; and it gives the same markup, the same spans, and is the same without codes.
-/
theorem codes_read_in_either_case (converter : Converter) {first second : Text}
    {pieces : List (Text × Token)} (hpieces : Cutting converter.dialect first pieces)
    (hsecond : Recased pieces second) :
    Token.scan converter.dialect second = Token.scan converter.dialect first ∧
    (∀ tokens,
      (∃ last, ({ dialect := converter.dialect, text := second } : Cursor).readAll =
        .ok (tokens, last)) ↔
      ∃ last, ({ dialect := converter.dialect, text := first } : Cursor).readAll =
        .ok (tokens, last)) ∧
    converter.convert second = converter.convert first ∧
    converter.spans second = converter.spans first ∧
    converter.strip second = converter.strip first := by
  have hmarker := Marker.isAlpha_of_fault? converter.accepted
  obtain ⟨others, hothers, htokens⟩ := hpieces.recase hmarker hsecond
  have hscan : Token.scan converter.dialect second = Token.scan converter.dialect first := by
    rw [hpieces.scan_eq, hothers.scan_eq, htokens]
  have hliterals : converter.dialect.literals second = converter.dialect.literals first := by
    rw [Dialect.literals, Dialect.literals, hscan]
  refine ⟨hscan, fun tokens => ?_, ?_, ?_, ?_⟩
  · rw [Cursor.readAll_start_iff, Cursor.readAll_start_iff, hscan]
  · exact congrArg (Markup.render converter.settings.escaping) hliterals
  · exact congrArg Span.merge hliterals
  · have hletters := hpieces.flatten_eq ▸ hsecond.sameLetters
    exact Dialect.strip_eq_of_scan_eq hscan (hletters.mem_iff hmarker)

/-- The letters of two codes change their case, those of an unknown code do not. -/
theorem codes_read_in_either_case_around_unknown :
    let converter : Converter := ⟨.extended, by decide⟩
    let first : Text := "&x&f&F&8&8&0&0&Xa&c".toList
    let second : Text := "&X&F&F&8&8&0&0&Xa&C".toList
    Token.scan converter.dialect second =
      [.code (.setColor (.hex ⟨0xff, 0x88, 0x00⟩)), .literal ['&', 'X'], .literal ['a'],
        .code (.setColor (.named .red))] ∧
    converter.strip second = converter.strip first := by
  intro converter first second
  let orange : Rgb := ⟨0xff, 0x88, 0x00⟩
  have hspelled : orange.IsSpelledBy "fF8800".toList := Rgb.ofDigits?_eq_some_iff.mp rfl
  have horange : Reads converter.dialect "&x&f&F&8&8&0&0".toList
      (.code (.setColor (.hex orange))) "&Xa&c".toList :=
    .hex ⟨rfl, .spread (.inl rfl) hspelled⟩
  have hunknown : Reads converter.dialect ['&', 'X'] (.literal ['&', 'X']) "a&c".toList :=
    .unknown (Dialect.hexCode?_eq_none_iff.mp (by decide)) rfl
  have hrun : Reads converter.dialect ['a'] (.literal ['a']) ['&', 'c'] :=
    .run (by decide) (by decide) (by rintro _ ⟨⟩; rfl)
  have hred : Reads converter.dialect ['&', 'c'] (.code (.setColor (.named .red))) [] :=
    .code (Dialect.hexCode?_eq_none_iff.mp (by decide)) rfl
  let pieces : List (Text × Token) :=
    [("&x&f&F&8&8&0&0".toList, .code (.setColor (.hex orange))),
      (['&', 'X'], .literal ['&', 'X']), (['a'], .literal ['a']),
      (['&', 'c'], .code (.setColor (.named .red)))]
  have hpieces : Cutting converter.dialect first pieces :=
    .piece horange (.piece hunknown (.piece hrun (.piece hred .done)))
  have hsplit : second =
      "&X&F&F&8&8&0&0".toList ++ (['&', 'X'] ++ (['a'] ++ (['&', 'C'] ++ []))) := by
    decide +kernel
  have hsecond : Recased pieces second := by
    rw [hsplit]
    exact .code (by decide +kernel) (.literal (.literal (.code (by decide) .done)))
  obtain ⟨hscan, -, -, -, hstrip⟩ := codes_read_in_either_case converter hpieces hsecond
  exact ⟨hscan.trans hpieces.scan_eq, hstrip⟩

end ChatCodes
