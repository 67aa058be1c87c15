import ChatCodes.Converter
import ChatCodes.Proofs.Token.Reading

/-!
# Readers of hex colors

A hex color is read from a text of its own, and behind a marker in a compact and in a
spread form.  All three find the same color in the same six digits, and none takes more
or fewer.  The written form of a color is what is read of it, in lower case.
-/

namespace ChatCodes

open Text (hexValue? hexByte hexDigit highDigit lowDigit byteOfDigits)

/-! ## Colors as texts -/

/-- Two digits, the first counting sixteen. -/
def Text.IsHexPair (high low : Char) (byte : UInt8) : Prop :=
  ∃ sixteens ones : HexDigit, hexValue? high = some sixteens ∧
    hexValue? low = some ones ∧ byte.toNat = 16 * sixteens.val + ones.val

theorem Text.isHexPair_iff {high low : Char} {byte : UInt8} :
    IsHexPair high low byte ↔ ∃ sixteens ones, hexValue? high = some sixteens ∧
      hexValue? low = some ones ∧ byteOfDigits sixteens ones = byte := by
  unfold IsHexPair
  simp only [← UInt8.toNat_inj, toNat_byteOfDigits, eq_comm]

theorem Text.IsHexPair.hexByte_eq {high low : Char} {byte : UInt8}
    (h : IsHexPair high low byte) : hexByte byte = [high.toLower, low.toLower] := by
  obtain ⟨sixteens, ones, hhigh, hlow, hbyte⟩ := h
  have hsixteens : highDigit byte = sixteens := by
    apply Fin.ext
    simp only [highDigit]
    omega
  have hones : lowDigit byte = ones := by
    apply Fin.ext
    simp only [lowDigit]
    omega
  rw [toLower_of_hexValue? hhigh, toLower_of_hexValue? hlow, hexByte, hsixteens, hones]

theorem Text.IsHexPair.isHexDigit {high low : Char} {byte : UInt8}
    (h : IsHexPair high low byte) : isHexDigit high = true ∧ isHexDigit low = true := by
  obtain ⟨_, _, hhigh, hlow, -⟩ := h
  simp [Text.isHexDigit, hhigh, hlow]

theorem Text.exists_isHexPair {high low : Char} (hhigh : isHexDigit high = true)
    (hlow : isHexDigit low = true) : ∃ byte, IsHexPair high low byte := by
  obtain ⟨sixteens, hsixteens⟩ := Option.isSome_iff_exists.mp hhigh
  obtain ⟨ones, hones⟩ := Option.isSome_iff_exists.mp hlow
  exact ⟨_, isHexPair_iff.mpr ⟨sixteens, ones, hsixteens, hones, rfl⟩⟩

namespace Rgb

/-- A `#` and three pairs of digits, one for each channel. -/
inductive IsWrittenAs (color : Rgb) : Text → Prop
  | channels {r₁ r₀ g₁ g₀ b₁ b₀ : Char} (hred : Text.IsHexPair r₁ r₀ color.red)
      (hgreen : Text.IsHexPair g₁ g₀ color.green)
      (hblue : Text.IsHexPair b₁ b₀ color.blue) :
      IsWrittenAs color ['#', r₁, r₀, g₁, g₀, b₁, b₀]

variable {text : Text} {color : Rgb}

theorem ofText?_eq_some_iff : ofText? text = some color ↔ color.IsWrittenAs text := by
  constructor
  · intro h
    unfold ofText? at h
    split at h
    · unfold ofDigits? at h
      split at h
      · simp only [Option.bind_eq_bind, Option.bind_eq_some_iff, Option.pure_def,
          Option.some.injEq] at h
        obtain ⟨vr₁, hr₁, vr₀, hr₀, vg₁, hg₁, vg₀, hg₀, vb₁, hb₁, vb₀, hb₀, rfl⟩ := h
        exact .channels (Text.isHexPair_iff.mpr ⟨_, _, hr₁, hr₀, rfl⟩)
          (Text.isHexPair_iff.mpr ⟨_, _, hg₁, hg₀, rfl⟩)
          (Text.isHexPair_iff.mpr ⟨_, _, hb₁, hb₀, rfl⟩)
      · contradiction
    · contradiction
  · rintro ⟨hred, hgreen, hblue⟩
    obtain ⟨_, _, hr₁, hr₀, hred⟩ := Text.isHexPair_iff.mp hred
    obtain ⟨_, _, hg₁, hg₀, hgreen⟩ := Text.isHexPair_iff.mp hgreen
    obtain ⟨_, _, hb₁, hb₀, hblue⟩ := Text.isHexPair_iff.mp hblue
    simp [ofText?, ofDigits?, hr₁, hr₀, hg₁, hg₀, hb₁, hb₀, hred, hgreen, hblue]

theorem parse_eq_ok_iff_ofText? : parse text = .ok color ↔ ofText? text = some color := by
  unfold parse
  split <;> simp_all

theorem parse_eq_ok_iff : parse text = .ok color ↔ color.IsWrittenAs text := by
  rw [parse_eq_ok_iff_ofText?, ofText?_eq_some_iff]

theorem parse_eq_error_iff :
    parse text = .error (.invalidHexColor text) ↔ ¬ ∃ color, parse text = .ok color := by
  unfold parse
  split <;> simp

theorem exists_isWrittenAs_iff :
    (∃ color : Rgb, color.IsWrittenAs text) ↔ ∃ digits, text = '#' :: digits ∧
      digits.length = 6 ∧ ∀ c ∈ digits, Text.isHexDigit c = true := by
  constructor
  · rintro ⟨_, hred, hgreen, hblue⟩
    refine ⟨_, rfl, rfl, ?_⟩
    simp [hred.isHexDigit, hgreen.isHexDigit, hblue.isHexDigit]
  · rintro ⟨digits, rfl, hlength, hdigits⟩
    match digits, hlength with
    | [r₁, r₀, g₁, g₀, b₁, b₀], _ =>
        simp only [List.forall_mem_cons] at hdigits
        obtain ⟨hr₁, hr₀, hg₁, hg₀, hb₁, hb₀, -⟩ := hdigits
        obtain ⟨red, hred⟩ := Text.exists_isHexPair hr₁ hr₀
        obtain ⟨green, hgreen⟩ := Text.exists_isHexPair hg₁ hg₀
        obtain ⟨blue, hblue⟩ := Text.exists_isHexPair hb₁ hb₀
        exact ⟨⟨red, green, blue⟩, .channels hred hgreen hblue⟩

theorem exists_parse_eq_ok_iff :
    (∃ color, parse text = .ok color) ↔ ∃ digits, text = '#' :: digits ∧
      digits.length = 6 ∧ ∀ c ∈ digits, Text.isHexDigit c = true := by
  simp only [parse_eq_ok_iff, exists_isWrittenAs_iff]

theorem IsWrittenAs.text_eq (h : color.IsWrittenAs text) :
    color.text = text.map Char.toLower := by
  obtain ⟨hred, hgreen, hblue⟩ := h
  rw [Rgb.text, digits, hred.hexByte_eq, hgreen.hexByte_eq, hblue.hexByte_eq]
  rfl

end Rgb

/-! ## Colors behind a marker -/

namespace HexForm

variable {marker : Char} {digits : Text}

theorem read?_compact (hlength : digits.length = digitCount) (behind : Text) :
    read? marker ('#' :: digits ++ behind) = (Rgb.ofDigits? digits).map (.compact, ·) := by
  rw [List.cons_append, read?, ← hlength, List.take_left]

theorem read?_spread {x : Char} (hx : x = 'x' ∨ x = 'X')
    (hlength : digits.length = digitCount) (behind : Text) :
    read? marker (x :: marked marker digits ++ behind) =
      (Rgb.ofDigits? digits).map (.spread, ·) := by
  have hmarked : markedChars? marker digitCount (marked marker digits ++ behind) =
      some digits :=
    markedChars?_eq_some_iff.mpr ⟨hlength, List.prefix_append _ _⟩
  have hread : (do
      let found ← markedChars? marker digitCount (marked marker digits ++ behind)
      let color ← Rgb.ofDigits? found
      return (HexForm.spread, color)) = (Rgb.ofDigits? digits).map (.spread, ·) := by
    rw [hmarked, Option.bind_eq_bind, Option.bind_some]
    cases Rgb.ofDigits? digits <;> rfl
  rcases hx with rfl | rfl
  · exact hread
  · exact hread

end HexForm

/-- Six characters in the place of the digits of a hex color. -/
inductive Dialect.FormOf (dialect : Dialect) (digits : Text) : HexForm → Text → Prop
  | compact : FormOf dialect digits .compact ('#' :: digits)
  | spread {x} (hx : x = 'x' ∨ x = 'X') :
      FormOf dialect digits .spread (x :: HexForm.marked dialect.marker digits)

namespace Dialect.FormOf

variable {dialect : Dialect} {digits source : Text} {form : HexForm}

theorem hexCode?_eq (h : dialect.FormOf digits form source)
    (hon : dialect.hexColors = true) (hlength : digits.length = HexForm.digitCount)
    (behind : Text) :
    dialect.hexCode? (source ++ behind) = (Rgb.ofDigits? digits).map (form, ·) := by
  rw [hexCode?, if_pos hon]
  cases h with
  | compact => exact HexForm.read?_compact hlength behind
  | spread hx => exact HexForm.read?_spread hx hlength behind

theorem spells (h : dialect.FormOf digits form source) {color : Rgb}
    (hcolor : Rgb.ofDigits? digits = some color) :
    form.Spells dialect.marker source color := by
  have hspelled := Rgb.ofDigits?_eq_some_iff.mp hcolor
  cases h with
  | compact => exact .compact hspelled
  | spread hx => exact .spread hx hspelled

/-- Neither `#` nor `x` is a code character. -/
theorem exists_cons (h : dialect.FormOf digits form source) :
    ∃ c more, source = c :: more ∧ dialect.code? c = none := by
  cases h with
  | compact => exact ⟨'#', _, rfl, rfl⟩
  | spread hx =>
      refine ⟨_, _, rfl, ?_⟩
      rcases hx with rfl | rfl <;> rfl

theorem scan_eq_iff (h : dialect.FormOf digits form source)
    (hon : dialect.hexColors = true) (hlength : digits.length = HexForm.digitCount)
    (behind : Text) {color : Rgb} {rest : List Token} :
    Token.scan dialect (dialect.marker :: source ++ behind) =
        .code (.setColor (.hex color)) :: rest ↔
      Rgb.ofDigits? digits = some color ∧ rest = Token.scan dialect behind := by
  cases hdigits : Rgb.ofDigits? digits with
  | some found =>
      rw [Token.scan_of_reads (.hex ⟨hon, h.spells hdigits⟩)]
      simp [eq_comm]
  | none =>
      have hhex := h.hexCode?_eq hon hlength behind
      obtain ⟨c, more, rfl, hcode⟩ := h.exists_cons
      rw [hdigits, Option.map_none, List.cons_append] at hhex
      have hnext : Token.next? dialect (dialect.marker :: c :: more ++ behind) =
          some (.literal [dialect.marker, c], more ++ behind) := by
        simp [Token.next?, Token.afterMarker, hhex, hcode]
      rw [Token.scan_of_next? hnext]
      simp

/-- A cursor reads the hex color in one step, and stands behind it then. -/
theorem exists_next_iff (h : dialect.FormOf digits form source)
    (hon : dialect.hexColors = true) (hlength : digits.length = HexForm.digitCount)
    (behind : Text) {color : Rgb} :
    (∃ after : Cursor,
      ({ dialect, text := dialect.marker :: source ++ behind } : Cursor).next =
          .ok (some (.code (.setColor (.hex color))), after) ∧
        after.StandsAt (dialect.marker :: source) behind) ↔
      Rgb.ofDigits? digits = some color := by
  have hstart := Cursor.start_standsAt dialect (dialect.marker :: source ++ behind)
  constructor
  · rintro ⟨after, hnext, -⟩
    rcases hstart.next_eq with ⟨hnil, -⟩ | ⟨front, token, rest, htext, hreads, htoken⟩
    · contradiction
    · rw [hnext] at htoken
      cases htoken
      have hscan := Token.scan_of_reads hreads
      rw [← htext] at hscan
      exact ((h.scan_eq_iff hon hlength behind).mp hscan).1
  · intro hdigits
    have hnext := Cursor.next_of_reads hstart (.hex ⟨hon, h.spells hdigits⟩)
    exact ⟨_, hnext, Cursor.standsAt_moveTo hstart⟩

end Dialect.FormOf

/--
Exactly a `#` with six digits is read as a color, whose channels are the three pairs of
digits; any other text is refused as it stands.  A color is written like the text that
it was read from, in lower case, and reads back.  Behind a marker six digits are a hex
color in either form if they are one behind a `#`, the same one, and what stands behind
is scanned as if it stood alone.
-/
theorem hex_colors_read_alike :
    (∀ text : Text, (∃ color, Rgb.parse text = .ok color) ↔
      ∃ digits, text = '#' :: digits ∧ digits.length = 6 ∧
        ∀ c ∈ digits, Text.isHexDigit c = true) ∧
    (∀ (text : Text) (color : Rgb), Rgb.parse text = .ok color ↔ color.IsWrittenAs text) ∧
    (∀ text : Text, Rgb.parse text = .error (.invalidHexColor text) ↔
      ¬ ∃ color, Rgb.parse text = .ok color) ∧
    (∀ (text : Text) (color : Rgb), Rgb.parse text = .ok color →
      color.text = text.map Char.toLower) ∧
    (∀ color : Rgb, Rgb.parse color.text = .ok color) ∧
    ∀ (converter : Converter) (digits behind : Text),
      converter.settings.hexColors = true → digits.length = 6 →
      ∀ form source, converter.dialect.FormOf digits form source →
        let dialect := converter.dialect
        let text := dialect.marker :: source ++ behind
        (∀ color rest,
          Token.scan dialect text = .code (.setColor (.hex color)) :: rest ↔
            Rgb.parse ('#' :: digits) = .ok color ∧ rest = Token.scan dialect behind) ∧
        ∀ color,
          (∃ after : Cursor,
            ({ dialect, text } : Cursor).next =
                .ok (some (.code (.setColor (.hex color))), after) ∧
              after.StandsAt (dialect.marker :: source) behind) ↔
            Rgb.parse ('#' :: digits) = .ok color := by
  refine ⟨fun _ => Rgb.exists_parse_eq_ok_iff, fun _ _ => Rgb.parse_eq_ok_iff,
    fun _ => Rgb.parse_eq_error_iff, ?_, Rgb.parse_text, ?_⟩
  · intro text color hparse
    exact (Rgb.parse_eq_ok_iff.mp hparse).text_eq
  · intro converter digits behind hon hlength form source hform dialect text
    constructor
    · intro color rest
      rw [hform.scan_eq_iff hon hlength behind, Rgb.parse_eq_ok_iff_ofText?]
      rfl
    · intro color
      rw [hform.exists_next_iff hon hlength behind, Rgb.parse_eq_ok_iff_ofText?]
      rfl

/-- Two digits more stand behind the six, and the marker has two bytes. -/
theorem hex_colors_read_alike_behind_section_sign :
    let converter : Converter := ⟨{ marker := '§', hexColors := true }, by decide⟩
    let orange : Rgb := ⟨0xff, 0x88, 0x00⟩
    Rgb.parse "#fF8800".toList = .ok orange ∧ orange.text = "#ff8800".toList ∧
    Token.scan converter.dialect "§x§f§F§8§8§0§00a".toList =
      [.code (.setColor (.hex orange)), .literal ['0', 'a']] ∧
    Rgb.parse "#ff880é".toList = .error (.invalidHexColor "#ff880é".toList) := by
  intro converter orange
  have hparse : Rgb.parse "#fF8800".toList = .ok orange := by decide
  have hrefused : ¬ ∃ color, Rgb.parse "#ff880é".toList = .ok color := by
    rintro ⟨_, ⟨⟩⟩
  have hbehind : Token.scan converter.dialect ['0', 'a'] = [.literal ['0', 'a']] :=
    Token.scan_of_not_mem (by decide) (by decide)
  obtain ⟨-, -, herror, hlower, -, hmarked⟩ := hex_colors_read_alike
  obtain ⟨hscan, -⟩ := hmarked converter "fF8800".toList ['0', 'a'] rfl rfl .spread _
    (.spread (.inl rfl))
  refine ⟨hparse, hlower _ _ hparse, ?_, (herror _).mpr hrefused⟩
  exact (hscan orange _).mpr ⟨hparse, hbehind.symm⟩

end ChatCodes
