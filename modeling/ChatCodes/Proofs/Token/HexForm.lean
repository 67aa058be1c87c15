import ChatCodes.Token.HexCode

/-!
# Spelled hex colors

Six digits spell a color, and behind a marker a color has two spellings.  Reading
behind a marker finds a color exactly where the text begins with a spelling of it.
-/

namespace ChatCodes

open Text (HexDigit hexValue? byteOfDigits toNat_byteOfDigits)

namespace Text

theorem utf8Size_of_isHexDigit {c : Char} (h : isHexDigit c = true) :
    c.utf8Size = 1 := by
  obtain ⟨value, hvalue⟩ := Option.isSome_iff_exists.mp h
  unfold hexValue? at hvalue
  split at hvalue <;> first | rfl | contradiction

theorem byteLength_eq_length {text : Text} (h : ∀ c ∈ text, c.utf8Size = 1) :
    byteLength text = text.length := by
  induction text with
  | nil => rfl
  | cons c text ih =>
      obtain ⟨hc, htext⟩ := List.forall_mem_cons.mp h
      rw [byteLength_cons, ih htext, hc, List.length_cons, Nat.add_comm]

end Text

namespace Rgb

/-- The channels as one number, red counting most. -/
def number (color : Rgb) : Nat :=
  65536 * color.red.toNat + 256 * color.green.toNat + color.blue.toNat

/-- The characters are six hexadecimal digits, and their number is the color. -/
def IsSpelledBy (color : Rgb) (digits : Text) : Prop :=
  ∃ values : List HexDigit, digits.map hexValue? = values.map some ∧
    values.length = 6 ∧
    values.foldl (fun number value => 16 * number + value.val) 0 = color.number

namespace IsSpelledBy

variable {color : Rgb} {digits : Text}

theorem length_eq (h : color.IsSpelledBy digits) :
    digits.length = HexForm.digitCount := by
  obtain ⟨values, hvalues, hlength, -⟩ := h
  have := congrArg List.length hvalues
  rwa [List.length_map, List.length_map, hlength] at this

theorem isHexDigit (h : color.IsSpelledBy digits) :
    ∀ c ∈ digits, Text.isHexDigit c = true := by
  obtain ⟨values, hvalues, -⟩ := h
  intro c hc
  have hmem : hexValue? c ∈ values.map some := hvalues ▸ List.mem_map_of_mem hc
  obtain ⟨value, -, hvalue⟩ := List.mem_map.mp hmem
  rw [Text.isHexDigit, ← hvalue, Option.isSome_some]

theorem not_mem {c : Char} (h : color.IsSpelledBy digits)
    (hc : Text.isHexDigit c = false) : c ∉ digits := by
  intro hmem
  rw [h.isHexDigit c hmem] at hc
  contradiction

end IsSpelledBy

theorem byteOfDigits_eq {high low : HexDigit} {byte : UInt8}
    (h : 16 * high.val + low.val = byte.toNat) : byteOfDigits high low = byte := by
  apply UInt8.toNat_inj.mp
  rw [toNat_byteOfDigits, h]

theorem ofDigits?_eq_some_iff {digits : Text} {color : Rgb} :
    ofDigits? digits = some color ↔ color.IsSpelledBy digits := by
  constructor
  · intro h
    unfold ofDigits? at h
    split at h
    · simp only [Option.bind_eq_bind, Option.bind_eq_some_iff, Option.pure_def,
        Option.some.injEq] at h
      obtain ⟨vr₁, hr₁, vr₀, hr₀, vg₁, hg₁, vg₀, hg₀, vb₁, hb₁, vb₀, hb₀, rfl⟩ := h
      refine ⟨[vr₁, vr₀, vg₁, vg₀, vb₁, vb₀], ?_, rfl, ?_⟩
      · simp [hr₁, hr₀, hg₁, hg₀, hb₁, hb₀]
      · simp only [List.foldl_cons, List.foldl_nil, number, toNat_byteOfDigits]
        omega
    · contradiction
  · intro h
    have hcount : digits.length = 6 := h.length_eq
    obtain ⟨values, hvalues, hlength, hnumber⟩ := h
    match digits, values, hcount, hlength with
    | [r₁, r₀, g₁, g₀, b₁, b₀], [vr₁, vr₀, vg₁, vg₀, vb₁, vb₀], _, _ =>
        simp only [List.map_cons, List.map_nil, List.cons.injEq, and_true] at hvalues
        obtain ⟨hr₁, hr₀, hg₁, hg₀, hb₁, hb₀⟩ := hvalues
        simp only [List.foldl_cons, List.foldl_nil, number] at hnumber
        have := color.red.toNat_lt
        have := color.green.toNat_lt
        have := color.blue.toNat_lt
        have hred : byteOfDigits vr₁ vr₀ = color.red := byteOfDigits_eq (by omega)
        have hgreen : byteOfDigits vg₁ vg₀ = color.green := byteOfDigits_eq (by omega)
        have hblue : byteOfDigits vb₁ vb₀ = color.blue := byteOfDigits_eq (by omega)
        simp [ofDigits?, hr₁, hr₀, hg₁, hg₀, hb₁, hb₀, hred, hgreen, hblue]

end Rgb

namespace HexForm

open Text (byteLength_cons)

/-- The characters, each behind a marker. -/
def marked (marker : Char) (text : Text) : Text :=
  text.flatMap fun c => [marker, c]

@[simp] theorem marked_cons (marker c : Char) (text : Text) :
    marked marker (c :: text) = marker :: c :: marked marker text := rfl

theorem length_marked (marker : Char) (text : Text) :
    (marked marker text).length = text.length * 2 := by
  induction text with
  | nil => rfl
  | cons c text ih =>
      simp only [marked_cons, List.length_cons]
      omega

theorem byteLength_marked {marker : Char} {text : Text}
    (h : ∀ c ∈ text, c.utf8Size = 1) :
    Text.byteLength (marked marker text) = text.length * (marker.utf8Size + 1) := by
  induction text with
  | nil => simp [marked]
  | cons c text ih =>
      obtain ⟨hc, htext⟩ := List.forall_mem_cons.mp h
      rw [marked_cons, byteLength_cons, byteLength_cons, ih htext, hc,
        List.length_cons, Nat.succ_mul]
      omega

/-- The spellings of a color behind a marker. -/
inductive Spells (marker : Char) : HexForm → Text → Rgb → Prop
  | compact {digits color} (h : color.IsSpelledBy digits) :
      Spells marker .compact ('#' :: digits) color
  | spread {x digits color} (hx : x = 'x' ∨ x = 'X') (h : color.IsSpelledBy digits) :
      Spells marker .spread (x :: marked marker digits) color

variable {marker : Char} {form : HexForm} {source text : Text} {color : Rgb}

theorem Spells.exists_cons (h : form.Spells marker source color) :
    ∃ c more, source = c :: more := by
  cases h with
  | compact => exact ⟨_, _, rfl⟩
  | spread => exact ⟨_, _, rfl⟩

theorem Spells.length_eq (h : form.Spells marker source color) :
    source.length = form.length := by
  cases h with
  | compact h => rw [List.length_cons, h.length_eq, Nat.add_comm, length]
  | spread _ h =>
      rw [List.length_cons, length_marked, h.length_eq, Nat.add_comm, length]

theorem Spells.byteLength_eq (h : form.Spells marker source color) :
    Text.byteLength source = form.byteLength marker := by
  cases h with
  | compact h =>
      have hsize := Text.byteLength_eq_length fun c hc =>
        Text.utf8Size_of_isHexDigit (h.isHexDigit c hc)
      rw [byteLength_cons, hsize, h.length_eq]
      rfl
  | spread hx h =>
      have hsize := @byteLength_marked marker _ fun c hc =>
        Text.utf8Size_of_isHexDigit (h.isHexDigit c hc)
      rw [byteLength_cons, hsize, h.length_eq]
      rcases hx with rfl | rfl <;> rfl

theorem markedChars?_eq_some_iff {count : Nat} {chars : Text} :
    markedChars? marker count text = some chars ↔
      chars.length = count ∧ marked marker chars <+: text := by
  constructor
  · intro h
    fun_induction markedChars? marker count text generalizing chars with
    | case1 =>
        cases h
        exact ⟨rfl, List.nil_prefix⟩
    | case2 count c rest ih =>
        obtain ⟨later, hlater, rfl⟩ := Option.map_eq_some_iff.mp h
        obtain ⟨hlength, behind, hbehind⟩ := ih hlater
        exact ⟨congrArg Nat.succ hlength, behind, by simp [hbehind]⟩
    | case3 => contradiction
    | case4 => contradiction
  · rintro ⟨rfl, behind, rfl⟩
    induction chars with
    | nil => rfl
    | cons c chars ih =>
        rw [marked_cons, List.cons_append, List.cons_append, List.length_cons,
          markedChars?, if_pos rfl, ih]
        rfl

theorem read?_of_spells (h : form.Spells marker source color) (behind : Text) :
    read? marker (source ++ behind) = some (form, color) := by
  cases h with
  | compact h =>
      rw [List.cons_append, read?, ← h.length_eq, List.take_left,
        Rgb.ofDigits?_eq_some_iff.mpr h]
      rfl
  | @spread _ digits _ hx h =>
      have hmarked : markedChars? marker digitCount (marked marker digits ++ behind) =
          some digits :=
        markedChars?_eq_some_iff.mpr ⟨h.length_eq, List.prefix_append _ _⟩
      have hcolor := Rgb.ofDigits?_eq_some_iff.mpr h
      rcases hx with rfl | rfl
      · rw [List.cons_append, read?, hmarked]
        simp [hcolor]
      · rw [List.cons_append, read?, hmarked]
        simp [hcolor]

theorem spells_spread_of_read {x : Char} {rest : Text} (hx : x = 'x' ∨ x = 'X')
    (h : (do
      let digits ← markedChars? marker digitCount rest
      let color ← Rgb.ofDigits? digits
      return (HexForm.spread, color)) = some (form, color)) :
    ∃ source, form.Spells marker source color ∧ source <+: x :: rest := by
  simp only [Option.bind_eq_bind, Option.bind_eq_some_iff, Option.pure_def,
    Option.some.injEq, Prod.mk.injEq] at h
  obtain ⟨digits, hmarked, _, hcolor, rfl, rfl⟩ := h
  obtain ⟨-, hprefix⟩ := markedChars?_eq_some_iff.mp hmarked
  have hspelled := Rgb.ofDigits?_eq_some_iff.mp hcolor
  exact ⟨x :: marked marker digits, .spread hx hspelled,
    List.cons_prefix_cons.mpr ⟨rfl, hprefix⟩⟩

theorem spells_of_read? (h : read? marker text = some (form, color)) :
    ∃ source, form.Spells marker source color ∧ source <+: text := by
  unfold read? at h
  split at h
  · next rest =>
      obtain ⟨_, hcolor, hsame⟩ := Option.map_eq_some_iff.mp h
      cases hsame
      refine ⟨_, .compact (Rgb.ofDigits?_eq_some_iff.mp hcolor), ?_⟩
      exact List.cons_prefix_cons.mpr ⟨rfl, List.take_prefix _ _⟩
  · exact spells_spread_of_read (.inl rfl) h
  · exact spells_spread_of_read (.inr rfl) h
  · contradiction

theorem read?_eq_some_iff :
    read? marker text = some (form, color) ↔
      ∃ source, form.Spells marker source color ∧ source <+: text := by
  constructor
  · exact spells_of_read?
  · rintro ⟨source, hspells, behind, rfl⟩
    exact read?_of_spells hspells behind

end HexForm

end ChatCodes
