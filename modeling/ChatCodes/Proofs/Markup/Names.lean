import ChatCodes.Markup.Tag

/-!
# The characters of tags

The names of tags are made of letters and digits, `#` and `_`, so that nothing in a
name ends a tag, closes it or escapes it.
-/

namespace ChatCodes

namespace Text

def IsNameChar (c : Char) : Prop := c.isAlphanum = true ∨ c = '#' ∨ c = '_'

instance (c : Char) : Decidable (IsNameChar c) :=
  inferInstanceAs (Decidable (_ ∨ _ ∨ _))

theorem isNameChar_hexDigit (value : HexDigit) : IsNameChar (hexDigit value) := by
  revert value
  decide

theorem isNameChar_of_mem_hexByte {byte : UInt8} {c : Char}
    (h : c ∈ hexByte byte) : IsNameChar c := by
  simp only [hexByte, List.mem_cons, List.not_mem_nil, or_false] at h
  rcases h with rfl | rfl <;> exact isNameChar_hexDigit _

end Text

open Text (IsNameChar)

theorem Rgb.isNameChar_of_mem_text {color : Rgb} {c : Char}
    (h : c ∈ color.text) : IsNameChar c := by
  rcases List.mem_cons.mp h with rfl | h
  · decide
  · simp only [digits, List.mem_append] at h
    rcases h with (h | h) | h <;> exact Text.isNameChar_of_mem_hexByte h

theorem NamedColor.isNameChar_of_mem_name {color : NamedColor} :
    ∀ c ∈ color.name, IsNameChar c := by
  have hall : color.name.all (IsNameChar ·) = true := by
    cases color <;> decide
  simpa using hall

theorem Decoration.isNameChar_of_mem_name {decoration : Decoration} :
    ∀ c ∈ decoration.name, IsNameChar c := by
  have hall : decoration.name.all (IsNameChar ·) = true := by
    cases decoration <;> decide
  simpa using hall

namespace Markup.Tag

theorem isNameChar_of_mem_name {tag : Tag} {c : Char} (h : c ∈ tag.name) :
    IsNameChar c := by
  cases tag with
  | color value =>
      cases value with
      | named color => exact NamedColor.isNameChar_of_mem_name c h
      | hex color => exact Rgb.isNameChar_of_mem_text h
  | decoration value => exact Decoration.isNameChar_of_mem_name c h

theorem not_mem_name {tag : Tag} {c : Char} (h : ¬ IsNameChar c) : c ∉ tag.name :=
  fun hmem => h (isNameChar_of_mem_name hmem)

theorem not_mem_opening {tag : Tag} {c : Char} (hname : ¬ IsNameChar c) (hless : c ≠ '<')
    (hgreater : c ≠ '>') : c ∉ tag.opening := by
  simp [opening, not_mem_name hname, hless, hgreater]

theorem not_mem_closing {tag : Tag} {c : Char} (hname : ¬ IsNameChar c) (hless : c ≠ '<')
    (hslash : c ≠ '/') (hgreater : c ≠ '>') : c ∉ tag.closing := by
  simp [closing, not_mem_name hname, hless, hslash, hgreater]

end Markup.Tag

end ChatCodes
