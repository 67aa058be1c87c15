import Mathlib
import ChatCodes.Dialect

/-!
# Characters of codes

What stands in a code behind its marker is a letter, a digit or `#`, and none of these is
accepted as a marker.  Only letters have a case, so a marker has none.
-/

namespace ChatCodes

namespace Text

variable {c d : Char}

theorem isAlphanum_of_hexValue? {value : HexDigit} (h : hexValue? c = some value) :
    c.isAlphanum = true := by
  unfold hexValue? at h
  split at h <;> first | rfl | contradiction

theorem isAlphanum_of_isAlpha_toLower (h : c.toLower.isAlpha = true) :
    c.isAlphanum = true := by
  rw [Char.isAlpha_toLower_eq_isAlpha] at h
  rw [Char.isAlphanum, h, Bool.true_or]

/-- A character that is no letter is not the other case of any character. -/
theorem eq_of_toLower_eq (hd : d.isAlpha = false) (h : c.toLower = d.toLower) : c = d := by
  have hc : c.isAlpha = false := by
    rw [← Char.isAlpha_toLower_eq_isAlpha, h, Char.isAlpha_toLower_eq_isAlpha, hd]
  rw [Char.isAlpha, Bool.or_eq_false_iff] at hc hd
  rwa [Char.toLower_eq_of_not_isUpper (Bool.not_eq_true _ ▸ hc.1),
    Char.toLower_eq_of_not_isUpper (Bool.not_eq_true _ ▸ hd.1)] at h

theorem eq_or_eq_toUpper (h : c.toLower = d) : c = d ∨ c = d.toUpper := by
  by_cases hupper : c.isUpper = true
  · right
    rw [← h, Char.toUpper_toLower_eq_toUpper,
      Char.toUpper_eq_of_not_isLower (Char.not_isLower_of_isUpper hupper)]
  · left
    rw [← h, Char.toLower_eq_of_not_isUpper hupper]

end Text

theorem Decoration.toLower_of_ofChar? {c : Char} {decoration : Decoration}
    (h : ofChar? c = some decoration) : c.toLower = decoration.char := by
  unfold ofChar? at h
  split at h <;> cases h <;> assumption

theorem Decoration.isAlpha_char (decoration : Decoration) :
    decoration.char.isAlpha = true := by
  cases decoration <;> rfl

theorem Code.isAlphanum_of_ofChar? {c : Char} {code : Code} (h : ofChar? c = some code) :
    c.isAlphanum = true := by
  unfold ofChar? at h
  split at h
  · next hcolor =>
      obtain ⟨value, hvalue, -⟩ := Option.map_eq_some_iff.mp hcolor
      exact Text.isAlphanum_of_hexValue? hvalue
  · next hdecoration =>
      apply Text.isAlphanum_of_isAlpha_toLower
      rw [Decoration.toLower_of_ofChar? hdecoration, Decoration.isAlpha_char]
  · split at h
    · next hreset =>
        apply Text.isAlphanum_of_isAlpha_toLower
        rw [hreset]
        rfl
    · contradiction

/-! ## Accepted markers -/

namespace Marker

variable {marker c : Char}

theorem isAlphanum_of_fault? (h : fault? marker = none) : marker.isAlphanum = false :=
  (fault?_eq_none_iff.mp h).2.2.1.1

theorem ne_of_isAlphanum (h : fault? marker = none) (hc : c.isAlphanum = true) :
    c ≠ marker := by
  rintro rfl
  rw [isAlphanum_of_fault? h] at hc
  contradiction

theorem ne_hash (h : fault? marker = none) : '#' ≠ marker :=
  (fault?_eq_none_iff.mp h).2.2.1.2.symm

theorem isAlpha_of_fault? (h : fault? marker = none) : marker.isAlpha = false := by
  have := isAlphanum_of_fault? h
  rw [Char.isAlphanum, Bool.or_eq_false_iff] at this
  exact this.1

end Marker

theorem Dialect.code?_of_fault? {dialect : Dialect} {marker : Char}
    (h : Marker.fault? marker = none) : dialect.code? marker = none := by
  have hnone : Code.ofChar? marker = none := by
    rw [Option.eq_none_iff_forall_ne_some]
    intro code hcode
    exact Marker.ne_of_isAlphanum h (Code.isAlphanum_of_ofChar? hcode) rfl
  rw [code?, hnone]

end ChatCodes
