import ChatCodes.Text.Basic

/-!
# Hexadecimal digits

The digits are the ASCII ones, read in either case and written in lower case.
No other character of Unicode is a digit here.
-/

namespace ChatCodes.Text

abbrev HexDigit := Fin 16

def hexValue? : Char → Option HexDigit
  | '0' => some 0
  | '1' => some 1
  | '2' => some 2
  | '3' => some 3
  | '4' => some 4
  | '5' => some 5
  | '6' => some 6
  | '7' => some 7
  | '8' => some 8
  | '9' => some 9
  | 'a' | 'A' => some 10
  | 'b' | 'B' => some 11
  | 'c' | 'C' => some 12
  | 'd' | 'D' => some 13
  | 'e' | 'E' => some 14
  | 'f' | 'F' => some 15
  | _ => none

def hexDigit (value : HexDigit) : Char :=
  ['0', '1', '2', '3', '4', '5', '6', '7',
    '8', '9', 'a', 'b', 'c', 'd', 'e', 'f'].get value

def isHexDigit (c : Char) : Bool := (hexValue? c).isSome

theorem hexValue?_hexDigit (value : HexDigit) :
    hexValue? (hexDigit value) = some value := by
  revert value
  decide

/-- A digit in lower case is the digit that its value is written with. -/
theorem toLower_of_hexValue? {c : Char} {value : HexDigit}
    (h : hexValue? c = some value) : c.toLower = hexDigit value := by
  unfold hexValue? at h
  split at h <;> cases h <;> decide

@[simp] theorem hexValue?_toLower (c : Char) :
    hexValue? c.toLower = hexValue? c := by
  cases h : hexValue? c with
  | some value => rw [toLower_of_hexValue? h, hexValue?_hexDigit]
  | none =>
      by_cases hupper : c.val ≥ 'A'.val ∧ c.val ≤ 'Z'.val
      · have hlarge : ∀ n : Nat, n < 26 →
            hexValue? (Char.ofNat (65 + n)) = none →
            hexValue? (Char.ofNat (65 + n)).toLower = none := by
          decide
        have hlow : 65 ≤ c.toNat := hupper.1
        have hhigh : c.toNat ≤ 90 := hupper.2
        have hc : Char.ofNat (65 + (c.toNat - 65)) = c := by
          rw [show 65 + (c.toNat - 65) = c.toNat by omega, Char.ofNat_toNat]
        have := hlarge (c.toNat - 65) (by omega)
        rw [hc] at this
        exact this h
      · have hsame : c.toLower = c := dif_neg hupper
        rw [hsame, h]

def highDigit (byte : UInt8) : HexDigit :=
  ⟨byte.toNat / 16, by have := byte.toNat_lt; omega⟩

def lowDigit (byte : UInt8) : HexDigit :=
  ⟨byte.toNat % 16, by omega⟩

def hexByte (byte : UInt8) : Text :=
  [hexDigit (highDigit byte), hexDigit (lowDigit byte)]

def byteOfDigits (high low : HexDigit) : UInt8 :=
  UInt8.ofNat (16 * high.val + low.val)

theorem toNat_byteOfDigits (high low : HexDigit) :
    (byteOfDigits high low).toNat = 16 * high.val + low.val := by
  simp [byteOfDigits]
  omega

@[simp] theorem byteOfDigits_highDigit_lowDigit (byte : UInt8) :
    byteOfDigits (highDigit byte) (lowDigit byte) = byte := by
  apply UInt8.toNat_inj.mp
  rw [toNat_byteOfDigits]
  simp only [highDigit, lowDigit]
  omega

/-- A number in lower-case digits, without leading zeros. -/
def hexNumber (n : Nat) : Text := Nat.toDigits 16 n

end ChatCodes.Text
