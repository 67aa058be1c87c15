import ChatCodes.Error
import ChatCodes.Text.Hex

/-!
# Colors of 24 bits

A color is written `#rrggbb`, in lower case, and read from exactly that form in
either case.  Main statement: a written color reads back.
-/

namespace ChatCodes

structure Rgb where
  red : UInt8
  green : UInt8
  blue : UInt8
  deriving DecidableEq, Repr

namespace Rgb

open Text

def ofDigits? : Text → Option Rgb
  | [r₁, r₀, g₁, g₀, b₁, b₀] => do
      let red := byteOfDigits (← hexValue? r₁) (← hexValue? r₀)
      let green := byteOfDigits (← hexValue? g₁) (← hexValue? g₀)
      let blue := byteOfDigits (← hexValue? b₁) (← hexValue? b₀)
      return ⟨red, green, blue⟩
  | _ => none

def digits (color : Rgb) : Text :=
  hexByte color.red ++ hexByte color.green ++ hexByte color.blue

def text (color : Rgb) : Text := '#' :: color.digits

def ofText? : Text → Option Rgb
  | '#' :: digits => ofDigits? digits
  | _ => none

/-- Reads `#rrggbb`; any other text is part of the error as it stands. -/
def parse (text : Text) : Except Error Rgb :=
  match ofText? text with
  | some color => .ok color
  | none => .error (.invalidHexColor text)

theorem ofDigits?_digits (color : Rgb) : ofDigits? color.digits = some color := by
  simp [digits, hexByte, ofDigits?, hexValue?_hexDigit]

theorem parse_text (color : Rgb) : parse color.text = .ok color := by
  simp [parse, text, ofText?, ofDigits?_digits]

end Rgb

end ChatCodes
