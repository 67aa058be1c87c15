import ChatCodes.Dialect

/-!
# Hex codes

Behind the marker a hex color is written in one of two forms.  The compact form
is `#` and six digits; the spread form is `x` and the six digits, each behind a
marker of its own.
-/

namespace ChatCodes

inductive HexForm where
  | compact
  | spread
  deriving DecidableEq, Repr

namespace HexForm

def digitCount : Nat := 6

def length : HexForm → Nat
  | .compact => 1 + digitCount
  | .spread => 1 + digitCount * 2

/-- The bytes of the form in UTF-8, the marker in front not counted. -/
def byteLength (marker : Char) : HexForm → Nat
  | .compact => 1 + digitCount
  | .spread => 1 + digitCount * (marker.utf8Size + 1)

/-- The characters that stand each behind a marker. -/
def markedChars? (marker : Char) : Nat → Text → Option Text
  | 0, _ => some []
  | count + 1, first :: c :: rest =>
      if first = marker then
        (markedChars? marker count rest).map (c :: ·)
      else none
  | _ + 1, _ => none

def read? (marker : Char) : Text → Option (HexForm × Rgb)
  | '#' :: rest =>
      (Rgb.ofDigits? (rest.take digitCount)).map (.compact, ·)
  | 'x' :: rest | 'X' :: rest => do
      let digits ← markedChars? marker digitCount rest
      let color ← Rgb.ofDigits? digits
      return (.spread, color)
  | _ => none

end HexForm

def Dialect.hexCode? (dialect : Dialect) (text : Text) : Option (HexForm × Rgb) :=
  if dialect.hexColors then HexForm.read? dialect.marker text else none

end ChatCodes
