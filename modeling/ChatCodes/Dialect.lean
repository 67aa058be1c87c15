import ChatCodes.Code
import ChatCodes.Marker

/-!
# Dialects

A dialect says what counts as a code in a text, and what a color code does to
the decorations.
-/

namespace ChatCodes

structure Dialect where
  marker : Char := Marker.ampersand
  hexColors : Bool := false
  obfuscation : Bool := true
  colorEndsDecorations : Bool := false
  deriving DecidableEq, Repr

namespace Dialect

/-- The code of a character, unless the dialect lacks it. -/
def code? (dialect : Dialect) (c : Char) : Option Code :=
  match Code.ofChar? c with
  | some (.decorate .obfuscated) =>
      if dialect.obfuscation then some (.decorate .obfuscated) else none
  | code? => code?

end Dialect

end ChatCodes
