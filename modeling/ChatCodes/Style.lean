import ChatCodes.Code
import ChatCodes.Decoration.Set

/-!
# Styles

The style of a text is its color, if it has one, and its decorations.  Codes
change it one after another.
-/

namespace ChatCodes

structure Style where
  color : Option Color := none
  decorations : Decorations := .empty
  deriving DecidableEq, Repr

namespace Style

def plain : Style := {}

def isPlain (style : Style) : Bool :=
  style.color.isNone && style.decorations.isEmpty

/--
The style after a code.  With `colorEndsDecorations` a color also turns every
decoration off.
-/
def apply (colorEndsDecorations : Bool) (style : Style) : Code → Style
  | .setColor color =>
      { color := some color
        decorations :=
          if colorEndsDecorations then .empty else style.decorations }
  | .decorate decoration =>
      { style with decorations := style.decorations.insert decoration }
  | .reset => plain

theorem isPlain_iff {style : Style} : style.isPlain = true ↔ style = plain := by
  obtain ⟨color, decorations⟩ := style
  simp [isPlain, plain, Decorations.isEmpty]

end Style

end ChatCodes
