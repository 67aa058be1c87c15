import ChatCodes.Style

/-!
# Tags

A tag names a color or a decoration.  It is opened by `<name>` and closed by
`</name>`, and it is active in the styles that have its color or decoration.
-/

namespace ChatCodes.Markup

inductive Tag where
  | color (value : Color)
  | decoration (value : Decoration)
  deriving DecidableEq, Repr

namespace Tag

def name : Tag → Text
  | .color value => value.name
  | .decoration value => value.name

def opening (tag : Tag) : Text := '<' :: tag.name ++ ['>']

def closing (tag : Tag) : Text := '<' :: '/' :: tag.name ++ ['>']

def isActiveIn (style : Style) : Tag → Bool
  | .color value => style.color = some value
  | .decoration value => style.decorations.contains value

/-- The tags of a style: the color first, then the decorations in code order. -/
def ofStyle (style : Style) : List Tag :=
  style.color.toList.map .color ++
    style.decorations.toList.map .decoration

theorem mem_ofStyle {style : Style} {tag : Tag} :
    tag ∈ ofStyle style ↔ tag.isActiveIn style = true := by
  cases tag <;> simp [ofStyle, isActiveIn]

end Tag

end ChatCodes.Markup
