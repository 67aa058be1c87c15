import ChatCodes.Color.Named

/-!
# Text colors

The color of a text is one of the palette or one given by its channels.  The two
kinds stay apart: a hex color differs from a named color of the same channels.
-/

namespace ChatCodes

inductive Color where
  | named (color : NamedColor)
  | hex (color : Rgb)
  deriving DecidableEq, Repr

namespace Color

def rgb : Color → Rgb
  | .named color => color.rgb
  | .hex color => color

def name : Color → Text
  | .named color => color.name
  | .hex color => color.text

def ofName? (name : Text) : Option Color :=
  match NamedColor.ofName? name with
  | some color => some (.named color)
  | none => (Rgb.ofText? name).map .hex

theorem named_ofName?_hex_name (color : Rgb) :
    NamedColor.ofName? color.text = none := by
  have hhead : ∀ named ∈ NamedColor.all, named.name.head? ≠ some '#' := by decide
  rw [NamedColor.ofName?, List.find?_eq_none]
  intro named hnamed hname
  apply hhead named hnamed
  rw [of_decide_eq_true hname]
  rfl

@[simp] theorem ofName?_name (color : Color) : ofName? color.name = some color := by
  cases color with
  | named color => simp [ofName?, name]
  | hex color =>
      unfold ofName? name
      rw [named_ofName?_hex_name]
      simp [Rgb.text, Rgb.ofText?, Rgb.ofDigits?_digits]

end Color

end ChatCodes
