import ChatCodes.Color.Basic
import ChatCodes.Decoration.Basic

/-!
# Codes

A code sets the color, turns a decoration on, or resets the style.  Apart from
hex colors each code has one character, which is read in either case.
-/

namespace ChatCodes

inductive Code where
  | setColor (color : Color)
  | decorate (decoration : Decoration)
  | reset
  deriving DecidableEq, Repr

namespace Code

def ofChar? (c : Char) : Option Code :=
  match NamedColor.ofChar? c, Decoration.ofChar? c with
  | some color, _ => some (.setColor (.named color))
  | none, some decoration => some (.decorate decoration)
  | none, none => if c.toLower = 'r' then some .reset else none

/-- The code character, in lower case.  Hex colors have none. -/
def char? : Code → Option Char
  | .setColor (.named color) => some color.char
  | .setColor (.hex _) => none
  | .decorate decoration => some decoration.char
  | .reset => some 'r'

def name : Code → Text
  | .setColor color => color.name
  | .decorate decoration => decoration.name
  | .reset => "reset".toList

def ofName? (name : Text) : Option Code :=
  if name = "reset".toList then some .reset
  else
    match Decoration.ofName? name with
    | some decoration => some (.decorate decoration)
    | none => (Color.ofName? name).map .setColor

theorem ofChar?_of_char? {code : Code} {c : Char} (h : code.char? = some c) :
    ofChar? c = some code := by
  cases code with
  | setColor color =>
      cases color with
      | named color => cases h; cases color <;> decide
      | hex color => cases h
  | decorate decoration => cases h; cases decoration <;> decide
  | reset => cases h; decide

@[simp] theorem ofChar?_toLower (c : Char) : ofChar? c.toLower = ofChar? c := by
  have hlower : c.toLower.toLower = c.toLower := by
    delta Char.toLower
    split
    · next hupper =>
        rw [dif_neg]
        intro hagain
        have := hagain.2
        have := hupper.1
        grind
    · rfl
  simp [ofChar?, Decoration.ofChar?, hlower]

end Code

end ChatCodes
