import ChatCodes.Text.Basic

/-!
# Decorations

Five decorations can be on or off independently of each other and of the color.
`all` lists them in the order of their code characters, `k` to `o`.
-/

namespace ChatCodes

inductive Decoration where
  | obfuscated
  | bold
  | strikethrough
  | underlined
  | italic
  deriving DecidableEq, Repr

namespace Decoration

def all : List Decoration :=
  [.obfuscated, .bold, .strikethrough, .underlined, .italic]

/-- The code character, in lower case. -/
def char : Decoration → Char
  | .obfuscated => 'k'
  | .bold => 'l'
  | .strikethrough => 'm'
  | .underlined => 'n'
  | .italic => 'o'

def ofChar? (c : Char) : Option Decoration :=
  match c.toLower with
  | 'k' => some .obfuscated
  | 'l' => some .bold
  | 'm' => some .strikethrough
  | 'n' => some .underlined
  | 'o' => some .italic
  | _ => none

def name : Decoration → Text
  | .obfuscated => "obfuscated".toList
  | .bold => "bold".toList
  | .strikethrough => "strikethrough".toList
  | .underlined => "underlined".toList
  | .italic => "italic".toList

def ofName? (name : Text) : Option Decoration :=
  all.find? fun decoration => decoration.name = name

theorem mem_all (decoration : Decoration) : decoration ∈ all := by
  cases decoration <;> decide

theorem all_nodup : all.Nodup := by decide

@[simp] theorem ofChar?_char (decoration : Decoration) :
    ofChar? decoration.char = some decoration := by
  cases decoration <;> decide

@[simp] theorem ofName?_name (decoration : Decoration) :
    ofName? decoration.name = some decoration := by
  cases decoration <;> decide

end Decoration

end ChatCodes
