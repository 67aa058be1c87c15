import ChatCodes.Color.Rgb

/-!
# Named colors

The palette has sixteen colors.  The hexadecimal digits are their code
characters, and `all` lists them in the order of the digits.
-/

namespace ChatCodes

inductive NamedColor where
  | black
  | darkBlue
  | darkGreen
  | darkAqua
  | darkRed
  | darkPurple
  | gold
  | gray
  | darkGray
  | blue
  | green
  | aqua
  | red
  | lightPurple
  | yellow
  | white
  deriving DecidableEq, Repr

namespace NamedColor

open Text

def all : List NamedColor :=
  [.black, .darkBlue, .darkGreen, .darkAqua, .darkRed, .darkPurple, .gold,
    .gray, .darkGray, .blue, .green, .aqua, .red, .lightPurple, .yellow, .white]

def ofDigit (digit : HexDigit) : NamedColor := all.get digit

/-- The code character, in lower case. -/
def char : NamedColor → Char
  | .black => '0'
  | .darkBlue => '1'
  | .darkGreen => '2'
  | .darkAqua => '3'
  | .darkRed => '4'
  | .darkPurple => '5'
  | .gold => '6'
  | .gray => '7'
  | .darkGray => '8'
  | .blue => '9'
  | .green => 'a'
  | .aqua => 'b'
  | .red => 'c'
  | .lightPurple => 'd'
  | .yellow => 'e'
  | .white => 'f'

def ofChar? (c : Char) : Option NamedColor := (hexValue? c).map ofDigit

/-- The color of a text that is the marker and one color code, nothing more. -/
def ofMarked? (marker : Char) : Text → Option NamedColor
  | [first, code] => if first = marker then ofChar? code else none
  | _ => none

def name : NamedColor → Text
  | .black => "black".toList
  | .darkBlue => "dark_blue".toList
  | .darkGreen => "dark_green".toList
  | .darkAqua => "dark_aqua".toList
  | .darkRed => "dark_red".toList
  | .darkPurple => "dark_purple".toList
  | .gold => "gold".toList
  | .gray => "gray".toList
  | .darkGray => "dark_gray".toList
  | .blue => "blue".toList
  | .green => "green".toList
  | .aqua => "aqua".toList
  | .red => "red".toList
  | .lightPurple => "light_purple".toList
  | .yellow => "yellow".toList
  | .white => "white".toList

def ofName? (name : Text) : Option NamedColor :=
  all.find? fun color => color.name = name

def rgb : NamedColor → Rgb
  | .black => ⟨0x00, 0x00, 0x00⟩
  | .darkBlue => ⟨0x00, 0x00, 0xaa⟩
  | .darkGreen => ⟨0x00, 0xaa, 0x00⟩
  | .darkAqua => ⟨0x00, 0xaa, 0xaa⟩
  | .darkRed => ⟨0xaa, 0x00, 0x00⟩
  | .darkPurple => ⟨0xaa, 0x00, 0xaa⟩
  | .gold => ⟨0xff, 0xaa, 0x00⟩
  | .gray => ⟨0xaa, 0xaa, 0xaa⟩
  | .darkGray => ⟨0x55, 0x55, 0x55⟩
  | .blue => ⟨0x55, 0x55, 0xff⟩
  | .green => ⟨0x55, 0xff, 0x55⟩
  | .aqua => ⟨0x55, 0xff, 0xff⟩
  | .red => ⟨0xff, 0x55, 0x55⟩
  | .lightPurple => ⟨0xff, 0x55, 0xff⟩
  | .yellow => ⟨0xff, 0xff, 0x55⟩
  | .white => ⟨0xff, 0xff, 0xff⟩

theorem mem_all (color : NamedColor) : color ∈ all := by
  cases color <;> decide

@[simp] theorem ofChar?_char (color : NamedColor) :
    ofChar? color.char = some color := by
  cases color <;> rfl

@[simp] theorem ofChar?_toLower (c : Char) : ofChar? c.toLower = ofChar? c := by
  simp [ofChar?]

@[simp] theorem ofName?_name (color : NamedColor) :
    ofName? color.name = some color := by
  cases color <;> decide

end NamedColor

end ChatCodes
