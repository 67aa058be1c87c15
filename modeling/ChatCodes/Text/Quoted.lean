import ChatCodes.Text.Blank
import ChatCodes.Text.Hex

/-!
# Quoted characters

A character is shown between single quotes.  The quote, the backslash and four
control characters have a short escape; other control characters, and blanks
other than the space, are written by their number.
-/

namespace ChatCodes.Text

def escapeChar (c : Char) : Text :=
  match c with
  | '\x00' => ['\\', '0']
  | '\t' => ['\\', 't']
  | '\r' => ['\\', 'r']
  | '\n' => ['\\', 'n']
  | '\\' => ['\\', '\\']
  | '\'' => ['\\', '\'']
  | ' ' => [' ']
  | c =>
      if isControl c || isBlank c then
        ['\\', 'u', '{'] ++ hexNumber c.toNat ++ ['}']
      else [c]

def quoted (c : Char) : Text := '\'' :: escapeChar c ++ ['\'']

example : quoted '&' = ['\'', '&', '\''] := by decide

example : quoted '\u00a0' = "'\\u\x7ba0\x7d'".toList := by decide

end ChatCodes.Text
