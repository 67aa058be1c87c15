import ChatCodes.Text.Blank

/-!
# Markers

A marker is the character that introduces a code.  Any character can be scanned
for, but some cannot be told apart from what surrounds them: `fault?` says why a
character is refused as a marker, naming the first reason that applies.
-/

namespace ChatCodes.Marker

def ampersand : Char := '&'

def sectionSign : Char := '§'

inductive Fault where
  | blank
  | control
  | codeCharacter
  | markup
  deriving DecidableEq, Repr

def Fault.reason : Fault → String
  | .blank => "whitespace cannot be used as a marker"
  | .control => "control characters cannot be used as a marker"
  | .codeCharacter => "collides with a code character"
  | .markup => "collides with MiniMessage syntax"

def fault? (marker : Char) : Option Fault :=
  if Text.isBlank marker then some .blank
  else if Text.isControl marker then some .control
  else if marker.isAlphanum || marker = '#' then some .codeCharacter
  else if marker = '<' ∨ marker = '>' ∨ marker = '\\' then some .markup
  else none

theorem fault?_eq_none_iff {marker : Char} :
    fault? marker = none ↔
      Text.isBlank marker = false ∧ Text.isControl marker = false ∧
        (marker.isAlphanum = false ∧ marker ≠ '#') ∧
        marker ≠ '<' ∧ marker ≠ '>' ∧ marker ≠ '\\' := by
  grind [fault?]

theorem fault?_ampersand : fault? ampersand = none := by decide

theorem fault?_sectionSign : fault? sectionSign = none := by decide

end ChatCodes.Marker
