import ChatCodes.Markup.Tag
import ChatCodes.Span

/-!
# Reading markup

A reader goes over a markup text from left to right.  A backslash in front of `<`
or of a backslash stands for that character.  `<name>` opens a tag and `</name>`
closes one, where the name ends at the first `>`; every other character is text.
A closing tag has to match the tag opened last, every name has to be known, and no
tag may stay open.
-/

namespace ChatCodes.Markup

inductive Lexeme where
  | char (c : Char)
  | start (name : Text)
  | close (name : Text)
  deriving DecidableEq, Repr

namespace Lexeme

def ofTag : Text → Lexeme
  | '/' :: name => .close name
  | name => .start name

def next? : Text → Option (Lexeme × Text)
  | [] => none
  | '\\' :: '<' :: rest => some (.char '<', rest)
  | '\\' :: '\\' :: rest => some (.char '\\', rest)
  | '<' :: rest =>
      if '>' ∈ rest then
        some (ofTag (rest.takeWhile (· != '>')), (rest.dropWhile (· != '>')).tail)
      else some (.char '<', rest)
  | c :: rest => some (.char c, rest)

theorem length_lt_of_next? {markup rest : Text} {lexeme : Lexeme}
    (h : next? markup = some (lexeme, rest)) : rest.length < markup.length := by
  unfold next? at h
  split at h
  · contradiction
  · cases h
    simp only [List.length_cons]
    omega
  · cases h
    simp only [List.length_cons]
    omega
  · next more =>
      have := (List.dropWhile_suffix (l := more) (· != '>')).length_le
      split at h
      · cases h
        simp only [List.length_cons, List.length_tail]
        omega
      · cases h
        simp
  · cases h
    simp

end Lexeme

def lexemes (markup : Text) : List Lexeme :=
  match _h : Lexeme.next? markup with
  | none => []
  | some (lexeme, rest) => lexeme :: lexemes rest
termination_by markup.length
decreasing_by exact Lexeme.length_lt_of_next? _h

@[simp] theorem lexemes_nil : lexemes [] = [] := by
  rw [lexemes]
  split <;> simp_all [Lexeme.next?]

theorem lexemes_of_next? {markup rest : Text} {lexeme : Lexeme}
    (h : Lexeme.next? markup = some (lexeme, rest)) :
    lexemes markup = lexeme :: lexemes rest := by
  rw [lexemes]
  split <;> simp_all

namespace Tag

def ofName? (name : Text) : Option Tag :=
  match Color.ofName? name with
  | some value => some (.color value)
  | none => (Decoration.ofName? name).map .decoration

def color? : Tag → Option Color
  | .color value => some value
  | .decoration _ => none

def decoration? : Tag → Option Decoration
  | .color _ => none
  | .decoration value => some value

end Tag

/-- The innermost color and all decorations of open tags, innermost first. -/
def styleOf (stack : List Tag) : Style :=
  { color := stack.findSome? Tag.color?
    decorations := .ofList (stack.filterMap Tag.decoration?) }

/-- The characters read with these tags open, innermost first. -/
def readLexemes : List Tag → List Lexeme → Option (List Span)
  | [], [] => some []
  | _ :: _, [] => none
  | stack, .char c :: rest =>
      (readLexemes stack rest).map (⟨[c], styleOf stack⟩ :: ·)
  | stack, .start name :: rest => do
      let tag ← Tag.ofName? name
      readLexemes (tag :: stack) rest
  | [], .close _ :: _ => none
  | tag :: stack, .close name :: rest =>
      if tag.name = name then readLexemes stack rest else none

/-- The text of a markup text with its styles, in as few spans as possible. -/
def read? (markup : Text) : Option (List Span) :=
  (readLexemes [] (lexemes markup)).map Span.merge

end ChatCodes.Markup
