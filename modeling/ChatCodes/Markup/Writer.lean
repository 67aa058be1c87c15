import ChatCodes.Markup.Sink
import ChatCodes.Markup.Tag
import ChatCodes.Span

/-!
# Writing markup

The writer keeps the open tags on a stack.  In front of a text it closes the tags
above the longest part of the stack that the new style keeps, and opens the tags
that are missing.  Nothing is written for an empty text, so a style that no text
uses leaves no trace.

With escaping, `<` and the backslash are written behind a backslash.  Without,
texts are copied, and a backslash is added in front of a tag where an odd run of
them would otherwise escape it.

Tags and escaped texts are written part by part.  Every step gives the writer
after it, which the error carries if the sink was full; a caller may go on from
there.
-/

namespace ChatCodes.Markup

inductive Move where
  | start (tag : Tag)
  | close (tag : Tag)
  deriving DecidableEq, Repr

namespace Move

/-- What leads from the open tags, outermost first, to those of a style. -/
def toStyle (stack : List Tag) (style : Style) : List Move :=
  let kept := stack.takeWhile (·.isActiveIn style)
  let dropped := stack.dropWhile (·.isActiveIn style)
  dropped.reverse.map .close ++
    ((Tag.ofStyle style).filter (· ∉ kept)).map .start

end Move

/-- The backslashes that end a text, when `before` of them stand in front of it. -/
def trailingBackslashes (before : Nat) (text : Text) : Nat :=
  let run := (text.reverse.takeWhile (· = '\\')).length
  if run = text.length then before + run else run

/--
`stack` lists the open tags, outermost first.  `current` is the style of the last
text, and `backslashes` counts those that end the text since the last tag; it
stays at zero with escaping.
-/
structure Writer where
  sink : Sink
  escaping : Bool
  stack : List Tag := []
  current : Style := .plain
  backslashes : Nat := 0
  deriving DecidableEq, Repr

namespace Writer

abbrev Step := Except Writer Writer

def put (writer : Writer) (text : Text) : Step :=
  match writer.sink.write text with
  | .ok sink => .ok { writer with sink }
  | .error sink => .error { writer with sink }

/-- Makes the backslashes in front of a tag even in number. -/
def guardTag (writer : Writer) : Step := do
  let writer ← if writer.backslashes % 2 = 1 then writer.put ['\\'] else .ok writer
  return { writer with backslashes := 0 }

/-- Writes a tag in three parts; `bracket` tells an opening one from a closing one. -/
def putTag (writer : Writer) (bracket : Text) (tag : Tag) : Step := do
  let writer ← writer.put bracket
  let writer ← writer.put tag.name
  writer.put ['>']

/--
A tag that is closed leaves the stack before it is written, and one that is
opened enters the stack after it is written.
-/
def perform (writer : Writer) : Move → Step
  | .start tag => do
      let writer ← writer.guardTag
      let writer ← writer.putTag ['<'] tag
      return { writer with stack := writer.stack ++ [tag] }
  | .close tag => do
      let writer ← { writer with stack := writer.stack.dropLast }.guardTag
      writer.putTag ['<', '/'] tag

def setStyle (writer : Writer) (style : Style) : Step :=
  if writer.current = style then .ok writer
  else do
    let writer ← (Move.toStyle writer.stack style).foldlM perform writer
    return { writer with current := style }

/--
Writes what stands in front of each character that needs a backslash, the
backslash, and at last the rest.  `pending` is read but not yet written, the last
character first.
-/
def putEscaped (writer : Writer) (pending : Text) : Text → Step
  | [] => writer.put pending.reverse
  | c :: rest =>
      if c = '<' ∨ c = '\\' then do
        let writer ← writer.put pending.reverse
        let writer ← writer.put ['\\']
        writer.putEscaped [c] rest
      else writer.putEscaped (c :: pending) rest

def putText (writer : Writer) (text : Text) : Step :=
  if writer.escaping then writer.putEscaped [] text
  else
    { writer with
      backslashes := trailingBackslashes writer.backslashes text }.put text

def writeSpan (writer : Writer) (span : Span) : Step :=
  if span.text = [] then .ok writer
  else do
    let writer ← writer.setStyle span.style
    writer.putText span.text

def finish (writer : Writer) : Step :=
  (writer.stack.reverse.map Move.close).foldlM perform writer

end Writer

def render (escaping : Bool) (spans : List Span) : Text :=
  let step : Writer.Step := do
    let writer ← spans.foldlM Writer.writeSpan { sink := .unbounded, escaping }
    writer.finish
  match step with
  | .ok writer | .error writer => writer.sink.text

end ChatCodes.Markup
