import ChatCodes.Style
import ChatCodes.Token.Scan

/-!
# Spans

A span is a text under one style.  The literals of a scanned text, each under
the style of the codes before it, are spans; merging them drops the empty ones
and joins neighbours of equal style.
-/

namespace ChatCodes

structure Span where
  text : Text
  style : Style
  deriving DecidableEq, Repr

namespace Span

/-- The literals of the tokens, each under the style that the codes before it leave. -/
def ofTokens (colorEndsDecorations : Bool) : Style → List Token → List Span
  | _, [] => []
  | style, .literal text :: rest =>
      ⟨text, style⟩ :: ofTokens colorEndsDecorations style rest
  | style, .code code :: rest =>
      ofTokens colorEndsDecorations (style.apply colorEndsDecorations code) rest

/-- Puts a span in front, joined to the first one if their styles are equal. -/
def join (span : Span) : List Span → List Span
  | [] => [span]
  | next :: rest =>
      if span.style = next.style then
        ⟨span.text ++ next.text, span.style⟩ :: rest
      else span :: next :: rest

def merge (spans : List Span) : List Span :=
  (spans.filter fun span => !span.text.isEmpty).foldr join []

theorem flatMap_text_join (span : Span) (spans : List Span) :
    (join span spans).flatMap text = span.text ++ spans.flatMap text := by
  cases spans with
  | nil => simp [join]
  | cons next rest =>
      simp only [join]
      split <;> simp

theorem flatMap_text_merge (spans : List Span) :
    (merge spans).flatMap text = spans.flatMap text := by
  induction spans with
  | nil => rfl
  | cons span rest ih =>
      unfold merge at ih ⊢
      rw [List.filter_cons]
      split
      · rw [List.foldr_cons, flatMap_text_join, ih, List.flatMap_cons]
      · next hempty =>
          have : span.text = [] := by simpa using hempty
          rw [ih, List.flatMap_cons, this, List.nil_append]

end Span

namespace Dialect

/-- The literals of a text with their styles, as they are found. -/
def literals (dialect : Dialect) (text : Text) : List Span :=
  Span.ofTokens dialect.colorEndsDecorations .plain (Token.scan dialect text)

def spans (dialect : Dialect) (text : Text) : List Span :=
  Span.merge (dialect.literals text)

end Dialect

end ChatCodes
