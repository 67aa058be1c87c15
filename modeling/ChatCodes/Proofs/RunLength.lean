import ChatCodes.Converter
import ChatCodes.Proofs.Spans
import Mathlib.Data.List.Infix

/-!
# Spans as run lengths

A coded text stands for characters under styles: those of its literals, each under the
style that the codes in front of it leave.  Main statement: the spans of a text are the
only run-length form of these characters, and stripping keeps just the characters.
-/

namespace ChatCodes

namespace Token

def code? : Token → Option Code
  | .literal _ => none
  | .code meaning => some meaning

/-- The style behind tokens: only the codes among them count. -/
def styleAfter (colorEndsDecorations : Bool) (style : Style) (tokens : List Token) : Style :=
  (tokens.filterMap code?).foldl (Style.apply colorEndsDecorations) style

/-- The literal characters, each under the style behind the tokens in front of it. -/
def styledChars (colorEndsDecorations : Bool) (style : Style) (tokens : List Token) :
    List (Char × Style) :=
  (tokens.zip tokens.inits).flatMap fun (token, front) =>
    token.text.map (·, styleAfter colorEndsDecorations style front)

theorem styledChars_cons (colorEndsDecorations : Bool) (style : Style) (token : Token)
    (tokens : List Token) :
    styledChars colorEndsDecorations style (token :: tokens) =
      token.text.map (·, style) ++
        styledChars colorEndsDecorations (styleAfter colorEndsDecorations style [token])
          tokens := by
  generalize hnext : styleAfter colorEndsDecorations style [token] = next
  have hlater : ∀ front : List Token,
      styleAfter colorEndsDecorations style (token :: front) =
        styleAfter colorEndsDecorations next front := by
    intro front
    cases token <;> cases hnext <;> rfl
  rw [styledChars, List.inits_cons, List.zip_cons_cons, List.flatMap_cons,
    List.zip_map_right, List.flatMap_map]
  simp only [Prod.map_fst, Prod.map_snd, id_eq, hlater]
  rfl

end Token

namespace Span

def styledChars (span : Span) : List (Char × Style) := span.text.map (·, span.style)

/-- Each run of characters under one style is one span. -/
structure IsRunLengthOf (spans : List Span) (chars : List (Char × Style)) : Prop where
  chars_eq : spans.flatMap styledChars = chars
  text_ne_nil : ∀ span ∈ spans, span.text ≠ []
  styles_ne : spans.IsChain fun span next => span.style ≠ next.style

theorem flatMap_glyphs_eq (spans : List Span) :
    spans.flatMap glyphs =
      (spans.flatMap styledChars).map fun (c, style) => ⟨[c], style⟩ := by
  rw [List.map_flatMap]
  apply List.flatMap_congr
  intro span _
  simp [glyphs, styledChars]

theorem flatMap_glyphs_inj {first second : List Span} :
    first.flatMap glyphs = second.flatMap glyphs ↔
      first.flatMap styledChars = second.flatMap styledChars := by
  rw [flatMap_glyphs_eq, flatMap_glyphs_eq, List.map_inj_right]
  rintro ⟨c, style⟩ ⟨c', style'⟩ hsame
  simpa using hsame

theorem isRunLengthOf_iff_merge_eq {merged spans : List Span} :
    IsRunLengthOf merged (spans.flatMap styledChars) ↔ merge spans = merged := by
  rw [merge_eq_iff]
  constructor
  · intro h
    exact ⟨flatMap_glyphs_inj.mpr h.chars_eq, h.text_ne_nil, h.styles_ne⟩
  · intro h
    exact ⟨flatMap_glyphs_inj.mp h.glyphs_eq, h.text_ne_nil, h.styles_ne⟩

theorem flatMap_styledChars_ofTokens (colorEndsDecorations : Bool) (style : Style)
    (tokens : List Token) :
    (ofTokens colorEndsDecorations style tokens).flatMap styledChars =
      Token.styledChars colorEndsDecorations style tokens := by
  induction tokens generalizing style with
  | nil => rfl
  | cons token tokens ih =>
      rw [Token.styledChars_cons, ← ih]
      cases token with
      | literal text => rfl
      | code code => rfl

end Span

theorem Dialect.strip_eq_unchanged_iff {dialect : Dialect} {text kept : Text} :
    dialect.strip text = .unchanged kept ↔ dialect.marker ∉ text ∧ kept = text := by
  unfold strip
  split
  · next hmarker => simp [hmarker]
  · next hmarker => simp [hmarker, eq_comm]

/--
The characters of the literals, each under the style that the codes in front of it make
of no style, have one run-length form only, which the spans are.  Their texts are what
stripping leaves, and that is what the literals hold, also where the text is handed back
because no marker occurs in it.
-/
theorem Converter.eq_spans_iff_isRunLength (converter : Converter) (text : Text) :
    let dialect := converter.dialect
    let tokens := Token.scan dialect text
    (∀ spans, spans = converter.spans text ↔
      Span.IsRunLengthOf spans
        (Token.styledChars dialect.colorEndsDecorations .plain tokens)) ∧
    (converter.spans text).flatMap Span.text = (converter.strip text).text ∧
    (converter.strip text).text = tokens.flatMap Token.text ∧
    ∀ kept, converter.strip text = .unchanged kept ↔ dialect.marker ∉ text ∧ kept = text := by
  intro dialect tokens
  refine ⟨fun spans => ?_, ?_, dialect.text_strip text, fun kept => ?_⟩
  · rw [← Span.flatMap_styledChars_ofTokens, Span.isRunLengthOf_iff_merge_eq, eq_comm]
    rfl
  · rw [spans, Dialect.spans, Span.flatMap_text_merge, Dialect.flatMap_text_literals]
    rfl
  · exact Dialect.strip_eq_unchanged_iff

/-- Codes that cancel each other in front of a text, and codes that are none, cut no span. -/
example : Converter.ampersand.spans "a&c&rb&zc".toList = [⟨"ab&zc".toList, .plain⟩] := by
  decide +kernel

end ChatCodes
