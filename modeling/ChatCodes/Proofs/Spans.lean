import ChatCodes.Span
import ChatCodes.Strip
import Mathlib.Data.List.Chain

/-!
# Spans one character at a time

A span is as good as its characters, each a span of its own under the same style:
merging joins them again.  Merged spans are the shortest list with these characters,
and merging a list from two parts joins at most the two spans at the seam.
-/

namespace ChatCodes

namespace Span

def glyphs (span : Span) : List Span :=
  span.text.map fun c => ⟨[c], span.style⟩

@[simp] theorem glyphs_cons (c : Char) (text : Text) (style : Style) :
    glyphs ⟨c :: text, style⟩ = ⟨[c], style⟩ :: glyphs ⟨text, style⟩ := rfl

theorem merge_cons_nil (style : Style) (spans : List Span) :
    merge (⟨[], style⟩ :: spans) = merge spans := by
  simp [merge]

theorem merge_cons_of_ne_nil {text : Text} (h : text ≠ []) (style : Style)
    (spans : List Span) :
    merge (⟨text, style⟩ :: spans) = join ⟨text, style⟩ (merge spans) := by
  simp [merge, h]

theorem merge_cons_congr {first second : List Span} (span : Span)
    (h : merge first = merge second) :
    merge (span :: first) = merge (span :: second) := by
  obtain ⟨text, style⟩ := span
  by_cases htext : text = []
  · rw [htext, merge_cons_nil, merge_cons_nil, h]
  · rw [merge_cons_of_ne_nil htext, merge_cons_of_ne_nil htext, h]

theorem join_join (front back : Text) (style : Style) (spans : List Span) :
    join ⟨front, style⟩ (join ⟨back, style⟩ spans) =
      join ⟨front ++ back, style⟩ spans := by
  cases spans with
  | nil => simp [join]
  | cons next spans =>
      by_cases hstyle : style = next.style
      · simp [join, hstyle]
      · simp [join, hstyle]

theorem merge_glyphs_append (span : Span) (spans : List Span) :
    merge (span.glyphs ++ spans) = merge (span :: spans) := by
  obtain ⟨text, style⟩ := span
  induction text with
  | nil => rw [merge_cons_nil]; rfl
  | cons c text ih =>
      rw [glyphs_cons, List.cons_append,
        merge_cons_of_ne_nil (List.cons_ne_nil c []), ih,
        merge_cons_of_ne_nil (List.cons_ne_nil c text)]
      by_cases htext : text = []
      · rw [htext, merge_cons_nil]
      · rw [merge_cons_of_ne_nil htext, join_join, List.singleton_append]

theorem merge_flatMap_glyphs (spans : List Span) :
    merge (spans.flatMap glyphs) = merge spans := by
  induction spans with
  | nil => rfl
  | cons span spans ih =>
      rw [List.flatMap_cons, merge_glyphs_append]
      exact merge_cons_congr span ih

theorem merge_filter (spans : List Span) :
    merge (spans.filter fun span => !span.text.isEmpty) = merge spans := by
  simp [merge]

/-! ## What merging gives -/

/--
The same characters under the same styles, in as few spans as possible: no text is
empty, and neighbours differ in style.
-/
structure IsMergeOf (merged spans : List Span) : Prop where
  glyphs_eq : merged.flatMap glyphs = spans.flatMap glyphs
  text_ne_nil : ∀ span ∈ merged, span.text ≠ []
  styles_ne : merged.IsChain fun span next => span.style ≠ next.style

theorem flatMap_glyphs_join (span : Span) (spans : List Span) :
    (join span spans).flatMap glyphs = span.glyphs ++ spans.flatMap glyphs := by
  cases spans with
  | nil => simp [join]
  | cons next spans =>
      rw [join]
      split
      · next hstyle => simp [glyphs, hstyle]
      · rfl

theorem text_ne_nil_of_mem_join {span : Span} {spans : List Span}
    (hspan : span.text ≠ []) (h : ∀ other ∈ spans, other.text ≠ []) :
    ∀ other ∈ join span spans, other.text ≠ [] := by
  cases spans with
  | nil => simpa [join] using hspan
  | cons next spans =>
      obtain ⟨-, hspans⟩ := List.forall_mem_cons.mp h
      rw [join]
      split
      · exact List.forall_mem_cons.mpr ⟨by simp [hspan], hspans⟩
      · exact List.forall_mem_cons.mpr ⟨hspan, h⟩

theorem isChain_join {spans : List Span}
    (h : spans.IsChain fun span next => span.style ≠ next.style) (span : Span) :
    (join span spans).IsChain fun span next => span.style ≠ next.style := by
  cases spans with
  | nil => exact .singleton span
  | cons next spans =>
      rw [join]
      split
      · next hstyle =>
          rw [List.isChain_cons] at h ⊢
          simpa [hstyle] using h
      · next hstyle => exact .cons_cons hstyle h

theorem merge_isMergeOf (spans : List Span) : IsMergeOf (merge spans) spans := by
  induction spans with
  | nil => exact ⟨rfl, by simp [merge], .nil⟩
  | cons span spans ih =>
      obtain ⟨text, style⟩ := span
      by_cases htext : text = []
      · subst htext
        rw [merge_cons_nil]
        exact ⟨ih.glyphs_eq, ih.text_ne_nil, ih.styles_ne⟩
      · rw [merge_cons_of_ne_nil htext]
        refine ⟨?_, text_ne_nil_of_mem_join htext ih.text_ne_nil, isChain_join ih.styles_ne _⟩
        rw [flatMap_glyphs_join, ih.glyphs_eq, List.flatMap_cons]

/-- Where nothing can be joined or dropped, merging changes nothing. -/
theorem merge_eq_self {spans : List Span} (htext : ∀ span ∈ spans, span.text ≠ [])
    (hstyles : spans.IsChain fun span next => span.style ≠ next.style) :
    merge spans = spans := by
  induction spans with
  | nil => rfl
  | cons span spans ih =>
      obtain ⟨hspan, hspans⟩ := List.forall_mem_cons.mp htext
      rw [merge_cons_of_ne_nil hspan, ih hspans hstyles.tail]
      cases spans with
      | nil => rfl
      | cons next spans => exact if_neg (List.isChain_cons_cons.mp hstyles).1

theorem merge_eq_iff {merged spans : List Span} :
    merge spans = merged ↔ IsMergeOf merged spans := by
  constructor
  · rintro rfl
    exact merge_isMergeOf spans
  · intro h
    rw [← merge_flatMap_glyphs, ← h.glyphs_eq, merge_flatMap_glyphs,
      merge_eq_self h.text_ne_nil h.styles_ne]

/-- Spans of one style are as good as a single one. -/
theorem merge_of_style_eq {style : Style} {spans : List Span}
    (h : ∀ span ∈ spans, span.style = style) :
    merge spans = merge [⟨spans.flatMap text, style⟩] := by
  have hglyphs : spans.flatMap glyphs = glyphs ⟨spans.flatMap text, style⟩ := by
    rw [glyphs, List.map_flatMap]
    apply List.flatMap_congr
    intro span hspan
    rw [glyphs, h span hspan]
  rw [← merge_flatMap_glyphs, hglyphs, ← List.append_nil (glyphs _), merge_glyphs_append]

/-! ## Seams -/

/-- One list behind the other, with the spans at the seam joined if their styles are equal. -/
def seam : List Span → List Span → List Span
  | [], back => back
  | [last], back => join last back
  | span :: next :: front, back => span :: seam (next :: front) back

theorem seam_join (span : Span) (front back : List Span) :
    seam (join span front) back = join span (seam front back) := by
  obtain ⟨text, style⟩ := span
  match front with
  | [] => rfl
  | [⟨other, _⟩] =>
      rw [join]
      split
      · next hstyle =>
          cases hstyle
          exact (join_join text other style back).symm
      · next hstyle =>
          cases back with
          | nil => simp [seam, join, hstyle]
          | cons first back =>
              simp only [seam, join]
              split <;> simp [hstyle]
  | next :: third :: front =>
      rw [join, seam, join]
      split <;> rfl

theorem merge_append (front back : List Span) :
    merge (front ++ back) = seam (merge front) (merge back) := by
  induction front with
  | nil => rfl
  | cons span front ih =>
      obtain ⟨text, style⟩ := span
      by_cases htext : text = []
      · subst htext
        rw [List.cons_append, merge_cons_nil, merge_cons_nil, ih]
      · rw [List.cons_append, merge_cons_of_ne_nil htext, ih,
          merge_cons_of_ne_nil htext, seam_join]

/-! ## Spans of tokens -/

theorem flatMap_text_ofTokens (colorEndsDecorations : Bool) (style : Style)
    (tokens : List Token) :
    (ofTokens colorEndsDecorations style tokens).flatMap text =
      tokens.flatMap Token.text := by
  induction tokens generalizing style with
  | nil => rfl
  | cons token tokens ih =>
      cases token with
      | literal text => simp [ofTokens, Token.text, ih]
      | code code => simp [ofTokens, Token.text, ih]

theorem style_eq_of_no_code {colorEndsDecorations : Bool} {style : Style}
    {tokens : List Token} (h : ∀ code, .code code ∉ tokens) :
    ∀ span ∈ ofTokens colorEndsDecorations style tokens, span.style = style := by
  induction tokens with
  | nil => simp [ofTokens]
  | cons token tokens ih =>
      cases token with
      | literal text =>
          have hlater := ih fun code hcode => h code (List.mem_cons_of_mem _ hcode)
          exact List.forall_mem_cons.mpr ⟨rfl, hlater⟩
      | code code => exact (h code List.mem_cons_self).elim

theorem ofTokens_codes_append (colorEndsDecorations : Bool) (style : Style)
    (codes : List Code) (tokens : List Token) :
    ofTokens colorEndsDecorations style (codes.map .code ++ tokens) =
      ofTokens colorEndsDecorations (codes.foldl (Style.apply colorEndsDecorations) style)
        tokens := by
  induction codes generalizing style with
  | nil => rfl
  | cons code codes ih => exact ih (style.apply colorEndsDecorations code)

/-- What stands behind a reset does not depend on the codes in front of it. -/
theorem ofTokens_append_reset (colorEndsDecorations : Bool) (style : Style)
    (front back : List Token) :
    ofTokens colorEndsDecorations style (front ++ .code .reset :: back) =
      ofTokens colorEndsDecorations style front ++
        ofTokens colorEndsDecorations .plain back := by
  induction front generalizing style with
  | nil => rfl
  | cons token front ih =>
      cases token with
      | literal text => simp [ofTokens, ih]
      | code code => simp [ofTokens, ih]

end Span

theorem Dialect.flatMap_text_literals (dialect : Dialect) (text : Text) :
    (dialect.literals text).flatMap Span.text = (dialect.strip text).text := by
  rw [text_strip, literals, Span.flatMap_text_ofTokens, withoutCodes]

end ChatCodes
