import ChatCodes.Proofs.Markup.Piece
import Mathlib.Data.List.Forall2
import Mathlib.Data.List.Induction
import Mathlib.Data.List.Nodup
import Mathlib.Data.List.TakeWhile

/-!
# Nesting of tags

The tags of a writer are properly nested: each closing tag closes the tag that was
opened last.  Between calls the open tags are those of the style of the last text,
in an order that depends on the styles before it.
-/

namespace ChatCodes.Markup

/--
From the open tags of the first list to those of the last, outermost first, the
pieces close innermost tags only, and write the texts, each inside the tags given
with it.
-/
inductive Nests : List Tag → List Piece → List (Text × List Tag) → List Tag → Prop
  | done (stack) : Nests stack [] [] stack
  | guard {stack pieces texts last} (rest : Nests stack pieces texts last) :
      Nests stack (.guard :: pieces) texts last
  | start {stack pieces texts last} (tag)
      (rest : Nests (stack ++ [tag]) pieces texts last) :
      Nests stack (.start tag :: pieces) texts last
  | close {stack pieces texts last} (tag)
      (rest : Nests stack pieces texts last) :
      Nests (stack ++ [tag]) (.close tag :: pieces) texts last
  | text {stack pieces texts last} (literal)
      (rest : Nests stack pieces texts last) :
      Nests stack (.text literal :: pieces) ((literal, stack) :: texts) last

namespace Nests

variable {stack last : List Tag} {pieces : List Piece}
  {texts : List (Text × List Tag)}

theorem append {between : List Tag} {back : List Piece}
    {later : List (Text × List Tag)} (h : Nests stack pieces texts between)
    (hback : Nests between back later last) :
    Nests stack (pieces ++ back) (texts ++ later) last := by
  induction h with
  | done => exact hback
  | guard _ ih => exact .guard (ih hback)
  | start tag _ ih => exact .start tag (ih hback)
  | close tag _ ih => exact .close tag (ih hback)
  | text literal _ ih => exact .text literal (ih hback)

theorem foldl_tagsAfter (h : Nests stack pieces texts last) :
    pieces.foldl Piece.tagsAfter stack = last := by
  induction h with
  | done => rfl
  | guard _ ih => exact ih
  | start tag _ ih => exact ih
  | close tag _ ih => simpa [Piece.tagsAfter] using ih
  | text literal _ ih => exact ih

theorem tail {piece : Piece} (h : Nests stack (piece :: pieces) texts last) :
    ∃ later, Nests (piece.tagsAfter stack) pieces later last := by
  cases h with
  | guard rest => exact ⟨_, rest⟩
  | start tag rest => exact ⟨_, rest⟩
  | close tag rest => exact ⟨_, by simpa [Piece.tagsAfter] using rest⟩
  | text literal rest => exact ⟨_, rest⟩

/-- Properly nested pieces can be cut anywhere. -/
theorem cut {front back : List Piece} (h : Nests stack (front ++ back) texts last) :
    ∃ before tags, Nests stack front before tags := by
  induction front generalizing stack texts with
  | nil => exact ⟨[], stack, .done stack⟩
  | cons piece front ih =>
      cases h with
      | guard hrest =>
          obtain ⟨before, tags, hfront⟩ := ih hrest
          exact ⟨before, tags, .guard hfront⟩
      | start tag hrest =>
          obtain ⟨before, tags, hfront⟩ := ih hrest
          exact ⟨before, tags, .start tag hfront⟩
      | close tag hrest =>
          obtain ⟨before, tags, hfront⟩ := ih hrest
          exact ⟨before, tags, .close tag hfront⟩
      | text literal hrest =>
          obtain ⟨before, tags, hfront⟩ := ih hrest
          exact ⟨(literal, _) :: before, tags, .text literal hfront⟩

theorem guards (stack : List Tag) (backslashes : Nat) :
    Nests stack (Piece.guards backslashes) [] stack := by
  unfold Piece.guards
  split
  · exact .guard (.done stack)
  · exact .done stack

theorem ofMoves {moves : List Move}
    (h : Nests stack (moves.map Piece.ofMove) texts last) (backslashes : Nat) :
    Nests stack (Piece.ofMoves backslashes moves) texts last := by
  cases moves with
  | nil => exact h
  | cons move moves => exact (guards stack backslashes).append h

theorem closings (kept dropped : List Tag) :
    Nests (kept ++ dropped)
      ((dropped.reverse.map Move.close).map Piece.ofMove) [] kept := by
  induction dropped using List.reverseRecOn with
  | nil =>
      rw [List.append_nil]
      exact .done kept
  | append_singleton dropped tag ih =>
      rw [List.reverse_append, ← List.append_assoc]
      exact .close tag ih

theorem openings (kept missing : List Tag) :
    Nests kept ((missing.map Move.start).map Piece.ofMove) [] (kept ++ missing) := by
  induction missing generalizing kept with
  | nil =>
      rw [List.append_nil]
      exact .done kept
  | cons tag missing ih =>
      have hrest := ih (kept ++ [tag])
      rw [List.append_assoc, List.singleton_append] at hrest
      exact .start tag hrest

end Nests

/-! ## From one style to the next -/

theorem Tag.ofStyle_nodup (style : Style) : (Tag.ofStyle style).Nodup := by
  unfold Tag.ofStyle
  refine List.Nodup.append ?_ ?_ ?_
  · cases style.color <;> simp
  · exact style.decorations.toList_nodup.map fun _ _ => Tag.decoration.inj
  · simp [List.Disjoint]

def keptTags (stack : List Tag) (style : Style) : List Tag :=
  stack.takeWhile (·.isActiveIn style)

def missingTags (stack : List Tag) (style : Style) : List Tag :=
  (Tag.ofStyle style).filter (· ∉ keptTags stack style)

theorem toStyle_nests (stack : List Tag) (style : Style) :
    Nests stack ((Move.toStyle stack style).map Piece.ofMove) []
      (keptTags stack style ++ missingTags stack style) := by
  have hclosings := Nests.closings (keptTags stack style)
    (stack.dropWhile (·.isActiveIn style))
  rw [keptTags, List.takeWhile_append_dropWhile] at hclosings
  rw [Move.toStyle, List.map_append]
  exact hclosings.append (Nests.openings _ _)

/-- Whatever tags were open, those of the style are open then. -/
theorem kept_append_missing_perm {stack : List Tag} (hstack : stack.Nodup)
    (style : Style) :
    (keptTags stack style ++ missingTags stack style).Perm (Tag.ofStyle style) := by
  have hkept : (keptTags stack style).Nodup :=
    hstack.sublist (List.takeWhile_sublist _)
  have hmissing : (missingTags stack style).Nodup :=
    (Tag.ofStyle_nodup style).filter _
  have hdisjoint : (keptTags stack style).Disjoint (missingTags stack style) := by
    intro tag hin hout
    simp [missingTags, hin] at hout
  rw [List.perm_ext_iff_of_nodup (hkept.append hmissing hdisjoint)
    (Tag.ofStyle_nodup style)]
  intro tag
  constructor
  · intro htag
    rcases List.mem_append.mp htag with hin | hout
    · exact Tag.mem_ofStyle.mpr (List.mem_takeWhile_imp hin)
    · exact (List.mem_filter.mp hout).1
  · intro htag
    by_cases hin : tag ∈ keptTags stack style
    · exact List.mem_append_left _ hin
    · refine List.mem_append_right _ (List.mem_filter.mpr ⟨htag, ?_⟩)
      simpa using hin

namespace Writer

/-- The open tags are those of the current style. -/
def Matches (writer : Writer) : Prop :=
  writer.stack.Perm (Tag.ofStyle writer.current)

variable {writer : Writer}

theorem fresh_matches (escaping : Bool) (held : Text) :
    (fresh escaping held).Matches :=
  List.Perm.refl []

theorem moves_nests (h : writer.Matches) (style : Style) :
    ∃ tags, Nests writer.stack ((writer.moves style).map Piece.ofMove) [] tags ∧
      tags.Perm (Tag.ofStyle style) := by
  unfold moves
  split
  · next hsame => exact ⟨writer.stack, .done _, hsame ▸ h⟩
  · have hstack : writer.stack.Nodup := h.nodup_iff.mpr (Tag.ofStyle_nodup _)
    exact ⟨_, toStyle_nests _ style, kept_append_missing_perm hstack style⟩

theorem spanPieces_nests (h : writer.Matches) {span : Span} (htext : span.text ≠ []) :
    ∃ tags, tags.Perm (Tag.ofStyle span.style) ∧
      Nests writer.stack (writer.spanPieces span) [(span.text, tags)] tags := by
  obtain ⟨tags, hmoves, hperm⟩ := moves_nests h span.style
  refine ⟨tags, hperm, ?_⟩
  rw [spanPieces, if_neg htext]
  exact (hmoves.ofMoves _).append (.text span.text (.done tags))

theorem after_of_text_eq_nil {span : Span} (htext : span.text = []) :
    writer.after span = writer := by
  rw [after, if_pos htext]

theorem after_current {span : Span} (htext : span.text ≠ []) :
    (writer.after span).current = span.style := by
  rw [after, if_neg htext]

theorem after_matches (h : writer.Matches) (span : Span) :
    (writer.after span).Matches := by
  by_cases htext : span.text = []
  · rwa [after_of_text_eq_nil htext]
  · obtain ⟨tags, hperm, hnests⟩ := spanPieces_nests h htext
    rw [Matches, after_stack, hnests.foldl_tagsAfter, after_current htext]
    exact hperm

theorem foldl_after_matches (h : writer.Matches) (spans : List Span) :
    (spans.foldl after writer).Matches := by
  induction spans generalizing writer with
  | nil => exact h
  | cons span spans ih => exact ih (after_matches h span)

/-- The text stands inside exactly the tags of the span's style. -/
def Wraps (span : Span) (written : Text × List Tag) : Prop :=
  written.1 = span.text ∧ written.2.Perm (Tag.ofStyle span.style)

theorem runPieces_nests (h : writer.Matches) (spans : List Span) :
    ∃ texts, Nests writer.stack (writer.runPieces spans) texts
        (spans.foldl after writer).stack ∧
      List.Forall₂ Wraps (spans.filter fun span => !span.text.isEmpty) texts := by
  induction spans generalizing writer with
  | nil => exact ⟨[], .done _, .nil⟩
  | cons span spans ih =>
      obtain ⟨texts, hnests, hwraps⟩ := ih (after_matches h span)
      by_cases htext : span.text = []
      · refine ⟨texts, ?_, by simpa [htext] using hwraps⟩
        rw [after_of_text_eq_nil htext] at hnests
        simpa [runPieces, spanPieces, htext, after_of_text_eq_nil] using hnests
      · obtain ⟨tags, hperm, hspan⟩ := spanPieces_nests h htext
        refine ⟨(span.text, tags) :: texts, ?_, ?_⟩
        · rw [after_stack, hspan.foldl_tagsAfter] at hnests
          exact hspan.append hnests
        · rw [List.filter_cons_of_pos (by simpa using htext)]
          exact .cons ⟨rfl, hperm⟩ hwraps

theorem closingPieces_nests (writer : Writer) :
    Nests writer.stack writer.closingPieces [] [] :=
  (Nests.closings [] writer.stack).ofMoves _

/-! ## Calls of a writer whose sink never fills -/

theorem writeSpan_nests (hroom : writer.sink.room = none) (h : writer.Matches)
    {span : Span} (htext : span.text ≠ []) :
    ∃ after, writer.writeSpan span = .ok after ∧
      after.current = span.style ∧
      after.stack.Perm (Tag.ofStyle span.style) ∧
      after.sink.text = writer.sink.text ++
        Piece.markup writer.escaping (writer.spanPieces span) ∧
      Nests writer.stack (writer.spanPieces span) [(span.text, after.stack)]
        after.stack := by
  obtain ⟨tags, hperm, hnests⟩ := spanPieces_nests h htext
  have hstack : (writer.after span).stack = tags := by
    rw [after_stack, hnests.foldl_tagsAfter]
  rw [← hstack] at hperm hnests
  exact ⟨writer.after span, writeSpan_of_unlimited hroom span, after_current htext,
    hperm, after_text writer span, hnests⟩

theorem finish_nests (hroom : writer.sink.room = none) :
    ∃ finished, writer.finish = .ok finished ∧
      finished.sink.text =
        writer.sink.text ++ Piece.markup writer.escaping writer.closingPieces ∧
      Nests writer.stack writer.closingPieces [] [] ∧ finished.stack = [] := by
  have hnests := closingPieces_nests writer
  refine ⟨_, finish_of_unlimited hroom, emitAll_text _ _, hnests, ?_⟩
  rw [emitAll_stack]
  exact hnests.foldl_tagsAfter

end Writer

theorem pieces_nests (escaping : Bool) (spans : List Span) :
    ∃ texts, Nests [] (pieces escaping spans) texts [] ∧
      List.Forall₂ Writer.Wraps (spans.filter fun span => !span.text.isEmpty) texts := by
  obtain ⟨texts, hrun, hwraps⟩ :=
    Writer.runPieces_nests (Writer.fresh_matches escaping []) spans
  refine ⟨texts, ?_, hwraps⟩
  have hall := hrun.append (Writer.closingPieces_nests _)
  rwa [List.append_nil] at hall

/--
Whatever was written so far: the pieces written are properly nested, each text
inside exactly the tags of its style; a further text is written inside exactly the
tags of its style, which stay open, and an empty one changes nothing; finishing
closes every tag.
-/
theorem writer_nests (escaping : Bool) (held : Text) (spans : List Span) :
    ∃ writer texts,
      spans.foldlM Writer.writeSpan (.fresh escaping held) = .ok writer ∧
      writer.sink.text =
        held ++ Piece.markup escaping ((Writer.fresh escaping held).runPieces spans) ∧
      Nests [] ((Writer.fresh escaping held).runPieces spans) texts writer.stack ∧
      List.Forall₂ Writer.Wraps (spans.filter fun span => !span.text.isEmpty) texts ∧
      (∀ span : Span, span.text = [] → writer.writeSpan span = .ok writer) ∧
      (∀ span : Span, span.text ≠ [] → ∃ after,
        writer.writeSpan span = .ok after ∧
        after.current = span.style ∧
        after.stack.Perm (Tag.ofStyle span.style) ∧ after.stack.Nodup ∧
        after.sink.text =
          writer.sink.text ++ Piece.markup escaping (writer.spanPieces span) ∧
        Nests writer.stack (writer.spanPieces span) [(span.text, after.stack)]
          after.stack) ∧
      ∃ finished, writer.finish = .ok finished ∧
        finished.sink.text =
          writer.sink.text ++ Piece.markup escaping writer.closingPieces ∧
        Nests writer.stack writer.closingPieces [] [] ∧ finished.stack = [] := by
  have hfresh := Writer.fresh_matches escaping held
  obtain ⟨texts, hrun, hwraps⟩ := Writer.runPieces_nests hfresh spans
  have hmatches := Writer.foldl_after_matches hfresh spans
  have hroom : (spans.foldl Writer.after (.fresh escaping held)).sink.room = none :=
    Writer.foldl_after_room _ spans
  have hescaping : (spans.foldl Writer.after (.fresh escaping held)).escaping =
      escaping :=
    Writer.foldl_after_escaping _ spans
  have htext := Writer.foldl_after_text (.fresh escaping held) spans
  rw [Writer.fresh_text] at htext
  refine ⟨_, texts, Writer.foldlM_writeSpan rfl spans, htext, hrun, hwraps,
    fun span hspan => ?_, fun span hspan => ?_, ?_⟩
  · rw [Writer.writeSpan_of_unlimited hroom, Writer.after_of_text_eq_nil hspan]
  · obtain ⟨after, hstep, hcurrent, hperm, hafter, hnests⟩ :=
      Writer.writeSpan_nests hroom hmatches hspan
    rw [hescaping] at hafter
    exact ⟨after, hstep, hcurrent, hperm,
      hperm.nodup_iff.mpr (Tag.ofStyle_nodup _), hafter, hnests⟩
  · have hfinish := Writer.finish_nests hroom
    rwa [hescaping] at hfinish

theorem writer_nests_bold_red :
    ∃ writer,
      [⟨['a'], ⟨none, .ofList [.bold]⟩⟩].foldlM Writer.writeSpan (.fresh false []) =
        .ok writer ∧
      writer.writeSpan ⟨[], .plain⟩ = .ok writer ∧
      ∃ after,
        writer.writeSpan ⟨['b'], ⟨some (.named .red), .empty⟩⟩ = .ok after ∧
        after.stack.Perm [.color (.named .red)] := by
  obtain ⟨writer, _, hrun, _, _, _, hempty, htext, _⟩ :=
    writer_nests false [] [⟨['a'], ⟨none, .ofList [.bold]⟩⟩]
  obtain ⟨after, hstep, _, hperm, _⟩ :=
    htext ⟨['b'], ⟨some (.named .red), .empty⟩⟩ (by decide)
  exact ⟨writer, hrun, hempty ⟨[], .plain⟩ rfl, after, hstep, hperm⟩

end ChatCodes.Markup
