import ChatCodes.Proofs.Markup.Guards
import ChatCodes.Proofs.Markup.OpenTags
import ChatCodes.Proofs.Markup.Room
import Mathlib.Data.List.Chain

/-!
# Tags that are needed

No tag that a writer writes could be left out.  What may come directly behind a piece
says that a tag is opened for a text and not closed to be opened again; which tags may
be open together says that none is opened twice.  Spans without text, and the styles
that only they have, do not show.
-/

namespace ChatCodes.Markup

/-! ## Neighbours -/

namespace Piece

/--
What may come directly behind a piece: behind an opening tag another one or a text, and
behind a closing tag anything but the same tag opened again.
-/
def Precedes : Piece → Piece → Prop
  | .start _, .start _ => True
  | .start _, .text literal => literal ≠ []
  | .start _, _ => False
  | .close tag, .start next => tag ≠ next
  | .close _, .guard => False
  | .close _, _ => True
  | .guard, .start _ | .guard, .close _ => True
  | .guard, _ => False
  | .text _, _ => True

/-- An opening tag and a closing tag, of whichever name, have text between them. -/
theorem flatMap_literal_ne_nil_of_isChain {tag other : Tag} {inner back : List Piece}
    (h : (start tag :: (inner ++ close other :: back)).IsChain Precedes) :
    inner.flatMap literal ≠ [] := by
  induction inner generalizing tag with
  | nil => exact ((List.isChain_cons_cons.mp h).1).elim
  | cons piece inner ih =>
      obtain ⟨hfirst, hrest⟩ := List.isChain_cons_cons.mp h
      cases piece with
      | guard => exact hfirst.elim
      | close tag => exact hfirst.elim
      | start next => exact ih hrest
      | text chars =>
          rw [List.flatMap_cons]
          exact List.append_ne_nil_of_left_ne_nil hfirst _

theorem closings_isChain (tags : List Tag) :
    ((tags.map Move.close).map ofMove).IsChain Precedes := by
  rw [List.isChain_map, List.isChain_map]
  exact (List.pairwise_of_forall fun _ _ => trivial).isChain

theorem openings_isChain (tags : List Tag) :
    ((tags.map Move.start).map ofMove).IsChain Precedes := by
  rw [List.isChain_map, List.isChain_map]
  exact (List.pairwise_of_forall fun _ _ => trivial).isChain

end Piece

theorem toStyle_isChain (stack : List Tag) (style : Style) :
    ((Move.toStyle stack style).map Piece.ofMove).IsChain Piece.Precedes := by
  rw [Move.toStyle, List.map_append]
  refine (Piece.closings_isChain _).append (Piece.openings_isChain _) ?_
  -- The last tag closed is the first that the style does not keep, so it stays closed.
  intro last hlast first hfirst
  simp only [List.getLast?_map, List.getLast?_reverse, List.head?_map, Option.mem_def,
    Option.map_map, Option.map_eq_some_iff] at hlast hfirst
  obtain ⟨dropped, hdropped, rfl⟩ := hlast
  obtain ⟨missing, hmissing, rfl⟩ := hfirst
  have hactive : missing.isActiveIn style = true :=
    Tag.mem_ofStyle.mp (List.mem_filter.mp (List.mem_of_mem_head? hmissing)).1
  have hinactive := List.head?_dropWhile_not (fun tag : Tag => tag.isActiveIn style) stack
  rw [hdropped] at hinactive
  rintro rfl
  simp [hactive] at hinactive

/-! ## Chains of pieces -/

namespace Writer

variable {back : List Piece}

theorem ofMoves_append_isChain {moves : List Move} (backslashes : Nat)
    (h : (moves.map Piece.ofMove ++ back).IsChain Piece.Precedes) :
    (Piece.ofMoves backslashes moves ++ back).IsChain Piece.Precedes := by
  cases moves with
  | nil => exact h
  | cons move moves =>
      rw [Piece.ofMoves, Piece.guards]
      split
      · cases move with
        | start tag => exact .cons_cons trivial h
        | close tag => exact .cons_cons trivial h
      · exact h

theorem moves_isChain (writer : Writer) (style : Style) :
    ((writer.moves style).map Piece.ofMove).IsChain Piece.Precedes := by
  rw [moves]
  split
  · exact .nil
  · exact toStyle_isChain writer.stack style

theorem spanPieces_append_isChain (writer : Writer) (span : Span)
    (h : back.IsChain Piece.Precedes) :
    (writer.spanPieces span ++ back).IsChain Piece.Precedes := by
  rw [spanPieces]
  split
  · exact h
  · next htext =>
      rw [List.append_assoc]
      refine ofMoves_append_isChain _ ((writer.moves_isChain span.style).append ?_ ?_)
      · exact h.cons fun _ _ => trivial
      · intro last hlast first hfirst
        obtain rfl : .text span.text = first := by simpa using hfirst
        obtain ⟨move, -, rfl⟩ := List.mem_map.mp (List.mem_of_mem_getLast? hlast)
        cases move with
        | start tag => exact htext
        | close tag => trivial

theorem runPieces_append_isChain (writer : Writer) (spans : List Span)
    (h : back.IsChain Piece.Precedes) :
    (writer.runPieces spans ++ back).IsChain Piece.Precedes := by
  induction spans generalizing writer with
  | nil => exact h
  | cons span spans ih =>
      rw [runPieces, List.append_assoc]
      exact spanPieces_append_isChain writer span (ih (writer.after span))

theorem closingPieces_isChain (writer : Writer) :
    writer.closingPieces.IsChain Piece.Precedes := by
  have hchain := Piece.closings_isChain writer.stack.reverse
  rw [← List.append_nil (List.map _ _)] at hchain
  rw [closingPieces, ← List.append_nil (Piece.ofMoves _ _)]
  exact ofMoves_append_isChain _ hchain

end Writer

theorem pieces_isChain (escaping : Bool) (spans : List Span) :
    (pieces escaping spans).IsChain Piece.Precedes :=
  Writer.runPieces_append_isChain _ spans (Writer.closingPieces_isChain _)

/-! ## Spans that leave no trace -/

namespace Writer

theorem runPieces_filter (writer : Writer) (spans : List Span) :
    writer.runPieces (spans.filter fun span => !span.text.isEmpty) =
      writer.runPieces spans := by
  induction spans generalizing writer with
  | nil => rfl
  | cons span spans ih =>
      by_cases htext : span.text = []
      · rw [List.filter_cons_of_neg (by simp [htext]), ih, runPieces, spanPieces,
          if_pos htext, after_of_text_eq_nil htext, List.nil_append]
      · rw [List.filter_cons_of_pos (by simpa using htext), runPieces, ih, runPieces]

theorem start_mem_ofMoves {backslashes : Nat} {moves : List Move} {tag : Tag}
    (h : .start tag ∈ Piece.ofMoves backslashes moves) : .start tag ∈ moves := by
  have hmoves : .start tag ∈ moves.map Piece.ofMove := by
    cases moves with
    | nil => exact h
    | cons move moves =>
        rw [Piece.ofMoves, Piece.guards] at h
        split at h
        · exact (List.mem_cons.mp h).resolve_left (by simp)
        · exact h
  obtain ⟨move, hmove, hsame⟩ := List.mem_map.mp hmoves
  cases move with
  | start other =>
      cases hsame
      exact hmove
  | close other => cases hsame

/-- A tag is opened for a text whose style has it. -/
theorem start_mem_spanPieces {writer : Writer} {span : Span} {tag : Tag}
    (h : .start tag ∈ writer.spanPieces span) :
    span.text ≠ [] ∧ tag.isActiveIn span.style = true := by
  rw [spanPieces] at h
  split at h
  · cases h
  · next htext =>
      refine ⟨htext, ?_⟩
      have hmoves : .start tag ∈ writer.moves span.style :=
        start_mem_ofMoves ((List.mem_append.mp h).resolve_right (by simp))
      rw [moves] at hmoves
      split at hmoves
      · cases hmoves
      · rw [Move.toStyle] at hmoves
        have hmissing := (List.mem_append.mp hmoves).resolve_left (by simp)
        obtain ⟨_, hmissing, ⟨⟩⟩ := List.mem_map.mp hmissing
        exact Tag.mem_ofStyle.mp (List.mem_filter.mp hmissing).1

theorem start_mem_runPieces {writer : Writer} {spans : List Span} {tag : Tag}
    (h : .start tag ∈ writer.runPieces spans) :
    ∃ span ∈ spans, span.text ≠ [] ∧ tag.isActiveIn span.style = true := by
  induction spans generalizing writer with
  | nil => cases h
  | cons span spans ih =>
      rcases List.mem_append.mp h with hspan | hlater
      · exact ⟨span, List.mem_cons_self, start_mem_spanPieces hspan⟩
      · obtain ⟨other, hother, hused⟩ := ih hlater
        exact ⟨other, List.mem_cons_of_mem _ hother, hused⟩

theorem start_not_mem_closingPieces (writer : Writer) (tag : Tag) :
    .start tag ∉ writer.closingPieces := by
  intro h
  simpa using start_mem_ofMoves h

theorem spanPieces_of_current {writer : Writer} {text : Text} (htext : text ≠ []) :
    writer.spanPieces ⟨text, writer.current⟩ = [.text text] := by
  simp [spanPieces, htext, moves, Piece.ofMoves]

theorem runPieces_of_equal_styles (writer : Writer) {first second : Text}
    (hfirst : first ≠ []) (hsecond : second ≠ []) (style : Style) (spans : List Span) :
    ∃ before behind, writer.runPieces (⟨first, style⟩ :: ⟨second, style⟩ :: spans) =
        before ++ .text first :: .text second :: behind ∧
      before.flatMap Piece.literal = [] := by
  have hcurrent : (writer.after ⟨first, style⟩).current = style := after_current hfirst
  have hnext : (writer.after ⟨first, style⟩).spanPieces ⟨second, style⟩ =
      [.text second] := by
    rw [← spanPieces_of_current hsecond, hcurrent]
  let later := ((writer.after ⟨first, style⟩).after ⟨second, style⟩).runPieces spans
  refine ⟨Piece.ofMoves writer.backslashes (writer.moves style), later, ?_,
    flatMap_literal_ofMoves _ _⟩
  rw [runPieces, runPieces, hnext, spanPieces, if_neg hfirst, List.append_assoc]
  rfl

end Writer

theorem pieces_filter (escaping : Bool) (spans : List Span) :
    pieces escaping (spans.filter fun span => !span.text.isEmpty) =
      pieces escaping spans := by
  rw [pieces, Writer.runPieces_filter, Writer.foldl_after_filter, pieces]

theorem isActiveIn_of_start_mem_pieces {escaping : Bool} {spans : List Span} {tag : Tag}
    (h : .start tag ∈ pieces escaping spans) :
    ∃ span ∈ spans, span.text ≠ [] ∧ tag.isActiveIn span.style = true :=
  Writer.start_mem_runPieces
    ((List.mem_append.mp h).resolve_right (Writer.start_not_mem_closingPieces _ tag))

theorem pieces_of_equal_styles (escaping : Bool) (front back : List Span)
    {first second : Text} (hfirst : first ≠ []) (hsecond : second ≠ []) (style : Style) :
    ∃ before behind,
      pieces escaping (front ++ ⟨first, style⟩ :: ⟨second, style⟩ :: back) =
        before ++ .text first :: .text second :: behind ∧
      before.flatMap Piece.literal = front.flatMap Span.text := by
  obtain ⟨before, behind, hrun, hliteral⟩ :=
    (front.foldl Writer.after (.fresh escaping [])).runPieces_of_equal_styles
      hfirst hsecond style back
  have hpieces :
      pieces escaping (front ++ ⟨first, style⟩ :: ⟨second, style⟩ :: back) =
        ((Writer.fresh escaping []).runPieces front ++ before) ++
          .text first :: .text second :: (behind ++
            ((front ++ ⟨first, style⟩ :: ⟨second, style⟩ :: back).foldl Writer.after
              (.fresh escaping [])).closingPieces) := by
    rw [pieces, Writer.runPieces_append, hrun]
    simp only [List.append_assoc, List.cons_append]
  refine ⟨_, _, hpieces, ?_⟩
  rw [List.flatMap_append, Writer.flatMap_literal_runPieces, hliteral, List.append_nil]

theorem writeAll_fresh (escaping : Bool) (held : Text) (spans : List Span) :
    ∃ finished, (Writer.fresh escaping held).writeAll spans = .ok finished ∧
      finished.sink.text = held ++ Piece.markup escaping (pieces escaping spans) := by
  have hwrites := Writer.writeAll_writes_pieces (.ofText held none) escaping spans
  refine ⟨_, hwrites.of_unlimited rfl, ?_⟩
  rw [Sink.extend_text, Sink.text_ofText]

/--
Between an opening tag and any closing tag behind it, so in every pair of tags, there is
text.  Wherever the output is cut, no two open tags are equal and only one can be a color.
Texts of equal style that follow each other have no tag between them, and no tag is closed
only to be opened again.  Spans without text change nothing, and each tag opened is one of the
style of some text.
-/
theorem writer_wastes_no_tag (escaping : Bool) (held : Text) (spans : List Span) :
    ∃ finished, (Writer.fresh escaping held).writeAll spans = .ok finished ∧
      finished.sink.text = held ++ Piece.markup escaping (pieces escaping spans) ∧
      (∀ (front inner back : List Piece) (tag other : Tag),
        pieces escaping spans = front ++ .start tag :: (inner ++ .close other :: back) →
        inner.flatMap Piece.literal ≠ []) ∧
      (∀ front back : List Piece, pieces escaping spans = front ++ back →
        ∃ texts tags, Nests [] front texts tags ∧ tags.Nodup ∧
          ∀ value other : Color, .color value ∈ tags → .color other ∈ tags →
            value = other) ∧
      (∀ (front skipped back : List Span) (first second : Text) (style : Style),
        spans = front ++ ⟨first, style⟩ :: (skipped ++ ⟨second, style⟩ :: back) →
        first ≠ [] → second ≠ [] → (∀ span ∈ skipped, span.text = []) →
        ∃ before behind : List Piece,
          pieces escaping spans = before ++ .text first :: .text second :: behind ∧
          before.flatMap Piece.literal = front.flatMap Span.text) ∧
      (∀ (front back : List Piece) (tag : Tag),
        pieces escaping spans ≠ front ++ .close tag :: .start tag :: back) ∧
      pieces escaping (spans.filter fun span => !span.text.isEmpty) =
        pieces escaping spans ∧
      ∀ tag, .start tag ∈ pieces escaping spans →
        ∃ span ∈ spans, span.text ≠ [] ∧ tag.isActiveIn span.style = true := by
  obtain ⟨finished, hfinished, htext⟩ := writeAll_fresh escaping held spans
  have hchain := pieces_isChain escaping spans
  refine ⟨finished, hfinished, htext, ?_, ?_, ?_, ?_, pieces_filter escaping spans,
    fun tag => isActiveIn_of_start_mem_pieces⟩
  · intro front inner back tag other hsplit
    rw [hsplit] at hchain
    exact Piece.flatMap_literal_ne_nil_of_isChain hchain.right_of_append
  · intro front back hsplit
    obtain ⟨_, hnests, -⟩ := pieces_nests escaping spans
    have hstays := pieces_staysCompatible escaping spans
    rw [hsplit] at hnests hstays
    obtain ⟨before, tags, hfront⟩ := hnests.cut
    have hcompatible : Tag.Compatible tags := hfront.foldl_tagsAfter ▸ hstays.of_append
    exact ⟨before, tags, hfront, hcompatible.nodup, hcompatible.color_eq⟩
  · intro front skipped back first second style hsplit hfirst hsecond hskipped
    have hnone : (skipped.filter fun span => !span.text.isEmpty) = [] := by
      simpa using hskipped
    have hpieces : pieces escaping spans =
        pieces escaping (front ++ ⟨first, style⟩ :: ⟨second, style⟩ :: back) := by
      rw [← pieces_filter, hsplit, ← pieces_filter escaping (front ++ _ :: _ :: back)]
      simp [List.filter_append, hfirst, hsecond, hnone]
    rw [hpieces]
    exact pieces_of_equal_styles escaping front back hfirst hsecond style
  · intro front back tag hsplit
    rw [hsplit] at hchain
    exact (List.isChain_append_cons_cons.mp hchain).2.1 rfl

/-- The color changes below a decoration, which is closed and opened again with it. -/
theorem writer_wastes_no_tag_below_bold :
    let redBold : Style := ⟨some (.named .red), .ofList [.bold]⟩
    let blueBold : Style := ⟨some (.named .blue), .ofList [.bold]⟩
    let spans : List Span :=
      [⟨['A'], redBold⟩, ⟨['B'], blueBold⟩, ⟨[], .plain⟩, ⟨['C'], blueBold⟩]
    ∃ finished, (Writer.fresh false ['>']).writeAll spans = .ok finished ∧
      finished.sink.text = "><red><bold>A</bold></red><blue><bold>BC</bold></blue>".toList ∧
      [Piece.start (.decoration .bold), .text ['A']].flatMap Piece.literal ≠ [] ∧
      ∃ before behind,
        pieces false spans = before ++ .text ['B'] :: .text ['C'] :: behind ∧
        before.flatMap Piece.literal = ['A'] := by
  intro redBold blueBold spans
  obtain ⟨finished, hfinished, htext, hpairs, -, hequal, -⟩ :=
    writer_wastes_no_tag false ['>'] spans
  let inner : List Piece := [.start (.decoration .bold), .text ['A']]
  let behind : List Piece :=
    [.close (.color (.named .red)), .start (.color (.named .blue)),
      .start (.decoration .bold), .text ['B'], .text ['C'],
      .close (.decoration .bold), .close (.color (.named .blue))]
  have hpieces : pieces false spans =
      [] ++ .start (.color (.named .red)) ::
        (inner ++ .close (.decoration .bold) :: behind) := by
    decide
  refine ⟨finished, hfinished, ?_, hpairs [] inner behind _ _ hpieces, ?_⟩
  · rw [htext, hpieces]
    decide
  · exact hequal [⟨['A'], redBold⟩] [⟨[], .plain⟩] [] ['B'] ['C'] blueBold rfl
      (by decide) (by decide) (by decide)

end ChatCodes.Markup
