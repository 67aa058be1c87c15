import ChatCodes.Converter
import ChatCodes.Proofs.Markup.Piece

/-!
# How a text is cut into spans

A writer that never fails does not see where a text under one style is cut, nor
spans without text.  Without escaping this rests on the count of backslashes,
which is carried over a cut inside a run of them.
-/

namespace ChatCodes.Markup

theorem escape_append (front back : Text) :
    escape (front ++ back) = escape front ++ escape back := by
  simp [escape]

theorem trailingBackslashes_append (before : Nat) (front back : Text) :
    trailingBackslashes before (front ++ back) =
      trailingBackslashes (trailingBackslashes before front) back := by
  simp only [trailingBackslashes, List.reverse_append, List.takeWhile_append,
    List.length_reverse, List.length_append]
  -- The run of the whole reaches into the front only if the back is all backslashes.
  by_cases hback : (back.reverse.takeWhile (· = '\\')).length = back.length
  · simp only [hback, if_true, List.length_append, List.length_reverse]
    by_cases hfront : (front.reverse.takeWhile (· = '\\')).length = front.length
    · rw [if_pos (by omega), if_pos hfront]
      omega
    · rw [if_neg (by omega), if_neg hfront]
      omega
  · have hle := (List.takeWhile_sublist
      (l := back.reverse) (· = '\\')).length_le
    rw [List.length_reverse] at hle
    simp only [hback, if_false]
    rw [if_neg (by omega)]

namespace Writer

theorem emit_text_append (writer : Writer) (front back : Text) :
    (writer.emit (.text front)).emit (.text back) =
      writer.emit (.text (front ++ back)) := by
  cases hescaping : writer.escaping <;>
    simp [emit, Piece.chars, Piece.tagsAfter, Piece.backslashesAfter, hescaping,
      Sink.extend_extend, escape_append, trailingBackslashes_append]

theorem after_of_current {writer : Writer} {text : Text} (htext : text ≠ []) :
    writer.after ⟨text, writer.current⟩ = writer.emit (.text text) := by
  simp [after, htext, spanPieces, moves, Piece.ofMoves, emit]

theorem after_append (writer : Writer) (front back : Text) (style : Style) :
    (writer.after ⟨front, style⟩).after ⟨back, style⟩ =
      writer.after ⟨front ++ back, style⟩ := by
  by_cases hfront : front = []
  · simp [after, hfront]
  by_cases hback : back = []
  · simp [after, hback]
  have hcurrent : (writer.after ⟨front, style⟩).current = style := by
    simp [after, hfront]
  have hboth : front ++ back ≠ [] := by simp [hfront]
  calc
    (writer.after ⟨front, style⟩).after ⟨back, style⟩
        = (writer.after ⟨front, style⟩).emit (.text back) := by
          rw [← after_of_current hback, hcurrent]
    _ = { ((writer.emitAll (Piece.ofMoves writer.backslashes
            (writer.moves style))).emit (.text front)).emit (.text back) with
          current := style } := by
          simp only [after, spanPieces, hfront, if_false, emitAll_append]
          rfl
    _ = writer.after ⟨front ++ back, style⟩ := by
          simp only [after, spanPieces, hboth, if_false, emitAll_append,
            emit_text_append]
          rfl

theorem foldl_after_filter (writer : Writer) (spans : List Span) :
    (spans.filter fun span => !span.text.isEmpty).foldl after writer =
      spans.foldl after writer := by
  induction spans generalizing writer with
  | nil => rfl
  | cons span spans ih =>
      rw [List.filter_cons]
      split
      · exact ih (writer.after span)
      · next hempty =>
          have htext : span.text = [] := by simpa using hempty
          have hafter : writer.after span = writer := by simp [after, htext]
          rw [ih, List.foldl_cons, hafter]

theorem foldl_after_join (writer : Writer) (span : Span) (spans : List Span) :
    (Span.join span spans).foldl after writer = (span :: spans).foldl after writer := by
  cases spans with
  | nil => rfl
  | cons next spans =>
      rw [Span.join]
      split
      · next hstyle =>
          obtain ⟨back, style⟩ := next
          obtain ⟨front, _⟩ := span
          cases hstyle
          simp only [List.foldl_cons, after_append]
      · rfl

theorem foldl_after_merge (writer : Writer) (spans : List Span) :
    (Span.merge spans).foldl after writer = spans.foldl after writer := by
  rw [← foldl_after_filter writer spans, Span.merge]
  induction spans.filter fun span => !span.text.isEmpty generalizing writer with
  | nil => rfl
  | cons span spans ih =>
      rw [List.foldr_cons, foldl_after_join]
      exact ih (writer.after span)

theorem afterAll_merge (writer : Writer) (spans : List Span) :
    writer.afterAll (Span.merge spans) = writer.afterAll spans := by
  rw [afterAll, foldl_after_merge, afterAll]

end Writer

theorem render_merge (escaping : Bool) (spans : List Span) :
    render escaping (Span.merge spans) = render escaping spans := by
  rw [render_eq_afterAll, Writer.afterAll_merge, render_eq_afterAll]

theorem convert_eq_render_spans (converter : Converter) (text : Text) :
    converter.convert text =
      render converter.settings.escaping (converter.spans text) :=
  (render_merge _ _).symm

/--
Writers that take spans with the same merged form end alike, so a conversion, which
writes literals as they are found, gives what the merged spans give.
-/
theorem writeAll_of_merge_eq :
    (∀ (escaping : Bool) (held : Text) (first second : List Span),
      Span.merge first = Span.merge second →
      ∃ finished, (Writer.fresh escaping held).writeAll first = .ok finished ∧
        (Writer.fresh escaping held).writeAll second = .ok finished) ∧
    ∀ (converter : Converter) (text : Text), ∃ finished,
      (Writer.fresh converter.settings.escaping []).writeAll (converter.spans text) =
        .ok finished ∧
      finished.sink.text = converter.convert text := by
  refine ⟨fun escaping held first second hmerge => ?_, fun converter text => ?_⟩
  · refine ⟨(Writer.fresh escaping held).afterAll first,
      Writer.writeAll_of_unlimited rfl first, ?_⟩
    rw [← Writer.afterAll_merge, hmerge, Writer.afterAll_merge]
    exact Writer.writeAll_of_unlimited rfl second
  · refine ⟨_, Writer.writeAll_of_unlimited rfl _, ?_⟩
    rw [← render_eq_afterAll, convert_eq_render_spans]

/-- A run of backslashes may be cut, also where an empty text of another style stands. -/
theorem writeAll_of_cut_run :
    ∃ finished,
      (Writer.fresh false []).writeAll
        [⟨['\\'], .plain⟩, ⟨[], ⟨some (.named .red), .empty⟩⟩,
          ⟨['\\'], .plain⟩, ⟨['x'], ⟨some (.named .red), .empty⟩⟩] =
          .ok finished ∧
      (Writer.fresh false []).writeAll
        [⟨['\\', '\\'], .plain⟩, ⟨['x'], ⟨some (.named .red), .empty⟩⟩] =
          .ok finished :=
  writeAll_of_merge_eq.1 _ _ _ _ (by decide)

end ChatCodes.Markup
