import ChatCodes.Proofs.Markup.Room

/-!
# Going on after a failure

A call that fails leaves a writer behind, and a caller may go on with it.  Its sink is
full then: nothing is added to it any more, and whatever there is to write fails.  So
the sink holds the front part of what the same calls write where there is room for all.
The open tags of that writer tell how far the call came: one that was opened is among
them only if all of it was written, and one that was closed is not.
-/

namespace ChatCodes.Markup

namespace Sink

def IsFull (sink : Sink) : Prop := sink.room = some 0

variable {sink full : Sink} {text : Text}

theorem isFull_of_write (h : sink.write text = .error full) : full.IsFull := by
  cases hroom : sink.room with
  | none =>
      rw [write_of_unlimited hroom] at h
      cases h
  | some room =>
      by_cases hfits : text.length ≤ room
      · obtain ⟨after, hwrite, -⟩ := write_of_fits hroom hfits
        rw [hwrite] at h
        cases h
      · obtain ⟨after, hwrite, hafter, -⟩ := write_of_full hroom (Nat.lt_of_not_le hfits)
        rw [hwrite] at h
        cases h
        exact hafter

theorem IsFull.write_of_ne_nil (h : sink.IsFull) (htext : text ≠ []) :
    sink.write text = .error sink := by
  obtain ⟨backwards, room⟩ := sink
  obtain rfl : room = some 0 := h
  simp [write, htext]

theorem IsFull.held_write (h : sink.IsFull) (text : Text) :
    held (sink.write text) = sink := by
  by_cases htext : text = []
  · rw [htext, write_nil, held]
  · rw [h.write_of_ne_nil htext, held]

/-! A write that comes behind a failed one is lost as a whole. -/

theorem held_write_append (sink : Sink) (front back : Text) :
    held (sink.write (front ++ back)) = held ((held (sink.write front)).write back) := by
  rw [write_append]
  cases hfront : sink.write front with
  | ok between => rfl
  | error full => exact ((isFull_of_write hfront).held_write back).symm

theorem isOk_write_append {back : Text} (sink : Sink) (front : Text) (hback : back ≠ []) :
    (sink.write (front ++ back)).isOk = ((held (sink.write front)).write back).isOk := by
  rw [write_append]
  cases hfront : sink.write front with
  | ok between => rfl
  | error full =>
      rw [held, (isFull_of_write hfront).write_of_ne_nil hback]
      rfl

end Sink

theorem escape_ne_nil {text : Text} (h : text ≠ []) : escape text ≠ [] := by
  obtain ⟨c, rest, rfl⟩ := List.exists_cons_of_ne_nil h
  simp only [escape, List.flatMap_cons]
  split <;> simp

theorem Piece.chars_text_ne_nil (escaping : Bool) {text : Text} (h : text ≠ []) :
    (Piece.text text).chars escaping ≠ [] := by
  rw [Piece.chars]
  split
  · exact escape_ne_nil h
  · exact h

namespace Writer

/-- What a step leaves behind, whether or not it failed. -/
def leftBy : Step → Writer
  | .ok writer | .error writer => writer

/-- The writer with which a caller goes on who does not care about failures. -/
def goOn (writer : Writer) (span : Span) : Writer := leftBy (writer.writeSpan span)

variable {writer after : Writer} {step : Step} {text : Text}

theorem Writes.sink_leftBy (h : Writes writer step text after) :
    (leftBy step).sink = Sink.held (writer.sink.write text) := by
  rw [Writes] at h
  split at h
  · next hwrite =>
      rw [h, hwrite]
      rfl
  · next hwrite =>
      obtain ⟨left, rfl, hleft⟩ := h
      rw [hwrite]
      exact hleft

theorem spanPieces_markup_ne_nil (writer : Writer) {span : Span} (h : span.text ≠ []) :
    Piece.markup writer.escaping (writer.spanPieces span) ≠ [] := by
  rw [spanPieces, if_neg h, Piece.markup_append, Piece.markup_cons]
  simp [Piece.chars_text_ne_nil writer.escaping h]

theorem isOk_writeSpan_of_isFull (h : writer.sink.IsFull) {span : Span}
    (htext : span.text ≠ []) : (writer.writeSpan span).isOk = false := by
  rw [(writeSpan_writes writer span).isOk_eq,
    h.write_of_ne_nil (writer.spanPieces_markup_ne_nil htext)]
  rfl

theorem goOn_sink (writer : Writer) (span : Span) :
    (writer.goOn span).sink = Sink.held
      (writer.sink.write (Piece.markup writer.escaping (writer.spanPieces span))) :=
  (writeSpan_writes writer span).sink_leftBy

theorem goOn_sink_of_isFull (h : writer.sink.IsFull) (span : Span) :
    (writer.goOn span).sink = writer.sink := by
  rw [goOn_sink, h.held_write]

theorem foldl_goOn_sink_of_isFull (h : writer.sink.IsFull) (spans : List Span) :
    (spans.foldl goOn writer).sink = writer.sink := by
  induction spans generalizing writer with
  | nil => rfl
  | cons span spans ih =>
      have hsink := goOn_sink_of_isFull h span
      rw [List.foldl_cons, ih (hsink ▸ h), hsink]

theorem isFull_of_writeSpan {span : Span} (h : (writer.writeSpan span).isOk = false) :
    (writer.goOn span).sink.IsFull := by
  have hwrites := writeSpan_writes writer span
  rw [hwrites.isOk_eq] at h
  rw [goOn, hwrites.sink_leftBy]
  cases hwrite : writer.sink.write _ with
  | ok sink =>
      rw [hwrite] at h
      contradiction
  | error full => exact Sink.isFull_of_write hwrite

/-- The calls behind a failure add nothing, and so it is one write of all the markup. -/
theorem foldl_goOn_sink (writer : Writer) (spans : List Span) :
    (spans.foldl goOn writer).sink = Sink.held
      (writer.sink.write (Piece.markup writer.escaping (writer.runPieces spans))) := by
  induction spans generalizing writer with
  | nil => rw [runPieces, Piece.markup_nil, Sink.write_nil]; rfl
  | cons span spans ih =>
      have hwrites := writeSpan_writes writer span
      rw [Writes] at hwrites
      rw [List.foldl_cons, runPieces, Piece.markup_append, Sink.write_append]
      split at hwrites
      · next sink hwrite =>
          have hnext : writer.goOn span = { writer.after span with sink } := by
            rw [goOn, hwrites, leftBy]
          rw [hnext, ih, hwrite, runPieces_with_sink]
          exact congrArg (fun escaping => Sink.held (sink.write
            (Piece.markup escaping ((writer.after span).runPieces spans))))
            (after_escaping writer span)
      · next full hwrite =>
          have hsink := writer.goOn_sink span
          rw [hwrite, Sink.held] at hsink
          have hfull : (writer.goOn span).sink.IsFull :=
            hsink ▸ Sink.isFull_of_write hwrite
          rw [foldl_goOn_sink_of_isFull hfull, hwrite, hsink]
          rfl

theorem foldl_goOn_of_unlimited (h : writer.sink.room = none) (spans : List Span) :
    spans.foldl goOn writer = spans.foldl Writer.after writer := by
  induction spans generalizing writer with
  | nil => rfl
  | cons span spans ih =>
      have hnext : writer.goOn span = writer.after span := by
        rw [goOn, writeSpan_of_unlimited h, leftBy]
      rw [List.foldl_cons, List.foldl_cons, hnext, ih (by simpa using h)]

/-- A sink of limited room holds the front part of what an unlimited one holds. -/
theorem foldl_goOn_text (escaping : Bool) (held : Text) (room : Nat) (spans : List Span) :
    (spans.foldl goOn { sink := .ofText held (some room), escaping }).sink.text =
      held ++ (spans.foldl goOn (fresh escaping [])).sink.text.take room := by
  have hunlimited : (spans.foldl goOn (fresh escaping [])).sink.text =
      Piece.markup escaping ((fresh escaping []).runPieces spans) := by
    rw [foldl_goOn_of_unlimited rfl, foldl_after_text, fresh_text]
    rfl
  rw [hunlimited, foldl_goOn_sink, Sink.held_write_of_room _ room _ rfl, Sink.text_ofText]
  exact congrArg (fun pieces => held ++ (Piece.markup escaping pieces).take room)
    ((fresh escaping []).runPieces_with_sink _ spans)

theorem isFull_of_failed {front back : List Span} {span : Span}
    (h : ((front.foldl goOn writer).writeSpan span).isOk = false) :
    ((front ++ span :: back).foldl goOn writer).sink.IsFull := by
  have hfull := isFull_of_writeSpan h
  rw [List.foldl_append, List.foldl_cons, Sink.IsFull, foldl_goOn_sink_of_isFull hfull]
  exact hfull

/-! ## Finishing -/

theorem closingPieces_markup_eq_nil_iff :
    Piece.markup writer.escaping writer.closingPieces = [] ↔ writer.stack = [] := by
  rcases List.eq_nil_or_concat writer.stack with hstack | ⟨front, tag, hstack⟩
  · simp [closingPieces, hstack, Piece.ofMoves]
  · simp [closingPieces, hstack, Piece.ofMoves, Piece.ofMove, Piece.markup, Piece.chars,
      Tag.closing]

/-- All that finishing needs room for are the closing tags. -/
theorem isOk_finish_of_isFull (h : writer.sink.IsFull) :
    writer.finish.isOk = false ↔ writer.stack ≠ [] := by
  rw [(finish_writes writer).isOk_eq, ne_eq, ← closingPieces_markup_eq_nil_iff]
  by_cases hmarkup : Piece.markup writer.escaping writer.closingPieces = []
  · simp [hmarkup, Sink.write_nil, Except.isOk, Except.toBool]
  · simp [h.write_of_ne_nil hmarkup, hmarkup, Except.isOk, Except.toBool]

theorem finish_sink_of_isFull (h : writer.sink.IsFull) :
    (leftBy writer.finish).sink = writer.sink := by
  rw [(finish_writes writer).sink_leftBy, h.held_write]

/-! ## What a step leaves behind -/

/-- The writers differ at most in their sinks and in the backslashes they count. -/
structure Alike (writer other : Writer) : Prop where
  escaping_eq : other.escaping = writer.escaping
  stack_eq : other.stack = writer.stack
  current_eq : other.current = writer.current

namespace Alike

variable {other : Writer}

theorem trans {last : Writer} (h : Alike writer other) (hlast : Alike other last) :
    Alike writer last where
  escaping_eq := hlast.escaping_eq.trans h.escaping_eq
  stack_eq := hlast.stack_eq.trans h.stack_eq
  current_eq := hlast.current_eq.trans h.current_eq

theorem bind {step : Step} {next : Writer → Step} (h : Alike writer (leftBy step))
    (hnext : ∀ between, Alike between (leftBy (next between))) :
    Alike writer (leftBy (step >>= next)) := by
  cases step with
  | ok between => exact h.trans (hnext between)
  | error left => exact h

end Alike

theorem put_alike (writer : Writer) (text : Text) :
    Alike writer (leftBy (writer.put text)) := by
  unfold put
  cases writer.sink.write text <;> exact ⟨rfl, rfl, rfl⟩

theorem guardTag_alike (writer : Writer) : Alike writer (leftBy writer.guardTag) := by
  have hcount : ∀ between : Writer,
      Alike between (leftBy (.ok { between with backslashes := 0 })) :=
    fun between => ⟨rfl, rfl, rfl⟩
  unfold guardTag
  split
  · exact (writer.put_alike _).bind hcount
  · exact hcount writer

theorem putTag_alike (writer : Writer) (bracket : Text) (tag : Tag) :
    Alike writer (leftBy (writer.putTag bracket tag)) :=
  (writer.put_alike bracket).bind fun between =>
    (between.put_alike tag.name).bind fun between => between.put_alike ['>']

theorem putEscaped_alike (writer : Writer) (pending text : Text) :
    Alike writer (leftBy (writer.putEscaped pending text)) := by
  induction text generalizing writer pending with
  | nil => exact writer.put_alike _
  | cons c rest ih =>
      rw [putEscaped]
      split
      · exact (writer.put_alike _).bind fun between =>
          (between.put_alike _).bind fun between => ih between [c]
      · exact ih writer (c :: pending)

/-- A tag that is opened is on the stack only when it has been written. -/
theorem perform_start_alike (writer : Writer) (tag : Tag) :
    Alike
      { writer with
        stack := writer.stack ++
          if (writer.perform (.start tag)).isOk then [tag] else [] }
      (leftBy (writer.perform (.start tag))) := by
  obtain ⟨step, hstep, hperform⟩ : ∃ step, Alike writer (leftBy step) ∧
      writer.perform (.start tag) =
        step >>= fun next => .ok { next with stack := next.stack ++ [tag] } :=
    ⟨writer.guardTag >>= (·.putTag ['<'] tag),
      writer.guardTag_alike.bind fun between => between.putTag_alike _ tag,
      (bind_assoc writer.guardTag _ _).symm⟩
  rw [hperform]
  cases step with
  | ok next =>
      exact ⟨hstep.escaping_eq, congrArg (· ++ [tag]) hstep.stack_eq, hstep.current_eq⟩
  | error left =>
      refine ⟨hstep.escaping_eq, ?_, hstep.current_eq⟩
      exact hstep.stack_eq.trans (List.append_nil _).symm

/-- A tag that is closed is off the stack before anything is written. -/
theorem perform_close_alike (writer : Writer) (tag : Tag) :
    Alike { writer with stack := writer.stack.dropLast }
      (leftBy (writer.perform (.close tag))) :=
  (guardTag_alike _).bind fun between => between.putTag_alike _ tag

theorem putText_alike (writer : Writer) (text : Text) :
    Alike writer (leftBy (writer.putText text)) := by
  unfold putText
  split
  · exact writer.putEscaped_alike [] text
  · have hcounted : Alike writer
        { writer with backslashes := trailingBackslashes writer.backslashes text } :=
      ⟨rfl, rfl, rfl⟩
    exact hcounted.trans (put_alike _ text)

theorem foldlM_perform_current (writer : Writer) (moves : List Move) :
    (leftBy (moves.foldlM perform writer)).current = writer.current := by
  induction moves generalizing writer with
  | nil => rfl
  | cons move moves ih =>
      have hperform : (leftBy (writer.perform move)).current = writer.current := by
        cases move with
        | start tag => exact (writer.perform_start_alike tag).current_eq
        | close tag => exact (writer.perform_close_alike tag).current_eq
      rw [List.foldlM_cons]
      cases hstep : writer.perform move with
      | ok next =>
          rw [hstep] at hperform
          exact (ih next).trans hperform
      | error left =>
          rw [hstep] at hperform
          exact hperform

end Writer

end ChatCodes.Markup
