import ChatCodes.Proofs.Markup.GoingOn
import ChatCodes.Proofs.Markup.OpenTags

/-!
# What a writer has tried

A writer tries to write tags and texts, each behind its guard if it needs one, until one
does not fit; the next call may try again.  At every moment the attempts so far account
for the writer: its sink is what writing them all at once leaves, and its open tags are
those that were opened completely and that it has not tried to close.  The style of a
writer is the last one to which it got all the way.
-/

namespace ChatCodes.Markup

/--
A tag or a text that a writer tried to write, with the guard in front of it, and the
step that this was.
-/
structure Attempt where
  guards : List Piece
  piece : Piece
  step : Writer.Step

namespace Attempt

def isComplete (attempt : Attempt) : Bool := attempt.step.isOk

def after (attempt : Attempt) : Writer := Writer.leftBy attempt.step

def pieces (attempt : Attempt) : List Piece := attempt.guards ++ [attempt.piece]

def markup (escaping : Bool) (attempts : List Attempt) : Text :=
  Piece.markup escaping (attempts.flatMap pieces)

def opened? : Attempt → Option Tag
  | ⟨_, .start tag, .ok _⟩ => some tag
  | _ => none

/-- The tags opened completely that no later attempt was to close, in this order. -/
def stillOpen : List Attempt → List Tag
  | [] => []
  | attempt :: later =>
      match attempt.opened? with
      | some tag =>
          if later.any (·.piece = .close tag) then stillOpen later
          else tag :: stillOpen later
      | none => stillOpen later

end Attempt

namespace Writer

def tryMove (writer : Writer) (move : Move) : Attempt :=
  ⟨Piece.guards writer.backslashes, Piece.ofMove move, writer.perform move⟩

/-- Moves are tried one after another, up to the first that fails. -/
def tryMoves : Writer → List Move → List Attempt
  | _, [] => []
  | writer, move :: moves =>
      writer.tryMove move ::
        match writer.perform move with
        | .ok next => next.tryMoves moves
        | .error _ => []

/-- A text is tried once its style is reached. -/
def trySpan (writer : Writer) (span : Span) : List Attempt :=
  if span.text = [] then []
  else
    writer.tryMoves (writer.moves span.style) ++
      match writer.setStyle span.style with
      | .ok next => [⟨[], .text span.text, next.putText span.text⟩]
      | .error _ => []

/-- What calls try that go on after failures. -/
def tried : Writer → List Span → List Attempt
  | _, [] => []
  | writer, span :: spans => writer.trySpan span ++ (writer.goOn span).tried spans

def closings (writer : Writer) : List Move := writer.stack.reverse.map .close

/-- The styles of the texts in front of which no tag failed. -/
def reached : Writer → List Span → List Style
  | _, [] => []
  | writer, span :: spans =>
      let later := (writer.goOn span).reached spans
      if span.text ≠ [] ∧
          (writer.tryMoves (writer.moves span.style)).all Attempt.isComplete = true then
        span.style :: later
      else later

end Writer

/-! ## Tags still open -/

namespace Attempt

theorem stillOpen_concat (past : List Attempt) (attempt : Attempt) :
    stillOpen (past ++ [attempt]) =
      (stillOpen past).filter (fun tag => attempt.piece ≠ .close tag) ++
        attempt.opened?.toList := by
  induction past with
  | nil =>
      simp only [List.nil_append, stillOpen, List.any_nil, List.filter_nil]
      cases attempt.opened? <;> rfl
  | cons first past ih =>
      rw [List.cons_append, stillOpen, stillOpen]
      cases first.opened? with
      | none => exact ih
      | some tag =>
          by_cases hpast : past.any (·.piece = .close tag) = true
          · simp [hpast, ih]
          · by_cases hclose : attempt.piece = .close tag
            · simp [hpast, hclose, ih]
            · simp [hpast, hclose, ih]

theorem stillOpen_concat_start (past : List Attempt) (writer : Writer) (tag : Tag) :
    stillOpen (past ++ [writer.tryMove (.start tag)]) =
      stillOpen past ++ if (writer.perform (.start tag)).isOk then [tag] else [] := by
  rw [stillOpen_concat, Writer.tryMove]
  cases writer.perform (.start tag) <;>
    simp [opened?, Piece.ofMove, Except.isOk, Except.toBool]

theorem stillOpen_concat_close {past : List Attempt} {front : List Tag} {tag : Tag}
    (h : stillOpen past = front ++ [tag]) (htag : tag ∉ front) (writer : Writer) :
    stillOpen (past ++ [writer.tryMove (.close tag)]) = front := by
  have hfront : front.filter (fun other => decide (tag ≠ other)) = front :=
    List.filter_eq_self.mpr fun other hother => by
      simpa using (ne_of_mem_of_not_mem hother htag).symm
  rw [stillOpen_concat, h]
  simpa [Writer.tryMove, opened?, Piece.ofMove] using hfront

theorem stillOpen_concat_text (past : List Attempt) (guards : List Piece) (text : Text)
    (step : Writer.Step) :
    stillOpen (past ++ [⟨guards, .text text, step⟩]) = stillOpen past := by
  rw [stillOpen_concat]
  simp [opened?]

end Attempt

namespace Writer

theorem perform_stack {writer next : Writer} {move : Move}
    (h : writer.perform move = .ok next) :
    next.stack = (Piece.ofMove move).tagsAfter writer.stack := by
  cases move with
  | start tag =>
      have halike := writer.perform_start_alike tag
      rw [h] at halike
      exact halike.stack_eq
  | close tag =>
      have halike := writer.perform_close_alike tag
      rw [h] at halike
      exact halike.stack_eq

theorem setStyle_eq (writer : Writer) (style : Style) :
    writer.setStyle style = (writer.moves style).foldlM perform writer >>= fun next =>
      .ok { next with current := style } := by
  unfold setStyle moves
  split
  · next hsame =>
      subst hsame
      rfl
  · rfl

theorem tryMoves_of_ok {writer next : Writer} {move : Move}
    (h : writer.perform move = .ok next) (moves : List Move) :
    writer.tryMoves (move :: moves) = [writer.tryMove move] ++ next.tryMoves moves := by
  rw [tryMoves, h, List.singleton_append]

theorem tryMoves_of_error {writer left : Writer} {move : Move}
    (h : writer.perform move = .error left) (moves : List Move) :
    writer.tryMoves (move :: moves) = [writer.tryMove move] := by
  rw [tryMoves, h]

/-- The moves are made as a whole just when each attempt at one is complete. -/
theorem all_isComplete_tryMoves (writer : Writer) (moves : List Move) :
    (writer.tryMoves moves).all Attempt.isComplete =
      (moves.foldlM perform writer).isOk := by
  induction moves generalizing writer with
  | nil => rfl
  | cons move moves ih =>
      have hone : (writer.tryMove move).isComplete = (writer.perform move).isOk := rfl
      rw [List.foldlM_cons, tryMoves, List.all_cons, hone]
      cases writer.perform move with
      | ok next => exact ih next
      | error left => rfl

end Writer

/-! ## Accounts -/

namespace Attempt

open Writer (Alike Writes)

/-- What was tried so far explains the sink and the open tags of the writer. -/
structure AccountFor (escaping : Bool) (start : Sink) (past : List Attempt)
    (writer : Writer) : Prop where
  escaping_eq : writer.escaping = escaping
  sink_eq : writer.sink = Sink.held (start.write (markup escaping past))
  stack_eq : writer.stack = stillOpen past
  compatible : Tag.Compatible writer.stack

/-- So it does behind each further attempt, and an attempt was complete if it all fits. -/
def AccountAlong (escaping : Bool) (start : Sink) :
    List Attempt → List Attempt → Prop
  | _, [] => True
  | past, attempt :: later =>
      AccountFor escaping start (past ++ [attempt]) attempt.after ∧
        attempt.isComplete =
          (start.write (markup escaping (past ++ [attempt]))).isOk ∧
        AccountAlong escaping start (past ++ [attempt]) later

variable {escaping : Bool} {start : Sink} {past : List Attempt} {writer : Writer}

theorem AccountAlong.append {front back : List Attempt}
    (h : AccountAlong escaping start past front)
    (hback : AccountAlong escaping start (past ++ front) back) :
    AccountAlong escaping start past (front ++ back) := by
  induction front generalizing past with
  | nil => simpa using hback
  | cons attempt front ih =>
      obtain ⟨hfor, hcomplete, hlater⟩ := h
      exact ⟨hfor, hcomplete, ih hlater (by simpa using hback)⟩

theorem AccountAlong.of_split {front later : List Attempt} {attempt : Attempt}
    (h : AccountAlong escaping start past (front ++ attempt :: later)) :
    AccountFor escaping start (past ++ front ++ [attempt]) attempt.after ∧
      attempt.isComplete =
        (start.write (markup escaping (past ++ front ++ [attempt]))).isOk := by
  induction front generalizing past with
  | nil => exact ⟨by simpa using h.1, by simpa using h.2.1⟩
  | cons first front ih => simpa using ih h.2.2

namespace AccountFor

theorem concat (h : AccountFor escaping start past writer) {attempt : Attempt}
    {other : Writer}
    (hwrites : Writes writer attempt.step (Piece.markup escaping attempt.pieces) other)
    (hpieces : Piece.markup escaping attempt.pieces ≠ [])
    (halike : Alike { writer with stack := stillOpen (past ++ [attempt]) } attempt.after)
    (hcompatible : Tag.Compatible (stillOpen (past ++ [attempt]))) :
    AccountAlong escaping start past [attempt] := by
  have hmarkup : markup escaping (past ++ [attempt]) =
      markup escaping past ++ Piece.markup escaping attempt.pieces := by
    simp [markup]
  refine ⟨⟨?_, ?_, halike.stack_eq, ?_⟩, ?_, trivial⟩
  · exact halike.escaping_eq.trans h.escaping_eq
  · rw [after, hwrites.sink_leftBy, h.sink_eq, hmarkup, Sink.held_write_append]
  · rw [halike.stack_eq]
    exact hcompatible
  · rw [isComplete, hwrites.isOk_eq, h.sink_eq, hmarkup,
      Sink.isOk_write_append _ _ hpieces]

theorem tryMove (h : AccountFor escaping start past writer) {move : Move}
    {later : List Piece} {texts : List (Text × List Tag)} {last : List Tag}
    (hnests : Nests writer.stack (Piece.ofMove move :: later) texts last)
    (hstays : StaysCompatible writer.stack (Piece.ofMove move :: later)) :
    AccountAlong escaping start past [writer.tryMove move] := by
  have hwrites := writer.perform_writes move
  rw [h.escaping_eq] at hwrites
  have hpieces : Piece.markup escaping
      (Piece.guards writer.backslashes ++ [Piece.ofMove move]) ≠ [] := by
    cases move <;> simp [Piece.markup, Piece.chars, Piece.ofMove, Tag.opening, Tag.closing]
  cases move with
  | start tag =>
      have halike := writer.perform_start_alike tag
      have hopen := stillOpen_concat_start past writer tag
      rw [← h.stack_eq] at hopen
      refine h.concat hwrites hpieces (hopen ▸ halike) ?_
      rw [hopen]
      split
      · exact hstays.2.compatible
      · simpa using h.compatible
  | close tag =>
      have halike := writer.perform_close_alike tag
      generalize hstack : writer.stack = stack at hnests
      cases hnests with
      | @close front _ _ _ _ _ =>
          have hcompatible := h.compatible
          rw [hstack] at hcompatible halike
          -- Every equal tag counts as closed, so the innermost must be the only one.
          have htag : tag ∉ front := by
            intro hmem
            exact (List.nodup_append.mp hcompatible.nodup).2.2 tag hmem tag (by simp) rfl
          have hopen := stillOpen_concat_close (h.stack_eq ▸ hstack) htag writer
          rw [List.dropLast_concat, ← hopen] at halike
          refine h.concat hwrites hpieces halike ?_
          rw [hopen]
          exact hcompatible.sublist (List.sublist_append_left _ _)

theorem tryMoves (h : AccountFor escaping start past writer) {moves : List Move}
    {texts : List (Text × List Tag)} {last : List Tag}
    (hnests : Nests writer.stack (moves.map Piece.ofMove) texts last)
    (hstays : StaysCompatible writer.stack (moves.map Piece.ofMove)) :
    AccountAlong escaping start past (writer.tryMoves moves) ∧
      AccountFor escaping start (past ++ writer.tryMoves moves)
        (Writer.leftBy (moves.foldlM Writer.perform writer)) := by
  induction moves generalizing writer past texts with
  | nil =>
      rw [Writer.tryMoves, List.append_nil]
      exact ⟨trivial, h⟩
  | cons move moves ih =>
      have hone := h.tryMove hnests hstays
      have hafter : (writer.tryMove move).after = Writer.leftBy (writer.perform move) := rfl
      have hfor := hone.1
      rw [List.foldlM_cons]
      cases hstep : writer.perform move with
      | ok next =>
          rw [hafter, hstep, Writer.leftBy] at hfor
          have hstack := Writer.perform_stack hstep
          obtain ⟨later, hrest⟩ := hnests.tail
          obtain ⟨halong, hlast⟩ := ih hfor (hstack ▸ hrest) (hstack ▸ hstays.2)
          rw [Writer.tryMoves_of_ok hstep, ← List.append_assoc]
          exact ⟨hone.append halong, hlast⟩
      | error left =>
          rw [hafter, hstep] at hfor
          rw [Writer.tryMoves_of_error hstep]
          exact ⟨hone, hfor⟩

theorem moves (h : AccountFor escaping start past writer) (style : Style) :
    (∃ last, Nests writer.stack ((writer.moves style).map Piece.ofMove) [] last) ∧
      StaysCompatible writer.stack ((writer.moves style).map Piece.ofMove) := by
  rw [Writer.moves]
  split
  · exact ⟨⟨_, .done _⟩, h.compatible⟩
  · exact ⟨⟨_, toStyle_nests _ style⟩, .toStyle h.compatible style⟩

theorem putText (h : AccountFor escaping start past writer) {text : Text}
    (htext : text ≠ []) :
    AccountAlong escaping start past [⟨[], .text text, writer.putText text⟩] := by
  have hwrites := writer.putText_writes text
  have hopen := stillOpen_concat_text past [] text (writer.putText text)
  rw [h.escaping_eq, ← List.append_nil (Piece.chars _ _)] at hwrites
  rw [← h.stack_eq] at hopen
  refine h.concat hwrites ?_ (hopen ▸ writer.putText_alike text) (hopen ▸ h.compatible)
  simpa [Piece.markup, pieces] using Piece.chars_text_ne_nil escaping htext

theorem trySpan (h : AccountFor escaping start past writer) (span : Span) :
    AccountAlong escaping start past (writer.trySpan span) ∧
      AccountFor escaping start (past ++ writer.trySpan span) (writer.goOn span) := by
  unfold Writer.trySpan Writer.goOn Writer.writeSpan
  split
  · rw [List.append_nil]
    exact ⟨trivial, h⟩
  · next htext =>
      obtain ⟨⟨last, hnests⟩, hstays⟩ := h.moves span.style
      obtain ⟨halong, hmoved⟩ := h.tryMoves hnests hstays
      rw [Writer.setStyle_eq]
      cases hmoves : (writer.moves span.style).foldlM Writer.perform writer with
      | ok moved =>
          rw [hmoves] at hmoved
          let next : Writer := { moved with current := span.style }
          have hnext : AccountFor escaping start _ next :=
            ⟨hmoved.escaping_eq, hmoved.sink_eq, hmoved.stack_eq, hmoved.compatible⟩
          have hput := hnext.putText htext
          rw [← List.append_assoc]
          exact ⟨halong.append hput, hput.1⟩
      | error left =>
          rw [hmoves] at hmoved
          rw [← List.append_nil (writer.tryMoves _)] at hmoved halong
          exact ⟨halong, hmoved⟩

theorem tried (h : AccountFor escaping start past writer) (spans : List Span) :
    AccountAlong escaping start past (writer.tried spans) ∧
      AccountFor escaping start (past ++ writer.tried spans)
        (spans.foldl Writer.goOn writer) := by
  induction spans generalizing writer past with
  | nil =>
      rw [Writer.tried, List.append_nil]
      exact ⟨trivial, h⟩
  | cons span spans ih =>
      obtain ⟨halong, hnext⟩ := h.trySpan span
      obtain ⟨hlater, hlast⟩ := ih hnext
      rw [Writer.tried, ← List.append_assoc]
      exact ⟨halong.append hlater, hlast⟩

end AccountFor

end Attempt

namespace Writer

/-! ## The style of a writer -/

theorem goOn_current (writer : Writer) (span : Span) :
    (writer.goOn span).current =
      if span.text ≠ [] ∧
          (writer.tryMoves (writer.moves span.style)).all Attempt.isComplete = true then
        span.style
      else writer.current := by
  have hmoves := writer.foldlM_perform_current (writer.moves span.style)
  rw [all_isComplete_tryMoves]
  unfold goOn writeSpan
  by_cases htext : span.text = []
  · simp [htext, leftBy]
  · rw [if_neg htext, setStyle_eq]
    cases hstep : (writer.moves span.style).foldlM perform writer with
    | ok next =>
        rw [if_pos ⟨htext, rfl⟩]
        exact (putText_alike { next with current := span.style } span.text).current_eq
    | error left =>
        rw [hstep] at hmoves
        rw [if_neg (by simp [Except.isOk, Except.toBool])]
        exact hmoves

theorem foldl_goOn_current (writer : Writer) (spans : List Span) :
    (spans.foldl goOn writer).current =
      (writer.reached spans).getLastD writer.current := by
  induction spans generalizing writer with
  | nil => rfl
  | cons span spans ih =>
      rw [List.foldl_cons, ih, goOn_current, reached]
      split
      · rw [List.getLastD_cons]
      · rfl

end Writer

namespace Attempt

theorem AccountFor.start (escaping : Bool) (sink : Sink) :
    AccountFor escaping sink [] { sink, escaping } where
  escaping_eq := rfl
  sink_eq := by
    rw [markup, List.flatMap_nil, Piece.markup_nil, Sink.write_nil]
    rfl
  stack_eq := rfl
  compatible := Tag.compatible_ofStyle .plain

theorem AccountFor.closings {escaping : Bool} {start : Sink} {past : List Attempt}
    {writer : Writer} (h : AccountFor escaping start past writer) :
    AccountAlong escaping start past (writer.tryMoves writer.closings) :=
  (h.tryMoves (Nests.closings [] writer.stack)
    (@StaysCompatible.closings [] writer.stack h.compatible)).1

end Attempt

/--
A sink of limited room holds the front part of what the same calls write without limit.
Behind a call that failed, every call for a text fails and nothing is written, and
finishing fails just when a tag is open.  Behind every attempt, those of finishing
included, the open tags are compatible and are those that were opened completely, with
all of the text that was to be written in the room, and that no attempt was to close,
and the current style is the last one that was reached.
-/
theorem writer_goes_on_soundly (escaping : Bool) (held : Text) (room : Nat)
    (spans : List Span) :
    let start : Writer := { sink := .ofText held (some room), escaping }
    let last := spans.foldl Writer.goOn start
    let tried := start.tried spans
    last.sink.text =
      held ++ (spans.foldl Writer.goOn (.fresh escaping [])).sink.text.take room ∧
    (∀ front span back, spans = front ++ span :: back →
      ((front.foldl Writer.goOn start).writeSpan span).isOk = false →
      (∀ next : Span, next.text ≠ [] → (last.writeSpan next).isOk = false) ∧
      (∀ next, (last.goOn next).sink = last.sink) ∧
      (last.finish.isOk = false ↔ last.stack ≠ []) ∧
      (Writer.leftBy last.finish).sink = last.sink) ∧
    Attempt.AccountFor escaping start.sink tried last ∧
    (∀ past attempt later,
      tried ++ last.tryMoves last.closings = past ++ attempt :: later →
      Attempt.AccountFor escaping start.sink (past ++ [attempt]) attempt.after ∧
      (attempt.isComplete = true ↔
        (Attempt.markup escaping (past ++ [attempt])).length ≤ room)) ∧
    last.current = (start.reached spans).getLastD .plain := by
  intro start last tried
  obtain ⟨halong, hlast⟩ := (Attempt.AccountFor.start escaping start.sink).tried spans
  rw [List.nil_append] at hlast
  refine ⟨Writer.foldl_goOn_text escaping held room spans, ?_, hlast, ?_,
    start.foldl_goOn_current spans⟩
  · rintro front span back rfl hfailed
    have hfull : last.sink.IsFull := Writer.isFull_of_failed hfailed
    exact ⟨fun next htext => Writer.isOk_writeSpan_of_isFull hfull htext,
      Writer.goOn_sink_of_isFull hfull, Writer.isOk_finish_of_isFull hfull,
      Writer.finish_sink_of_isFull hfull⟩
  · intro past attempt later hsplit
    have hall := halong.append hlast.closings
    have hall' : Attempt.AccountAlong escaping start.sink [] (past ++ attempt :: later) :=
      hsplit ▸ hall
    obtain ⟨hfor, hcomplete⟩ := hall'.of_split
    rw [List.nil_append] at hfor hcomplete
    refine ⟨hfor, ?_⟩
    rw [hcomplete]
    exact Sink.isOk_write_iff start.sink room _ rfl

/--
The second text closes the bold tag, for which only `<` fits.  That tag counts as closed
from then on and the red one stays open, although the current style is still red and bold.
-/
theorem writer_goes_on_soundly_with_half_a_tag :
    let redBold : Style := ⟨some (.named .red), .ofList [.bold]⟩
    let spans : List Span := [⟨['a'], redBold⟩, ⟨['b'], .plain⟩, ⟨['c'], redBold⟩]
    let start : Writer := { sink := .ofText [] (some 13), escaping := false }
    let last := spans.foldl Writer.goOn start
    last.sink.text = "<red><bold>a<".toList ∧
    last.stack = [.color (.named .red)] ∧
    last.current = redBold ∧
    (last.writeSpan ⟨['d'], .plain⟩).isOk = false ∧
    last.finish.isOk = false ∧
    (Writer.leftBy last.finish).sink = last.sink := by
  intro redBold spans start last
  obtain ⟨htext, hfailed, haccount, -, hcurrent⟩ :=
    writer_goes_on_soundly false [] 13 spans
  obtain ⟨hwrite, -, hfinish, hsink⟩ :=
    hfailed [⟨['a'], redBold⟩] ⟨['b'], .plain⟩ [⟨['c'], redBold⟩] rfl (by decide +kernel)
  have hstack : last.stack = [.color (.named .red)] := haccount.stack_eq.trans (by decide +kernel)
  refine ⟨htext.trans (by decide +kernel), hstack, hcurrent.trans (by decide +kernel),
    hwrite _ (by decide), hfinish.mpr ?_, hsink⟩
  rw [hstack]
  decide

end ChatCodes.Markup
