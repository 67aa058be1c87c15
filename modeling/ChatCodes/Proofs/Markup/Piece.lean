import ChatCodes.Markup.Writer

/-!
# Pieces of markup

What a writer writes falls into pieces: texts, tags, and the backslashes that
guard tags.  A sink that never fills takes every piece, so each step of a writer
is to emit the pieces of that step, one after another.
-/

namespace ChatCodes.Markup

/-- The text with a backslash in front of each character that would not stand for itself. -/
def escape (text : Text) : Text :=
  text.flatMap fun c => if c = '<' ∨ c = '\\' then ['\\', c] else [c]

inductive Piece where
  | guard
  | start (tag : Tag)
  | close (tag : Tag)
  | text (text : Text)
  deriving DecidableEq, Repr

namespace Piece

def ofMove : Move → Piece
  | .start tag => .start tag
  | .close tag => .close tag

def chars (escaping : Bool) : Piece → Text
  | .guard => ['\\']
  | .start tag => tag.opening
  | .close tag => tag.closing
  | .text literal => if escaping then escape literal else literal

def markup (escaping : Bool) (pieces : List Piece) : Text :=
  pieces.flatMap (chars escaping)

/-- The open tags behind a piece, given those in front of it, outermost first. -/
def tagsAfter (stack : List Tag) : Piece → List Tag
  | .guard | .text _ => stack
  | .start tag => stack ++ [tag]
  | .close _ => stack.dropLast

/-- The backslashes to account for at the next tag. -/
def backslashesAfter (escaping : Bool) (backslashes : Nat) : Piece → Nat
  | .guard | .start _ | .close _ => 0
  | .text literal =>
      if escaping then backslashes else trailingBackslashes backslashes literal

@[simp] theorem markup_nil (escaping : Bool) : markup escaping [] = [] := rfl

theorem markup_cons (escaping : Bool) (piece : Piece) (pieces : List Piece) :
    markup escaping (piece :: pieces) =
      piece.chars escaping ++ markup escaping pieces := rfl

@[simp] theorem markup_append (escaping : Bool) (front back : List Piece) :
    markup escaping (front ++ back) = markup escaping front ++ markup escaping back := by
  simp [markup]

def guards (backslashes : Nat) : List Piece :=
  if backslashes % 2 = 1 then [.guard] else []

@[simp] theorem guards_zero : guards 0 = [] := rfl

/-- Only the first of several tags in a row can need a guard. -/
def ofMoves (backslashes : Nat) : List Move → List Piece
  | [] => []
  | move :: moves => guards backslashes ++ (move :: moves).map ofMove

@[simp] theorem ofMoves_zero (moves : List Move) :
    ofMoves 0 moves = moves.map ofMove := by
  cases moves <;> simp [ofMoves]

end Piece

/-! ## Sinks that never fill -/

namespace Sink

def extend (sink : Sink) (text : Text) : Sink :=
  { sink with backwards := text.reverse ++ sink.backwards }

theorem write_of_unlimited {sink : Sink} (h : sink.room = none) (text : Text) :
    sink.write text = .ok (sink.extend text) := by
  simp [write, extend, h, List.reverseAux_eq]

@[simp] theorem extend_room (sink : Sink) (text : Text) :
    (sink.extend text).room = sink.room := rfl

@[simp] theorem extend_text (sink : Sink) (text : Text) :
    (sink.extend text).text = sink.text ++ text := by
  simp [Sink.text, extend]

theorem extend_extend (sink : Sink) (first second : Text) :
    (sink.extend first).extend second = sink.extend (first ++ second) := by
  simp [extend]

end Sink

namespace Writer

def emit (writer : Writer) (piece : Piece) : Writer :=
  { writer with
    sink := writer.sink.extend (piece.chars writer.escaping)
    stack := piece.tagsAfter writer.stack
    backslashes := piece.backslashesAfter writer.escaping writer.backslashes }

def emitAll (writer : Writer) (pieces : List Piece) : Writer :=
  pieces.foldl emit writer

@[simp] theorem emitAll_nil (writer : Writer) : writer.emitAll [] = writer := rfl

@[simp] theorem emitAll_cons (writer : Writer) (piece : Piece)
    (pieces : List Piece) :
    writer.emitAll (piece :: pieces) = (writer.emit piece).emitAll pieces := rfl

theorem emitAll_append (writer : Writer) (front back : List Piece) :
    writer.emitAll (front ++ back) = (writer.emitAll front).emitAll back :=
  List.foldl_append

@[simp] theorem emitAll_escaping (writer : Writer) (pieces : List Piece) :
    (writer.emitAll pieces).escaping = writer.escaping := by
  induction pieces generalizing writer with
  | nil => rfl
  | cons piece pieces ih => exact ih (writer.emit piece)

@[simp] theorem emitAll_room (writer : Writer) (pieces : List Piece) :
    (writer.emitAll pieces).sink.room = writer.sink.room := by
  induction pieces generalizing writer with
  | nil => rfl
  | cons piece pieces ih => exact ih (writer.emit piece)

theorem emitAll_stack (writer : Writer) (pieces : List Piece) :
    (writer.emitAll pieces).stack =
      pieces.foldl Piece.tagsAfter writer.stack := by
  induction pieces generalizing writer with
  | nil => rfl
  | cons piece pieces ih => exact ih (writer.emit piece)

theorem emitAll_backslashes (writer : Writer) (pieces : List Piece) :
    (writer.emitAll pieces).backslashes =
      pieces.foldl (Piece.backslashesAfter writer.escaping) writer.backslashes := by
  induction pieces generalizing writer with
  | nil => rfl
  | cons piece pieces ih => exact ih (writer.emit piece)

/-- Emitting looks at everything in a writer but its sink. -/
theorem emitAll_with_sink (writer : Writer) (pieces : List Piece) (first last : Sink) :
    { ({ writer with sink := first } : Writer).emitAll pieces with sink := last } =
      { writer.emitAll pieces with sink := last } := by
  induction pieces generalizing writer first with
  | nil => rfl
  | cons piece pieces ih =>
      have hemit : ({ writer with sink := first } : Writer).emit piece =
          { writer.emit piece with
            sink := first.extend (piece.chars writer.escaping) } := rfl
      rw [emitAll_cons, hemit, ih, emitAll_cons]

theorem emitAll_sink (writer : Writer) (pieces : List Piece) :
    (writer.emitAll pieces).sink =
      writer.sink.extend (Piece.markup writer.escaping pieces) := by
  induction pieces generalizing writer with
  | nil => rfl
  | cons piece pieces ih =>
      rw [emitAll_cons, ih, Piece.markup_cons, ← Sink.extend_extend]
      rfl

theorem emitAll_text (writer : Writer) (pieces : List Piece) :
    (writer.emitAll pieces).sink.text =
      writer.sink.text ++ Piece.markup writer.escaping pieces := by
  rw [emitAll_sink, Sink.extend_text]

/-! ## Steps that write a text -/

/--
The step puts `text` into the sink.  Where the sink has room for it, the writer is
`after` then, up to its sink; where it has not, the step fails.
-/
def Writes (writer : Writer) (step : Step) (text : Text) (after : Writer) : Prop :=
  match writer.sink.write text with
  | .ok sink => step = .ok { after with sink }
  | .error sink => ∃ left, step = .error left ∧ left.sink = sink

namespace Writes

variable {writer after : Writer} {step : Step} {text : Text}

theorem done (h : step = .ok { after with sink := writer.sink }) :
    Writes writer step [] after := by
  rw [Writes, Sink.write_nil]
  exact h

theorem bind {between : Writer} {next : Writer → Step} {back : Text}
    (h : Writes writer step text between)
    (hnext : ∀ sink,
      Writes { between with sink } (next { between with sink }) back after) :
    Writes writer (step >>= next) (text ++ back) after := by
  rw [Writes, Sink.write_append]
  rw [Writes] at h
  cases hwrite : writer.sink.write text with
  | ok sink =>
      simp only [hwrite] at h
      rw [h]
      exact hnext sink
  | error sink =>
      simp only [hwrite] at h
      obtain ⟨left, rfl, hleft⟩ := h
      exact ⟨left, rfl, hleft⟩

theorem congr {other : Writer} (h : Writes writer step text after)
    (hother : ∀ sink, { after with sink } = { other with sink }) :
    Writes writer step text other := by
  rw [Writes] at h ⊢
  split at h
  · rw [h, hother]
  · exact h

theorem of_unlimited (h : Writes writer step text after) (hroom : writer.sink.room = none) :
    step = .ok { after with sink := writer.sink.extend text } := by
  rw [Writes, Sink.write_of_unlimited hroom] at h
  exact h

end Writes

/-! ## The steps of a writer -/

theorem put_writes (writer : Writer) (text : Text) :
    Writes writer (writer.put text) text writer := by
  unfold Writes put
  cases writer.sink.write text with
  | ok sink => rfl
  | error sink => exact ⟨_, rfl, rfl⟩

theorem guardTag_writes (writer : Writer) :
    Writes writer writer.guardTag
      (Piece.markup writer.escaping (Piece.guards writer.backslashes))
      { writer with backslashes := 0 } := by
  unfold guardTag Piece.guards
  split
  · exact (put_writes writer ['\\']).bind fun sink => .done rfl
  · exact .done rfl

theorem putTag_writes (writer : Writer) (bracket : Text) (tag : Tag) :
    Writes writer (writer.putTag bracket tag) (bracket ++ (tag.name ++ ['>'])) writer := by
  refine (put_writes writer bracket).bind fun sink => ?_
  refine (put_writes _ tag.name).bind fun sink => ?_
  exact (put_writes _ ['>']).congr fun sink => rfl

private theorem emitAll_guards_move (writer : Writer) (move : Move) :
    writer.emitAll (Piece.guards writer.backslashes ++ [Piece.ofMove move]) =
      { writer with
        sink := (writer.sink.extend
          (Piece.markup writer.escaping (Piece.guards writer.backslashes))).extend
            ((Piece.ofMove move).chars writer.escaping)
        stack := (Piece.ofMove move).tagsAfter writer.stack
        backslashes := 0 } := by
  unfold Piece.guards
  split <;> cases move <;> rfl

theorem perform_writes (writer : Writer) (move : Move) :
    Writes writer (writer.perform move)
      (Piece.markup writer.escaping
        (Piece.guards writer.backslashes ++ [Piece.ofMove move]))
      (writer.emitAll (Piece.guards writer.backslashes ++ [Piece.ofMove move])) := by
  rw [Piece.markup_append, emitAll_guards_move]
  cases move with
  | start tag =>
      refine (guardTag_writes writer).bind fun sink => ?_
      exact (putTag_writes _ ['<'] tag).bind fun sink => .done rfl
  | close tag =>
      rw [Piece.markup_cons, Piece.markup_nil, List.append_nil]
      refine Writes.bind (guardTag_writes { writer with stack := writer.stack.dropLast })
        fun sink => ?_
      exact (putTag_writes _ ['<', '/'] tag).congr fun sink => rfl

theorem foldlM_perform_writes (writer : Writer) (moves : List Move) :
    Writes writer (moves.foldlM perform writer)
      (Piece.markup writer.escaping (Piece.ofMoves writer.backslashes moves))
      (writer.emitAll (Piece.ofMoves writer.backslashes moves)) := by
  induction moves generalizing writer with
  | nil => exact .done rfl
  | cons move moves ih =>
      let first := Piece.guards writer.backslashes ++ [Piece.ofMove move]
      have hpieces : Piece.ofMoves writer.backslashes (move :: moves) =
          first ++ Piece.ofMoves (writer.emitAll first).backslashes moves := by
        have hzero : (writer.emitAll first).backslashes = 0 := by
          rw [emitAll_guards_move]
        rw [hzero, Piece.ofMoves_zero]
        simp [first, Piece.ofMoves]
      rw [List.foldlM_cons, hpieces, Piece.markup_append,
        emitAll_append writer first (Piece.ofMoves _ moves)]
      refine (perform_writes writer move).bind fun sink => ?_
      have hlater := ih { writer.emitAll first with sink }
      rw [emitAll_escaping] at hlater
      exact hlater.congr (emitAll_with_sink (writer.emitAll first) _ sink)

def moves (writer : Writer) (style : Style) : List Move :=
  if writer.current = style then [] else Move.toStyle writer.stack style

def spanPieces (writer : Writer) (span : Span) : List Piece :=
  if span.text = [] then []
  else
    Piece.ofMoves writer.backslashes (writer.moves span.style) ++ [.text span.text]

/-- The writer after a call of `writeSpan` that did not fail. -/
def after (writer : Writer) (span : Span) : Writer :=
  if span.text = [] then writer
  else { writer.emitAll (writer.spanPieces span) with current := span.style }

theorem setStyle_writes (writer : Writer) (style : Style) :
    Writes writer (writer.setStyle style)
      (Piece.markup writer.escaping
        (Piece.ofMoves writer.backslashes (writer.moves style)))
      { writer.emitAll (Piece.ofMoves writer.backslashes (writer.moves style)) with
        current := style } := by
  unfold setStyle moves
  split
  · next hsame =>
      rw [← hsame]
      exact .done rfl
  · have hmoves := foldlM_perform_writes writer (Move.toStyle writer.stack style)
    rw [← List.append_nil (Piece.markup _ _)]
    exact hmoves.bind fun sink => .done rfl

theorem putEscaped_writes (writer : Writer) (pending text : Text) :
    Writes writer (writer.putEscaped pending text) (pending.reverse ++ escape text)
      writer := by
  induction text generalizing writer pending with
  | nil => simpa [putEscaped, escape] using put_writes writer pending.reverse
  | cons c rest ih =>
      rw [putEscaped]
      split
      · next hc =>
          have hescape : escape (c :: rest) = ['\\'] ++ ([c].reverse ++ escape rest) := by
            simp [escape, hc]
          rw [hescape]
          refine (put_writes writer pending.reverse).bind fun sink => ?_
          refine (put_writes _ ['\\']).bind fun sink => ?_
          exact (ih _ [c]).congr fun sink => rfl
      · next hc =>
          have hescape : pending.reverse ++ escape (c :: rest) =
              (c :: pending).reverse ++ escape rest := by
            simp [escape, hc]
          rw [hescape]
          exact ih writer (c :: pending)

theorem putText_writes (writer : Writer) (text : Text) :
    Writes writer (writer.putText text) ((Piece.text text).chars writer.escaping)
      (writer.emit (.text text)) := by
  unfold putText
  split
  · next hescaping =>
      rw [Piece.chars, if_pos hescaping]
      refine (putEscaped_writes writer [] text).congr fun sink => ?_
      simp [emit, Piece.tagsAfter, Piece.backslashesAfter, hescaping]
  · next hescaping =>
      rw [Piece.chars, if_neg hescaping]
      let counted : Writer :=
        { writer with backslashes := trailingBackslashes writer.backslashes text }
      refine Writes.congr (put_writes counted text) fun sink => ?_
      simp [counted, emit, Piece.tagsAfter, Piece.backslashesAfter, hescaping]

theorem writeSpan_writes (writer : Writer) (span : Span) :
    Writes writer (writer.writeSpan span)
      (Piece.markup writer.escaping (writer.spanPieces span)) (writer.after span) := by
  unfold writeSpan after spanPieces
  split
  · exact .done rfl
  · rw [Piece.markup_append, emitAll_append]
    refine (setStyle_writes writer span.style).bind fun sink => ?_
    have htext := putText_writes
      { writer.emitAll (Piece.ofMoves writer.backslashes (writer.moves span.style)) with
        sink, current := span.style } span.text
    rw [emitAll_escaping, ← List.append_nil (Piece.chars _ _)] at htext
    exact htext

theorem after_sink (writer : Writer) (span : Span) :
    (writer.after span).sink =
      writer.sink.extend (Piece.markup writer.escaping (writer.spanPieces span)) := by
  unfold after
  split
  · next htext =>
      rw [spanPieces, if_pos htext]
      rfl
  · exact emitAll_sink writer _

theorem after_with_sink (writer : Writer) (span : Span) (first last : Sink) :
    { ({ writer with sink := first } : Writer).after span with sink := last } =
      { writer.after span with sink := last } := by
  unfold after
  split
  · rfl
  · have hpieces := emitAll_with_sink writer (writer.spanPieces span) first last
    exact congrArg (fun next => { next with current := span.style }) hpieces

variable {writer : Writer}

theorem writeSpan_of_unlimited (h : writer.sink.room = none) (span : Span) :
    writer.writeSpan span = .ok (writer.after span) := by
  rw [(writeSpan_writes writer span).of_unlimited h, ← after_sink]

@[simp] theorem after_room (writer : Writer) (span : Span) :
    (writer.after span).sink.room = writer.sink.room := by
  unfold after
  split <;> simp

@[simp] theorem after_escaping (writer : Writer) (span : Span) :
    (writer.after span).escaping = writer.escaping := by
  unfold after
  split <;> simp

theorem after_text (writer : Writer) (span : Span) :
    (writer.after span).sink.text =
      writer.sink.text ++ Piece.markup writer.escaping (writer.spanPieces span) := by
  rw [after_sink, Sink.extend_text]

theorem after_stack (writer : Writer) (span : Span) :
    (writer.after span).stack =
      (writer.spanPieces span).foldl Piece.tagsAfter writer.stack := by
  unfold after
  split
  · next htext => simp [spanPieces, htext]
  · exact emitAll_stack writer _

theorem after_backslashes (writer : Writer) (span : Span) :
    (writer.after span).backslashes =
      (writer.spanPieces span).foldl (Piece.backslashesAfter writer.escaping)
        writer.backslashes := by
  unfold after
  split
  · next htext => simp [spanPieces, htext]
  · exact emitAll_backslashes writer _

/-! ## Runs of a writer -/

def runPieces : Writer → List Span → List Piece
  | _, [] => []
  | writer, span :: spans =>
      writer.spanPieces span ++ (writer.after span).runPieces spans

theorem runPieces_append (writer : Writer) (front back : List Span) :
    writer.runPieces (front ++ back) =
      writer.runPieces front ++ (front.foldl after writer).runPieces back := by
  induction front generalizing writer with
  | nil => rfl
  | cons span front ih =>
      rw [List.cons_append, runPieces, ih, runPieces, List.append_assoc]
      rfl

def closingPieces (writer : Writer) : List Piece :=
  Piece.ofMoves writer.backslashes (writer.stack.reverse.map .close)

theorem foldlM_writeSpan (h : writer.sink.room = none) (spans : List Span) :
    spans.foldlM writeSpan writer = .ok (spans.foldl after writer) := by
  induction spans generalizing writer with
  | nil => rfl
  | cons span spans ih =>
      rw [List.foldlM_cons, writeSpan_of_unlimited h]
      exact ih (by simpa using h)

theorem finish_writes (writer : Writer) :
    Writes writer writer.finish
      (Piece.markup writer.escaping writer.closingPieces)
      (writer.emitAll writer.closingPieces) :=
  foldlM_perform_writes writer _

theorem finish_of_unlimited (h : writer.sink.room = none) :
    writer.finish = .ok (writer.emitAll writer.closingPieces) := by
  rw [(finish_writes writer).of_unlimited h, ← emitAll_sink]

@[simp] theorem foldl_after_room (writer : Writer) (spans : List Span) :
    (spans.foldl after writer).sink.room = writer.sink.room := by
  induction spans generalizing writer with
  | nil => rfl
  | cons span spans ih => simpa using ih (writer.after span)

@[simp] theorem foldl_after_escaping (writer : Writer) (spans : List Span) :
    (spans.foldl after writer).escaping = writer.escaping := by
  induction spans generalizing writer with
  | nil => rfl
  | cons span spans ih => simpa using ih (writer.after span)

theorem foldl_after_text (writer : Writer) (spans : List Span) :
    (spans.foldl after writer).sink.text =
      writer.sink.text ++
        Piece.markup writer.escaping (writer.runPieces spans) := by
  induction spans generalizing writer with
  | nil => simp [runPieces]
  | cons span spans ih =>
      rw [List.foldl_cons, ih, after_text, after_escaping, runPieces,
        Piece.markup_append, List.append_assoc]

/-- A writer without open tags, whose sink holds a text and never fills. -/
def fresh (escaping : Bool) (held : Text) : Writer :=
  { sink := .ofText held none, escaping }

@[simp] theorem fresh_text (escaping : Bool) (held : Text) :
    (fresh escaping held).sink.text = held := by
  simp [fresh]

def writeAll (writer : Writer) (spans : List Span) : Step := do
  let writer ← spans.foldlM writeSpan writer
  writer.finish

def afterAll (writer : Writer) (spans : List Span) : Writer :=
  let last := spans.foldl after writer
  last.emitAll last.closingPieces

theorem writeAll_of_unlimited (h : writer.sink.room = none) (spans : List Span) :
    writer.writeAll spans = .ok (writer.afterAll spans) := by
  rw [writeAll, foldlM_writeSpan h]
  exact finish_of_unlimited (by simpa using h)

end Writer

/-- The pieces of spans that are written one after another and finished. -/
def pieces (escaping : Bool) (spans : List Span) : List Piece :=
  let writer := Writer.fresh escaping []
  writer.runPieces spans ++ (spans.foldl Writer.after writer).closingPieces

theorem render_eq_afterAll (escaping : Bool) (spans : List Span) :
    render escaping spans =
      ((Writer.fresh escaping []).afterAll spans).sink.text := by
  have hall : (do
      let writer ← spans.foldlM Writer.writeSpan { sink := .unbounded, escaping }
      writer.finish) = .ok ((Writer.fresh escaping []).afterAll spans) :=
    Writer.writeAll_of_unlimited rfl spans
  simp only [render, hall]

theorem render_eq_markup (escaping : Bool) (spans : List Span) :
    render escaping spans = Piece.markup escaping (pieces escaping spans) := by
  rw [render_eq_afterAll, Writer.afterAll, Writer.emitAll_text,
    Writer.foldl_after_text, Writer.foldl_after_escaping, pieces,
    Piece.markup_append]
  simp [Writer.fresh]

end ChatCodes.Markup
