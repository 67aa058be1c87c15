import ChatCodes.Converter
import ChatCodes.Proofs.Markup.Merging

/-!
# Conversion into a sink of limited room

A conversion writes the same markup whatever the room: a sink without room for all of
it keeps the front part, the conversion fails, and no token is taken behind the
literal that does not fit.  This does not depend on how the markup is cut into writes.
-/

namespace ChatCodes

namespace Markup

/-- The markup of spans, without the tags that close those still open. -/
def renderOpen (escaping : Bool) (spans : List Span) : Text :=
  match spans.foldlM Writer.writeSpan { sink := .unbounded, escaping } with
  | .ok writer | .error writer => writer.sink.text

namespace Sink

/-- What has come of a write, complete or not. -/
def held : Except Sink Sink → Sink
  | .ok sink | .error sink => sink

theorem held_write_of_room (sink : Sink) (room : Nat) (text : Text)
    (h : sink.room = some room) :
    (held (sink.write text)).text = sink.text ++ text.take room := by
  by_cases hfits : text.length ≤ room
  · obtain ⟨after, hwrite, -, htext⟩ := write_of_fits h hfits
    rw [hwrite, held, htext, List.take_of_length_le hfits]
  · obtain ⟨after, hwrite, -, htext⟩ := write_of_full h (Nat.lt_of_not_le hfits)
    rw [hwrite, held, htext]

theorem isOk_write_iff (sink : Sink) (room : Nat) (text : Text)
    (h : sink.room = some room) :
    (sink.write text).isOk = true ↔ text.length ≤ room := by
  by_cases hfits : text.length ≤ room
  · obtain ⟨after, hwrite, -⟩ := write_of_fits h hfits
    simp [hwrite, hfits, Except.isOk, Except.toBool]
  · obtain ⟨after, hwrite, -⟩ := write_of_full h (Nat.lt_of_not_le hfits)
    simp [hwrite, hfits, Except.isOk, Except.toBool]

end Sink

namespace Writer

/-- A call looks at everything in a writer but its sink. -/
theorem after_of_sink (writer : Writer) (span : Span) (sink : Sink) :
    ∃ next, ({ writer with sink } : Writer).after span =
      { writer.after span with sink := next } :=
  ⟨_, after_with_sink writer span sink _⟩

theorem runPieces_with_sink (writer : Writer) (sink : Sink) (spans : List Span) :
    ({ writer with sink } : Writer).runPieces spans = writer.runPieces spans := by
  induction spans generalizing writer sink with
  | nil => rfl
  | cons span spans ih =>
      obtain ⟨next, hnext⟩ := after_of_sink writer span sink
      rw [runPieces, runPieces, hnext, ih]
      rfl

theorem foldl_after_with_sink (writer : Writer) (spans : List Span) (first last : Sink) :
    { spans.foldl after ({ writer with sink := first } : Writer) with sink := last } =
      { spans.foldl after writer with sink := last } := by
  induction spans generalizing writer first with
  | nil => rfl
  | cons span spans ih =>
      obtain ⟨next, hnext⟩ := after_of_sink writer span first
      rw [List.foldl_cons, List.foldl_cons, hnext, ih]

theorem foldlM_writeSpan_writes (writer : Writer) (spans : List Span) :
    Writes writer (spans.foldlM writeSpan writer)
      (Piece.markup writer.escaping (writer.runPieces spans))
      (spans.foldl after writer) := by
  induction spans generalizing writer with
  | nil => exact .done rfl
  | cons span spans ih =>
      rw [List.foldlM_cons, runPieces, Piece.markup_append, List.foldl_cons]
      refine (writeSpan_writes writer span).bind fun sink => ?_
      have hlater := ih { writer.after span with sink }
      rw [runPieces_with_sink, after_escaping] at hlater
      exact hlater.congr (foldl_after_with_sink (writer.after span) spans sink)

theorem writeAll_writes (writer : Writer) (spans : List Span) :
    Writes writer (writer.writeAll spans)
      (Piece.markup writer.escaping
        (writer.runPieces spans ++ (spans.foldl after writer).closingPieces))
      (writer.afterAll spans) := by
  rw [writeAll, Piece.markup_append]
  refine (foldlM_writeSpan_writes writer spans).bind fun sink => ?_
  have hfinish := finish_writes { spans.foldl after writer with sink }
  rw [foldl_after_escaping] at hfinish
  exact hfinish.congr (emitAll_with_sink (spans.foldl after writer) _ sink)

theorem Writes.isOk_eq {writer after : Writer} {step : Step} {text : Text}
    (h : Writes writer step text after) :
    step.isOk = (writer.sink.write text).isOk := by
  rw [Writes] at h
  split at h
  · next hwrite => rw [h, hwrite]; rfl
  · next hwrite =>
      obtain ⟨left, rfl, -⟩ := h
      rw [hwrite]
      rfl

theorem writeAll_writes_pieces (sink : Sink) (escaping : Bool) (spans : List Span) :
    Writes { sink, escaping } (writeAll { sink, escaping } spans)
      (Piece.markup escaping (pieces escaping spans)) (afterAll { sink, escaping } spans) := by
  let empty : Writer := .fresh escaping []
  have hrun : runPieces { sink, escaping } spans = empty.runPieces spans :=
    empty.runPieces_with_sink sink spans
  have hclosing : (spans.foldl after { sink, escaping }).closingPieces =
      (spans.foldl after empty).closingPieces :=
    (congrArg closingPieces (empty.foldl_after_with_sink spans sink sink) :)
  have hwrites := writeAll_writes { sink, escaping } spans
  rw [hrun, hclosing] at hwrites
  exact hwrites

end Writer

theorem renderOpen_eq_markup (escaping : Bool) (spans : List Span) :
    renderOpen escaping spans =
      Piece.markup escaping ((Writer.fresh escaping []).runPieces spans) := by
  have hrun : spans.foldlM Writer.writeSpan { sink := .unbounded, escaping } =
      .ok (spans.foldl Writer.after (.fresh escaping [])) :=
    Writer.foldlM_writeSpan rfl spans
  have htext := Writer.foldl_after_text (.fresh escaping []) spans
  rw [Writer.fresh_text, List.nil_append] at htext
  simp only [renderOpen, hrun]
  exact htext

theorem isOk_foldlM_writeSpan_iff (escaping : Bool) (held : Text) (room : Nat)
    (spans : List Span) :
    (spans.foldlM Writer.writeSpan
      { sink := .ofText held (some room), escaping }).isOk = true ↔
      (renderOpen escaping spans).length ≤ room := by
  have hwrites := Writer.foldlM_writeSpan_writes
    { sink := .ofText held (some room), escaping } spans
  rw [hwrites.isOk_eq, Sink.isOk_write_iff _ room _ rfl, renderOpen_eq_markup]
  exact Iff.of_eq (congrArg (fun pieces => (Piece.markup escaping pieces).length ≤ room)
    (Writer.runPieces_with_sink (.fresh escaping []) _ spans))

end Markup

namespace Converter

open Markup

/-! ## Events -/

theorem filterMap_passedThrough? (marker : Char) (literals : List Span) :
    literals.filterMap (passedThrough? marker) =
      ((literals.map Span.text).filter (·.head? = some marker)).map .passedThrough := by
  induction literals with
  | nil => rfl
  | cons literal literals ih =>
      by_cases hmarker : literal.text.head? = some marker
      · simp [passedThrough?, hmarker, ih]
      · simp [passedThrough?, hmarker, ih]

theorem writeLiterals_fst (marker : Char) (writer : Writer) (literals : List Span) :
    (writeLiterals marker writer literals).1 = literals.foldlM Writer.writeSpan writer := by
  induction literals generalizing writer with
  | nil => rfl
  | cons literal literals ih =>
      rw [writeLiterals, List.foldlM_cons]
      cases writer.writeSpan literal with
      | error full => rfl
      | ok next => exact ih next

/-- Literals are taken up to the first that cannot be written. -/
theorem writeLiterals_snd (marker : Char) (writer : Writer) (literals : List Span) :
    ∃ taken left, literals = taken ++ left ∧
      (writeLiterals marker writer literals).2 =
        taken.filterMap (passedThrough? marker) ∧
      (∀ front back, taken = front ++ back → back ≠ [] →
        (front.foldlM Writer.writeSpan writer).isOk = true) ∧
      (left = [] ∨ (taken.foldlM Writer.writeSpan writer).isOk = false) := by
  induction literals generalizing writer with
  | nil => exact ⟨[], [], rfl, rfl, by simp, .inl rfl⟩
  | cons literal literals ih =>
      cases hstep : writer.writeSpan literal with
      | error full =>
          -- The literal that cannot be written has been taken, and is the last one.
          refine ⟨[literal], literals, rfl, ?_, ?_, .inr ?_⟩
          · simp only [writeLiterals, hstep]
            cases hpassed : passedThrough? marker literal <;> simp [hpassed]
          · intro front back hsplit hback
            cases front with
            | nil => rfl
            | cons first front =>
                simp only [List.cons_append, List.cons.injEq, List.nil_eq,
                  List.append_eq_nil_iff] at hsplit
                exact (hback hsplit.2.2).elim
          · rw [List.foldlM_cons, hstep]
            rfl
      | ok next =>
          obtain ⟨taken, left, rfl, hevents, hfits, hleft⟩ := ih next
          refine ⟨literal :: taken, left, rfl, ?_, ?_, ?_⟩
          · simp only [writeLiterals, hstep, hevents]
            cases hpassed : passedThrough? marker literal <;> simp [hpassed]
          · intro front back hsplit hback
            cases front with
            | nil => rfl
            | cons first front =>
                cases hsplit
                rw [List.foldlM_cons, hstep]
                exact hfits front back rfl hback
          · rw [List.foldlM_cons, hstep]
            exact hleft

/-! ## Conversions -/

/-- The writer with which a conversion into a sink starts. -/
def writer (converter : Converter) (sink : Sink) : Writer :=
  { sink, escaping := converter.settings.escaping }

theorem writeAll_literals_writes (converter : Converter) (text : Text) (sink : Sink) :
    Writer.Writes (converter.writer sink)
      ((converter.writer sink).writeAll (converter.dialect.literals text))
      (converter.convert text)
      ((converter.writer sink).afterAll (converter.dialect.literals text)) := by
  rw [convert, render_eq_markup]
  exact Writer.writeAll_writes_pieces sink _ _

theorem convertInto_eq_writeAll (converter : Converter) (text : Text) (sink : Sink) :
    converter.convertInto text sink =
      let events := (writeLiterals converter.settings.marker (converter.writer sink)
        (converter.dialect.literals text)).2
      match (converter.writer sink).writeAll (converter.dialect.literals text) with
      | .ok writer => ⟨writer.sink, true, events⟩
      | .error writer => ⟨writer.sink, false, events⟩ := by
  rw [Writer.writeAll, ← writeLiterals_fst converter.settings.marker]
  rfl

/-- The conversion is one write of the whole markup. -/
theorem convertInto_eq_write (converter : Converter) (text : Text) (sink : Sink) :
    (converter.convertInto text sink).sink =
        Sink.held (sink.write (converter.convert text)) ∧
      (converter.convertInto text sink).isComplete =
        (sink.write (converter.convert text)).isOk := by
  have hwrites := converter.writeAll_literals_writes text sink
  have hsink : (converter.writer sink).sink = sink := rfl
  rw [Writer.Writes, hsink] at hwrites
  rw [convertInto_eq_writeAll]
  cases hwrite : sink.write (converter.convert text) with
  | ok last =>
      simp only [hwrite] at hwrites
      rw [hwrites]
      exact ⟨rfl, rfl⟩
  | error last =>
      simp only [hwrite] at hwrites
      obtain ⟨left, hleft, rfl⟩ := hwrites
      rw [hleft]
      exact ⟨rfl, rfl⟩

theorem convertInto_events (converter : Converter) (text : Text) (sink : Sink) :
    (converter.convertInto text sink).events =
      (writeLiterals converter.settings.marker (converter.writer sink)
        (converter.dialect.literals text)).2 := by
  rw [convertInto_eq_writeAll]
  split <;> rfl

/--
A sink with too little room keeps the front part of the markup, and only then does the
conversion fail.  The events are those of the literals up to the first that does not
fit, or of all literals.  It is all one in how many writes a text reaches the sink.
-/
theorem convertInto_truncates (converter : Converter) (text held : Text) (room : Nat) :
    let sink : Sink := .ofText held (some room)
    let conversion := converter.convertInto text sink
    conversion.sink.text = held ++ (converter.convert text).take room ∧
    (conversion.isComplete = false ↔ room < (converter.convert text).length) ∧
    (∃ taken left, converter.dialect.literals text = taken ++ left ∧
      conversion.events =
        ((taken.map Span.text).filter
          (·.head? = some converter.settings.marker)).map .passedThrough ∧
      (∀ front back, taken = front ++ back → back ≠ [] →
        (renderOpen converter.settings.escaping front).length ≤ room) ∧
      (left = [] ∨ room < (renderOpen converter.settings.escaping taken).length)) ∧
    ∀ parts : List Text, parts.foldlM Sink.write sink = sink.write parts.flatten := by
  intro sink conversion
  obtain ⟨hsink, hcomplete⟩ := converter.convertInto_eq_write text sink
  have hroom : sink.room = some room := rfl
  refine ⟨?_, ?_, ?_, Sink.foldlM_write sink⟩
  · rw [hsink, Sink.held_write_of_room sink room _ hroom, Sink.text_ofText]
  · have hfits := Sink.isOk_write_iff sink room (converter.convert text) hroom
    rw [hcomplete, ← Bool.not_eq_true, hfits, Nat.not_le]
  · obtain ⟨taken, left, hsplit, hevents, hfits, hleft⟩ :=
      writeLiterals_snd converter.settings.marker (converter.writer sink)
        (converter.dialect.literals text)
    have hok := isOk_foldlM_writeSpan_iff converter.settings.escaping held room
    refine ⟨taken, left, hsplit, ?_, ?_, ?_⟩
    · rw [convertInto_events, hevents, filterMap_passedThrough?]
    · intro front back htaken hback
      exact (hok front).mp (hfits front back htaken hback)
    · refine hleft.imp_right fun hfull => ?_
      rw [← Nat.not_le, ← hok taken]
      exact Bool.not_eq_true _ ▸ hfull

/-- The cut falls into the second code that is passed through. -/
theorem convertInto_truncates_in_passed_code :
    let conversion :=
      ampersand.convertInto "&z&ca&yb".toList (.ofText ['>'] (some 9))
    conversion.sink.text = ">&z<red>a&".toList ∧ conversion.isComplete = false ∧
      conversion.events = [.passedThrough ['&', 'z'], .passedThrough ['&', 'y']] := by
  intro conversion
  obtain ⟨hsink, hcomplete, -, -⟩ :=
    convertInto_truncates ampersand "&z&ca&yb".toList ['>'] 9
  have hconvert : ampersand.convert "&z&ca&yb".toList = "&z<red>a&yb</red>".toList := by
    decide +kernel
  rw [hconvert] at hsink hcomplete
  exact ⟨hsink, hcomplete.mpr (by decide), by decide +kernel⟩

end Converter

end ChatCodes
