import ChatCodes.Proofs.Stream.Progress
import Mathlib.Logic.Function.Iterate

/-!
# Streams that arrive in chunks

A session feeds a stream to a codec chunk by chunk, asks it for lines any number
of times after each chunk, and at the end asks until nothing is left.  Main
statement: the answers are the verdicts on the lines of the whole stream, in
order, wherever the stream was cut.
-/

namespace ChatCodes.LineCodec

open Utf8 (Bytes)

/-- Bytes that arrive together, and how often the codec is asked before the next come. -/
structure Chunk where
  bytes : Bytes
  calls : Nat
  deriving DecidableEq, Repr

def stream (chunks : List Chunk) : Bytes := chunks.flatMap Chunk.bytes

structure Session where
  codec : LineCodec
  buffer : Bytes := []
  answers : List (Except Error Text) := []

namespace Session

def start (converter : Converter) : Session := { codec := { converter } }

def append (session : Session) (bytes : Bytes) : Session :=
  { session with buffer := session.buffer ++ bytes }

def note (session : Session) (outcome : Outcome) : Session :=
  ⟨outcome.codec, outcome.buffer, session.answers ++ outcome.answer?.toList⟩

def decode (session : Session) : Session :=
  session.note (session.codec.decode session.buffer)

def take (session : Session) (chunk : Chunk) : Session :=
  decode^[chunk.calls] (session.append chunk.bytes)

/-- Asks for the lines that are left until a call answers nothing. -/
def drain (session : Session) : Session :=
  let outcome := session.codec.decodeEnd session.buffer
  if _h : outcome.answer? = none then session.note outcome
  else (session.note outcome).drain
termination_by session.buffer.length
decreasing_by exact (decodeEnd_leaves _ _).2 _h

end Session

def answers (converter : Converter) (chunks : List Chunk) :
    List (Except Error Text) :=
  (chunks.foldl Session.take (.start converter)).drain.answers

/-! ## The promise of a session -/

namespace Session

/-- Answered and owed lines make up `whole`, of which `ahead` is to come. -/
structure Answers (session : Session) (converter : Converter)
    (whole ahead : Bytes) : Prop where
  converter_eq : session.codec.converter = converter
  tracks : session.codec.Tracks session.buffer
  settles : Settles converter (lines whole) session.answers
    (owed session.codec.isDiscarding (session.buffer ++ ahead))

variable {session : Session} {converter : Converter} {whole ahead : Bytes}

theorem start_answers (converter : Converter) (whole : Bytes) :
    (start converter).Answers converter whole whole :=
  ⟨rfl, tracks_of_searched_eq_zero _ rfl, .nothing _ _⟩

theorem Answers.append {bytes : Bytes}
    (h : session.Answers converter whole (bytes ++ ahead)) :
    (session.append bytes).Answers converter whole ahead := by
  refine ⟨h.converter_eq, h.tracks.append bytes, ?_⟩
  simpa [Session.append] using h.settles

theorem Answers.note {outcome : Outcome}
    (h : session.Answers converter whole ahead)
    (hkeeps : outcome.Keeps session.codec session.buffer ahead) :
    (session.note outcome).Answers converter whole ahead := by
  have hconverter := h.converter_eq
  refine ⟨hkeeps.converter_eq.trans hconverter, hkeeps.tracks, ?_⟩
  exact h.settles.trans (hconverter ▸ hkeeps.settles)

theorem Answers.decode (h : session.Answers converter whole ahead) :
    session.decode.Answers converter whole ahead :=
  h.note (decode_keeps h.tracks ahead)

theorem Answers.take {chunk : Chunk}
    (h : session.Answers converter whole (chunk.bytes ++ ahead)) :
    (session.take chunk).Answers converter whole ahead := by
  exact Function.Iterate.rec
    (fun session : Session => session.Answers converter whole ahead)
    h.append (fun _ => Answers.decode) chunk.calls

theorem Answers.foldl_take {chunks : List Chunk}
    (h : session.Answers converter whole (stream chunks)) :
    (chunks.foldl Session.take session).Answers converter whole [] := by
  induction chunks generalizing session with
  | nil => exact h
  | cons chunk chunks ih =>
      rw [stream, List.flatMap_cons] at h
      exact ih h.take

theorem Answers.drain (h : session.Answers converter whole []) :
    List.Forall₂ (Verdict converter) (lines whole) session.drain.answers := by
  fun_induction Session.drain session with
  | case1 session outcome hanswer =>
      have hlast := h.note (decodeEnd_keeps h.tracks)
      have hempty := (decodeEnd_of_answer?_eq_none hanswer).1
      obtain ⟨settled, hsettled, hverdicts⟩ := hlast.settles
      simp only [Session.note, hempty, List.append_nil, owed_nil] at hsettled
      rw [hsettled]
      exact hverdicts
  | case2 session outcome hanswer ih =>
      exact ih (h.note (decodeEnd_keeps h.tracks))

end Session

theorem answers_verdicts (converter : Converter) (chunks : List Chunk) :
    List.Forall₂ (Verdict converter) (lines (stream chunks))
      (answers converter chunks) :=
  (Session.start_answers converter (stream chunks)).foldl_take.drain

/--
However a stream is cut, and however often the codec is asked in between, the
answers are the verdicts on its lines; two cuttings can differ only in the
reported length of a line that is too long.
-/
theorem answers_of_any_cutting (converter : Converter) (chunks : List Chunk) :
    List.Forall₂ (Verdict converter) (lines (stream chunks))
      (answers converter chunks) ∧
    ∀ others, stream others = stream chunks →
      List.Forall₂ SameButLength (answers converter chunks)
        (answers converter others) := by
  refine ⟨answers_verdicts converter chunks, fun others hstream => ?_⟩
  have hothers := answers_verdicts converter others
  rw [hstream] at hothers
  exact forall₂_sameButLength (answers_verdicts converter chunks) hothers

/-- Cut in front of its line feed, the first line still loses one carriage return of two. -/
theorem answers_of_cut_ending :
    let chunks : List Chunk := [⟨[97, 13, 13], 2⟩, ⟨[10, 98, 255, 13, 10, 98], 0⟩]
    answers .ampersand chunks =
        [.ok ['a', '\r'], .error (.invalidUtf8 1), .ok ['b']] ∧
      List.Forall₂ SameButLength (answers .ampersand chunks)
        (answers .ampersand [⟨[97, 13, 13, 10, 98, 255, 13, 10, 98], 1⟩]) :=
  ⟨by decide +kernel, (answers_of_any_cutting .ampersand _).2 _ (by decide)⟩

end ChatCodes.LineCodec
