import ChatCodes.Proofs.Stream.Progress

/-!
# Calls in any order

A codec may be given bytes, asked for lines and asked to encode in whatever order.  What
it remembers stays true of its buffer: each cut that it makes lies within the buffer, and
it answers as if it had to search the whole buffer anew.
-/

namespace ChatCodes.LineCodec

open Utf8 (Bytes)

/-! ## Searching anew -/

/-- The codec, not knowing how far its buffer has been searched. -/
def unsearched (codec : LineCodec) : LineCodec := { codec with searched := 0 }

theorem lineEnd?_unsearched {codec : LineCodec} {buffer : Bytes}
    (h : codec.Tracks buffer) : codec.unsearched.lineEnd? buffer = codec.lineEnd? buffer := by
  by_cases hmem : lineFeed ∈ buffer
  · obtain ⟨line, rest, rfl, hline⟩ := List.eq_append_cons_of_mem hmem
    rw [lineEnd?_append_cons h.searched_le_line hline rest,
      lineEnd?_append_cons (Nat.zero_le _) hline rest]
  · have hanew : codec.unsearched.lineEnd? buffer = .ok none :=
      lineEnd?_of_not_mem (Nat.zero_le _) hmem
    rw [lineEnd?_of_not_mem h.searched_le hmem, hanew]

theorem decode_unsearched {codec : LineCodec} {buffer : Bytes} (h : codec.Tracks buffer) :
    codec.unsearched.decode buffer = codec.decode buffer := by
  have hskip : codec.unsearched.skipLine buffer = codec.skipLine buffer := by
    rw [skipLine, lineEnd?_unsearched h]
    rfl
  have htake : codec.unsearched.takeLine buffer = codec.takeLine buffer := by
    rw [takeLine, lineEnd?_unsearched h]
    rfl
  have hbounded : codec.unsearched.boundedDecode buffer = codec.boundedDecode buffer := by
    rw [boundedDecode, hskip, htake]
    rfl
  obtain ⟨outcome, -, hdecode⟩ := boundedDecode_of_le h.searched_le
  rw [decode, decode, hbounded, hdecode]

theorem decodeEnd_unsearched {codec : LineCodec} {buffer : Bytes}
    (h : codec.Tracks buffer) :
    codec.unsearched.decodeEnd buffer = codec.decodeEnd buffer := by
  simp only [decodeEnd, decode_unsearched h]

/-! ## What may be called -/

inductive Call where
  | append (bytes : Bytes)
  | decode
  | decodeEnd
  | encode (text : Text)
  | encodeToSource (text : Text)

/-- A codec used both ways: with the bytes still to be decoded, and those encoded. -/
structure Duplex where
  codec : LineCodec
  source : Bytes := []
  sink : Bytes := []

namespace Duplex

def start (converter : Converter) : Duplex := { codec := { converter } }

def settle (duplex : Duplex) (outcome : Outcome) : Duplex :=
  { duplex with codec := outcome.codec, source := outcome.buffer }

def perform (duplex : Duplex) : Call → Duplex
  | .append bytes => { duplex with source := duplex.source ++ bytes }
  | .decode => duplex.settle (duplex.codec.decode duplex.source)
  | .decodeEnd => duplex.settle (duplex.codec.decodeEnd duplex.source)
  | .encode text => { duplex with sink := (duplex.codec.encode text duplex.sink).1 }
  | .encodeToSource text => { duplex with source := (duplex.codec.encode text duplex.source).1 }

def Tracks (duplex : Duplex) : Prop := duplex.codec.Tracks duplex.source

theorem start_tracks (converter : Converter) : (start converter).Tracks :=
  tracks_of_searched_eq_zero [] rfl

theorem Tracks.perform {duplex : Duplex} (h : duplex.Tracks) (call : Call) :
    (duplex.perform call).Tracks := by
  cases call with
  | append bytes => exact LineCodec.Tracks.append h bytes
  | decode => exact (decode_keeps h []).tracks
  | decodeEnd => exact (decodeEnd_keeps h).tracks
  | encode text => exact h
  | encodeToSource text => exact LineCodec.Tracks.append h _

theorem Tracks.foldl_perform {duplex : Duplex} (h : duplex.Tracks) (calls : List Call) :
    (calls.foldl Duplex.perform duplex).Tracks := by
  induction calls generalizing duplex with
  | nil => exact h
  | cons call calls ih => exact ih (h.perform call)

end Duplex

/--
After any calls, what the codec remembers is true of its buffer.  So all cuts of the next
call lie within the buffer, it leaves the end of the buffer, and its outcome is that of a
codec that remembers nothing.  If it answers nothing, the buffer is short and holds no
line feed, and at the end of the stream it is empty and nothing is remembered.
-/
theorem calls_stay_in_buffer (converter : Converter) (calls : List Call) :
    let duplex := calls.foldl Duplex.perform (.start converter)
    let outcome := duplex.codec.decode duplex.source
    let last := duplex.codec.decodeEnd duplex.source
    duplex.codec.Tracks duplex.source ∧
    duplex.codec.boundedDecode duplex.source = .ok outcome ∧
    outcome.buffer <:+ duplex.source ∧ last.buffer <:+ duplex.source ∧
    ({ duplex.codec with searched := 0 } : LineCodec).decode duplex.source = outcome ∧
    ({ duplex.codec with searched := 0 } : LineCodec).decodeEnd duplex.source = last ∧
    (outcome.result = .ok none →
      lineFeed ∉ outcome.buffer ∧ outcome.buffer.length ≤ maxLineLength) ∧
    (last.result = .ok none →
      last.buffer = [] ∧ last.codec.searched = 0 ∧ last.codec.isDiscarding = false) := by
  intro duplex outcome last
  have htracks : duplex.codec.Tracks duplex.source :=
    (Duplex.start_tracks converter).foldl_perform calls
  refine ⟨htracks, ?_, (decode_leaves _ _).1, (decodeEnd_leaves _ _).1,
    decode_unsearched htracks, decodeEnd_unsearched htracks, fun hnothing => ?_,
    fun hnothing => ?_⟩
  · rw [boundedDecode_eq, if_pos htracks.searched_le]
  · exact (decode_keeps htracks []).waits (Outcome.answer?_eq_none_iff.mpr hnothing)
  · have hanswer : last.answer? = none := Outcome.answer?_eq_none_iff.mpr hnothing
    obtain ⟨hempty, hdiscarding⟩ := decodeEnd_of_answer?_eq_none hanswer
    have hsearched : last.codec.searched ≤ last.buffer.length :=
      (decodeEnd_keeps htracks).tracks.searched_le
    rw [hempty] at hsearched
    exact ⟨hempty, Nat.le_zero.mp hsearched, hdiscarding⟩

/-- A carriage return arrives behind a searched byte; later the stream ends. -/
theorem calls_stay_in_buffer_waiting :
    let waiting := [Call.append [97], .encode ['&', 'c'], .decode, .append [13]].foldl
      Duplex.perform (.start .ampersand)
    let drained := waiting.perform .decodeEnd
    waiting.codec.searched = 1 ∧
    (waiting.codec.decode waiting.source).result = .ok none ∧
    lineFeed ∉ (waiting.codec.decode waiting.source).buffer ∧
    (drained.codec.decodeEnd drained.source).result = .ok none ∧
    (drained.codec.decodeEnd drained.source).codec.isDiscarding = false := by
  intro waiting drained
  obtain ⟨-, -, -, -, -, -, hwaits, -⟩ := calls_stay_in_buffer .ampersand
    [.append [97], .encode ['&', 'c'], .decode, .append [13]]
  obtain ⟨-, -, -, -, -, -, -, hends⟩ := calls_stay_in_buffer .ampersand
    [.append [97], .encode ['&', 'c'], .decode, .append [13], .decodeEnd]
  have hnothing : (drained.codec.decodeEnd drained.source).result = .ok none := by
    decide +kernel
  exact ⟨rfl, rfl, (hwaits rfl).1, hnothing, (hends hnothing).2.2⟩

end ChatCodes.LineCodec
