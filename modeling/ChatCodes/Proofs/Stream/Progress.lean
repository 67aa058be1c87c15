import ChatCodes.Proofs.Stream.Lines

/-!
# What one call of the line codec does

A codec remembers how far its buffer has been searched.  As long as this is true
of the buffer, no cut is refused, and each call answers the next line that is owed,
or answers nothing and owes the same lines as before.
-/

namespace ChatCodes.LineCodec

open Utf8 (Bytes)

/-- What the codec remembers is true of the buffer. -/
structure Tracks (codec : LineCodec) (buffer : Bytes) : Prop where
  searched_le : codec.searched ≤ buffer.length
  not_mem_take : lineFeed ∉ buffer.take codec.searched
  searched_eq_zero : codec.isDiscarding = true → codec.searched = 0

theorem tracks_of_searched_eq_zero {codec : LineCodec} (buffer : Bytes)
    (h : codec.searched = 0) : codec.Tracks buffer :=
  ⟨by simp [h], by simp [h], fun _ => h⟩

theorem Tracks.append {codec : LineCodec} {buffer : Bytes}
    (h : codec.Tracks buffer) (bytes : Bytes) : codec.Tracks (buffer ++ bytes) := by
  refine ⟨?_, ?_, h.searched_eq_zero⟩
  · have := h.searched_le
    simp
    omega
  · rw [List.take_append_of_le_length h.searched_le]
    exact h.not_mem_take

theorem Tracks.searched_le_line {codec : LineCodec} {line rest : Bytes}
    (h : codec.Tracks (line ++ lineFeed :: rest)) :
    codec.searched ≤ line.length := by
  by_contra hlt
  apply h.not_mem_take
  rw [List.take_append, List.mem_append]
  obtain ⟨extra, hextra⟩ :=
    Nat.exists_eq_add_of_lt (show line.length < codec.searched by omega)
  right
  rw [show codec.searched - line.length = extra + 1 by omega]
  simp

/-! ## Searching -/

variable {codec : LineCodec} {buffer : Bytes} {stop : Nat}

theorem cut_of_le {offset : Nat} (h : offset ≤ buffer.length) :
    cut buffer offset = .ok (buffer.take offset, buffer.drop offset) :=
  if_pos h

theorem lineEnd?_of_le (h : codec.searched ≤ buffer.length) :
    codec.lineEnd? buffer = .ok
      (((buffer.drop codec.searched).idxOf? lineFeed).map (codec.searched + ·)) := by
  rw [lineEnd?, cut_of_le h]
  rfl

theorem lineEnd?_of_lt (h : buffer.length < codec.searched) :
    codec.lineEnd? buffer = .error ⟨codec.searched⟩ := by
  rw [lineEnd?, cut, if_neg (Nat.not_le.mpr h)]
  rfl

theorem lineEnd?_lt (h : codec.lineEnd? buffer = .ok (some stop)) :
    stop < buffer.length := by
  rcases Nat.lt_or_ge buffer.length codec.searched with hlt | hle
  · rw [lineEnd?_of_lt hlt] at h
    cases h
  · rw [lineEnd?_of_le hle, Except.ok.injEq] at h
    obtain ⟨offset, hoffset, rfl⟩ := Option.map_eq_some_iff.mp h
    obtain ⟨hoffset, -⟩ := List.idxOf?_eq_some_iff.mp hoffset
    rw [List.length_drop] at hoffset
    omega

theorem lineEnd?_of_not_mem (hsearched : codec.searched ≤ buffer.length)
    (h : lineFeed ∉ buffer) : codec.lineEnd? buffer = .ok none := by
  have hunsearched : lineFeed ∉ buffer.drop codec.searched :=
    fun hmem => h (List.mem_of_mem_drop hmem)
  rw [lineEnd?_of_le hsearched, List.idxOf?_eq_none_iff.mpr hunsearched, Option.map_none]

private theorem idxOf?_append_cons {line : Bytes} (h : lineFeed ∉ line)
    (rest : Bytes) :
    (line ++ lineFeed :: rest).idxOf? lineFeed = some line.length := by
  induction line with
  | nil => simp [List.idxOf?_cons]
  | cons first line ih =>
      simp only [List.mem_cons, not_or] at h
      have hfirst : (first == lineFeed) = false := by
        simpa using fun hsame : first = lineFeed => h.1 hsame.symm
      simp [List.idxOf?_cons, hfirst, ih h.2]

theorem lineEnd?_append_cons {line : Bytes} (hsearched : codec.searched ≤ line.length)
    (h : lineFeed ∉ line) (rest : Bytes) :
    codec.lineEnd? (line ++ lineFeed :: rest) = .ok (some line.length) := by
  have hunsearched : lineFeed ∉ line.drop codec.searched :=
    fun hmem => h (List.mem_of_mem_drop hmem)
  have hle : codec.searched ≤ (line ++ lineFeed :: rest).length := by
    rw [List.length_append]
    omega
  rw [lineEnd?_of_le hle, List.drop_append_of_le_length hsearched,
    idxOf?_append_cons hunsearched, Option.map_some, List.length_drop,
    Nat.add_sub_cancel' hsearched]

theorem drop_line (line rest : Bytes) :
    (line ++ lineFeed :: rest).drop (line.length + 1) = rest := by
  simp [List.drop_append]

/-!
## What a call does

The search for a line feed decides it, and is refused only where bytes that were
searched are missing.
-/

theorem takeLine_of_some (h : codec.lineEnd? buffer = .ok (some stop)) :
    codec.takeLine buffer = .ok
      (if stop > maxLineLength then
        { codec with searched := 0 }.giveUp stop (buffer.drop (stop + 1))
      else
        { codec with searched := 0 }.deliver (buffer.take stop)
          (buffer.drop (stop + 1))) := by
  have hlt := lineEnd?_lt h
  have hline : stop ≤ (buffer.take (stop + 1)).length := by
    rw [List.length_take]
    omega
  simp only [takeLine, h, bind, Except.bind, pure, Except.pure, cut_of_le hlt,
    cut_of_le hline, List.take_take, Nat.min_eq_left (Nat.le_succ stop)]
  split <;> rfl

theorem takeLine_of_none (h : codec.lineEnd? buffer = .ok none) :
    codec.takeLine buffer = .ok
      (if buffer.length > maxLineLength then
        { codec with searched := 0, isDiscarding := true }.giveUp buffer.length []
      else ⟨.ok none, { codec with searched := buffer.length }, buffer, []⟩) := by
  simp only [takeLine, h, bind, Except.bind, pure, Except.pure, cut_of_le le_rfl,
    List.drop_length]
  split <;> rfl

theorem skipLine_of_some (h : codec.lineEnd? buffer = .ok (some stop)) :
    codec.skipLine buffer =
      { codec with searched := 0, isDiscarding := false }.takeLine
        (buffer.drop (stop + 1)) := by
  simp only [skipLine, h, bind, Except.bind, cut_of_le (lineEnd?_lt h)]

theorem skipLine_of_none (h : codec.lineEnd? buffer = .ok none) :
    codec.skipLine buffer = .ok ⟨.ok none, { codec with searched := 0 }, [], []⟩ := by
  simp only [skipLine, h, bind, Except.bind, pure, Except.pure, cut_of_le le_rfl,
    List.drop_length]

theorem takeLine_of_le (h : codec.searched ≤ buffer.length) :
    ∃ outcome, codec.takeLine buffer = .ok outcome := by
  obtain ⟨stop?, hend⟩ : ∃ stop?, codec.lineEnd? buffer = .ok stop? :=
    ⟨_, lineEnd?_of_le h⟩
  cases stop? with
  | some stop => exact ⟨_, takeLine_of_some hend⟩
  | none => exact ⟨_, takeLine_of_none hend⟩

theorem skipLine_of_le (h : codec.searched ≤ buffer.length) :
    ∃ outcome, codec.skipLine buffer = .ok outcome := by
  obtain ⟨stop?, hend⟩ : ∃ stop?, codec.lineEnd? buffer = .ok stop? :=
    ⟨_, lineEnd?_of_le h⟩
  cases stop? with
  | some stop =>
      rw [skipLine_of_some hend]
      exact takeLine_of_le (Nat.zero_le _)
  | none => exact ⟨_, skipLine_of_none hend⟩

theorem boundedDecode_of_le (h : codec.searched ≤ buffer.length) :
    ∃ outcome,
      (if codec.isDiscarding then codec.skipLine buffer else codec.takeLine buffer) =
        .ok outcome ∧
      codec.boundedDecode buffer =
        .ok { outcome with events := .entered .decode :: outcome.events } := by
  rw [boundedDecode]
  split
  · obtain ⟨outcome, hskip⟩ := skipLine_of_le h
    exact ⟨outcome, hskip, by rw [hskip]; rfl⟩
  · obtain ⟨outcome, htake⟩ := takeLine_of_le h
    exact ⟨outcome, htake, by rw [htake]; rfl⟩

theorem boundedDecode_of_lt (h : buffer.length < codec.searched) :
    codec.boundedDecode buffer = .error ⟨codec.searched⟩ := by
  rw [boundedDecode, skipLine, takeLine, lineEnd?_of_lt h]
  split <;> rfl

/-- All cuts of a call lie within the buffer just if it has the bytes that were searched. -/
theorem boundedDecode_eq (codec : LineCodec) (buffer : Bytes) :
    codec.boundedDecode buffer =
      if codec.searched ≤ buffer.length then .ok (codec.decode buffer)
      else .error ⟨codec.searched⟩ := by
  split
  · next hle =>
      obtain ⟨outcome, -, hdecode⟩ := boundedDecode_of_le hle
      rw [decode, hdecode]
  · next hlt => exact boundedDecode_of_lt (Nat.lt_of_not_le hlt)

/-! ## Promises -/

def Outcome.answer? (outcome : Outcome) : Option (Except Error Text) :=
  match outcome.result with
  | .ok none => none
  | .ok (some text) => some (.ok text)
  | .error error => some (.error error)

/-- The first lines owed before get the answers, and the others are owed after. -/
def Settles (converter : Converter) (before : List Bytes)
    (answers : List (Except Error Text)) (after : List Bytes) : Prop :=
  ∃ settled, before = settled ++ after ∧
    List.Forall₂ (Verdict converter) settled answers

theorem Settles.nothing (converter : Converter) (lines : List Bytes) :
    Settles converter lines [] lines :=
  ⟨[], rfl, .nil⟩

theorem Settles.eq_of_nothing {converter : Converter} {before after : List Bytes}
    (h : Settles converter before [] after) : before = after := by
  obtain ⟨settled, rfl, hanswers⟩ := h
  cases hanswers
  rfl

theorem Settles.first {converter : Converter} {line : Bytes}
    {answer : Except Error Text} (h : Verdict converter line answer)
    (after : List Bytes) : Settles converter (line :: after) [answer] after :=
  ⟨[line], rfl, .cons h .nil⟩

theorem Settles.trans {converter : Converter} {before between after : List Bytes}
    {answers later : List (Except Error Text)}
    (h : Settles converter before answers between)
    (hlater : Settles converter between later after) :
    Settles converter before (answers ++ later) after := by
  obtain ⟨settled, rfl, hanswers⟩ := h
  obtain ⟨more, rfl, hmore⟩ := hlater
  exact ⟨settled ++ more, by simp, List.rel_append hanswers hmore⟩

/--
The outcome of a call that keeps the codec's promise to the lines it owes,
whatever bytes `ahead` are still to come.
-/
structure Outcome.Keeps (outcome : Outcome) (codec : LineCodec)
    (buffer ahead : Bytes) : Prop where
  converter_eq : outcome.codec.converter = codec.converter
  tracks : outcome.codec.Tracks outcome.buffer
  settles : Settles codec.converter (owed codec.isDiscarding (buffer ++ ahead))
    outcome.answer?.toList
    (owed outcome.codec.isDiscarding (outcome.buffer ++ ahead))
  waits : outcome.answer? = none →
    lineFeed ∉ outcome.buffer ∧ outcome.buffer.length ≤ maxLineLength

@[simp] theorem deliver_codec (codec : LineCodec) (line rest : Bytes) :
    (codec.deliver line rest).codec = codec := by
  unfold deliver
  split <;> rfl

@[simp] theorem deliver_buffer (codec : LineCodec) (line rest : Bytes) :
    (codec.deliver line rest).buffer = rest := by
  unfold deliver
  split <;> rfl

theorem deliver_answer? (codec : LineCodec) {line : Bytes}
    (hline : line.length ≤ maxLineLength) (rest : Bytes) :
    ∃ answer, (codec.deliver line rest).answer? = some answer ∧
      Verdict codec.converter line answer := by
  unfold deliver
  cases hdecode : Utf8.decode (dropReturn line) with
  | ok text =>
      refine ⟨_, rfl, .converted text hline ?_⟩
      rw [Utf8.encode_of_decode hdecode]
      exact kept_dropReturn line
  | error position =>
      exact ⟨_, rfl, .malformed (dropReturn line) position hline (kept_dropReturn line)
        (Utf8.encode_ne_of_decode_error hdecode)
        (Utf8.isLongestSpelled_of_decode hdecode)⟩

theorem keeps_of_answer {ahead line : Bytes} {outcome : Outcome}
    {answer : Except Error Text}
    (hconverter : outcome.codec.converter = codec.converter)
    (hsearched : outcome.codec.searched = 0)
    (howed : owed codec.isDiscarding (buffer ++ ahead) =
      line :: owed outcome.codec.isDiscarding (outcome.buffer ++ ahead))
    (hanswer : outcome.answer? = some answer)
    (hverdict : Verdict codec.converter line answer) :
    outcome.Keeps codec buffer ahead where
  converter_eq := hconverter
  tracks := tracks_of_searched_eq_zero _ hsearched
  settles := by
    rw [howed, hanswer]
    exact .first hverdict _
  waits := by simp [hanswer]

variable {outcome : Outcome}

theorem takeLine_keeps (h : codec.takeLine buffer = .ok outcome)
    (htracks : codec.Tracks buffer) (hdiscarding : codec.isDiscarding = false)
    (ahead : Bytes) : outcome.Keeps codec buffer ahead := by
  by_cases hmem : lineFeed ∈ buffer
  · obtain ⟨line, rest, rfl, hline⟩ := List.eq_append_cons_of_mem hmem
    have hend := lineEnd?_append_cons htracks.searched_le_line hline rest
    rw [takeLine_of_some hend, drop_line, List.take_left] at h
    cases h
    split
    · next hlong =>
        exact keeps_of_answer rfl rfl
          (by simp [giveUp, hdiscarding, lines_append_cons hline]) rfl
          (.tooLong line.length hlong hlong le_rfl)
    · next hshort =>
        obtain ⟨answer, hanswer, hverdict⟩ :=
          deliver_answer? { codec with searched := 0 } (Nat.le_of_not_lt hshort) rest
        exact keeps_of_answer (by simp) (by simp)
          (by simp [hdiscarding, lines_append_cons hline]) hanswer hverdict
  · rw [takeLine_of_none (lineEnd?_of_not_mem htracks.searched_le hmem)] at h
    cases h
    split
    · next hlong =>
        -- The line goes on in the bytes to come, so its length is not known yet.
        obtain ⟨more, hmore⟩ := lines_append_of_not_mem hmem
          (List.ne_nil_of_length_pos (by omega)) ahead
        have howed : owed codec.isDiscarding (buffer ++ ahead) =
            (buffer ++ more) :: owed true ([] ++ ahead) := by
          simp [hdiscarding, hmore]
        refine keeps_of_answer rfl rfl howed rfl
          (.tooLong buffer.length ?_ hlong ?_) <;>
          rw [List.length_append] <;> omega
    · next hshort =>
        exact
          { converter_eq := rfl
            tracks := ⟨le_rfl, by simpa using hmem, by simp [hdiscarding]⟩
            settles := .nothing _ _
            waits := fun _ => ⟨hmem, Nat.le_of_not_lt hshort⟩ }

theorem skipLine_keeps (h : codec.skipLine buffer = .ok outcome)
    (htracks : codec.Tracks buffer) (hdiscarding : codec.isDiscarding = true)
    (ahead : Bytes) : outcome.Keeps codec buffer ahead := by
  by_cases hmem : lineFeed ∈ buffer
  · obtain ⟨line, rest, rfl, hline⟩ := List.eq_append_cons_of_mem hmem
    have hend := lineEnd?_append_cons htracks.searched_le_line hline rest
    rw [skipLine_of_some hend, drop_line] at h
    have hkeeps := takeLine_keeps h (tracks_of_searched_eq_zero rest rfl) rfl ahead
    refine ⟨hkeeps.converter_eq, hkeeps.tracks, ?_, hkeeps.waits⟩
    rw [hdiscarding, List.append_assoc, owed_true_append hline, List.cons_append,
      owed_true_cons]
    simpa using hkeeps.settles
  · rw [skipLine_of_none (lineEnd?_of_not_mem htracks.searched_le hmem)] at h
    cases h
    refine ⟨rfl, tracks_of_searched_eq_zero _ rfl, ?_, by simp⟩
    rw [hdiscarding, owed_true_append hmem]
    exact .nothing _ _

theorem decode_keeps (htracks : codec.Tracks buffer) (ahead : Bytes) :
    (codec.decode buffer).Keeps codec buffer ahead := by
  obtain ⟨outcome, hcall, hdecode⟩ := boundedDecode_of_le htracks.searched_le
  have hkeeps : outcome.Keeps codec buffer ahead := by
    split at hcall
    · next hdiscarding => exact skipLine_keeps hcall htracks hdiscarding ahead
    · next hdiscarding =>
        exact takeLine_keeps hcall htracks (by simpa using hdiscarding) ahead
  rw [decode, hdecode]
  exact ⟨hkeeps.converter_eq, hkeeps.tracks, hkeeps.settles, hkeeps.waits⟩

/-! ## Calls at the end of the stream -/

theorem Outcome.answer?_eq_none_iff {outcome : Outcome} :
    outcome.answer? = none ↔ outcome.result = .ok none := by
  unfold answer?
  split <;> simp_all

theorem decodeEnd_of_answer (h : (codec.decode buffer).answer? ≠ none) :
    codec.decodeEnd buffer = codec.decode buffer := by
  rw [ne_eq, Outcome.answer?_eq_none_iff] at h
  simp only [decodeEnd]
  split <;> simp_all

theorem decodeEnd_of_nothing (h : (codec.decode buffer).answer? = none) :
    codec.decodeEnd buffer =
      let outcome := codec.decode buffer
      let next := { outcome.codec with searched := 0, isDiscarding := false }
      if outcome.codec.isDiscarding || outcome.buffer.isEmpty then
        { outcome with codec := next, buffer := [] }
      else
        let last := next.deliver outcome.buffer []
        { last with events := outcome.events ++ last.events } := by
  rw [Outcome.answer?_eq_none_iff] at h
  simp only [decodeEnd, h]

theorem decodeEnd_keeps (htracks : codec.Tracks buffer) :
    (codec.decodeEnd buffer).Keeps codec buffer [] := by
  have hkeeps := decode_keeps htracks []
  by_cases hanswer : (codec.decode buffer).answer? = none
  · obtain ⟨hmem, hshort⟩ := hkeeps.waits hanswer
    have hsettles := hkeeps.settles
    rw [hanswer] at hsettles
    have howed := hsettles.eq_of_nothing
    rw [decodeEnd_of_nothing hanswer]
    dsimp only
    split
    · next hover =>
        have hnothing : owed (codec.decode buffer).codec.isDiscarding
            ((codec.decode buffer).buffer ++ []) = [] := by
          rcases Bool.or_eq_true_iff.mp hover with hdiscarding | hempty
          · rw [hdiscarding, owed_true_append hmem, owed_nil]
          · simp [List.isEmpty_iff.mp hempty]
        refine ⟨hkeeps.converter_eq, tracks_of_searched_eq_zero _ rfl, ?_, by simp⟩
        rw [howed, hnothing]
        simpa [Outcome.answer?, Outcome.answer?_eq_none_iff.mp hanswer] using
          Settles.nothing codec.converter []
    · next hrest =>
        simp only [Bool.or_eq_true, not_or, Bool.not_eq_true] at hrest
        have hbuffer : (codec.decode buffer).buffer ≠ [] := by
          intro hempty
          simp [hempty] at hrest
        obtain ⟨answer, hlast, hverdict⟩ := deliver_answer?
          { (codec.decode buffer).codec with searched := 0, isDiscarding := false }
          hshort []
        refine keeps_of_answer (by simp [hkeeps.converter_eq]) (by simp) ?_ hlast
          (hkeeps.converter_eq ▸ hverdict)
        rw [howed, hrest.1, owed_false, List.append_nil,
          lines_of_not_mem hmem hbuffer]
        simp
  · rw [decodeEnd_of_answer hanswer]
    exact hkeeps

theorem decodeEnd_of_answer?_eq_none (h : (codec.decodeEnd buffer).answer? = none) :
    (codec.decodeEnd buffer).buffer = [] ∧
      (codec.decodeEnd buffer).codec.isDiscarding = false := by
  by_cases hanswer : (codec.decode buffer).answer? = none
  · rw [decodeEnd_of_nothing hanswer]
    dsimp only
    split
    · exact ⟨rfl, rfl⟩
    · exact ⟨deliver_buffer _ _ _, by rw [deliver_codec]⟩
  · rw [decodeEnd_of_answer hanswer] at h
    exact absurd h hanswer

/-! ## What is left in the buffer -/

/-- A call leaves the end of its buffer, and less than all of it if it answers. -/
def Outcome.Leaves (outcome : Outcome) (buffer : Bytes) : Prop :=
  outcome.buffer <:+ buffer ∧
    (outcome.answer? ≠ none → outcome.buffer.length < buffer.length)

theorem takeLine_leaves (h : codec.takeLine buffer = .ok outcome) :
    outcome.Leaves buffer := by
  cases hend : codec.lineEnd? buffer with
  | error off =>
      rw [takeLine, hend] at h
      cases h
  | ok stop? =>
      cases stop? with
      | some stop =>
          have hlt := lineEnd?_lt hend
          have hshorter : (buffer.drop (stop + 1)).length < buffer.length := by
            rw [List.length_drop]
            omega
          rw [takeLine_of_some hend] at h
          cases h
          split
          · exact ⟨List.drop_suffix _ _, fun _ => hshorter⟩
          · rw [Outcome.Leaves, deliver_buffer]
            exact ⟨List.drop_suffix _ _, fun _ => hshorter⟩
      | none =>
          rw [takeLine_of_none hend] at h
          cases h
          split
          · next hlong =>
              refine ⟨List.nil_suffix, fun _ => ?_⟩
              simp only [giveUp, List.length_nil]
              omega
          · exact ⟨List.suffix_rfl, fun h => absurd rfl h⟩

theorem skipLine_leaves (h : codec.skipLine buffer = .ok outcome) :
    outcome.Leaves buffer := by
  cases hend : codec.lineEnd? buffer with
  | error off =>
      rw [skipLine, hend] at h
      cases h
  | ok stop? =>
      cases stop? with
      | some stop =>
          rw [skipLine_of_some hend] at h
          have hleaves := takeLine_leaves h
          refine ⟨hleaves.1.trans (List.drop_suffix _ _), fun hanswer => ?_⟩
          have := hleaves.2 hanswer
          rw [List.length_drop] at this
          exact this.trans_le (Nat.sub_le _ _)
      | none =>
          rw [skipLine_of_none hend] at h
          cases h
          exact ⟨List.nil_suffix, fun h => absurd rfl h⟩

theorem decode_leaves (codec : LineCodec) (buffer : Bytes) :
    (codec.decode buffer).Leaves buffer := by
  rcases Nat.lt_or_ge buffer.length codec.searched with hlt | hle
  · rw [decode, boundedDecode_of_lt hlt]
    exact ⟨List.suffix_rfl, fun h => absurd rfl h⟩
  · obtain ⟨outcome, hcall, hdecode⟩ := boundedDecode_of_le hle
    have hleaves : outcome.Leaves buffer := by
      split at hcall
      · exact skipLine_leaves hcall
      · exact takeLine_leaves hcall
    rw [decode, hdecode]
    exact hleaves

theorem decodeEnd_leaves (codec : LineCodec) (buffer : Bytes) :
    (codec.decodeEnd buffer).Leaves buffer := by
  have hleaves := decode_leaves codec buffer
  by_cases hanswer : (codec.decode buffer).answer? = none
  · rw [decodeEnd_of_nothing hanswer]
    dsimp only
    split
    · refine ⟨List.nil_suffix, fun h => absurd ?_ h⟩
      exact Outcome.answer?_eq_none_iff.mpr (Outcome.answer?_eq_none_iff.mp hanswer)
    · next hrest =>
        refine ⟨by simp, fun _ => ?_⟩
        have hbuffer : (codec.decode buffer).buffer ≠ [] := by
          intro hempty
          simp [hempty] at hrest
        have := List.length_pos_of_ne_nil hbuffer
        have := hleaves.1.length_le
        simp only [deliver_buffer, List.length_nil]
        omega
  · rw [decodeEnd_of_answer hanswer]
    exact hleaves

end ChatCodes.LineCodec
