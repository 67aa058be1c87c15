import ChatCodes.Proofs.Stream.Chunks

/-!
# Line endings

A line may end in a line feed, or in a carriage return and a line feed.  The carriage
return is dropped from the text, but it stands in the buffer and counts there, so that a
line of the greatest length fits with the one ending and is too long with the other.  On
all other lines the two endings agree.
-/

namespace ChatCodes.LineCodec

open Utf8 (Bytes)

/-- What may stand in front of either ending: no part of an ending is in it. -/
structure IsUnended (line : Bytes) : Prop where
  lineFeed_not_mem : lineFeed ∉ line
  getLast?_ne : line.getLast? ≠ some carriageReturn

/-- The stream in which every line is followed by a line feed, with `mark` in front of it. -/
def ended (mark : Bytes) (asked : List Bytes) : Bytes :=
  asked.flatMap fun line => line ++ mark ++ [lineFeed]

theorem lines_ended {mark : Bytes} (hmark : lineFeed ∉ mark) {asked : List Bytes}
    (hasked : ∀ line ∈ asked, lineFeed ∉ line) :
    lines (ended mark asked) = asked.map (· ++ mark) := by
  induction asked with
  | nil => exact lines_nil
  | cons line asked ih =>
      obtain ⟨hline, hasked⟩ := List.forall_mem_cons.mp hasked
      have hboth : lineFeed ∉ line ++ mark := by simp [hline, hmark]
      rw [ended, List.flatMap_cons, List.append_assoc _ [lineFeed], List.singleton_append,
        lines_append_cons hboth, List.map_cons, ← ih hasked]
      rfl

theorem IsUnended.kept {line : Bytes} (h : IsUnended line) : Kept line line :=
  .whole rfl h.getLast?_ne

variable {converter : Converter} {line : Bytes} {first second : Except Error Text}

/-! ## The two verdicts on a line -/

theorem Verdict.of_concat_return (h : Verdict converter (line ++ [carriageReturn]) first)
    (hline : IsUnended line) (hshort : line.length < maxLineLength) :
    Verdict converter line first := by
  have heq : ∀ {kept : Bytes}, Kept (line ++ [carriageReturn]) kept → kept = line :=
    fun hkept => hkept.unique (.returned rfl)
  cases h with
  | tooLong length hlong =>
      rw [List.length_append, List.length_singleton] at hlong
      omega
  | malformed kept position _ hkept hspelled hposition =>
      obtain rfl := heq hkept
      exact .malformed kept position hshort.le hline.kept hspelled hposition
  | converted text _ hkept =>
      exact .converted text hshort.le (heq hkept ▸ hline.kept)

theorem Verdict.eq_tooLong (h : Verdict converter line first)
    (hlong : maxLineLength < line.length) :
    ∃ length, maxLineLength < length ∧ length ≤ line.length ∧
      first = .error (.lineTooLong length maxLineLength) := by
  cases h with
  | tooLong length _ hlength hwithin => exact ⟨length, hlength, hwithin, rfl⟩
  | malformed _ _ hshort => omega
  | converted _ hshort => omega

theorem Verdict.ne_tooLong (h : Verdict converter line first)
    (hshort : line.length ≤ maxLineLength) (length limit : Nat) :
    first ≠ .error (.lineTooLong length limit) := by
  rintro rfl
  cases h with
  | tooLong _ hlong => omega

/--
What is answered to a line with a carriage return behind it, and without.  At the
greatest length the carriage return makes the line too long.
-/
def Agree (line : Bytes) (first second : Except Error Text) : Prop :=
  if line.length = maxLineLength then
    first = .error (.lineTooLong (maxLineLength + 1) maxLineLength) ∧
      ∀ length limit, second ≠ .error (.lineTooLong length limit)
  else SameButLength first second

theorem agree_of_verdicts (hline : IsUnended line)
    (hfirst : Verdict converter (line ++ [carriageReturn]) first)
    (hsecond : Verdict converter line second) : Agree line first second := by
  have hlength : (line ++ [carriageReturn]).length = line.length + 1 :=
    List.length_append
  rw [Agree]
  split
  · next hlimit =>
      obtain ⟨length, hlong, hwithin, rfl⟩ := hfirst.eq_tooLong (by omega)
      obtain rfl : length = maxLineLength + 1 := by omega
      exact ⟨rfl, hsecond.ne_tooLong hlimit.le⟩
  · next hlimit =>
      rcases Nat.lt_or_gt_of_ne hlimit with hshort | hlong
      · exact (hfirst.of_concat_return hline hshort).sameButLength hsecond
      · obtain ⟨length, -, -, rfl⟩ := hfirst.eq_tooLong (by omega)
        obtain ⟨length', -, -, rfl⟩ := hsecond.eq_tooLong hlong
        exact .inr ⟨length, length', rfl, rfl⟩

theorem Agree.sameButLength_iff (h : Agree line first second) :
    SameButLength first second ↔ line.length ≠ maxLineLength := by
  rw [Agree] at h
  split at h
  · next hlimit =>
      obtain ⟨rfl, hsecond⟩ := h
      refine iff_of_false ?_ fun hne => hne hlimit
      rintro (rfl | ⟨_, length, _, rfl⟩)
      · exact hsecond _ _ rfl
      · exact hsecond _ _ rfl
  · next hlimit => exact iff_of_true h hlimit

/-! ## Whole streams -/

section Streams

variable {asked : List Bytes} {answers others : List (Except Error Text)}

theorem forall₂_agree (hasked : ∀ line ∈ asked, IsUnended line)
    (hanswers : List.Forall₂ (Verdict converter) (asked.map (· ++ [carriageReturn])) answers)
    (hothers : List.Forall₂ (Verdict converter) asked others) :
    List.Forall₂ (fun line (pair : _ × _) => Agree line pair.1 pair.2) asked
      (answers.zip others) := by
  induction hothers generalizing answers with
  | nil =>
      cases hanswers
      exact .nil
  | cons hother _ ih =>
      obtain ⟨hline, hasked⟩ := List.forall_mem_cons.mp hasked
      cases hanswers with
      | cons hanswer hanswers =>
          exact .cons (agree_of_verdicts hline hanswer hother) (ih hasked hanswers)

theorem forall₂_sameButLength_iff (hasked : ∀ line ∈ asked, IsUnended line)
    (hanswers : List.Forall₂ (Verdict converter) (asked.map (· ++ [carriageReturn])) answers)
    (hothers : List.Forall₂ (Verdict converter) asked others) :
    List.Forall₂ SameButLength answers others ↔
      ∀ line ∈ asked, line.length ≠ maxLineLength := by
  induction hothers generalizing answers with
  | nil =>
      cases hanswers
      simp
  | cons hother _ ih =>
      obtain ⟨hline, hasked⟩ := List.forall_mem_cons.mp hasked
      cases hanswers with
      | cons hanswer hanswers =>
          rw [List.forall₂_cons, ih hasked hanswers, List.forall_mem_cons,
            (agree_of_verdicts hline hanswer hother).sameButLength_iff]

end Streams

theorem answers_verdicts_ended {mark : Bytes} (hmark : lineFeed ∉ mark) {asked : List Bytes}
    (hasked : ∀ line ∈ asked, IsUnended line) {chunks : List Chunk}
    (hchunks : stream chunks = ended mark asked) (converter : Converter) :
    List.Forall₂ (Verdict converter) (asked.map (· ++ mark)) (answers converter chunks) := by
  have hverdicts := answers_verdicts converter chunks
  rwa [hchunks, lines_ended hmark fun line hline => (hasked line hline).lineFeed_not_mem]
    at hverdicts

/--
Two streams of the same lines, one with a carriage return in front of each line feed,
are both answered line by line, however they are cut.  The answers agree on every line
but those of exactly the greatest length.
-/
theorem answers_agree_but_at_limit (converter : Converter) {asked : List Bytes}
    (hasked : ∀ line ∈ asked, IsUnended line) {chunks others : List Chunk}
    (hchunks : stream chunks = ended [carriageReturn] asked)
    (hothers : stream others = ended [] asked) :
    (answers converter chunks).length = asked.length ∧
    (answers converter others).length = asked.length ∧
    List.Forall₂ (fun line (pair : _ × _) => Agree line pair.1 pair.2) asked
      ((answers converter chunks).zip (answers converter others)) ∧
    (List.Forall₂ SameButLength (answers converter chunks) (answers converter others) ↔
      ∀ line ∈ asked, line.length ≠ maxLineLength) := by
  have hverdicts := answers_verdicts_ended (by decide) hasked hchunks converter
  have hverdicts' := answers_verdicts_ended (by decide) hasked hothers converter
  simp only [List.append_nil, List.map_id'] at hverdicts'
  refine ⟨?_, hverdicts'.length_eq.symm, forall₂_agree hasked hverdicts hverdicts',
    forall₂_sameButLength_iff hasked hverdicts hverdicts'⟩
  rw [← hverdicts.length_eq, List.length_map]

/-- One stream is cut between the carriage return and the line feed. -/
theorem answers_agree_on_short_lines :
    List.Forall₂ SameButLength
      (answers .ampersand [⟨[38, 99, 97, 13], 1⟩, ⟨[10, 255, 13, 10], 0⟩])
      (answers .ampersand [⟨[38, 99, 97, 10, 255, 10], 2⟩]) := by
  have hasked : ∀ line ∈ [[38, 99, 97], [255]], IsUnended line :=
    List.forall_mem_cons.mpr ⟨⟨by decide, by decide⟩,
      List.forall_mem_singleton.mpr ⟨by decide, by decide⟩⟩
  exact (answers_agree_but_at_limit .ampersand hasked (by decide) (by decide)).2.2.2.mpr
    (by decide)

/-- A line of the greatest length is too long only with the carriage return. -/
theorem answers_differ_at_limit :
    let line : Bytes := List.replicate maxLineLength 97
    IsUnended line ∧
      ¬ List.Forall₂ SameButLength
        (answers .ampersand [⟨ended [carriageReturn] [line], 0⟩])
        (answers .ampersand [⟨ended [] [line], 0⟩]) := by
  intro line
  have hline : IsUnended line := by
    refine ⟨fun hmem => absurd (List.eq_of_mem_replicate hmem) (by decide), fun hlast => ?_⟩
    have hmem := List.mem_of_getLast? hlast
    exact absurd (List.eq_of_mem_replicate hmem) (by decide)
  have hasked : ∀ other ∈ [line], IsUnended other := by simpa using hline
  have hverdicts := answers_verdicts_ended (by decide) hasked
    (List.flatMap_singleton Chunk.bytes ⟨ended [carriageReturn] [line], 0⟩) .ampersand
  have hverdicts' := answers_verdicts_ended (by decide) hasked
    (List.flatMap_singleton Chunk.bytes ⟨ended [] [line], 0⟩) .ampersand
  simp only [List.append_nil, List.map_id'] at hverdicts'
  rw [forall₂_sameButLength_iff hasked hverdicts hverdicts']
  exact ⟨hline, fun hne => hne line List.mem_cons_self List.length_replicate⟩

end ChatCodes.LineCodec
