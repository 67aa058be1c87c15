import ChatCodes.Proofs.Text.Spelling
import ChatCodes.Stream.LineCodec
import Mathlib.Data.List.Forall2

/-!
# Lines and their verdicts

A stream falls into lines at its line feeds.  What stands behind the last line
feed is a line too, unless it is empty.  The verdict on a line depends on that
line alone.  A carriage return at its end counts towards its length, but is not
kept for the text.  For a line that is too long the verdict leaves open how many of
its bytes had been seen when the line was given up.
-/

namespace ChatCodes.LineCodec

open Utf8 (Bytes)

/-! ## The lines of a stream -/

def lines (stream : Bytes) : List Bytes :=
  let parts := stream.splitOn lineFeed
  if parts.getLast? = some [] then parts.dropLast else parts

@[simp] theorem lines_nil : lines [] = [] := by
  simp [lines, List.splitOn_nil]

theorem lines_of_not_mem {line : Bytes} (h : lineFeed ∉ line)
    (hline : line ≠ []) : lines line = [line] := by
  simp [lines, List.splitOn_eq_singleton h, hline]

theorem lines_append_cons {line : Bytes} (h : lineFeed ∉ line) (rest : Bytes) :
    lines (line ++ lineFeed :: rest) = line :: lines rest := by
  obtain ⟨first, more, hparts⟩ :=
    List.exists_cons_of_ne_nil (List.splitOn_ne_nil lineFeed rest)
  simp only [lines, List.splitOn_append_cons_self_of_not_mem h, hparts,
    List.getLast?_cons_cons, List.dropLast_cons_cons]
  split <;> rfl

/--
The lines still to be answered when `stream` is what remains of a stream.  While
discarding, it begins with the end of a line that was answered before.
-/
def owed (isDiscarding : Bool) (stream : Bytes) : List Bytes :=
  if isDiscarding then lines (stream.dropWhile (· != lineFeed)).tail
  else lines stream

@[simp] theorem owed_false (stream : Bytes) : owed false stream = lines stream := by
  simp [owed]

@[simp] theorem owed_nil (isDiscarding : Bool) : owed isDiscarding [] = [] := by
  simp [owed]

theorem owed_true_append {line : Bytes} (h : lineFeed ∉ line) (rest : Bytes) :
    owed true (line ++ rest) = owed true rest := by
  have hall : ∀ byte ∈ line, (byte != lineFeed) = true :=
    fun byte hbyte => bne_iff_ne.mpr (ne_of_mem_of_not_mem hbyte h)
  simp [owed, List.dropWhile_append_of_pos hall]

theorem owed_true_cons (rest : Bytes) :
    owed true (lineFeed :: rest) = lines rest := by
  simp [owed]

theorem lines_append_of_not_mem {front : Bytes} (h : lineFeed ∉ front)
    (hfront : front ≠ []) (ahead : Bytes) :
    ∃ more, lines (front ++ ahead) = (front ++ more) :: owed true ahead := by
  by_cases hahead : lineFeed ∈ ahead
  · obtain ⟨more, rest, rfl, hmore⟩ := List.eq_append_cons_of_mem hahead
    refine ⟨more, ?_⟩
    rw [← List.append_assoc, lines_append_cons (by simp [h, hmore]),
      owed_true_append hmore, owed_true_cons]
  · refine ⟨ahead, ?_⟩
    have hnone := owed_true_append hahead []
    rw [List.append_nil, owed_nil] at hnone
    rw [lines_of_not_mem (by simp [h, hahead]) (by simp [hfront]), hnone]

/-! ## Verdicts -/

/-- What is kept of a line: all of it but a carriage return at its end. -/
inductive Kept (line kept : Bytes) : Prop
  | returned (h : line = kept ++ [carriageReturn])
  | whole (h : line = kept) (hlast : line.getLast? ≠ some carriageReturn)

theorem Kept.unique {line first second : Bytes} (hfirst : Kept line first)
    (hsecond : Kept line second) : first = second := by
  cases hfirst with
  | returned h =>
      cases hsecond with
      | returned h' => exact List.append_cancel_right (h.symm.trans h')
      | whole _ hlast => simp [h] at hlast
  | whole h hlast =>
      cases hsecond with
      | returned h' => simp [h'] at hlast
      | whole h' => exact h.symm.trans h'

theorem kept_dropReturn (line : Bytes) : Kept line (dropReturn line) := by
  unfold dropReturn
  split
  · next hlast => exact .returned (List.dropLast_append_getLast? _ hlast).symm
  · next hlast => exact .whole rfl hlast

inductive Verdict (converter : Converter) (line : Bytes) :
    Except Error Text → Prop
  | tooLong (length : Nat) (hline : maxLineLength < line.length)
      (hlength : maxLineLength < length) (hwithin : length ≤ line.length) :
      Verdict converter line (.error (.lineTooLong length maxLineLength))
  | malformed (kept : Bytes) (position : Nat) (hline : line.length ≤ maxLineLength)
      (hkept : Kept line kept) (hspelled : ∀ text, Utf8.encode text ≠ kept)
      (hposition : Utf8.IsLongestSpelled kept position) :
      Verdict converter line (.error (.invalidUtf8 position))
  | converted (text : Text) (hline : line.length ≤ maxLineLength)
      (hkept : Kept line (Utf8.encode text)) :
      Verdict converter line (.ok (converter.convert text))

/-- Equal answers, apart from the number of bytes seen of a line that is too long. -/
def SameButLength (first second : Except Error Text) : Prop :=
  first = second ∨
    ∃ length length',
      first = .error (.lineTooLong length maxLineLength) ∧
      second = .error (.lineTooLong length' maxLineLength)

theorem Verdict.sameButLength {converter : Converter} {line : Bytes}
    {first second : Except Error Text} (hfirst : Verdict converter line first)
    (hsecond : Verdict converter line second) : SameButLength first second := by
  cases hfirst with
  | tooLong length hline =>
      cases hsecond with
      | tooLong length' => exact .inr ⟨length, length', rfl, rfl⟩
      | malformed _ _ hshort => omega
      | converted _ hshort => omega
  | malformed kept position hline hkept hspelled hposition =>
      cases hsecond with
      | tooLong _ hlong => omega
      | malformed kept' position' _ hkept' _ hposition' =>
          obtain rfl := hkept.unique hkept'
          exact .inl (by rw [hposition.unique hposition'])
      | converted text _ hkept' => exact absurd (hkept'.unique hkept) (hspelled text)
  | converted text hline hkept =>
      cases hsecond with
      | tooLong _ hlong => omega
      | malformed kept' _ _ hkept' hspelled =>
          exact absurd (hkept.unique hkept') (hspelled text)
      | converted text' _ hkept' =>
          exact .inl (by rw [Utf8.encode_injective (hkept.unique hkept')])

theorem forall₂_sameButLength {converter : Converter} {asked : List Bytes}
    {first second : List (Except Error Text)}
    (hfirst : List.Forall₂ (Verdict converter) asked first)
    (hsecond : List.Forall₂ (Verdict converter) asked second) :
    List.Forall₂ SameButLength first second := by
  induction hfirst generalizing second with
  | nil =>
      cases hsecond
      exact .nil
  | cons hanswer _ ih =>
      cases hsecond with
      | cons hanswer' hrest' =>
          exact .cons (hanswer.sameButLength hanswer') (ih hrest')

end ChatCodes.LineCodec
