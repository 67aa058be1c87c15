import ChatCodes.Text.Basic

/-!
# Sinks

A sink takes characters one text after another, as many as it has room for.  A
text that does not fit is cut: the sink keeps the part that fits, and the write
fails.  A text that fits exactly, or is empty, is written.
-/

namespace ChatCodes.Markup

/-- `backwards` holds the characters received, the last one first. -/
structure Sink where
  backwards : Text := []
  room : Option Nat := none
  deriving DecidableEq, Repr

namespace Sink

def ofText (text : Text) (room : Option Nat) : Sink :=
  ⟨text.reverse, room⟩

def unbounded : Sink := {}

def text (sink : Sink) : Text := sink.backwards.reverse

/-- The sink after a write, which the error carries if the text did not fit. -/
def write (sink : Sink) (text : Text) : Except Sink Sink :=
  match sink.room with
  | none => .ok { sink with backwards := text.reverseAux sink.backwards }
  | some room =>
      let kept := text.take room
      let after : Sink :=
        ⟨kept.reverseAux sink.backwards, some (room - kept.length)⟩
      if text.length ≤ room then .ok after else .error after

@[simp] theorem text_ofText (text : Text) (room : Option Nat) :
    (ofText text room).text = text := by
  simp [ofText, Sink.text]

/-! ## Writes seen through the text -/

theorem write_of_fits {sink : Sink} {room : Nat} {text : Text}
    (hroom : sink.room = some room) (hfits : text.length ≤ room) :
    ∃ after, sink.write text = .ok after ∧
      after.room = some (room - text.length) ∧
      after.text = sink.text ++ text := by
  refine ⟨⟨text.reverseAux sink.backwards, some (room - text.length)⟩, ?_, rfl, ?_⟩
  · simp [write, hroom, hfits, List.take_of_length_le hfits]
  · simp [Sink.text, List.reverseAux_eq]

theorem write_of_full {sink : Sink} {room : Nat} {text : Text}
    (hroom : sink.room = some room) (hfull : room < text.length) :
    ∃ after, sink.write text = .error after ∧ after.room = some 0 ∧
      after.text = sink.text ++ text.take room := by
  refine ⟨⟨(text.take room).reverseAux sink.backwards, some 0⟩, ?_, rfl, ?_⟩
  · have hlength : room - (text.take room).length = 0 := by
      rw [List.length_take]
      omega
    simp only [write, hroom, hlength, if_neg (Nat.not_le.mpr hfull)]
  · simp [Sink.text, List.reverseAux_eq]

/-! ## Writes one after another -/

theorem write_nil (sink : Sink) : sink.write [] = .ok sink := by
  obtain ⟨backwards, room⟩ := sink
  cases room with
  | none => rfl
  | some room => simp [write]

/-- A sink does not see where a text is cut into two. -/
theorem write_append (sink : Sink) (front back : Text) :
    sink.write (front ++ back) = (sink.write front).bind (·.write back) := by
  obtain ⟨backwards, room⟩ := sink
  cases room with
  | none => simp [write, Except.bind, List.reverseAux_eq]
  | some room =>
      by_cases hfront : front.length ≤ room
      · have hback :
            (front ++ back).length ≤ room ↔ back.length ≤ room - front.length := by
          rw [List.length_append]
          omega
        have htake :
            (front ++ back).take room = front ++ back.take (room - front.length) := by
          rw [List.take_append, List.take_of_length_le hfront]
        simp only [write, hfront, if_true, Except.bind, hback, htake,
          List.take_of_length_le hfront]
        simp [List.reverseAux_eq, Nat.sub_sub]
      · have hboth : ¬ (front ++ back).length ≤ room := by
          rw [List.length_append]
          omega
        have htake : (front ++ back).take room = front.take room := by
          rw [List.take_append, Nat.sub_eq_zero_of_le (by omega), List.take_zero,
            List.append_nil]
        simp only [write, hfront, hboth, if_false, Except.bind, htake]

theorem foldlM_write (sink : Sink) (parts : List Text) :
    parts.foldlM write sink = sink.write parts.flatten := by
  induction parts generalizing sink with
  | nil => exact (write_nil sink).symm
  | cons part parts ih =>
      rw [List.flatten_cons, write_append, List.foldlM_cons]
      cases sink.write part with
      | error full => rfl
      | ok next => exact ih next

end Sink

end ChatCodes.Markup
