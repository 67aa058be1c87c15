import ChatCodes.Text.Utf8
import Mathlib.Order.Bounds.Basic

/-!
# Bytes that spell a text

Bytes are well formed if they are the encoding of a text.  Decoding accepts
exactly these, and refuses all others at the end of their longest well-formed
start.
-/

namespace ChatCodes.Utf8

/-- `length` counts the bytes of the longest start of `bytes` that spells a text. -/
def IsLongestSpelled (bytes : Bytes) (length : Nat) : Prop :=
  IsGreatest {n | ∃ text, encode text <+: bytes ∧ (encode text).length = n} length

theorem encode_injective : Function.Injective encode := by
  intro first second h
  have hdecode := congrArg decode h
  rw [decode_encode, decode_encode] at hdecode
  exact Except.ok.inj hdecode

theorem encode_ne_of_decode_error {bytes : Bytes} {position : Nat}
    (h : decode bytes = .error position) (text : Text) : encode text ≠ bytes := by
  rintro rfl
  rw [decode_encode] at h
  contradiction

theorem decodeChar?_of_encode_cons_isPrefix {bytes : Bytes} {c : Char}
    {text : Text} (h : encode (c :: text) <+: bytes) :
    decodeChar? bytes = some c ∧ encode text <+: bytes.drop c.utf8Size := by
  obtain ⟨rest, rfl⟩ := h
  rw [encode_cons, List.append_assoc]
  refine ⟨decodeChar?_encode_append c _, ?_⟩
  rw [← String.length_utf8EncodeChar, List.drop_left]
  exact List.prefix_append _ _

theorem isLongestSpelled_of_decode {bytes : Bytes} {position : Nat}
    (h : decode bytes = .error position) : IsLongestSpelled bytes position := by
  fun_induction decode bytes generalizing position with
  | case1 => contradiction
  | case2 lead rest hnone =>
      cases h
      refine ⟨⟨[], List.nil_prefix, rfl⟩, ?_⟩
      rintro _ ⟨text, htext, rfl⟩
      cases text with
      | nil => simp
      | cons c text =>
          rw [(decodeChar?_of_encode_cons_isPrefix htext).1] at hnone
          contradiction
  | case3 => contradiction
  | case4 lead rest c hc behind hbehind ih =>
      cases h
      obtain ⟨⟨text, htext, hlength⟩, hgreatest⟩ := ih hbehind
      constructor
      · refine ⟨c :: text, ?_, by simp [hlength]⟩
        rw [encode_cons, eq_encode_append_of_decodeChar? hc]
        exact (List.prefix_append_right_inj _).mpr htext
      · rintro _ ⟨other, hother, rfl⟩
        cases other with
        | nil => simp
        | cons d other =>
            obtain ⟨hd, hrest⟩ := decodeChar?_of_encode_cons_isPrefix hother
            obtain rfl : c = d := Option.some.inj (hc.symm.trans hd)
            have := hgreatest ⟨other, hrest, rfl⟩
            simp
            omega

end ChatCodes.Utf8
