import ChatCodes.Text.Basic

/-!
# UTF-8

Encoding a text to bytes, and decoding bytes that may be malformed.  Decoding
reads whole characters from the left; where no character can be read it reports
how many bytes stand before, which is the length of the longest well-formed
start of the input.
-/

namespace ChatCodes.Utf8

abbrev Bytes := List UInt8

def encode (text : Text) : Bytes := text.flatMap String.utf8EncodeChar

/-- The character that the bytes start with.  None is longer than four bytes. -/
def decodeChar? (bytes : Bytes) : Option Char :=
  (bytes.take 4).toByteArray.utf8DecodeChar? 0

/-- The text, or the length of the longest well-formed start of the bytes. -/
def decode : Bytes → Except Nat Text
  | [] => .ok []
  | lead :: rest =>
      match decodeChar? (lead :: rest) with
      | none => .error 0
      | some c =>
          match decode ((lead :: rest).drop c.utf8Size) with
          | .ok text => .ok (c :: text)
          | .error position => .error (c.utf8Size + position)
termination_by bytes => bytes.length
decreasing_by
  have := c.utf8Size_pos
  simp
  omega

@[simp] theorem encode_nil : encode [] = [] := rfl

@[simp] theorem encode_cons (first : Char) (rest : Text) :
    encode (first :: rest) = String.utf8EncodeChar first ++ encode rest := by
  simp [encode]

@[simp] theorem encode_append (front back : Text) :
    encode (front ++ back) = encode front ++ encode back := by
  simp [encode]

theorem length_encode (text : Text) :
    (encode text).length = text.byteLength := by
  induction text with
  | nil => rfl
  | cons first rest ih => simp [ih]

theorem decodeChar?_encode_append (c : Char) (rest : Bytes) :
    decodeChar? (String.utf8EncodeChar c ++ rest) = some c := by
  have hsize : (String.utf8EncodeChar c).length ≤ 4 := by
    simpa using c.utf8Size_le_four
  rw [decodeChar?, List.take_append, List.take_of_length_le hsize,
    List.toByteArray_append]
  exact ByteArray.utf8DecodeChar?_utf8EncodeChar_append

theorem eq_encode_append_of_decodeChar? {bytes : Bytes} {c : Char}
    (h : decodeChar? bytes = some c) :
    bytes = String.utf8EncodeChar c ++ bytes.drop c.utf8Size := by
  obtain ⟨rest, hrest⟩ := ByteArray.exists_of_utf8DecodeChar?_eq_some h
  have hfront : bytes.take 4 =
      String.utf8EncodeChar c ++ rest.data.toList := by
    have := congrArg (fun bytes => bytes.data.toList) hrest
    simpa using this
  have hbytes := List.take_append_drop 4 bytes
  rw [hfront] at hbytes
  rw [← hbytes, List.append_assoc, ← String.length_utf8EncodeChar,
    List.drop_left]

theorem decode_encode (text : Text) : decode (encode text) = .ok text := by
  induction text with
  | nil => rw [encode_nil, decode]
  | cons first rest ih =>
      obtain ⟨lead, more, hbytes⟩ :=
        List.exists_cons_of_length_pos (l := String.utf8EncodeChar first) (by
          simpa using first.utf8Size_pos)
      have hread := decodeChar?_encode_append first (encode rest)
      rw [encode_cons]
      have hdrop : (String.utf8EncodeChar first ++ encode rest).drop
          first.utf8Size = encode rest := by
        rw [← String.length_utf8EncodeChar, List.drop_left]
      rw [hbytes, List.cons_append] at hread hdrop ⊢
      rw [decode, hread]
      simp only [hdrop, ih]

theorem encode_of_decode {bytes : Bytes} {text : Text}
    (h : decode bytes = .ok text) : encode text = bytes := by
  fun_induction decode bytes generalizing text with
  | case1 => cases h; rfl
  | case2 => cases h
  | case3 lead rest c hc decoded hdecoded ih =>
      cases h
      rw [encode_cons, ih hdecoded]
      exact (eq_encode_append_of_decodeChar? hc).symm
  | case4 => cases h

end ChatCodes.Utf8
