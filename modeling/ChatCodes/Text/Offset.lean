import ChatCodes.Text.Basic

/-!
# Byte offsets

Places in a text counted in the bytes of its UTF-8 form.  An offset is a boundary
if it does not fall inside a character or behind the end; texts can be cut at
boundaries only.
-/

namespace ChatCodes.Text

/-- What stands behind the first `offset` bytes. -/
def dropBytes? : Nat → Text → Option Text
  | 0, text => some text
  | _ + 1, [] => none
  | offset + 1, first :: rest =>
      if first.utf8Size ≤ offset + 1 then
        dropBytes? (offset + 1 - first.utf8Size) rest
      else none

def takeBytes? : Nat → Text → Option Text
  | 0, _ => some []
  | _ + 1, [] => none
  | offset + 1, first :: rest =>
      if first.utf8Size ≤ offset + 1 then
        (takeBytes? (offset + 1 - first.utf8Size) rest).map (first :: ·)
      else none

def slice? (start stop : Nat) (text : Text) : Option Text :=
  if start ≤ stop then (dropBytes? start text).bind (takeBytes? (stop - start))
  else none

/-- The number of bytes in front of the first occurrence of a character. -/
def offsetOf? (c : Char) : Text → Option Nat
  | [] => none
  | first :: rest =>
      if first = c then some 0
      else (offsetOf? c rest).map (first.utf8Size + ·)

theorem dropBytes?_eq_some_iff {offset : Nat} {text rest : Text} :
    dropBytes? offset text = some rest ↔
      ∃ front, text = front ++ rest ∧ byteLength front = offset := by
  constructor
  · intro h
    fun_induction dropBytes? offset text with
    | case1 => cases h; exact ⟨[], rfl, rfl⟩
    | case2 => cases h
    | case3 offset first rest hsize ih =>
        obtain ⟨front, rfl, hlength⟩ := ih h
        exact ⟨first :: front, rfl, by simp; omega⟩
    | case4 => cases h
  · rintro ⟨front, rfl, hlength⟩
    induction front generalizing offset with
    | nil => cases hlength; simp [dropBytes?]
    | cons first front ih =>
        have := first.utf8Size_pos
        rw [byteLength_cons] at hlength
        obtain ⟨before, rfl⟩ := Nat.exists_eq_add_of_lt (show 0 < offset by omega)
        rw [Nat.zero_add, List.cons_append, dropBytes?, if_pos (by omega)]
        exact ih (by omega)

theorem takeBytes?_eq_some_iff {offset : Nat} {text front : Text} :
    takeBytes? offset text = some front ↔
      ∃ rest, text = front ++ rest ∧ byteLength front = offset := by
  constructor
  · intro h
    fun_induction takeBytes? offset text generalizing front with
    | case1 text => cases h; exact ⟨text, rfl, rfl⟩
    | case2 => cases h
    | case3 offset first rest hsize ih =>
        obtain ⟨more, hmore, rfl⟩ := Option.map_eq_some_iff.mp h
        obtain ⟨behind, rfl, hlength⟩ := ih hmore
        exact ⟨behind, rfl, by simp; omega⟩
    | case4 => cases h
  · rintro ⟨rest, rfl, hlength⟩
    induction front generalizing offset with
    | nil => cases hlength; simp [takeBytes?]
    | cons first front ih =>
        have := first.utf8Size_pos
        rw [byteLength_cons] at hlength
        obtain ⟨before, rfl⟩ := Nat.exists_eq_add_of_lt (show 0 < offset by omega)
        rw [Nat.zero_add, List.cons_append, takeBytes?, if_pos (by omega),
          ih (by omega)]
        rfl

end ChatCodes.Text
