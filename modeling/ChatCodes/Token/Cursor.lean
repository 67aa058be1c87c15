import ChatCodes.Text.Offset
import ChatCodes.Token.Scan

/-!
# Cursors

A cursor reads the tokens of a text one at a time and knows how many bytes it has
read, so a reader can stop, remember a place and go on from it.  It stands either
in running text or directly behind a marker.

A cursor moves by the byte lengths of the marker, of the form of a hex code, and
of the character read.  Reading from an offset that is not a boundary of the text
is refused.
-/

namespace ChatCodes

structure Cursor where
  dialect : Dialect
  text : Text
  position : Nat := 0
  isBehindMarker : Bool := false
  deriving DecidableEq, Repr

namespace Cursor

/-- An offset inside a character or behind the end of the text. -/
structure OffBoundary where
  offset : Nat
  deriving DecidableEq, Repr

abbrev Reading := Except OffBoundary

def rest (cursor : Cursor) : Reading Text :=
  match Text.dropBytes? cursor.position cursor.text with
  | some rest => .ok rest
  | none => .error ⟨cursor.position⟩

def slice (cursor : Cursor) (start stop : Nat) : Reading Text :=
  match Text.slice? start stop cursor.text with
  | some slice => .ok slice
  | none => .error ⟨stop⟩

def moveTo (cursor : Cursor) (position : Nat) : Cursor :=
  { cursor with position, isBehindMarker := false }

def readCode (cursor : Cursor) : Reading (Token × Cursor) := do
  let start := cursor.position - cursor.dialect.marker.utf8Size
  match ← cursor.rest with
  | [] =>
      return (.literal (← cursor.slice start cursor.text.byteLength),
        cursor.moveTo cursor.position)
  | c :: more =>
      match cursor.dialect.hexCode? (c :: more) with
      | some (form, color) =>
          return (.code (.setColor (.hex color)),
            cursor.moveTo
              (cursor.position + form.byteLength cursor.dialect.marker))
      | none =>
          let stop := cursor.position + c.utf8Size
          match cursor.dialect.code? c with
          | some meaning => return (.code meaning, cursor.moveTo stop)
          | none => return (.literal (← cursor.slice start stop), cursor.moveTo stop)

/-- Reads up to the next marker, or steps behind the marker at the cursor. -/
def readText (cursor : Cursor) : Reading (Option Token × Cursor) := do
  let rest ← cursor.rest
  if rest.isEmpty then return (none, cursor)
  match Text.offsetOf? cursor.dialect.marker rest with
  | some 0 =>
      return (none,
        { cursor with
          position := cursor.position + cursor.dialect.marker.utf8Size
          isBehindMarker := true })
  | some length =>
      let stop := cursor.position + length
      return (some (.literal (← cursor.slice cursor.position stop)),
        cursor.moveTo stop)
  | none => return (some (.literal rest), cursor.moveTo cursor.text.byteLength)

def next (cursor : Cursor) : Reading (Option Token × Cursor) := do
  let (token?, cursor) ←
    if cursor.isBehindMarker then pure (none, cursor) else cursor.readText
  if cursor.isBehindMarker then
    let (token, cursor) ← cursor.readCode
    return (some token, cursor)
  else return (token?, cursor)

/-! ## Progress -/

/-- Twice the unread bytes, and one more behind a marker. -/
def remaining (cursor : Cursor) : Nat :=
  2 * (cursor.text.byteLength - cursor.position) +
    (if cursor.isBehindMarker then 1 else 0)

theorem rest_eq_ok {cursor : Cursor} {rest : Text} (h : cursor.rest = .ok rest) :
    ∃ front, cursor.text = front ++ rest ∧ front.byteLength = cursor.position := by
  unfold Cursor.rest at h
  split at h
  · cases h
    exact Text.dropBytes?_eq_some_iff.mp ‹_›
  · cases h

theorem position_lt_of_rest {cursor : Cursor} {rest : Text}
    (h : cursor.rest = .ok rest) (hrest : rest ≠ []) :
    cursor.position < cursor.text.byteLength := by
  obtain ⟨front, htext, hposition⟩ := rest_eq_ok h
  obtain ⟨first, more, rfl⟩ := List.exists_cons_of_ne_nil hrest
  have := first.utf8Size_pos
  rw [htext]
  simp
  omega

theorem readCode_moves {cursor after : Cursor} {token : Token}
    (h : cursor.readCode = .ok (token, after)) :
    after.text = cursor.text ∧ after.isBehindMarker = false ∧
      cursor.position ≤ after.position := by
  unfold readCode at h
  simp only [bind, Except.bind, pure, Except.pure] at h
  repeat' split at h
  all_goals
    first
    | cases h
      simp [moveTo]
    | cases h

theorem readText_moves {cursor after : Cursor} {token? : Option Token}
    (h : cursor.readText = .ok (token?, after)) :
    (token? = none ∧ after = cursor) ∨
      (after.text = cursor.text ∧ cursor.position < after.position ∧
        cursor.position < cursor.text.byteLength ∧
        after.isBehindMarker = token?.isNone) := by
  unfold readText at h
  simp only [bind, Except.bind, pure, Except.pure] at h
  cases hread : cursor.rest with
  | error => simp [hread] at h
  | ok rest =>
      simp only [hread] at h
      split at h
      · cases h
        exact .inl ⟨rfl, rfl⟩
      · next hrest =>
          have hlt := position_lt_of_rest hread (by simpa using hrest)
          have hsize := cursor.dialect.marker.utf8Size_pos
          refine .inr ?_
          split at h
          · cases h
            simp
            omega
          · next length hlength _ =>
              split at h
              · cases h
              · cases h
                have : length ≠ 0 := fun hzero => hlength (hzero ▸ rfl)
                simp [moveTo]
                omega
          · cases h
            simp [moveTo]
            omega

theorem remaining_lt_of_next {cursor after : Cursor} {token : Token}
    (h : cursor.next = .ok (some token, after)) :
    after.remaining < cursor.remaining := by
  unfold next at h
  simp only [bind, Except.bind, pure, Except.pure] at h
  cases hbehind : cursor.isBehindMarker with
  | true =>
      simp only [hbehind, if_true] at h
      split at h
      · cases h
      · next found hcode =>
          obtain ⟨_, _⟩ := found
          cases h
          have := readCode_moves hcode
          simp only [remaining, this, hbehind]
          grind
  | false =>
      simp only [hbehind, Bool.false_eq_true, if_false] at h
      cases htext : cursor.readText with
      | error => simp [htext] at h
      | ok found =>
          obtain ⟨token?, between⟩ := found
          have hmoves := readText_moves htext
          simp only [htext] at h
          split at h
          · next hmarker =>
              split at h
              · cases h
              · next found hcode =>
                  obtain ⟨_, _⟩ := found
                  cases h
                  have := readCode_moves hcode
                  simp only [remaining, this, hbehind]
                  grind
          · cases h
            simp only [remaining, hbehind]
            grind

def readAll (cursor : Cursor) : Reading (List Token × Cursor) :=
  match _h : cursor.next with
  | .error offset => .error offset
  | .ok (none, after) => .ok ([], after)
  | .ok (some token, after) => do
      let (later, last) ← readAll after
      return (token :: later, last)
termination_by cursor.remaining
decreasing_by exact remaining_lt_of_next _h

end Cursor

end ChatCodes
