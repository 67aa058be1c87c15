import ChatCodes.Token.HexCode

/-!
# Tokens

A text falls into literals and codes.  From left to right a token is the longest
run without a marker, a hex code, or a marker with the one character behind it;
where that character is no code, both stay in the text as a literal, and so does
a marker at the very end.
-/

namespace ChatCodes

inductive Token where
  | literal (text : Text)
  | code (code : Code)
  deriving DecidableEq, Repr

namespace Token

/-- The token that a marker begins, and the text behind it. -/
def afterMarker (dialect : Dialect) : Text → Token × Text
  | [] => (.literal [dialect.marker], [])
  | c :: rest =>
      match dialect.hexCode? (c :: rest) with
      | some (form, color) =>
          (.code (.setColor (.hex color)), (c :: rest).drop form.length)
      | none =>
          match dialect.code? c with
          | some meaning => (.code meaning, rest)
          | none => (.literal [dialect.marker, c], rest)

def next? (dialect : Dialect) : Text → Option (Token × Text)
  | [] => none
  | first :: rest =>
      if first = dialect.marker then some (afterMarker dialect rest)
      else
        let isText := fun c => c != dialect.marker
        some (.literal (first :: rest.takeWhile isText), rest.dropWhile isText)

theorem length_afterMarker_le (dialect : Dialect) (text : Text) :
    (afterMarker dialect text).2.length ≤ text.length := by
  cases text with
  | nil => simp [afterMarker]
  | cons c rest =>
      simp only [afterMarker]
      split
      · simp
      · split <;> simp

theorem length_lt_of_next? {dialect : Dialect} {text rest : Text} {token : Token}
    (h : next? dialect text = some (token, rest)) :
    rest.length < text.length := by
  cases text with
  | nil => cases h
  | cons first more =>
      simp only [next?] at h
      split at h
      · have := length_afterMarker_le dialect more
        simp only [Option.some.injEq] at h
        simp only [h] at this
        simp
        omega
      · simp only [Option.some.injEq, Prod.mk.injEq] at h
        rw [← h.2]
        have := (List.dropWhile_suffix
          (l := more) (fun c => c != dialect.marker)).length_le
        simp
        omega

def scan (dialect : Dialect) (text : Text) : List Token :=
  match _h : next? dialect text with
  | none => []
  | some (token, rest) => token :: scan dialect rest
termination_by text.length
decreasing_by exact length_lt_of_next? _h

theorem scan_of_next? {dialect : Dialect} {text rest : Text} {token : Token}
    (h : next? dialect text = some (token, rest)) :
    scan dialect text = token :: scan dialect rest := by
  rw [scan]
  split <;> simp_all

@[simp] theorem scan_nil (dialect : Dialect) : scan dialect [] = [] := by
  rw [scan]
  split <;> simp_all [next?]

theorem scan_of_not_mem {dialect : Dialect} {text : Text}
    (hmarker : dialect.marker ∉ text) (htext : text ≠ []) :
    scan dialect text = [.literal text] := by
  obtain ⟨first, rest, rfl⟩ := List.exists_cons_of_ne_nil htext
  simp only [List.mem_cons, not_or] at hmarker
  have hall : ∀ c ∈ rest, (c != dialect.marker) = true := by
    intro c hc
    simpa using fun hsame : c = dialect.marker => hmarker.2 (hsame ▸ hc)
  have htake := @List.takeWhile_append_of_pos _ _ rest [] hall
  have hdrop := @List.dropWhile_append_of_pos _ _ rest [] hall
  simp only [List.append_nil, List.takeWhile_nil, List.dropWhile_nil] at htake hdrop
  have hnext : next? dialect (first :: rest) =
      some (.literal (first :: rest), []) := by
    rw [next?, if_neg (Ne.symm hmarker.1)]
    simp only [htake, hdrop]
  rw [scan_of_next? hnext, scan_nil]

def text : Token → Text
  | .literal chars => chars
  | .code _ => []

end Token

end ChatCodes
