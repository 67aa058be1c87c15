import ChatCodes.Proofs.Token.Reading

/-!
# Boundaries

A cursor counts bytes, from the lengths of the marker and of what it has read, and never
looks at a text from the middle of a character.  Between two tokens it stands in running
text at a boundary, directly behind a marker it can go back over that marker, and each
token takes it further until the text is at its end.
-/

namespace ChatCodes

/-- Some first characters of the text take up that many bytes. -/
def Text.IsBoundary (text : Text) (offset : Nat) : Prop :=
  ∃ front, front <+: text ∧ Text.byteLength front = offset

namespace Text

variable {text front : Text} {offset : Nat}

theorem IsBoundary.le_byteLength (h : text.IsBoundary offset) : offset ≤ byteLength text := by
  obtain ⟨front, ⟨back, rfl⟩, rfl⟩ := h
  rw [byteLength_append]
  exact Nat.le_add_right _ _

/-- Of two starts of a text the one with fewer bytes is a start of the other. -/
theorem prefix_of_byteLength_le {long : Text} (hfront : front <+: text)
    (hlong : long <+: text) (h : byteLength front ≤ byteLength long) : front <+: long := by
  rcases List.prefix_or_prefix_of_prefix hfront hlong with hprefix | ⟨beyond, rfl⟩
  · exact hprefix
  · have hbeyond : beyond = [] := by
      by_contra hne
      have := byteLength_pos hne
      rw [byteLength_append] at h
      omega
    subst hbeyond
    simp

end Text

namespace Cursor

variable {cursor : Cursor} {front behind : Text}

/-! ## What is refused -/

theorem rest_ok_iff :
    (∃ rest, cursor.rest = .ok rest) ↔ cursor.text.IsBoundary cursor.position := by
  constructor
  · rintro ⟨rest, hrest⟩
    obtain ⟨front, htext, hposition⟩ := rest_eq_ok hrest
    exact ⟨front, htext ▸ List.prefix_append _ _, hposition⟩
  · rintro ⟨front, ⟨rest, htext⟩, hposition⟩
    exact ⟨rest, rest_of_split htext.symm hposition.symm⟩

theorem slice_ok_iff {start stop : Nat} :
    (∃ slice, cursor.slice start stop = .ok slice) ↔
      start ≤ stop ∧ cursor.text.IsBoundary start ∧ cursor.text.IsBoundary stop := by
  constructor
  · rintro ⟨found, hfound⟩
    unfold slice at hfound
    split at hfound
    · next slice hslice =>
        unfold Text.slice? at hslice
        split at hslice
        · next hle =>
            obtain ⟨rest, hdrop, htake⟩ := Option.bind_eq_some_iff.mp hslice
            obtain ⟨front, htext, rfl⟩ := Text.dropBytes?_eq_some_iff.mp hdrop
            obtain ⟨back, rfl, hlength⟩ := Text.takeBytes?_eq_some_iff.mp htake
            rw [htext, ← List.append_assoc]
            refine ⟨hle, ⟨front, by simp, rfl⟩, front ++ slice, List.prefix_append _ _, ?_⟩
            rw [Text.byteLength_append, hlength]
            omega
        · contradiction
    · contradiction
  · rintro ⟨hle, ⟨front, hfront, rfl⟩, ⟨long, hlong, rfl⟩⟩
    obtain ⟨middle, rfl⟩ := Text.prefix_of_byteLength_le hfront hlong hle
    obtain ⟨back, htext⟩ := hlong
    exact ⟨middle, slice_of_split htext.symm⟩

/-! ## Behind a marker -/

theorem StandsAt.eq_of_readText {token? : Option Token} {between : Cursor}
    (h : cursor.StandsAt front behind) (hread : cursor.readText = .ok (token?, between))
    (hmarker : between.isBehindMarker = true) :
    ∃ rest, behind = cursor.dialect.marker :: rest ∧
      between = { cursor with
        position := (front ++ [cursor.dialect.marker]).byteLength
        isBehindMarker := true } := by
  by_cases hbehind : behind = []
  · subst hbehind
    rw [readText_at_end h] at hread
    cases hread
    rw [h.in_text] at hmarker
    contradiction
  · by_cases hhead : behind.head? = some cursor.dialect.marker
    · obtain ⟨rest, rfl⟩ := List.head?_eq_some_iff.mp hhead
      rw [readText_at_marker h] at hread
      cases hread
      exact ⟨rest, rfl, rfl⟩
    -- In front of a run the cursor reads the run, and stays in running text.
    · obtain ⟨source, token, rest, rfl, hreads⟩ := Token.exists_reads cursor.dialect hbehind
      cases hreads with
      | run htext hfree hend =>
          rw [readText_of_run h htext hfree hend] at hread
          cases hread
          contradiction
      | _ => exact (hhead rfl).elim

theorem next_eq_readCode {token? : Option Token} {between : Cursor}
    (htext : cursor.isBehindMarker = false)
    (hread : cursor.readText = .ok (token?, between))
    (hmarker : between.isBehindMarker = true) :
    cursor.next = (fun (token, after) => (some token, after)) <$> between.readCode := by
  simp only [next, htext, hread, hmarker, bind, Except.bind, pure, Except.pure]
  cases between.readCode <;> simp [Functor.map, Except.map]

/-! ## Cursors on the way -/

theorem StandsAt.reaches_same {last : Cursor} (h : cursor.StandsAt front behind)
    (hreaches : Reaches cursor last) :
    last.text = cursor.text ∧ last.dialect = cursor.dialect := by
  induction hreaches generalizing front behind with
  | here => exact ⟨rfl, rfl⟩
  | further hnext _ ih =>
      rcases h.next_eq with ⟨-, hnone⟩ | ⟨source, token, rest, rfl, -, hsome⟩
      · rw [hnext] at hnone
        cases hnone
        exact ih h
      · rw [hnext] at hsome
        cases hsome
        exact ih (standsAt_moveTo h)

end Cursor

/-- The bytes of a hex color are those of the characters that are looked at. -/
theorem Dialect.spells_of_hexCode? {dialect : Dialect} {text : Text} {form : HexForm}
    {color : Rgb} (h : dialect.hexCode? text = some (form, color)) :
    form.Spells dialect.marker (text.take form.length) color ∧
      form.byteLength dialect.marker = Text.byteLength (text.take form.length) := by
  obtain ⟨source, ⟨-, hspells⟩, behind, rfl⟩ := hexCode?_eq_some_iff.mp h
  rw [← hspells.length_eq, List.take_left]
  exact ⟨hspells, hspells.byteLength_eq.symm⟩

/--
Wherever a cursor comes from the start of a text, it stands in running text at a boundary.
A cursor is refused exactly what does not lie between boundaries, and its next step is
refused nothing.  If the step reads a code, it can go back over the marker by the marker's
length, and the bytes of a hex color are those of its characters.  Each token takes the
cursor further; where there is none, it is at the end and does not move.
-/
theorem cursor_keeps_to_boundaries {dialect : Dialect} {text : Text} {cursor : Cursor}
    (h : Cursor.Reaches { dialect, text } cursor) :
    cursor.dialect = dialect ∧ cursor.text = text ∧ cursor.isBehindMarker = false ∧
    text.IsBoundary cursor.position ∧ cursor.position ≤ text.byteLength ∧
    (∀ other : Cursor, other.text = text →
      ((∃ rest, other.rest = .ok rest) ↔ text.IsBoundary other.position) ∧
      ∀ start stop, (∃ slice, other.slice start stop = .ok slice) ↔
        start ≤ stop ∧ text.IsBoundary start ∧ text.IsBoundary stop) ∧
    (∀ token? between, cursor.readText = .ok (token?, between) →
      between.isBehindMarker = true →
      cursor.next = (fun (token, after) => (some token, after)) <$> between.readCode ∧
      dialect.marker.utf8Size ≤ between.position ∧
      ∃ front behind, text = front ++ dialect.marker :: behind ∧
        between.position - dialect.marker.utf8Size = front.byteLength ∧
        between.rest = .ok behind ∧
        ∀ form color, dialect.hexCode? behind = some (form, color) →
          form.Spells dialect.marker (behind.take form.length) color ∧
          form.byteLength dialect.marker = Text.byteLength (behind.take form.length)) ∧
    ((∃ token after, cursor.next = .ok (some token, after) ∧
        cursor.position < after.position) ∨
      (cursor.next = .ok (none, cursor) ∧ cursor.position = text.byteLength)) := by
  have hstart := Cursor.start_standsAt dialect text
  obtain ⟨front, behind, hstands⟩ := hstart.of_reaches h
  obtain ⟨rfl, rfl⟩ := hstart.reaches_same h
  have hboundary : cursor.text.IsBoundary cursor.position :=
    ⟨front, hstands.text_eq ▸ List.prefix_append _ _, hstands.position_eq.symm⟩
  refine ⟨rfl, rfl, hstands.in_text, hboundary, hboundary.le_byteLength, ?_, ?_, ?_⟩
  · rintro other hother
    rw [← hother]
    exact ⟨Cursor.rest_ok_iff, fun start stop => Cursor.slice_ok_iff⟩
  · intro token? between hread hmarker
    obtain ⟨rest, rfl, rfl⟩ := hstands.eq_of_readText hread hmarker
    have hposition : (front ++ [cursor.dialect.marker]).byteLength =
        front.byteLength + cursor.dialect.marker.utf8Size := by
      simp
    refine ⟨Cursor.next_eq_readCode hstands.in_text hread hmarker, ?_, front, rest,
      hstands.text_eq, ?_, ?_, fun form color => Dialect.spells_of_hexCode?⟩
    · exact hposition ▸ Nat.le_add_left _ _
    · exact hposition ▸ Nat.add_sub_cancel _ _
    · exact Cursor.rest_of_split (by simp [hstands.text_eq]) rfl
  · rcases hstands.next_eq with ⟨rfl, hnone⟩ | ⟨source, token, rest, rfl, hreads, hsome⟩
    · refine .inr ⟨hnone, ?_⟩
      rw [hstands.position_eq, hstands.text_eq, List.append_nil]
    · refine .inl ⟨token, _, hsome, ?_⟩
      have := Text.byteLength_pos hreads.source_ne_nil
      simp [Cursor.moveTo, hstands.position_eq]
      omega

/-- The marker has four bytes and the character in front two; six digits are marked. -/
theorem cursor_keeps_to_boundaries_in_front_of_hex :
    let dialect : Dialect := { marker := '𝄞', hexColors := true }
    let start : Cursor := { dialect, text := "é𝄞x𝄞f𝄞f𝄞8𝄞8𝄞0𝄞0é".toList }
    let cursor : Cursor := { start with position := 2 }
    Cursor.Reaches start cursor ∧ cursor.text.IsBoundary 2 ∧
    HexForm.spread.byteLength '𝄞' = Text.byteLength "x𝄞f𝄞f𝄞8𝄞8𝄞0𝄞0".toList ∧
    cursor.next = .ok (some (.code (.setColor (.hex ⟨0xff, 0x88, 0x00⟩))),
      { start with position := 37 }) ∧
    cursor.position < 37 := by
  intro dialect start cursor
  have hfirst : start.next = .ok (some (.literal ['é']), cursor) := by decide +kernel
  have hreaches : Cursor.Reaches start cursor := .further hfirst (.here cursor)
  have hnext : cursor.next = .ok (some (.code (.setColor (.hex ⟨0xff, 0x88, 0x00⟩))),
      { start with position := 37 }) := by
    decide +kernel
  have hread : cursor.readText = .ok (none,
      { start with position := 6, isBehindMarker := true }) := by
    decide +kernel
  obtain ⟨-, -, -, hboundary, -, -, hcode, hmoves⟩ := cursor_keeps_to_boundaries hreaches
  obtain ⟨-, -, front, behind, -, -, hrest, hhex⟩ := hcode _ _ hread rfl
  have hbehind : behind = "x𝄞f𝄞f𝄞8𝄞8𝄞0𝄞0é".toList := by
    have hunread : ({ start with position := 6, isBehindMarker := true } : Cursor).rest =
        .ok "x𝄞f𝄞f𝄞8𝄞8𝄞0𝄞0é".toList := by
      decide +kernel
    rw [hunread] at hrest
    exact (Except.ok.inj hrest).symm
  subst hbehind
  have hbytes := (hhex .spread ⟨0xff, 0x88, 0x00⟩ (by decide +kernel)).2
  refine ⟨hreaches, hboundary, hbytes.trans (by decide +kernel), hnext, ?_⟩
  rcases hmoves with ⟨token, after, hsome, hlt⟩ | ⟨hnone, -⟩
  · rw [hnext] at hsome
    cases hsome
    exact hlt
  · rw [hnext] at hnone
    cases hnone

end ChatCodes
