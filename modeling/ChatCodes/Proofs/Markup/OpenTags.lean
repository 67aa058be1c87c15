import ChatCodes.Proofs.Markup.Nesting

/-!
# Tags that are open together

At no point of its output has a writer two equal tags open, or two colors.  The tags of
one style are compatible in this sense, and on the way from one style to the next a
writer has some of the old tags open, or some of the new.
-/

namespace ChatCodes.Markup

namespace Tag

/-- Tags that may be open together: no two are equal, and only one can be a color. -/
structure Compatible (tags : List Tag) : Prop where
  nodup : tags.Nodup
  color_eq : ∀ value other, .color value ∈ tags → .color other ∈ tags → value = other

theorem Compatible.sublist {tags others : List Tag} (h : Compatible tags)
    (hsublist : others.Sublist tags) : Compatible others where
  nodup := h.nodup.sublist hsublist
  color_eq value other hvalue hother :=
    h.color_eq value other (hsublist.subset hvalue) (hsublist.subset hother)

theorem Compatible.perm {tags others : List Tag} (h : Compatible tags)
    (hperm : tags.Perm others) : Compatible others where
  nodup := hperm.nodup_iff.mp h.nodup
  color_eq value other hvalue hother :=
    h.color_eq value other (hperm.mem_iff.mpr hvalue) (hperm.mem_iff.mpr hother)

theorem compatible_ofStyle (style : Style) : Compatible (ofStyle style) where
  nodup := ofStyle_nodup style
  color_eq value other hvalue hother := by
    have hcolor : style.color = some value := by simpa [isActiveIn] using mem_ofStyle.mp hvalue
    have hcolor' : style.color = some other := by simpa [isActiveIn] using mem_ofStyle.mp hother
    exact Option.some.inj (hcolor.symm.trans hcolor')

end Tag

/-- Whatever is open at some cut of the pieces is compatible. -/
def StaysCompatible : List Tag → List Piece → Prop
  | stack, [] => Tag.Compatible stack
  | stack, piece :: pieces =>
      Tag.Compatible stack ∧ StaysCompatible (piece.tagsAfter stack) pieces

namespace StaysCompatible

variable {stack : List Tag} {front back : List Piece}

theorem compatible {pieces : List Piece} (h : StaysCompatible stack pieces) :
    Tag.Compatible stack := by
  cases pieces with
  | nil => exact h
  | cons => exact h.1

theorem append (h : StaysCompatible stack front)
    (hback : StaysCompatible (front.foldl Piece.tagsAfter stack) back) :
    StaysCompatible stack (front ++ back) := by
  induction front generalizing stack with
  | nil => exact hback
  | cons piece front ih => exact ⟨h.1, ih h.2 hback⟩

theorem of_append (h : StaysCompatible stack (front ++ back)) :
    Tag.Compatible (front.foldl Piece.tagsAfter stack) := by
  induction front generalizing stack with
  | nil => exact h.compatible
  | cons piece front ih => exact ih h.2

theorem closings {kept dropped : List Tag} (h : Tag.Compatible (kept ++ dropped)) :
    StaysCompatible (kept ++ dropped)
      ((dropped.reverse.map Move.close).map Piece.ofMove) := by
  induction dropped using List.reverseRecOn with
  | nil => exact h
  | append_singleton dropped tag ih =>
      rw [List.reverse_append]
      refine ⟨h, ?_⟩
      rw [← List.append_assoc] at h ⊢
      rw [Piece.ofMove, Piece.tagsAfter, List.dropLast_concat]
      exact ih (h.sublist (List.sublist_append_left _ _))

theorem openings {kept missing : List Tag} (h : Tag.Compatible (kept ++ missing)) :
    StaysCompatible kept ((missing.map Move.start).map Piece.ofMove) := by
  have hkept : Tag.Compatible kept := h.sublist (List.sublist_append_left _ _)
  induction missing generalizing kept with
  | nil => exact hkept
  | cons tag missing ih =>
      rw [← List.singleton_append, ← List.append_assoc] at h
      exact ⟨hkept, ih h (h.sublist (List.sublist_append_left _ _))⟩

theorem ofMoves {moves : List Move} (h : StaysCompatible stack (moves.map Piece.ofMove))
    (backslashes : Nat) : StaysCompatible stack (Piece.ofMoves backslashes moves) := by
  cases moves with
  | nil => exact h
  | cons move moves =>
      rw [Piece.ofMoves, Piece.guards]
      split
      · exact ⟨h.compatible, h⟩
      · exact h

/-- Whatever compatible tags were open, no step to a style breaks compatibility. -/
theorem toStyle (h : Tag.Compatible stack) (style : Style) :
    StaysCompatible stack ((Move.toStyle stack style).map Piece.ofMove) := by
  have hsplit : keptTags stack style ++ stack.dropWhile (·.isActiveIn style) = stack :=
    List.takeWhile_append_dropWhile
  have hclosings := @closings (keptTags stack style)
    (stack.dropWhile (·.isActiveIn style)) (hsplit.symm ▸ h)
  have hopenings := openings
    ((Tag.compatible_ofStyle style).perm (kept_append_missing_perm h.nodup style).symm)
  rw [Move.toStyle, List.map_append]
  have hkept := (Nests.closings (keptTags stack style)
    (stack.dropWhile (·.isActiveIn style))).foldl_tagsAfter
  rw [hsplit] at hclosings hkept
  exact hclosings.append (hkept.symm ▸ hopenings)

end StaysCompatible

namespace Writer

variable {writer : Writer}

theorem Matches.compatible (h : writer.Matches) : Tag.Compatible writer.stack :=
  (Tag.compatible_ofStyle writer.current).perm h.symm

theorem spanPieces_staysCompatible (h : writer.Matches) (span : Span) :
    StaysCompatible writer.stack (writer.spanPieces span) := by
  have hmoves : StaysCompatible writer.stack
      ((writer.moves span.style).map Piece.ofMove) := by
    rw [moves]
    split
    · exact h.compatible
    · exact StaysCompatible.toStyle h.compatible span.style
  have hnext := (after_matches h span).compatible
  rw [after_stack, spanPieces] at hnext
  rw [spanPieces]
  split
  · exact h.compatible
  · next htext =>
      rw [if_neg htext, List.foldl_append] at hnext
      exact (hmoves.ofMoves _).append ⟨hnext, hnext⟩

theorem runPieces_staysCompatible (h : writer.Matches) (spans : List Span) :
    StaysCompatible writer.stack (writer.runPieces spans) := by
  induction spans generalizing writer with
  | nil => exact h.compatible
  | cons span spans ih =>
      refine (spanPieces_staysCompatible h span).append ?_
      rw [← after_stack]
      exact ih (after_matches h span)

theorem closingPieces_staysCompatible (h : writer.Matches) :
    StaysCompatible writer.stack writer.closingPieces := by
  have hclosings := @StaysCompatible.closings [] writer.stack h.compatible
  exact hclosings.ofMoves _

end Writer

theorem pieces_staysCompatible (escaping : Bool) (spans : List Span) :
    StaysCompatible [] (pieces escaping spans) := by
  have hfresh := Writer.fresh_matches escaping []
  obtain ⟨_, hrun, -⟩ := Writer.runPieces_nests hfresh spans
  have hclosing := Writer.closingPieces_staysCompatible
    (Writer.foldl_after_matches hfresh spans)
  rw [← hrun.foldl_tagsAfter] at hclosing
  exact (Writer.runPieces_staysCompatible hfresh spans).append hclosing

end ChatCodes.Markup
