import ChatCodes.Proofs.Markup.Merging

/-!
# Guarded tags

Without escaping a text may end in backslashes, and an odd run of them would escape
the tag behind it.  A writer puts one more backslash in front of such a tag, and in
front of no other, so that the run in front of a tag is always even.
-/

namespace ChatCodes.Markup

/-! ## The backslashes that end a text -/

def endingBackslashes (text : Text) : Nat :=
  (text.reverse.takeWhile (· = '\\')).length

@[simp] theorem endingBackslashes_nil : endingBackslashes [] = 0 := rfl

theorem trailingBackslashes_zero (text : Text) :
    trailingBackslashes 0 text = endingBackslashes text := by
  simp [trailingBackslashes, endingBackslashes]

theorem endingBackslashes_append (front back : Text) :
    endingBackslashes (front ++ back) =
      trailingBackslashes (endingBackslashes front) back := by
  rw [← trailingBackslashes_zero, trailingBackslashes_append, trailingBackslashes_zero]

theorem endingBackslashes_concat_backslash (text : Text) :
    endingBackslashes (text ++ ['\\']) = endingBackslashes text + 1 := by
  simp [endingBackslashes]

theorem endingBackslashes_concat_of_ne {c : Char} (hc : c ≠ '\\') (text : Text) :
    endingBackslashes (text ++ [c]) = 0 := by
  simp [endingBackslashes, hc]

/-! ## Guards in front of tags -/

namespace Piece

def IsTag : Piece → Prop
  | .start _ | .close _ => True
  | .guard | .text _ => False

/-- The part of a piece that comes from the text of a span. -/
def literal : Piece → Text
  | .text literal => literal
  | .guard | .start _ | .close _ => []

/-- The text written since the last tag, given the one in front of the piece. -/
def sinceTag (since : Text) : Piece → Text
  | .guard => since
  | .start _ | .close _ => []
  | .text literal => since ++ literal

variable {tag : Piece}

theorem ofMove_isTag (move : Move) : (ofMove move).IsTag := by
  cases move <;> trivial

theorem sinceTag_of_isTag (h : tag.IsTag) (since : Text) : sinceTag since tag = [] := by
  cases tag <;> first | rfl | contradiction

theorem ne_guard_of_isTag (h : tag.IsTag) : tag ≠ .guard := by
  rintro rfl
  contradiction

theorem backslashesAfter_of_isTag (h : tag.IsTag) (escaping : Bool) (backslashes : Nat) :
    backslashesAfter escaping backslashes tag = 0 := by
  cases tag <;> first | rfl | contradiction

theorem endingBackslashes_of_isTag (h : tag.IsTag) (written : Text) :
    endingBackslashes (written ++ tag.chars false) = 0 := by
  cases tag with
  | start tag =>
      rw [chars, Tag.opening, ← List.append_assoc]
      exact endingBackslashes_concat_of_ne (by decide) _
  | close tag =>
      rw [chars, Tag.closing, ← List.append_assoc]
      exact endingBackslashes_concat_of_ne (by decide) _
  | _ => contradiction

end Piece

/--
`since` is the text written since the last tag.  A tag has a guard in front of it if
that text ends in an odd run of backslashes, and there are no other guards.
-/
inductive Guarded : Text → List Piece → Prop
  | done (since) : Guarded since []
  | text {since pieces} (literal) (rest : Guarded (since ++ literal) pieces) :
      Guarded since (.text literal :: pieces)
  | tag {since tag pieces} (htag : tag.IsTag)
      (heven : endingBackslashes since % 2 = 0) (rest : Guarded [] pieces) :
      Guarded since (tag :: pieces)
  | guardedTag {since tag pieces} (htag : tag.IsTag)
      (hodd : endingBackslashes since % 2 = 1) (rest : Guarded [] pieces) :
      Guarded since (.guard :: tag :: pieces)

namespace Guarded

variable {since : Text} {pieces : List Piece}

theorem append {back : List Piece} (h : Guarded since pieces)
    (hback : Guarded (pieces.foldl Piece.sinceTag since) back) :
    Guarded since (pieces ++ back) := by
  induction h with
  | done => exact hback
  | text literal _ ih => exact .text literal (ih hback)
  | tag htag heven _ ih =>
      rw [List.foldl_cons, Piece.sinceTag_of_isTag htag] at hback
      exact .tag htag heven (ih hback)
  | guardedTag htag hodd _ ih =>
      rw [List.foldl_cons, List.foldl_cons, Piece.sinceTag_of_isTag htag] at hback
      exact .guardedTag htag hodd (ih hback)

theorem tags (moves : List Move) : Guarded [] (moves.map Piece.ofMove) := by
  induction moves with
  | nil => exact .done []
  | cons move moves ih => exact .tag (Piece.ofMove_isTag move) rfl ih

theorem ofMoves (since : Text) (moves : List Move) :
    Guarded since (Piece.ofMoves (endingBackslashes since) moves) := by
  cases moves with
  | nil => exact .done since
  | cons move moves =>
      rw [Piece.ofMoves, Piece.guards]
      split
      · next hodd => exact .guardedTag (Piece.ofMove_isTag move) hodd (tags moves)
      · next heven => exact .tag (Piece.ofMove_isTag move) (by omega) (tags moves)

/-- The count of a writer is that of the text since the last tag. -/
theorem foldl_backslashesAfter (h : Guarded since pieces) :
    pieces.foldl (Piece.backslashesAfter false) (endingBackslashes since) =
      endingBackslashes (pieces.foldl Piece.sinceTag since) := by
  induction h with
  | done => rfl
  | text literal _ ih =>
      rw [endingBackslashes_append] at ih
      exact ih
  | tag htag _ _ ih =>
      rw [List.foldl_cons, List.foldl_cons, Piece.backslashesAfter_of_isTag htag,
        Piece.sinceTag_of_isTag htag]
      exact ih
  | guardedTag htag _ _ ih =>
      rw [List.foldl_cons, List.foldl_cons, List.foldl_cons, List.foldl_cons,
        Piece.backslashesAfter_of_isTag htag, Piece.sinceTag_of_isTag htag]
      exact ih

theorem getLast?_cons_of_ne {piece : Piece} (h : piece ≠ .guard) (front : List Piece) :
    (piece :: front).getLast? = some .guard ↔ front.getLast? = some .guard := by
  cases front with
  | nil => simp [h]
  | cons => rw [List.getLast?_cons_cons]

/--
Cut anywhere, the pieces come to a text or a tag, with the backslashes written so far
still to be guarded, or they are cut between a guard and its tag.  `written` stands for
all that was written before; only how it ends matters.
-/
theorem cut {front back : List Piece} {written : Text} (h : Guarded since (front ++ back))
    (hwritten : endingBackslashes written = endingBackslashes since) :
    (front.getLast? ≠ some .guard ∧ Guarded (front.foldl Piece.sinceTag since) back ∧
      endingBackslashes (written ++ Piece.markup false front) =
        endingBackslashes (front.foldl Piece.sinceTag since)) ∨
    (front.getLast? = some .guard ∧ (∃ tag, back.head? = some tag ∧ tag.IsTag) ∧
      endingBackslashes (front.foldl Piece.sinceTag since) % 2 = 1 ∧
      endingBackslashes (written ++ Piece.markup false front) % 2 = 0) := by
  generalize hpieces : front ++ back = pieces at h
  induction h generalizing front written with
  | done =>
      obtain ⟨rfl, rfl⟩ := List.append_eq_nil_iff.mp hpieces
      exact .inl ⟨by simp, .done _, by simpa using hwritten⟩
  | @text since _ literal hrest ih =>
      cases front with
      | nil =>
          subst hpieces
          exact .inl ⟨by simp, .text literal hrest, by simpa using hwritten⟩
      | cons piece front =>
          cases hpieces
          have hmore : endingBackslashes (written ++ literal) =
              endingBackslashes (since ++ literal) := by
            rw [endingBackslashes_append, hwritten, endingBackslashes_append]
          rw [Piece.markup_cons, ← List.append_assoc, Ne, getLast?_cons_of_ne (by simp)]
          exact ih hmore rfl
  | @tag _ first _ hfirst heven hrest ih =>
      cases front with
      | nil =>
          subst hpieces
          exact .inl ⟨by simp, .tag hfirst heven hrest, by simpa using hwritten⟩
      | cons piece front =>
          cases hpieces
          have hne : first ≠ .guard := Piece.ne_guard_of_isTag hfirst
          rw [Piece.markup_cons, ← List.append_assoc, Ne, getLast?_cons_of_ne hne,
            List.foldl_cons, Piece.sinceTag_of_isTag hfirst]
          exact ih (Piece.endingBackslashes_of_isTag hfirst written) rfl
  | @guardedTag since first _ hfirst hodd hrest ih =>
      match front with
      | [] =>
          subst hpieces
          exact .inl ⟨by simp, .guardedTag hfirst hodd hrest, by simpa using hwritten⟩
      | [piece] =>
          cases hpieces
          have hguard : Piece.markup false [.guard] = ['\\'] := rfl
          refine .inr ⟨rfl, ⟨first, rfl, hfirst⟩, hodd, ?_⟩
          rw [hguard, endingBackslashes_concat_backslash, hwritten]
          omega
      | piece :: second :: front =>
          cases hpieces
          have hne : first ≠ .guard := Piece.ne_guard_of_isTag hfirst
          rw [Piece.markup_cons, Piece.markup_cons, ← List.append_assoc,
            ← List.append_assoc, List.getLast?_cons_cons, Ne, getLast?_cons_of_ne hne,
            List.foldl_cons, List.foldl_cons, Piece.sinceTag_of_isTag hfirst]
          exact ih (Piece.endingBackslashes_of_isTag hfirst _) rfl

theorem of_tag {front back : List Piece} {tag : Piece}
    (h : Guarded [] (front ++ tag :: back)) (htag : tag.IsTag) :
    endingBackslashes (Piece.markup false front) % 2 = 0 ∧
      (front.getLast? = some .guard ↔
        endingBackslashes (front.foldl Piece.sinceTag []) % 2 = 1) := by
  rcases h.cut endingBackslashes_nil with
    ⟨hlast, hback, hwritten⟩ | ⟨hlast, -, hodd, heven⟩
  · rw [List.nil_append] at hwritten
    cases hback with
    | text => contradiction
    | tag _ heven => exact ⟨by rw [hwritten, heven], by simp [hlast, heven]⟩
    | guardedTag => contradiction
  · exact ⟨heven, by simp [hlast, hodd]⟩

theorem of_guard {front back : List Piece} (h : Guarded [] (front ++ .guard :: back)) :
    ∃ tag, back.head? = some tag ∧ tag.IsTag := by
  rcases h.cut endingBackslashes_nil with ⟨-, hback, -⟩ | ⟨-, ⟨tag, hhead, htag⟩, -⟩
  · cases hback with
    | tag htag => contradiction
    | @guardedTag _ tag _ htag => exact ⟨tag, rfl, htag⟩
  · cases hhead
    contradiction

end Guarded

/-! ## What a writer writes -/

theorem flatMap_literal_ofMoves (backslashes : Nat) (moves : List Move) :
    (Piece.ofMoves backslashes moves).flatMap Piece.literal = [] := by
  have hmoves : ∀ moves : List Move,
      (moves.map Piece.ofMove).flatMap Piece.literal = [] := by
    intro moves
    rw [List.flatMap_eq_nil_iff]
    intro piece hpiece
    obtain ⟨move, -, rfl⟩ := List.mem_map.mp hpiece
    cases move <;> rfl
  cases moves with
  | nil => rfl
  | cons move moves =>
      rw [Piece.ofMoves, List.flatMap_append, hmoves, List.append_nil, Piece.guards]
      split <;> rfl

namespace Writer

variable {writer : Writer}

/-- The writer counts the backslashes that end the text since the last tag. -/
structure Counts (writer : Writer) (since : Text) : Prop where
  escaping_eq : writer.escaping = false
  backslashes_eq : writer.backslashes = endingBackslashes since

theorem spanPieces_guarded {since : Text} (h : writer.Counts since) (span : Span) :
    Guarded since (writer.spanPieces span) := by
  rw [spanPieces]
  split
  · exact .done since
  · rw [h.backslashes_eq]
    exact (Guarded.ofMoves since _).append (.text _ (.done _))

theorem after_counts {since : Text} (h : writer.Counts since) (span : Span) :
    (writer.after span).Counts ((writer.spanPieces span).foldl Piece.sinceTag since) where
  escaping_eq := by rw [after_escaping, h.escaping_eq]
  backslashes_eq := by
    rw [after_backslashes, h.escaping_eq, h.backslashes_eq]
    exact (spanPieces_guarded h span).foldl_backslashesAfter

theorem runPieces_guarded {since : Text} (h : writer.Counts since) (spans : List Span) :
    Guarded since (writer.runPieces spans) ∧
      (spans.foldl after writer).Counts
        ((writer.runPieces spans).foldl Piece.sinceTag since) := by
  induction spans generalizing writer since with
  | nil => exact ⟨.done since, h⟩
  | cons span spans ih =>
      obtain ⟨hrun, hlast⟩ := ih (after_counts h span)
      rw [runPieces, List.foldl_append]
      exact ⟨(spanPieces_guarded h span).append hrun, hlast⟩

theorem closingPieces_guarded {since : Text} (h : writer.Counts since) :
    Guarded since writer.closingPieces := by
  rw [closingPieces, h.backslashes_eq]
  exact .ofMoves since _

theorem flatMap_literal_spanPieces (writer : Writer) (span : Span) :
    (writer.spanPieces span).flatMap Piece.literal = span.text := by
  rw [spanPieces]
  split
  · next htext => rw [htext, List.flatMap_nil]
  · rw [List.flatMap_append, flatMap_literal_ofMoves]
    simp [Piece.literal]

theorem flatMap_literal_runPieces (writer : Writer) (spans : List Span) :
    (writer.runPieces spans).flatMap Piece.literal = spans.flatMap Span.text := by
  induction spans generalizing writer with
  | nil => rfl
  | cons span spans ih =>
      rw [runPieces, List.flatMap_append, flatMap_literal_spanPieces, ih,
        List.flatMap_cons]

end Writer

theorem pieces_guarded (spans : List Span) : Guarded [] (pieces false spans) := by
  obtain ⟨hrun, hlast⟩ :=
    @Writer.runPieces_guarded (.fresh false []) [] ⟨rfl, rfl⟩ spans
  exact hrun.append (Writer.closingPieces_guarded hlast)

theorem flatMap_literal_pieces (escaping : Bool) (spans : List Span) :
    (pieces escaping spans).flatMap Piece.literal = spans.flatMap Span.text := by
  rw [pieces, List.flatMap_append, Writer.flatMap_literal_runPieces, Writer.closingPieces,
    flatMap_literal_ofMoves, List.append_nil]

/--
Without escaping, the run of backslashes in front of each tag is even.  A guard is
written directly in front of a tag if the text since the previous tag ends in an odd
run, and nowhere else.  Without the tags and the guards, the text of the spans is left.
-/
theorem unescaped_tags_are_guarded (spans : List Span) :
    ∃ finished, (Writer.fresh false []).writeAll spans = .ok finished ∧
      finished.sink.text = Piece.markup false (pieces false spans) ∧
      (∀ front tag back, pieces false spans = front ++ tag :: back → tag.IsTag →
        endingBackslashes (Piece.markup false front) % 2 = 0 ∧
          (front.getLast? = some .guard ↔
            endingBackslashes (front.foldl Piece.sinceTag []) % 2 = 1)) ∧
      (∀ front back, pieces false spans = front ++ .guard :: back →
        ∃ tag, back.head? = some tag ∧ tag.IsTag) ∧
      (pieces false spans).flatMap Piece.literal = spans.flatMap Span.text := by
  have hguarded := pieces_guarded spans
  refine ⟨_, Writer.writeAll_of_unlimited rfl spans, ?_, ?_, ?_, ?_⟩
  · rw [← render_eq_afterAll, render_eq_markup]
  · intro front tag back hsplit htag
    rw [hsplit] at hguarded
    exact hguarded.of_tag htag
  · intro front back hsplit
    rw [hsplit] at hguarded
    exact hguarded.of_guard
  · exact flatMap_literal_pieces false spans

/-- Three backslashes in two spans get a fourth one in front of the tag. -/
theorem unescaped_tags_are_guarded_bold :
    let spans : List Span :=
      [⟨['a', '\\'], .plain⟩, ⟨['\\', '\\'], .plain⟩, ⟨['x'], ⟨none, .ofList [.bold]⟩⟩]
    ∃ finished, (Writer.fresh false []).writeAll spans = .ok finished ∧
      finished.sink.text = "a\\\\\\\\<bold>x</bold>".toList ∧
      endingBackslashes "a\\\\\\\\".toList % 2 = 0 ∧
      endingBackslashes "a\\\\\\".toList % 2 = 1 := by
  intro spans
  obtain ⟨finished, hfinished, htext, htags, -⟩ :=
    unescaped_tags_are_guarded spans
  have hpieces : pieces false spans =
      [.text ['a', '\\'], .text ['\\', '\\'], .guard] ++
        .start (.decoration .bold) :: [.text ['x'], .close (.decoration .bold)] := by
    decide
  obtain ⟨heven, hodd⟩ := htags _ _ _ hpieces trivial
  refine ⟨finished, hfinished, ?_, heven, hodd.mp rfl⟩
  rw [htext, hpieces]
  decide

end ChatCodes.Markup
