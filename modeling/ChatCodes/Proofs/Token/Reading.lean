import ChatCodes.Proofs.Token.Cutting
import ChatCodes.Token.Cursor

/-!
# Reading with a cursor

A cursor only ever stands at a boundary of its text, and its next token is that of the
piece behind it.  So a cursor that starts in front of a text yields the tokens of the
cutting, never an error, and keeps yielding nothing once it has come to the end.
-/

namespace ChatCodes

namespace Text

theorem offsetOf?_of_not_mem {c : Char} {text : Text} (h : c ∉ text) :
    offsetOf? c text = none := by
  induction text with
  | nil => rfl
  | cons first rest ih =>
      simp only [List.mem_cons, not_or] at h
      rw [offsetOf?, if_neg (Ne.symm h.1), ih h.2]
      rfl

theorem offsetOf?_append_cons {c : Char} {front : Text} (h : c ∉ front) (rest : Text) :
    offsetOf? c (front ++ c :: rest) = some front.byteLength := by
  induction front with
  | nil => rw [List.nil_append, offsetOf?, if_pos rfl, byteLength_nil]
  | cons first front ih =>
      simp only [List.mem_cons, not_or] at h
      rw [List.cons_append, offsetOf?, if_neg (Ne.symm h.1), ih h.2]
      rfl

theorem byteLength_pos {text : Text} (h : text ≠ []) : 0 < byteLength text := by
  obtain ⟨first, rest, rfl⟩ := List.exists_cons_of_ne_nil h
  have := first.utf8Size_pos
  rw [byteLength_cons]
  omega

end Text

namespace Cursor

/-- The cursor is in running text, with `front` read and `behind` unread. -/
structure StandsAt (cursor : Cursor) (front behind : Text) : Prop where
  text_eq : cursor.text = front ++ behind
  position_eq : cursor.position = front.byteLength
  in_text : cursor.isBehindMarker = false

variable {cursor : Cursor} {front behind : Text}

theorem rest_of_split (htext : cursor.text = front ++ behind)
    (hposition : cursor.position = front.byteLength) : cursor.rest = .ok behind := by
  have hdrop : Text.dropBytes? cursor.position cursor.text = some behind :=
    Text.dropBytes?_eq_some_iff.mpr ⟨front, htext, hposition.symm⟩
  rw [rest, hdrop]

theorem slice_of_split {middle : Text} (htext : cursor.text = front ++ middle ++ behind) :
    cursor.slice front.byteLength (front ++ middle).byteLength = .ok middle := by
  have hdrop : Text.dropBytes? front.byteLength cursor.text = some (middle ++ behind) :=
    Text.dropBytes?_eq_some_iff.mpr ⟨front, by rw [htext, List.append_assoc], rfl⟩
  have htake : Text.takeBytes? middle.byteLength (middle ++ behind) = some middle :=
    Text.takeBytes?_eq_some_iff.mpr ⟨behind, rfl, rfl⟩
  have hslice : Text.slice? front.byteLength (front ++ middle).byteLength cursor.text =
      some middle := by
    rw [Text.slice?, if_pos (by simp), hdrop, Option.bind_some, Text.byteLength_append,
      Nat.add_sub_cancel_left, htake]
  rw [slice, hslice]

/-! ## One token -/

theorem readText_at_end (h : cursor.StandsAt front []) :
    cursor.readText = .ok (none, cursor) := by
  simp only [readText, rest_of_split h.text_eq h.position_eq]
  rfl

theorem readText_of_run {run : Text} (h : cursor.StandsAt front (run ++ behind))
    (hrun : run ≠ []) (hfree : cursor.dialect.marker ∉ run)
    (hend : ∀ c ∈ behind.head?, c = cursor.dialect.marker) :
    cursor.readText =
      .ok (some (.literal run), cursor.moveTo (front ++ run).byteLength) := by
  have hrest := rest_of_split h.text_eq h.position_eq
  have hempty : (run ++ behind).isEmpty = false := by simp [hrun]
  cases behind with
  | nil =>
      have hoffset := Text.offsetOf?_of_not_mem hfree
      rw [List.append_nil] at hrest hempty
      simp only [readText, hrest, hoffset, hempty, bind, Except.bind, pure, Except.pure]
      simp [h.text_eq]
  | cons c behind =>
      obtain rfl : c = cursor.dialect.marker := hend c rfl
      have hoffset := Text.offsetOf?_append_cons hfree behind
      have hslice := @slice_of_split cursor front _ run
        (by rw [h.text_eq, List.append_assoc])
      have hstop : cursor.position + run.byteLength = (front ++ run).byteLength := by
        rw [h.position_eq, Text.byteLength_append]
      rw [← h.position_eq, ← hstop] at hslice
      have hpos := Text.byteLength_pos hrun
      simp only [readText, hrest, hoffset, hempty, bind, Except.bind, pure, Except.pure]
      split
      · contradiction
      · split
        · next hzero =>
            rw [Option.some.inj hzero] at hpos
            contradiction
        · next hlength =>
            cases hlength
            rw [hslice, hstop]
        · contradiction

theorem readText_at_marker
    (h : cursor.StandsAt front (cursor.dialect.marker :: behind)) :
    cursor.readText =
      .ok (none, { cursor with
        position := (front ++ [cursor.dialect.marker]).byteLength
        isBehindMarker := true }) := by
  have hrest := rest_of_split h.text_eq h.position_eq
  have hoffset : Text.offsetOf? cursor.dialect.marker (cursor.dialect.marker :: behind) =
      some 0 :=
    Text.offsetOf?_append_cons List.not_mem_nil behind
  simp only [readText, hrest, hoffset, h.position_eq, bind, Except.bind, pure, Except.pure]
  simp

/-- Behind a marker, which is the last character read so far. -/
theorem readCode_of_reads {source : Text} {token : Token}
    (htext : cursor.text = front ++ source ++ behind)
    (hposition : cursor.position = (front ++ [cursor.dialect.marker]).byteLength)
    (hmarker : source.head? = some cursor.dialect.marker)
    (hreads : Reads cursor.dialect source token behind) :
    cursor.readCode = .ok (token, cursor.moveTo (front ++ source).byteLength) := by
  -- The cursor goes back over the marker by its length alone.
  have hstart : cursor.position - cursor.dialect.marker.utf8Size = front.byteLength := by
    rw [hposition]
    simp
  have hstop : ∀ c : Char, cursor.position + c.utf8Size =
      (front ++ [cursor.dialect.marker, c]).byteLength := by
    intro c
    rw [hposition]
    simp [Nat.add_assoc]
  have hsplit : ∀ more, source = cursor.dialect.marker :: more →
      cursor.rest = .ok (more ++ behind) := by
    rintro more rfl
    exact @rest_of_split cursor (front ++ [cursor.dialect.marker]) _ (by simp [htext])
      hposition
  have hslice : cursor.slice front.byteLength (front ++ source).byteLength = .ok source :=
    slice_of_split htext
  cases hreads with
  | run _ hfree => exact (hfree (List.mem_of_mem_head? hmarker)).elim
  | lone =>
      rw [List.append_nil] at htext
      simp only [readCode, hsplit _ rfl, hstart, bind, Except.bind, pure, Except.pure,
        List.append_nil]
      rw [htext, hslice, hposition]
  | @hex form source color _ hhex =>
      have hcode := Dialect.hexCode?_of_spellsHex hhex behind
      have hend : cursor.position + form.byteLength cursor.dialect.marker =
          (front ++ cursor.dialect.marker :: source).byteLength := by
        rw [hposition, ← hhex.2.byteLength_eq, ← Text.byteLength_append,
          List.append_assoc, List.singleton_append]
      have hrest := hsplit _ rfl
      obtain ⟨c, more, rfl⟩ := hhex.2.exists_cons
      rw [List.cons_append] at hrest hcode
      simp only [readCode, hrest, hcode, hend, bind, Except.bind, pure, Except.pure]
  | code hhex hcode =>
      have hnone := Dialect.hexCode?_eq_none_iff.mpr hhex
      simp only [readCode, hsplit _ rfl, List.singleton_append, hnone, hcode, hstop, bind,
        Except.bind, pure, Except.pure]
  | unknown hhex hcode =>
      have hnone := Dialect.hexCode?_eq_none_iff.mpr hhex
      simp only [readCode, hsplit _ rfl, List.singleton_append, hnone, hcode, hstart,
        hstop, hslice, bind, Except.bind, pure, Except.pure]

theorem next_at_end (h : cursor.StandsAt front []) : cursor.next = .ok (none, cursor) := by
  simp only [next, h.in_text, readText_at_end h, bind, Except.bind, pure, Except.pure]
  simp

theorem next_of_reads {source : Text} {token : Token}
    (h : cursor.StandsAt front (source ++ behind))
    (hreads : Reads cursor.dialect source token behind) :
    cursor.next = .ok (some token, cursor.moveTo (front ++ source).byteLength) := by
  by_cases hmarker : source.head? = some cursor.dialect.marker
  · obtain ⟨more, rfl⟩ := List.head?_eq_some_iff.mp hmarker
    have htext := readText_at_marker h
    have hcode := @readCode_of_reads
      { cursor with
        position := (front ++ [cursor.dialect.marker]).byteLength
        isBehindMarker := true }
      front behind _ token (by simp [h.text_eq]) rfl hmarker hreads
    simp only [next, h.in_text, htext, hcode, bind, Except.bind, pure, Except.pure]
    rfl
  · cases hreads with
    | run htext hfree hend =>
        simp only [next, h.in_text, readText_of_run h htext hfree hend, bind,
          Except.bind, pure, Except.pure]
        simp [moveTo]
    | _ => exact (hmarker rfl).elim

theorem standsAt_moveTo {source : Text} (h : cursor.StandsAt front (source ++ behind)) :
    (cursor.moveTo (front ++ source).byteLength).StandsAt (front ++ source) behind where
  text_eq := by rw [List.append_assoc]; exact h.text_eq
  position_eq := rfl
  in_text := rfl

/-! ## All tokens -/

theorem readAll_of_next_none {after : Cursor} (h : cursor.next = .ok (none, after)) :
    cursor.readAll = .ok ([], after) := by
  rw [readAll]
  split <;> simp_all

theorem readAll_of_next_some {after last : Cursor} {token : Token} {later : List Token}
    (h : cursor.next = .ok (some token, after))
    (hlater : after.readAll = .ok (later, last)) :
    cursor.readAll = .ok (token :: later, last) := by
  rw [readAll]
  split
  · simp_all
  · simp_all
  · next hnext =>
      rw [h] at hnext
      cases hnext
      simp only [hlater, bind, Except.bind, pure, Except.pure]

theorem readAll_of_cutting {pieces : List (Text × Token)}
    (hpieces : Cutting cursor.dialect behind pieces) (h : cursor.StandsAt front behind) :
    ∃ last, cursor.readAll = .ok (pieces.map Prod.snd, last) := by
  generalize hdialect : cursor.dialect = dialect at hpieces
  induction hpieces generalizing cursor front with
  | done => exact ⟨cursor, readAll_of_next_none (next_at_end h)⟩
  | piece hreads _ ih =>
      obtain ⟨last, hlast⟩ := ih (standsAt_moveTo h) hdialect
      exact ⟨last, readAll_of_next_some (next_of_reads h (hdialect ▸ hreads)) hlast⟩

/-! ## Cursors on the way -/

/-- Calling `next` any number of times leads from the first cursor to the last. -/
inductive Reaches : Cursor → Cursor → Prop
  | here (cursor : Cursor) : Reaches cursor cursor
  | further {cursor after last : Cursor} {token? : Option Token}
      (h : cursor.next = .ok (token?, after)) (later : Reaches after last) :
      Reaches cursor last

theorem StandsAt.next_eq (h : cursor.StandsAt front behind) :
    (behind = [] ∧ cursor.next = .ok (none, cursor)) ∨
      ∃ source token rest, behind = source ++ rest ∧
        Reads cursor.dialect source token rest ∧
        cursor.next = .ok (some token, cursor.moveTo (front ++ source).byteLength) := by
  by_cases hbehind : behind = []
  · subst hbehind
    exact .inl ⟨rfl, next_at_end h⟩
  · obtain ⟨source, token, rest, rfl, hreads⟩ :=
      Token.exists_reads cursor.dialect hbehind
    exact .inr ⟨source, token, rest, rfl, hreads, next_of_reads h hreads⟩

theorem StandsAt.of_reaches {last : Cursor} (h : cursor.StandsAt front behind)
    (hreaches : Reaches cursor last) :
    ∃ front behind, last.StandsAt front behind := by
  induction hreaches generalizing front behind with
  | here => exact ⟨front, behind, h⟩
  | further hnext _ ih =>
      rcases h.next_eq with ⟨-, hnone⟩ | ⟨source, token, rest, rfl, -, hsome⟩
      · rw [hnext] at hnone
        cases hnone
        exact ih h
      · rw [hnext] at hsome
        cases hsome
        exact ih (standsAt_moveTo h)

theorem StandsAt.of_next_none {after : Cursor} (h : cursor.StandsAt front behind)
    (hnext : cursor.next = .ok (none, after)) : behind = [] ∧ after = cursor := by
  rcases h.next_eq with ⟨hbehind, hnone⟩ | ⟨source, token, rest, -, -, hsome⟩
  · rw [hnext] at hnone
    cases hnone
    exact ⟨hbehind, rfl⟩
  · rw [hnext] at hsome
    cases hsome

/-- A cursor at the end stays there. -/
theorem eq_of_reaches_at_end {last : Cursor} (h : cursor.StandsAt front [])
    (hreaches : Reaches cursor last) : last = cursor := by
  induction hreaches with
  | here => rfl
  | further hnext _ ih =>
      have hend := next_at_end h
      rw [hnext] at hend
      cases hend
      exact ih h

theorem start_standsAt (dialect : Dialect) (text : Text) :
    ({ dialect, text } : Cursor).StandsAt [] text where
  text_eq := rfl
  position_eq := rfl
  in_text := rfl

/-- From its start a text is read as it is scanned. -/
theorem readAll_start_iff {dialect : Dialect} {text : Text} {tokens : List Token} :
    (∃ last, ({ dialect, text } : Cursor).readAll = .ok (tokens, last)) ↔
      Token.scan dialect text = tokens := by
  obtain ⟨pieces, hpieces⟩ := exists_cutting dialect text
  obtain ⟨last, hlast⟩ := readAll_of_cutting hpieces (start_standsAt dialect text)
  rw [hpieces.scan_eq]
  constructor
  · rintro ⟨other, hother⟩
    rw [hlast] at hother
    cases hother
    rfl
  · rintro rfl
    exact ⟨last, hlast⟩

end Cursor

/--
Reading a text from its start yields the tokens of its only cutting.  A literal is
never empty, and starts with the marker only at a lone marker that ends the text and
where the character behind the marker is no code.  Once there is no further token,
there never is one again.
-/
theorem cursor_reads_cutting (dialect : Dialect) (text : Text) :
    ∃ pieces last,
      (∀ other, Cutting dialect text other ↔ other = pieces) ∧
      (pieces.map Prod.fst).flatten = text ∧
      ({ dialect, text } : Cursor).readAll = .ok (pieces.map Prod.snd, last) ∧
      Token.scan dialect text = pieces.map Prod.snd ∧
      (∀ front source chars back,
        pieces = front ++ (source, .literal chars) :: back →
        source = chars ∧ chars ≠ [] ∧
          (chars.head? = some dialect.marker ↔
            (chars = [dialect.marker] ∧ back = []) ∨
              ∃ c, chars = [dialect.marker, c] ∧ dialect.code? c = none ∧
                ¬ dialect.StartsWithHex (c :: (back.map Prod.fst).flatten))) ∧
      ∀ cursor after, Cursor.Reaches { dialect, text } cursor →
        cursor.next = .ok (none, after) →
        ∀ later, Cursor.Reaches after later → later.next = .ok (none, later) := by
  have hstart := Cursor.start_standsAt dialect text
  obtain ⟨pieces, hpieces⟩ := exists_cutting dialect text
  obtain ⟨last, hlast⟩ := Cursor.readAll_of_cutting hpieces hstart
  refine ⟨pieces, last, fun other => ?_, hpieces.flatten_eq, hlast, hpieces.scan_eq,
    ?_, ?_⟩
  · constructor
    · exact hpieces.unique
    · rintro rfl
      exact hpieces
  · rintro front source chars back rfl
    obtain ⟨hreads, hback⟩ := hpieces.of_split
    have hsource := hreads.source_eq_of_literal
    refine ⟨hsource, hsource ▸ hreads.source_ne_nil, ?_⟩
    rw [hreads.head?_eq_marker_iff, hback.eq_nil_iff]
  · intro cursor after hreaches hnext later hlater
    obtain ⟨front, behind, hstands⟩ := hstart.of_reaches hreaches
    obtain ⟨rfl, rfl⟩ := hstands.of_next_none hnext
    rw [Cursor.eq_of_reaches_at_end hstands hlater]
    exact hnext

/-- The second marker is the character behind the first, and the last one stands alone. -/
theorem cursor_reads_doubled_marker :
    let dialect : Dialect := { hexColors := true }
    let start : Cursor := { dialect, text := "&&z&".toList }
    ∃ last, start.readAll =
        .ok ([.literal ['&', '&'], .literal ['z'], .literal ['&']], last) ∧
      ¬ dialect.StartsWithHex "&z&".toList ∧
      ∀ later, Cursor.Reaches { start with position := 4 } later →
        later.next = .ok (none, later) := by
  intro dialect start
  obtain ⟨pieces, last, hunique, -, hread, -, hliteral, hend⟩ :=
    cursor_reads_cutting dialect "&&z&".toList
  have hhex : ¬ dialect.StartsWithHex "&z&".toList :=
    Dialect.hexCode?_eq_none_iff.mp (by decide)
  have hrun : Reads dialect ['z'] (.literal ['z']) ['&'] :=
    .run (by decide) (by decide) (by rintro _ ⟨⟩; rfl)
  have hpieces : Cutting dialect "&&z&".toList
      [(['&', '&'], .literal ['&', '&']), (['z'], .literal ['z']),
        (['&'], .literal ['&'])] :=
    .piece (.unknown hhex (by decide))
      (.piece hrun (.piece .lone .done))
  obtain rfl := (hunique _).mp hpieces
  obtain ⟨-, -, hdoubled⟩ := hliteral [] _ _ _ rfl
  have hfirst : start.next =
      .ok (some (.literal ['&', '&']), { start with position := 2 }) := by decide
  have hsecond : ({ start with position := 2 } : Cursor).next =
      .ok (some (.literal ['z']), { start with position := 3 }) := by decide
  have hthird : ({ start with position := 3 } : Cursor).next =
      .ok (some (.literal ['&']), { start with position := 4 }) := by decide
  rcases hdoubled.mp rfl with ⟨hlone, -⟩ | ⟨c, hsame, -, hfree⟩
  · simp at hlone
  · cases hsame
    have hreaches := Cursor.Reaches.further hfirst
      (.further hsecond (.further hthird (.here _)))
    exact ⟨last, hread, hfree, hend _ _ hreaches (by decide)⟩

end ChatCodes
