import ChatCodes.Proofs.Markup.Merging
import ChatCodes.Proofs.Markup.Names
import ChatCodes.Proofs.Markup.Nesting
import ChatCodes.Proofs.Markup.Reader
import ChatCodes.Proofs.Spans

/-!
# Markup reads back

Reading the markup of spans gives the merged spans, so markup loses nothing of a
styled text.  With escaping this holds of every text; without, of texts in which
nothing could be taken for markup.
-/

namespace ChatCodes.Markup

/-! ## Lexemes of pieces -/

theorem lexemes_cons_of_plain {c : Char} (hless : c ≠ '<') (hbackslash : c ≠ '\\')
    (rest : Text) : lexemes (c :: rest) = .char c :: lexemes rest := by
  apply lexemes_of_next?
  unfold Lexeme.next?
  split <;> simp_all

theorem lexemes_escape_append (text rest : Text) :
    lexemes (escape text ++ rest) = text.map .char ++ lexemes rest := by
  induction text with
  | nil => rfl
  | cons c text ih =>
      have hescape : escape (c :: text) ++ rest =
          (if c = '<' ∨ c = '\\' then ['\\', c] else [c]) ++ (escape text ++ rest) := by
        simp [escape]
      rw [hescape, List.map_cons, List.cons_append, ← ih]
      split
      · next hspecial =>
          rcases hspecial with rfl | rfl <;> exact lexemes_of_next? rfl
      · next hplain =>
          rw [not_or] at hplain
          exact lexemes_cons_of_plain hplain.1 hplain.2 _

theorem lexemes_tag_append {body : Text} (h : '>' ∉ body) (rest : Text) :
    lexemes ('<' :: body ++ ['>'] ++ rest) = .ofTag body :: lexemes rest := by
  apply lexemes_of_next?
  have hall : ∀ c ∈ body, (c != '>') = true :=
    fun c hc => bne_iff_ne.mpr (ne_of_mem_of_not_mem hc h)
  rw [List.append_assoc, List.cons_append, Lexeme.next?, if_pos (by simp),
    List.takeWhile_append_of_pos hall, List.dropWhile_append_of_pos hall]
  simp

theorem lexemes_opening_append (tag : Tag) (rest : Text) :
    lexemes (tag.opening ++ rest) = .start tag.name :: lexemes rest := by
  have hslash : '/' ∉ tag.name := Tag.not_mem_name (by decide)
  have hname : Lexeme.ofTag tag.name = .start tag.name := by
    unfold Lexeme.ofTag
    split
    · next heq => simp [heq] at hslash
    · rfl
  rw [Tag.opening, lexemes_tag_append (Tag.not_mem_name (by decide)), hname]

theorem lexemes_closing_append (tag : Tag) (rest : Text) :
    lexemes (tag.closing ++ rest) = .close tag.name :: lexemes rest := by
  have hgreater : '>' ∉ '/' :: tag.name := by
    simpa using Tag.not_mem_name (by decide)
  exact lexemes_tag_append hgreater rest

/-! ## Styles of open tags -/

@[simp] theorem Tag.ofName?_name (tag : Tag) : Tag.ofName? tag.name = some tag := by
  cases tag with
  | color value => simp [ofName?, name]
  | decoration value =>
      have hcolor : Color.ofName? value.name = none := by
        cases value <;> decide
      simp [ofName?, name, hcolor]

theorem styleOf_of_perm {stack : List Tag} {style : Style}
    (h : stack.Perm (Tag.ofStyle style)) : styleOf stack = style := by
  have hmem : ∀ tag, tag ∈ stack ↔ tag.isActiveIn style = true :=
    fun tag => h.mem_iff.trans Tag.mem_ofStyle
  obtain ⟨color, decorations⟩ := style
  have hcolor : stack.findSome? Tag.color? = color := by
    cases hfound : stack.findSome? Tag.color? with
    | none =>
        cases color with
        | none => rfl
        | some value =>
            have hin := (hmem (.color value)).mpr (by simp [Tag.isActiveIn])
            have hnone := List.findSome?_eq_none_iff.mp hfound _ hin
            simp [Tag.color?] at hnone
    | some value =>
        obtain ⟨tag, hin, htag⟩ := List.exists_of_findSome?_eq_some hfound
        cases tag with
        | color other =>
            obtain rfl : other = value := Option.some.inj htag
            have := (hmem _).mp hin
            simpa [Tag.isActiveIn, eq_comm] using this
        | decoration other => simp [Tag.color?] at htag
  have hdecorations : Decorations.ofList (stack.filterMap Tag.decoration?) =
      decorations := by
    apply Decorations.ext_contains
    intro decoration
    have hiff : decoration ∈ stack.filterMap Tag.decoration? ↔
        decorations.contains decoration = true := by
      rw [List.mem_filterMap]
      constructor
      · rintro ⟨tag, hin, htag⟩
        cases tag with
        | color other => simp [Tag.decoration?] at htag
        | decoration other =>
            obtain rfl : other = decoration := Option.some.inj htag
            exact (hmem _).mp hin
      · intro hcontains
        exact ⟨.decoration decoration, (hmem _).mpr hcontains, rfl⟩
    rw [Decorations.contains_ofList, Bool.eq_iff_iff, decide_eq_true_iff, hiff]
  rw [styleOf, hcolor, hdecorations]

/-! ## Pieces without guards -/

/-- Nothing in the text could be taken for markup. -/
def IsInert (text : Text) : Prop := ∀ c ∈ text, c ≠ '<' ∧ c ≠ '\\'

theorem escape_of_isInert {text : Text} (h : IsInert text) : escape text = text := by
  induction text with
  | nil => rfl
  | cons c text ih =>
      obtain ⟨hc, htext⟩ := List.forall_mem_cons.mp h
      have hplain : ¬(c = '<' ∨ c = '\\') := by simpa using hc
      rw [escape, List.flatMap_cons, if_neg hplain, List.singleton_append]
      exact congrArg _ (ih htext)

theorem trailingBackslashes_of_isInert {text : Text} (h : IsInert text) :
    trailingBackslashes 0 text = 0 := by
  have hnone : text.reverse.takeWhile (· = '\\') = [] := by
    rw [List.takeWhile_eq_nil_iff]
    intro hlength
    simpa using (h _ (List.mem_reverse.mp (List.getElem_mem hlength))).2
  simp [trailingBackslashes, hnone]

/-- A reader takes the piece for what it is. -/
def Piece.IsClear (escaping : Bool) : Piece → Prop
  | .guard => False
  | .start _ | .close _ => True
  | .text literal => escaping = true ∨ IsInert literal

theorem Piece.isClear_ofMove (escaping : Bool) (move : Move) :
    (ofMove move).IsClear escaping := by
  cases move <;> trivial

theorem Piece.backslashesAfter_of_isClear {escaping : Bool} {piece : Piece}
    (h : piece.IsClear escaping) : piece.backslashesAfter escaping 0 = 0 := by
  cases piece with
  | text literal =>
      rcases h with hescaping | hinert
      · simp [backslashesAfter, hescaping]
      · simp [backslashesAfter, trailingBackslashes_of_isInert hinert]
  | _ => rfl

namespace Writer

variable {writer : Writer}

theorem emitAll_backslashes_of_isClear (hzero : writer.backslashes = 0)
    {pieces : List Piece} (h : ∀ piece ∈ pieces, piece.IsClear writer.escaping) :
    (writer.emitAll pieces).backslashes = 0 := by
  induction pieces generalizing writer with
  | nil => exact hzero
  | cons piece pieces ih =>
      obtain ⟨hpiece, hpieces⟩ := List.forall_mem_cons.mp h
      refine ih ?_ hpieces
      rw [emit, hzero]
      exact Piece.backslashesAfter_of_isClear hpiece

theorem ofMoves_isClear (hzero : writer.backslashes = 0) (moves : List Move) :
    ∀ piece ∈ Piece.ofMoves writer.backslashes moves,
      piece.IsClear writer.escaping := by
  rw [hzero, Piece.ofMoves_zero]
  intro piece hpiece
  obtain ⟨move, -, rfl⟩ := List.mem_map.mp hpiece
  exact Piece.isClear_ofMove _ move

theorem spanPieces_isClear (hzero : writer.backslashes = 0) {span : Span}
    (h : writer.escaping = true ∨ IsInert span.text) :
    ∀ piece ∈ writer.spanPieces span, piece.IsClear writer.escaping := by
  unfold spanPieces
  split
  · simp
  · intro piece hpiece
    rcases List.mem_append.mp hpiece with htag | htext
    · exact ofMoves_isClear hzero _ piece htag
    · rw [List.mem_singleton.mp htext]
      exact h

theorem after_backslashes_of_isClear (hzero : writer.backslashes = 0) {span : Span}
    (h : writer.escaping = true ∨ IsInert span.text) :
    (writer.after span).backslashes = 0 := by
  have hpieces := spanPieces_isClear hzero h
  unfold after
  split
  · exact hzero
  · exact emitAll_backslashes_of_isClear hzero hpieces

theorem runPieces_isClear (hzero : writer.backslashes = 0) {spans : List Span}
    (h : ∀ span ∈ spans, writer.escaping = true ∨ IsInert span.text) :
    (∀ piece ∈ writer.runPieces spans, piece.IsClear writer.escaping) ∧
      (spans.foldl after writer).backslashes = 0 := by
  induction spans generalizing writer with
  | nil => exact ⟨by simp [runPieces], hzero⟩
  | cons span spans ih =>
      obtain ⟨hspan, hspans⟩ := List.forall_mem_cons.mp h
      obtain ⟨hpieces, hlast⟩ := ih (after_backslashes_of_isClear hzero hspan)
        (by simpa using hspans)
      rw [after_escaping] at hpieces
      refine ⟨fun piece hpiece => ?_, hlast⟩
      rcases List.mem_append.mp hpiece with hfirst | hrest
      · exact spanPieces_isClear hzero hspan piece hfirst
      · exact hpieces piece hrest

end Writer

theorem pieces_isClear {escaping : Bool} {spans : List Span}
    (h : ∀ span ∈ spans, escaping = true ∨ IsInert span.text) :
    ∀ piece ∈ pieces escaping spans, piece.IsClear escaping := by
  obtain ⟨hrun, hlast⟩ :=
    @Writer.runPieces_isClear (.fresh escaping []) rfl spans h
  intro piece hpiece
  rcases List.mem_append.mp hpiece with hfirst | hclosing
  · exact hrun piece hfirst
  · have hclear := Writer.ofMoves_isClear hlast _ piece hclosing
    rwa [Writer.foldl_after_escaping] at hclear

/-! ## Reading pieces -/

theorem readLexemes_chars (stack : List Tag) (text : Text) (rest : List Lexeme) :
    readLexemes stack (text.map .char ++ rest) =
      (readLexemes stack rest).map (Span.glyphs ⟨text, styleOf stack⟩ ++ ·) := by
  induction text with
  | nil => simp [Span.glyphs]
  | cons c text ih =>
      rw [List.map_cons, List.cons_append, readLexemes, ih, Option.map_map]
      rfl

theorem Piece.chars_text_of_isClear {escaping : Bool} {literal : Text}
    (h : (Piece.text literal).IsClear escaping) :
    (Piece.text literal).chars escaping = escape literal := by
  rcases h with hescaping | hinert
  · simp [chars, hescaping]
  · simp [chars, escape_of_isInert hinert]

def spanRead (written : Text × List Tag) : Span :=
  ⟨written.1, styleOf written.2.reverse⟩

theorem readLexemes_pieces {escaping : Bool} {stack last : List Tag}
    {pieces : List Piece} {texts : List (Text × List Tag)}
    (h : Nests stack pieces texts last)
    (hclear : ∀ piece ∈ pieces, piece.IsClear escaping) :
    readLexemes stack.reverse (lexemes (Piece.markup escaping pieces)) =
      (readLexemes last.reverse []).map
        ((texts.map spanRead).flatMap Span.glyphs ++ ·) := by
  induction h with
  | done stack => simp
  | guard _ _ => exact (hclear .guard List.mem_cons_self).elim
  | start tag _ ih =>
      rw [Piece.markup_cons, Piece.chars, lexemes_opening_append, readLexemes,
        Tag.ofName?_name]
      simpa using ih (List.forall_mem_cons.mp hclear).2
  | close tag _ ih =>
      rw [Piece.markup_cons, Piece.chars, lexemes_closing_append,
        List.reverse_append, List.reverse_singleton, List.singleton_append,
        readLexemes, if_pos rfl]
      exact ih (List.forall_mem_cons.mp hclear).2
  | text literal _ ih =>
      obtain ⟨hliteral, hrest⟩ := List.forall_mem_cons.mp hclear
      rw [Piece.markup_cons, Piece.chars_text_of_isClear hliteral,
        lexemes_escape_append, readLexemes_chars, ih hrest, Option.map_map]
      congr 1
      funext read
      simp [spanRead]

theorem map_spanRead_of_wraps {spans : List Span} {texts : List (Text × List Tag)}
    (h : List.Forall₂ Writer.Wraps spans texts) : texts.map spanRead = spans := by
  induction h with
  | nil => rfl
  | cons hwraps _ ih =>
      obtain ⟨htext, htags⟩ := hwraps
      have hstyle := styleOf_of_perm ((List.reverse_perm _).trans htags)
      rw [List.map_cons, ih, spanRead, htext, hstyle]

theorem read?_render {escaping : Bool} {spans : List Span}
    (h : ∀ span ∈ spans, escaping = true ∨ IsInert span.text) :
    read? (render escaping spans) = some (Span.merge spans) := by
  obtain ⟨texts, hnests, hwraps⟩ := pieces_nests escaping spans
  have hread := readLexemes_pieces hnests (pieces_isClear h)
  rw [map_spanRead_of_wraps hwraps, ← render_eq_markup] at hread
  simp only [List.reverse_nil, readLexemes, Option.map_some, List.append_nil] at hread
  rw [read?, hread, Option.map_some, Span.merge_flatMap_glyphs, Span.merge_filter]

/-! ## Reading conversions -/

theorem read?_convert {converter : Converter} {text : Text}
    (h : converter.settings.escaping = true ∨ IsInert (converter.strip text).text) :
    read? (converter.convert text) = some (converter.spans text) := by
  apply read?_render
  intro span hspan
  refine h.imp_right fun hinert c hc => hinert c ?_
  rw [Converter.strip, ← Dialect.flatMap_text_literals]
  exact List.mem_flatMap.mpr ⟨span, hspan, hc⟩

theorem convert_eq_of_spans_eq {converter : Converter} {first second : Text}
    (h : converter.spans first = converter.spans second) :
    converter.convert first = converter.convert second := by
  rw [convert_eq_render_spans, h, ← convert_eq_render_spans]

/--
A conversion reads back as the styled text if markup in the text is escaped, or if
there is none.  So with escaping, conversions agree only where the styled texts do.
-/
theorem convert_reads_back (converter : Converter) :
    (∀ text,
      converter.settings.escaping = true ∨ IsInert (converter.strip text).text →
      read? (converter.convert text) = some (converter.spans text)) ∧
    (converter.settings.escaping = true → ∀ first second,
      converter.convert first = converter.convert second ↔
        converter.spans first = converter.spans second) := by
  refine ⟨fun text => read?_convert, fun hescaping first second => ?_⟩
  constructor
  · intro hconvert
    have hfirst := @read?_convert converter first (.inl hescaping)
    have hsecond := @read?_convert converter second (.inl hescaping)
    rw [← hconvert, hfirst] at hsecond
    exact Option.some.inj hsecond
  · exact convert_eq_of_spans_eq

/-- With escaping, text that looks like a tag reads back too. -/
theorem convert_reads_back_red :
    read? (Converter.ampersand.convert "&ca>&rb".toList) =
      some (Converter.ampersand.spans "&ca>&rb".toList) ∧
    read? ((⟨.extended, by decide⟩ : Converter).convert "&c<b&l>\\".toList) =
      some ((⟨.extended, by decide⟩ : Converter).spans "&c<b&l>\\".toList) ∧
    (⟨.extended, by decide⟩ : Converter).convert "&l<&c&r".toList =
      (⟨.extended, by decide⟩ : Converter).convert "&l<".toList := by
  refine ⟨(convert_reads_back _).1 _ (.inr ?_),
    (convert_reads_back _).1 _ (.inl rfl),
    ((convert_reads_back _).2 rfl _ _).mpr (by decide +kernel)⟩
  have hstrip : (Converter.ampersand.strip "&ca>&rb".toList).text = ['a', '>', 'b'] := by
    decide +kernel
  rw [hstrip]
  simp [IsInert]

end ChatCodes.Markup
