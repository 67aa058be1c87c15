import ChatCodes.Proofs.Markup.Guards
import ChatCodes.Proofs.Markup.Names
import ChatCodes.Proofs.Token.Splicing

/-!
# Markers and tags

Tags hold no accepted marker but `/` and `_`: the first stands in every closing tag,
and the second in the names of some colors.  With any other marker a text of tags has
no codes, and a conversion without escaping leaves it as it is.
-/

namespace ChatCodes

/-- The marker is no character of a tag or a guard. -/
structure Marker.AvoidsTags (marker : Char) : Prop where
  not_isNameChar : ¬ Text.IsNameChar marker
  ne_less : marker ≠ '<'
  ne_greater : marker ≠ '>'
  ne_slash : marker ≠ '/'
  ne_backslash : marker ≠ '\\'

theorem Marker.avoidsTags_of_fault? {marker : Char} (h : fault? marker = none)
    (hslash : marker ≠ '/') (hline : marker ≠ '_') : AvoidsTags marker := by
  obtain ⟨-, -, ⟨halphanum, hhash⟩, hless, hgreater, hbackslash⟩ :=
    fault?_eq_none_iff.mp h
  refine ⟨?_, hless, hgreater, hslash, hbackslash⟩
  rintro (hname | rfl | rfl)
  · simp [halphanum] at hname
  · exact hhash rfl
  · exact hline rfl

namespace Marker.AvoidsTags

variable {marker : Char} (h : AvoidsTags marker) (tag : Markup.Tag)
include h

theorem not_mem_opening : marker ∉ tag.opening :=
  Markup.Tag.not_mem_opening h.not_isNameChar h.ne_less h.ne_greater

theorem not_mem_closing : marker ∉ tag.closing :=
  Markup.Tag.not_mem_closing h.not_isNameChar h.ne_less h.ne_slash h.ne_greater

end Marker.AvoidsTags

theorem Marker.mem_tag_iff {marker : Char} (h : fault? marker = none) :
    (∃ tag : Markup.Tag, marker ∈ tag.opening ∨ marker ∈ tag.closing) ↔
      marker = '/' ∨ marker = '_' := by
  constructor
  · rintro ⟨tag, htag⟩
    by_contra! hother
    have havoids := avoidsTags_of_fault? h hother.1 hother.2
    exact htag.elim (havoids.not_mem_opening tag) (havoids.not_mem_closing tag)
  · rintro (rfl | rfl)
    · exact ⟨.color (.named .red), .inr (by decide)⟩
    · exact ⟨.color (.named .darkBlue), .inl (by decide)⟩

/-! ## Texts without codes -/

theorem Dialect.not_code_mem_scan_of_not_mem {dialect : Dialect} {text : Text}
    (h : dialect.marker ∉ text) (code : Code) : .code code ∉ Token.scan dialect text := by
  by_cases htext : text = []
  · simp [htext]
  · simp [Token.scan_of_not_mem h htext]

namespace Markup

theorem render_plain (text : Text) : render false [⟨text, .plain⟩] = text := by
  rw [render_eq_markup]
  by_cases htext : text = []
  · subst htext
    rfl
  · simp [htext, pieces, Writer.runPieces, Writer.spanPieces, Writer.after, Writer.moves,
      Writer.closingPieces, Writer.fresh, Writer.emit, Piece.ofMoves, Piece.tagsAfter,
      Piece.markup, Piece.chars]

end Markup

theorem Converter.convert_of_no_code {converter : Converter} {text : Text}
    (hescaping : converter.settings.escaping = false)
    (h : ∀ code, .code code ∉ Token.scan converter.dialect text) :
    converter.convert text = text := by
  have hstyle : ∀ span ∈ converter.dialect.literals text, span.style = .plain :=
    Span.style_eq_of_no_code h
  calc
    converter.convert text
        = Markup.render false (Span.merge (converter.dialect.literals text)) := by
          rw [Markup.render_merge, ← hescaping]
          rfl
    _ = Markup.render false [⟨(converter.dialect.literals text).flatMap Span.text, .plain⟩] := by
          rw [Span.merge_of_style_eq hstyle, Markup.render_merge]
    _ = text := by
          rw [Markup.render_plain, Dialect.flatMap_text_literals,
            Dialect.text_strip_of_no_code h]

/-! ## Markers in markup -/

namespace Markup

variable {marker : Char}

theorem Piece.count_chars (h : Marker.AvoidsTags marker) (piece : Piece) :
    (piece.chars false).count marker = piece.literal.count marker := by
  cases piece with
  | guard => simp [chars, literal, h.ne_backslash.symm]
  | start tag =>
      rw [chars, literal, List.count_nil, List.count_eq_zero]
      exact h.not_mem_opening tag
  | close tag =>
      rw [chars, literal, List.count_nil, List.count_eq_zero]
      exact h.not_mem_closing tag
  | text literal => rfl

/-- Only the texts can bring a marker into the markup. -/
theorem Piece.count_markup (h : Marker.AvoidsTags marker) (pieces : List Piece) :
    (markup false pieces).count marker = (pieces.flatMap literal).count marker := by
  induction pieces with
  | nil => rfl
  | cons piece pieces ih =>
      rw [markup_cons, List.count_append, count_chars h, ih, List.flatMap_cons,
        List.count_append]

theorem Piece.marker_not_mem_markup (h : Marker.AvoidsTags marker) {pieces : List Piece}
    (hfree : ∀ literal, .text literal ∈ pieces → marker ∉ literal) :
    marker ∉ markup false pieces := by
  rw [← List.count_eq_zero, count_markup h, List.count_eq_zero, List.mem_flatMap]
  rintro ⟨piece, hpiece, hmem⟩
  cases piece with
  | text literal => exact hfree literal hpiece hmem
  | _ => contradiction

/-- The letter behind the slash of a closing tag is a code. -/
theorem code_mem_scan_closing {dialect : Dialect} (h : dialect.marker = '/') :
    .code .reset ∈ Token.scan dialect (Piece.markup false [.close (.color (.named .red))]) := by
  have hfree : dialect.marker ∉ ['<'] := by simp [h]
  have hmem := Dialect.code_mem_scan_of_spellsCode hfree dialect.spellsCode_reset "ed>".toList
  rw [h] at hmem
  exact hmem

/-- So is the letter behind the line in the name of a color. -/
theorem code_mem_scan_opening {dialect : Dialect} (h : dialect.marker = '_') :
    .code (.setColor (.named .aqua)) ∈
      Token.scan dialect (Piece.markup false [.start (.color (.named .darkBlue))]) := by
  have hfree : dialect.marker ∉ "<dark".toList := by
    rw [h]
    decide
  have hspells : dialect.SpellsCode [dialect.marker, 'b'] (.setColor (.named .aqua)) :=
    .char rfl
  have hmem := Dialect.code_mem_scan_of_spellsCode hfree hspells "lue>".toList
  rw [h] at hmem
  exact hmem

/--
Tags in a text are never taken for codes, and without escaping a conversion leaves them
as they are, if the marker is neither `/` nor `_`.  With these two they can be.
-/
theorem tags_scan_as_text_iff (converter : Converter) :
    (∀ pieces : List Piece,
      (∀ literal, .text literal ∈ pieces → converter.settings.marker ∉ literal) →
      (∀ code, .code code ∉ Token.scan converter.dialect (Piece.markup false pieces)) ∧
        (converter.settings.escaping = false →
          converter.convert (Piece.markup false pieces) = Piece.markup false pieces)) ↔
      converter.settings.marker ≠ '/' ∧ converter.settings.marker ≠ '_' := by
  constructor
  · intro h
    refine ⟨fun hslash => ?_, fun hline => ?_⟩
    · obtain ⟨hcodes, -⟩ := h [.close (.color (.named .red))] (by simp)
      exact hcodes _ (code_mem_scan_closing hslash)
    · obtain ⟨hcodes, -⟩ := h [.start (.color (.named .darkBlue))] (by simp)
      exact hcodes _ (code_mem_scan_opening hline)
  · rintro ⟨hslash, hline⟩ pieces hfree
    have havoids := Marker.avoidsTags_of_fault? converter.accepted hslash hline
    have hcodes : ∀ code,
        .code code ∉ Token.scan converter.dialect (Piece.markup false pieces) :=
      Dialect.not_code_mem_scan_of_not_mem (Piece.marker_not_mem_markup havoids hfree)
    exact ⟨hcodes, fun hescaping => Converter.convert_of_no_code hescaping hcodes⟩

/-- With the marker `/` the closing tag loses its first letter. -/
theorem closing_tag_taken_for_reset :
    let converter : Converter := ⟨{ marker := '/' }, by decide⟩
    let pieces : List Piece :=
      [.start (.color (.named .red)), .text ['H', 'i'], .close (.color (.named .red))]
    Piece.markup false pieces = "<red>Hi</red>".toList ∧
      converter.settings.marker ∉ ['H', 'i'] ∧ converter.settings.escaping = false ∧
      Token.scan converter.dialect (Piece.markup false pieces) =
        [.literal "<red>Hi<".toList, .code .reset, .literal "ed>".toList] ∧
      converter.convert (Piece.markup false pieces) = "<red>Hi<ed>".toList := by
  decide +kernel

end Markup

end ChatCodes
