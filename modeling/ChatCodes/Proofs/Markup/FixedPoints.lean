import ChatCodes.Proofs.Markup.Markers
import ChatCodes.Proofs.Markup.Nesting

/-!
# Conversions that change nothing

With a marker that stands in no tag, a conversion without escaping keeps the markers
of the literals and writes no other.  A code takes its marker with it, so a text with
codes changes.  Tags and guards come between the literals only, and none of them
starts with a code character, so a converted text has no codes but hex codes.
-/

namespace ChatCodes

theorem Span.filter_map_text_ofTokens (colorEndsDecorations : Bool) (style : Style)
    (tokens : List Token) :
    ((ofTokens colorEndsDecorations style tokens).map text).filter
        (fun text => !text.isEmpty) =
      (tokens.map Token.text).filter fun text => !text.isEmpty := by
  induction tokens generalizing style with
  | nil => rfl
  | cons token tokens ih =>
      cases token with
      | literal chars =>
          simp only [ofTokens, List.map_cons, Token.text, List.filter_cons, ih]
      | code code => simpa [ofTokens, Token.text] using ih (style.apply _ code)

namespace Markup

/-! ## Markup between bare texts -/

theorem Writer.map_fst_of_wraps {spans : List Span} {texts : List (Text × List Tag)}
    (h : List.Forall₂ Wraps spans texts) : texts.map Prod.fst = spans.map Span.text := by
  induction h with
  | nil => rfl
  | cons hwraps _ ih => rw [List.map_cons, List.map_cons, hwraps.1, ih]

namespace Nests

variable {dialect : Dialect} {stack last : List Tag} {pieces : List Piece}
  {texts : List (Text × List Tag)}

theorem head?_markup (h : Nests stack pieces [] last) :
    ∀ c ∈ (Piece.markup false pieces).head?, c = '<' ∨ c = '\\' := by
  cases h with
  | done => simp
  | guard => simp [Piece.markup_cons, Piece.chars]
  | start => simp [Piece.markup_cons, Piece.chars, Tag.opening]
  | close => simp [Piece.markup_cons, Piece.chars, Tag.closing]

/-- A marker alone is the last text, and only tags and guards come behind it. -/
theorem bare_lone (havoids : Marker.AvoidsTags dialect.marker)
    (h : Nests stack pieces [] last) (hbare : Bare dialect (Piece.markup false pieces)) :
    Bare dialect (dialect.marker :: Piece.markup false pieces) := by
  have hhead := h.head?_markup
  cases hmarkup : Piece.markup false pieces with
  | nil => exact .lone
  | cons c rest =>
      rw [hmarkup] at hbare hhead
      rcases hhead c rfl with rfl | rfl
      · exact .unknown rfl (hbare.of_cons havoids.ne_less.symm)
      · exact .unknown rfl (hbare.of_cons havoids.ne_backslash.symm)

theorem bare_markup (havoids : Marker.AvoidsTags dialect.marker)
    (h : Nests stack pieces texts last) (hparts : BareParts dialect (texts.map Prod.fst)) :
    Bare dialect (Piece.markup false pieces) := by
  induction h with
  | done => exact .nil
  | guard _ ih => exact .plain havoids.ne_backslash.symm (ih hparts)
  | start tag _ ih => exact (ih hparts).append (havoids.not_mem_opening tag)
  | close tag _ ih => exact (ih hparts).append (havoids.not_mem_closing tag)
  | @text _ pieces texts _ literal hrest ih =>
      rw [List.map_cons] at hparts
      generalize hmap : texts.map Prod.fst = parts at hparts ih
      cases hparts with
      | lone =>
          obtain rfl := List.map_eq_nil_iff.mp hmap
          exact hrest.bare_lone havoids (ih .nil)
      | free hfree hlater => exact (ih hlater).append hfree
      | unknown hc hlater => exact .unknown hc (ih hlater)

end Nests

end Markup

namespace Converter

open Markup

variable {converter : Converter}

theorem convert_eq_markup (hescaping : converter.settings.escaping = false) (text : Text) :
    converter.convert text =
      Piece.markup false (pieces false (converter.dialect.literals text)) := by
  rw [convert, hescaping, render_eq_markup]

theorem bare_convert (hescaping : converter.settings.escaping = false)
    (havoids : Marker.AvoidsTags converter.settings.marker) (text : Text) :
    Bare converter.dialect (converter.convert text) := by
  obtain ⟨texts, hnests, hwraps⟩ := pieces_nests false (converter.dialect.literals text)
  have htexts : texts.map Prod.fst =
      ((Token.scan converter.dialect text).map Token.text).filter
        fun text => !text.isEmpty := by
    rw [Writer.map_fst_of_wraps hwraps, ← Span.filter_map_text_ofTokens, List.filter_map]
    rfl
  rw [convert_eq_markup hescaping]
  refine hnests.bare_markup havoids ?_
  rw [htexts]
  exact (Dialect.bareParts_scan converter.dialect text).filter_nonempty

theorem count_convert (hescaping : converter.settings.escaping = false)
    (havoids : Marker.AvoidsTags converter.settings.marker) (text : Text) :
    (converter.convert text).count converter.settings.marker =
      (converter.strip text).text.count converter.settings.marker := by
  rw [convert_eq_markup hescaping, Piece.count_markup havoids, flatMap_literal_pieces,
    Dialect.flatMap_text_literals]
  rfl

theorem no_code_of_convert_eq (hescaping : converter.settings.escaping = false)
    (havoids : Marker.AvoidsTags converter.settings.marker) {text : Text}
    (h : converter.convert text = text) (code : Code) :
    .code code ∉ Token.scan converter.dialect text := by
  intro hcode
  have hlost := Dialect.count_strip_lt hcode
  have hkept := count_convert hescaping havoids text
  rw [h] at hkept
  exact hlost.ne hkept.symm

/--
Among the accepted markers only `/` and `_` stand in tags.  With any other one, and
without escaping, a conversion leaves just the texts without codes as they are.
Without hex colors a converted text is such a text.
-/
theorem convert_eq_self_iff_no_code (hescaping : converter.settings.escaping = false) :
    ((∃ tag : Tag,
        converter.settings.marker ∈ tag.opening ∨ converter.settings.marker ∈ tag.closing) ↔
      converter.settings.marker = '/' ∨ converter.settings.marker = '_') ∧
    (converter.settings.marker ≠ '/' → converter.settings.marker ≠ '_' → ∀ text,
      (converter.convert text = text ↔
        ∀ code, .code code ∉ Token.scan converter.dialect text) ∧
      (converter.settings.marker ∉ text → converter.convert text = text) ∧
      (converter.settings.hexColors = false →
        (∀ code, .code code ∉ Token.scan converter.dialect (converter.convert text)) ∧
          converter.convert (converter.convert text) = converter.convert text)) := by
  refine ⟨Marker.mem_tag_iff converter.accepted, fun hslash hline text => ?_⟩
  have havoids := Marker.avoidsTags_of_fault? converter.accepted hslash hline
  refine ⟨⟨no_code_of_convert_eq hescaping havoids, convert_of_no_code hescaping⟩,
    fun hfree => ?_, fun hoff => ?_⟩
  · exact convert_of_no_code hescaping (Dialect.not_code_mem_scan_of_not_mem hfree)
  · have hcodes :=
      Dialect.not_code_mem_scan_of_bare hoff (bare_convert hescaping havoids text)
    exact ⟨hcodes, convert_of_no_code hescaping hcodes⟩

/-- The marker that ended the text stands in front of a tag then. -/
theorem convert_eq_self_iff_no_code_behind_marker :
    ampersand.convert "a&cb&".toList = "a<red>b&</red>".toList ∧
      ampersand.convert "a<red>b&</red>".toList = "a<red>b&</red>".toList ∧
      ∃ code, .code code ∈ Token.scan ampersand.dialect "a&cb&".toList := by
  have hconvert : ampersand.convert "a&cb&".toList = "a<red>b&</red>".toList := by
    decide +kernel
  have hescaping : ampersand.settings.escaping = false := rfl
  obtain ⟨-, hfixed⟩ := convert_eq_self_iff_no_code hescaping
  obtain ⟨hiff, -, hagain⟩ := hfixed (by decide) (by decide) "a&cb&".toList
  obtain ⟨-, hsame⟩ := hagain rfl
  rw [hconvert] at hiff hsame
  refine ⟨hconvert, hsame, ?_⟩
  by_contra! hcodes
  exact absurd (hiff.mpr hcodes) (by decide)

/-- With hex colors a code that is removed can leave another one behind. -/
example :
    let converter : Converter := ⟨{ hexColors := true }, by decide⟩
    converter.convert "&#&rff8800".toList = "&#ff8800".toList ∧
      converter.convert "&#ff8800".toList = [] := by
  decide +kernel

end Converter

end ChatCodes
