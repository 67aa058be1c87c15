import ChatCodes.Converter
import ChatCodes.Proofs.Token.Cutting

/-!
# Stripped texts

Stripping glues together what stood apart, yet no marker comes to stand in front of a
code character: behind each marker that is left stands the character that stood there
before.  So a stripped text has no codes, except that a `#` left behind a marker may
get six digits.
-/

namespace ChatCodes

theorem Dialect.code?_ne_none_of_isHexDigit {dialect : Dialect} {c : Char}
    (h : Text.isHexDigit c = true) : dialect.code? c ≠ none := by
  obtain ⟨value, hvalue⟩ := Option.isSome_iff_exists.mp h
  simp [code?, Code.ofChar?, NamedColor.ofChar?, hvalue]

theorem Marker.not_isHexDigit_of_fault? {marker : Char} (h : fault? marker = none) :
    Text.isHexDigit marker = false := by
  by_contra hdigit
  rw [Bool.not_eq_false, Text.isHexDigit, Option.isSome_iff_exists] at hdigit
  obtain ⟨value, hvalue⟩ := hdigit
  unfold Text.hexValue? at hvalue
  split at hvalue <;> contradiction

/-- No marker stands in front of a code character. -/
inductive Bare (dialect : Dialect) : Text → Prop
  | nil : Bare dialect []
  | lone : Bare dialect [dialect.marker]
  | plain {c rest} (hc : c ≠ dialect.marker) (h : Bare dialect rest) :
      Bare dialect (c :: rest)
  | unknown {c rest} (hc : dialect.code? c = none) (h : Bare dialect rest) :
      Bare dialect (dialect.marker :: c :: rest)

namespace Bare

variable {dialect : Dialect} {text rest : Text}

theorem append (hfree : dialect.marker ∉ text) (h : Bare dialect rest) :
    Bare dialect (text ++ rest) := by
  induction text with
  | nil => exact h
  | cons c text ih =>
      simp only [List.mem_cons, not_or] at hfree
      exact .plain (Ne.symm hfree.1) (ih hfree.2)

theorem of_cons {c : Char} (hc : c ≠ dialect.marker) (h : Bare dialect (c :: rest)) :
    Bare dialect rest := by
  cases h with
  | lone => exact (hc rfl).elim
  | plain _ h => exact h
  | unknown => exact (hc rfl).elim

theorem of_append (hfree : dialect.marker ∉ text) (h : Bare dialect (text ++ rest)) :
    Bare dialect rest := by
  induction text with
  | nil => exact h
  | cons c text ih =>
      simp only [List.mem_cons, not_or] at hfree
      exact ih hfree.2 (h.of_cons (Ne.symm hfree.1))

theorem of_marker_cons {c : Char} (h : Bare dialect (dialect.marker :: c :: rest)) :
    dialect.code? c = none ∧ Bare dialect rest := by
  cases h with
  | plain hc => exact (hc rfl).elim
  | unknown hc h => exact ⟨hc, h⟩

/-- What a scan finds in front of a bare text, and that the rest is bare too. -/
theorem of_reads {source behind : Text} {token : Token}
    (hmarker : dialect.hexColors = true → Text.isHexDigit dialect.marker = false)
    (h : Bare dialect (source ++ behind)) (hreads : Reads dialect source token behind) :
    Bare dialect behind ∧ ∀ code, token = .code code →
      ∃ digits color, source = dialect.marker :: '#' :: digits ∧
        dialect.SpellsHex .compact ('#' :: digits) color ∧
        code = .setColor (.hex color) := by
  cases hreads with
  | run _ hfree => exact ⟨h.of_append hfree, by simp⟩
  | lone => exact ⟨.nil, by simp⟩
  | @hex _ _ color _ hhex =>
      obtain ⟨hon, hspells⟩ := hhex
      cases hspells with
      | @compact digits _ hcolor =>
          obtain ⟨-, hdigits⟩ := h.of_marker_cons
          refine ⟨hdigits.of_append (hcolor.not_mem (hmarker hon)), ?_⟩
          rintro _ ⟨⟩
          exact ⟨digits, color, rfl, ⟨hon, .compact hcolor⟩, rfl⟩
      | spread _ hcolor =>
          -- The first digit would be a code character behind a marker.
          obtain ⟨-, hdigits⟩ := h.of_marker_cons
          obtain ⟨first, more, rfl⟩ :=
            List.exists_cons_of_length_eq_add_one hcolor.length_eq
          obtain ⟨hnone, -⟩ := hdigits.of_marker_cons
          have hfirst := hcolor.isHexDigit first List.mem_cons_self
          exact (Dialect.code?_ne_none_of_isHexDigit hfirst hnone).elim
  | code _ hcode =>
      obtain ⟨hnone, -⟩ := h.of_marker_cons
      rw [hcode] at hnone
      contradiction
  | unknown => exact ⟨h.of_marker_cons.2, by simp⟩

end Bare

/--
Texts none of which brings a code with it: one without a marker, a marker with a
character that is no code, or at the end a marker alone.
-/
inductive BareParts (dialect : Dialect) : List Text → Prop
  | nil : BareParts dialect []
  | lone : BareParts dialect [[dialect.marker]]
  | free {text parts} (hfree : dialect.marker ∉ text) (h : BareParts dialect parts) :
      BareParts dialect (text :: parts)
  | unknown {c parts} (hc : dialect.code? c = none) (h : BareParts dialect parts) :
      BareParts dialect ([dialect.marker, c] :: parts)

namespace BareParts

variable {dialect : Dialect} {parts : List Text}

theorem bare_flatten (h : BareParts dialect parts) : Bare dialect parts.flatten := by
  induction h with
  | nil => exact .nil
  | lone => exact .lone
  | free hfree _ ih => exact ih.append hfree
  | unknown hc _ ih => exact .unknown hc ih

theorem filter_nonempty (h : BareParts dialect parts) :
    BareParts dialect (parts.filter fun text => !text.isEmpty) := by
  induction h with
  | nil => exact .nil
  | lone => exact .lone
  | free hfree _ ih =>
      rw [List.filter_cons]
      split
      · exact .free hfree ih
      · exact ih
  | unknown hc _ ih => exact .unknown hc ih

end BareParts

namespace Cutting

variable {dialect : Dialect} {text : Text} {pieces : List (Text × Token)}

theorem bareParts (h : Cutting dialect text pieces) :
    BareParts dialect ((pieces.map Prod.snd).map Token.text) := by
  induction h with
  | done => exact .nil
  | piece hreads later ih =>
      cases hreads with
      | run _ hfree => exact .free hfree ih
      | lone =>
          cases later.eq_nil_iff.mp rfl
          exact .lone
      | hex => exact .free List.not_mem_nil ih
      | code => exact .free List.not_mem_nil ih
      | unknown _ hcode => exact .unknown hcode ih

theorem codes_of_bare (h : Cutting dialect text pieces) (hbare : Bare dialect text)
    (hmarker : dialect.hexColors = true → Text.isHexDigit dialect.marker = false) :
    ∀ source code, (source, .code code) ∈ pieces →
      ∃ digits color, source = dialect.marker :: '#' :: digits ∧
        dialect.SpellsHex .compact ('#' :: digits) color ∧
        code = .setColor (.hex color) := by
  induction h with
  | done => simp
  | piece hreads _ ih =>
      obtain ⟨hbehind, hfirst⟩ := hbare.of_reads hmarker hreads
      intro source code hmem
      rcases List.mem_cons.mp hmem with hsame | hlater
      · cases hsame
        exact hfirst code rfl
      · exact ih hbehind source code hlater

theorem literals_eq_of_no_code (h : Cutting dialect text pieces)
    (hcodes : ∀ code, .code code ∉ pieces.map Prod.snd) :
    (pieces.map Prod.snd).flatMap Token.text = text := by
  induction h with
  | done => rfl
  | @piece source token _ _ hreads _ ih =>
      rw [List.map_cons] at hcodes
      have hlater := ih fun code hmem => hcodes code (List.mem_cons_of_mem _ hmem)
      rw [List.map_cons, List.flatMap_cons, hlater]
      cases token with
      | literal chars => rw [hreads.source_eq_of_literal, Token.text]
      | code code => exact (hcodes code List.mem_cons_self).elim

end Cutting

namespace Dialect

variable {dialect : Dialect}

theorem bareParts_scan (dialect : Dialect) (text : Text) :
    BareParts dialect ((Token.scan dialect text).map Token.text) := by
  obtain ⟨pieces, hpieces⟩ := exists_cutting dialect text
  rw [hpieces.scan_eq]
  exact hpieces.bareParts

theorem bare_strip (dialect : Dialect) (text : Text) :
    Bare dialect (dialect.strip text).text := by
  rw [text_strip, withoutCodes, List.flatMap_def]
  exact (bareParts_scan dialect text).bare_flatten

theorem not_code_mem_scan_of_bare {text : Text} (hoff : dialect.hexColors = false)
    (hbare : Bare dialect text) (code : Code) : .code code ∉ Token.scan dialect text := by
  obtain ⟨pieces, hpieces⟩ := exists_cutting dialect text
  rw [hpieces.scan_eq]
  intro hmem
  obtain ⟨⟨source, _⟩, hpiece, rfl⟩ := List.mem_map.mp hmem
  have hcodes := hpieces.codes_of_bare hbare (by simp [hoff])
  obtain ⟨_, _, -, ⟨hon, -⟩, -⟩ := hcodes source code hpiece
  simp [hoff] at hon

theorem not_code_mem_scan_strip (hoff : dialect.hexColors = false) (text : Text)
    (code : Code) : .code code ∉ Token.scan dialect (dialect.strip text).text :=
  not_code_mem_scan_of_bare hoff (dialect.bare_strip text) code

theorem text_strip_of_no_code {text : Text}
    (h : ∀ code, .code code ∉ Token.scan dialect text) :
    (dialect.strip text).text = text := by
  obtain ⟨pieces, hpieces⟩ := exists_cutting dialect text
  rw [hpieces.scan_eq] at h
  rw [text_strip, withoutCodes, hpieces.scan_eq, hpieces.literals_eq_of_no_code h]

theorem strip_strip (hoff : dialect.hexColors = false) (text : Text) :
    (dialect.strip (dialect.strip text).text).text = (dialect.strip text).text :=
  text_strip_of_no_code (not_code_mem_scan_strip hoff text)

end Dialect

/-! ## Codes take their markers with them -/

namespace Reads

variable {dialect : Dialect} {source behind : Text} {token : Token}

theorem text_sublist (h : Reads dialect source token behind) :
    token.text.Sublist source := by
  cases token with
  | literal chars => exact h.source_eq_of_literal ▸ List.Sublist.refl chars
  | code code => exact List.nil_sublist source

theorem marker_mem_of_code {code : Code} (h : Reads dialect source (.code code) behind) :
    dialect.marker ∈ source := by
  cases h <;> exact List.mem_cons_self

end Reads

namespace Cutting

variable {dialect : Dialect} {text : Text} {pieces : List (Text × Token)}

theorem literals_sublist (h : Cutting dialect text pieces) :
    ((pieces.map Prod.snd).flatMap Token.text).Sublist text := by
  induction h with
  | done => exact List.Sublist.slnil
  | piece hreads _ ih =>
      rw [List.map_cons, List.flatMap_cons]
      exact hreads.text_sublist.append ih

theorem count_literals_lt (h : Cutting dialect text pieces) {code : Code}
    (hcode : .code code ∈ pieces.map Prod.snd) :
    ((pieces.map Prod.snd).flatMap Token.text).count dialect.marker <
      text.count dialect.marker := by
  induction h with
  | done => contradiction
  | @piece source token behind pieces hreads later ih =>
      simp only [List.map_cons, List.flatMap_cons, List.count_append]
      rcases List.mem_cons.mp hcode with rfl | hlater
      · have hsource := List.count_pos_iff.mpr hreads.marker_mem_of_code
        have hbehind := later.literals_sublist.count_le dialect.marker
        rw [Token.text, List.count_nil]
        omega
      · have hsource := hreads.text_sublist.count_le dialect.marker
        have hbehind := ih hlater
        omega

end Cutting

theorem Dialect.count_strip_lt {dialect : Dialect} {text : Text} {code : Code}
    (hcode : .code code ∈ Token.scan dialect text) :
    (dialect.strip text).text.count dialect.marker < text.count dialect.marker := by
  obtain ⟨pieces, hpieces⟩ := exists_cutting dialect text
  rw [hpieces.scan_eq] at hcode
  rw [text_strip, withoutCodes, hpieces.scan_eq]
  exact hpieces.count_literals_lt hcode

/--
Without hex colors a stripped text has no codes, whatever the marker, so stripping it
again changes nothing.  With hex colors and an accepted marker, each code of a
stripped text is a marker with `#` and six digits.
-/
theorem stripped_texts_are_bare :
    (∀ (dialect : Dialect) (text : Text), dialect.hexColors = false →
      (∀ code, .code code ∉ Token.scan dialect (dialect.strip text).text) ∧
        (dialect.strip (dialect.strip text).text).text = (dialect.strip text).text) ∧
    (∀ (marker : Char) (text : Text),
      (∀ code, .code code ∉ Token.scan { marker } (stripCodes marker text).text) ∧
        (stripCodes marker (stripCodes marker text).text).text =
          (stripCodes marker text).text) ∧
    ∀ (converter : Converter) (text : Text), converter.settings.hexColors = true →
      ∃ pieces, Cutting converter.dialect (converter.strip text).text pieces ∧
        Token.scan converter.dialect (converter.strip text).text =
          pieces.map Prod.snd ∧
        ∀ source code, (source, .code code) ∈ pieces →
          ∃ digits color, source = converter.settings.marker :: '#' :: digits ∧
            color.IsSpelledBy digits ∧ code = .setColor (.hex color) := by
  refine ⟨fun dialect text hoff => ?_, fun marker text => ?_, fun converter text hon => ?_⟩
  · exact ⟨Dialect.not_code_mem_scan_strip hoff text, Dialect.strip_strip hoff text⟩
  · exact ⟨Dialect.not_code_mem_scan_strip rfl text, Dialect.strip_strip rfl text⟩
  · obtain ⟨pieces, hpieces⟩ :=
      exists_cutting converter.dialect (converter.strip text).text
    refine ⟨pieces, hpieces, hpieces.scan_eq, fun source code hmem => ?_⟩
    have hcodes := hpieces.codes_of_bare (converter.dialect.bare_strip text)
      fun _ => Marker.not_isHexDigit_of_fault? converter.accepted
    obtain ⟨digits, color, hsource, ⟨-, hspells⟩, hcode⟩ := hcodes source code hmem
    cases hspells with
    | compact hcolor => exact ⟨digits, color, hsource, hcolor, hcode⟩

/-- Stripping `&c` out of `&#&cff8800` leaves a hex color behind. -/
theorem stripped_texts_are_bare_but_hex :
    (∀ code, .code code ∉
      Token.scan {} (({} : Dialect).strip "&&c&#&cff8800".toList).text) ∧
    let converter : Converter := ⟨.extended, by decide⟩
    (converter.strip "&#&cff8800".toList).text = "&#ff8800".toList ∧
    ∃ digits color, "&#ff8800".toList = '&' :: '#' :: digits ∧
      color.IsSpelledBy digits ∧
      Code.setColor (.hex ⟨0xff, 0x88, 0x00⟩) = .setColor (.hex color) := by
  refine ⟨(stripped_texts_are_bare.1 _ _ rfl).1, ?_⟩
  intro converter
  have hstrip : (converter.strip "&#&cff8800".toList).text = "&#ff8800".toList := by
    decide +kernel
  obtain ⟨pieces, hpieces, -, hcodes⟩ :=
    stripped_texts_are_bare.2.2 converter "&#&cff8800".toList rfl
  have hcolor : Rgb.IsSpelledBy ⟨0xff, 0x88, 0x00⟩ "ff8800".toList :=
    Rgb.ofDigits?_eq_some_iff.mp (by decide)
  have hcutting : Cutting converter.dialect ("&#ff8800".toList ++ [])
      [("&#ff8800".toList, .code (.setColor (.hex ⟨0xff, 0x88, 0x00⟩)))] :=
    .piece (.hex ⟨rfl, .compact hcolor⟩) .done
  rw [hstrip] at hpieces
  obtain rfl := hcutting.unique hpieces
  exact ⟨hstrip, hcodes _ _ List.mem_cons_self⟩

end ChatCodes
