import ChatCodes.Converter
import ChatCodes.Proofs.Spans
import ChatCodes.Proofs.Text.Letters
import ChatCodes.Proofs.Token.Reading
import ChatCodes.Proofs.Token.Stripping

/-!
# Another marker

Which of the accepted markers introduces the codes does not matter.  Put a marker that a
text does not hold in the place of the old one, and scan for it: the codes stay the same,
and the literals change like the text.
-/

namespace ChatCodes

/-- The character itself, or the new marker in the place of the old one. -/
def Marker.replace (old new c : Char) : Char := if c = old then new else c

def Token.mapChars (f : Char → Char) : Token → Token
  | .literal text => .literal (text.map f)
  | .code meaning => .code meaning

def Span.mapChars (f : Char → Char) (span : Span) : Span :=
  { span with text := span.text.map f }

def Stripped.mapChars (f : Char → Char) : Stripped → Stripped
  | .unchanged text => .unchanged (text.map f)
  | .rebuilt text => .rebuilt (text.map f)

def Dialect.withMarker (dialect : Dialect) (marker : Char) : Dialect :=
  { dialect with marker }

def Converter.withMarker (converter : Converter) (marker : Char)
    (h : Marker.fault? marker = none) : Converter :=
  ⟨{ converter.settings with marker }, h⟩

/-! ## Replacing a character -/

namespace Marker

variable {old new c : Char} {text : Text}

@[simp] theorem replace_old (old new : Char) : replace old new old = new := if_pos rfl

theorem replace_of_ne (h : c ≠ old) : replace old new c = c := if_neg h

theorem replace_eq_new_iff (h : c ≠ new) : replace old new c = new ↔ c = old := by
  by_cases hold : c = old
  · simp [hold]
  · simp [replace_of_ne hold, h, hold]

theorem map_replace_of_not_mem (h : old ∉ text) : text.map (replace old new) = text := by
  calc
    text.map (replace old new) = text.map id :=
      List.map_congr_left fun _ hc => replace_of_ne (ne_of_mem_of_not_mem hc h)
    _ = text := List.map_id text

theorem new_mem_map_replace_iff (h : new ∉ text) :
    new ∈ text.map (replace old new) ↔ old ∈ text := by
  rw [List.mem_map]
  constructor
  · rintro ⟨c, hc, hnew⟩
    exact (replace_eq_new_iff (ne_of_mem_of_not_mem hc h)).mp hnew ▸ hc
  · intro hold
    exact ⟨old, hold, replace_old old new⟩

/-- What was replaced can be put back. -/
theorem map_replace_back (h : new ∉ text) :
    (text.map (replace old new)).map (replace new old) = text := by
  calc
    (text.map (replace old new)).map (replace new old)
        = text.map (replace new old ∘ replace old new) := List.map_map
    _ = text.map id := by
      apply List.map_congr_left
      intro c hc
      have hnew : c ≠ new := ne_of_mem_of_not_mem hc h
      by_cases hold : c = old
      · simp [hold]
      · simp [replace_of_ne hold, replace_of_ne hnew]
    _ = text := List.map_id text

end Marker

/-! ## Scanning -/

section Scanning

open Marker (replace replace_old replace_of_ne map_replace_of_not_mem
  new_mem_map_replace_iff map_replace_back)

variable {dialect : Dialect} {new : Char} {text : Text}

theorem HexForm.map_replace_marked {old : Char} {digits : Text} (h : old ∉ digits) :
    (marked old digits).map (replace old new) = marked new digits := by
  induction digits with
  | nil => rfl
  | cons digit digits ih =>
      simp only [List.mem_cons, not_or] at h
      rw [marked_cons, marked_cons, List.map_cons, List.map_cons, replace_old,
        replace_of_ne (Ne.symm h.1), ih h.2]

theorem HexForm.Spells.replace {old : Char} {form : HexForm} {source : Text} {color : Rgb}
    (h : form.Spells old source color) (hold : Marker.fault? old = none) :
    form.Spells new (source.map (Marker.replace old new)) color := by
  have hdigit := Marker.not_isHexDigit_of_fault? hold
  cases h with
  | compact hcolor =>
      rw [List.map_cons, replace_of_ne (Marker.ne_hash hold),
        map_replace_of_not_mem (hcolor.not_mem hdigit)]
      exact .compact hcolor
  | @spread x digits _ hx hcolor =>
      have hletter : x ≠ old := by
        apply Marker.ne_of_isAlphanum hold
        rcases hx with rfl | rfl <;> rfl
      rw [List.map_cons, replace_of_ne hletter, map_replace_marked (hcolor.not_mem hdigit)]
      exact .spread hx hcolor

theorem Dialect.StartsWithHex.replace (h : dialect.StartsWithHex text)
    (hold : Marker.fault? dialect.marker = none) :
    (dialect.withMarker new).StartsWithHex
      (text.map (Marker.replace dialect.marker new)) := by
  obtain ⟨form, source, color, ⟨hon, hspells⟩, hprefix⟩ := h
  exact ⟨form, _, color, ⟨hon, hspells.replace hold⟩, hprefix.map _⟩

/-- Going back to the old marker is a replacement too. -/
theorem Dialect.startsWithHex_of_replace (hnew : Marker.fault? new = none)
    (hfree : new ∉ text)
    (h : (dialect.withMarker new).StartsWithHex
      (text.map (Marker.replace dialect.marker new))) :
    dialect.StartsWithHex text := by
  have hback : ((dialect.withMarker new).withMarker dialect.marker).StartsWithHex
      ((text.map (Marker.replace dialect.marker new)).map
        (Marker.replace new dialect.marker)) :=
    h.replace hnew
  rwa [map_replace_back hfree] at hback

theorem Dialect.code?_replace {old : Char} (hold : Marker.fault? old = none)
    (hnew : Marker.fault? new = none) (c : Char) :
    dialect.code? (Marker.replace old new c) = dialect.code? c := by
  by_cases hc : c = old
  · rw [hc, replace_old, code?_of_fault? hnew, code?_of_fault? hold]
  · rw [replace_of_ne hc]

theorem Reads.replace {source behind : Text} {token : Token}
    (h : Reads dialect source token behind) (hold : Marker.fault? dialect.marker = none)
    (hnew : Marker.fault? new = none) (hfree : new ∉ source ++ behind) :
    let f := Marker.replace dialect.marker new
    Reads (dialect.withMarker new) (source.map f) (token.mapChars f) (behind.map f) := by
  intro f
  have hmarker : f dialect.marker = new := replace_old _ _
  have hcode := (dialect.withMarker new).code?_replace hold hnew
  -- What is no hex color must not become one, so here the replacement is undone.
  have hhex : ∀ c, new ∉ c :: behind → ¬ dialect.StartsWithHex (c :: behind) →
      ¬ (dialect.withMarker new).StartsWithHex (f c :: behind.map f) := by
    intro c hc hnone hstarts
    exact hnone (Dialect.startsWithHex_of_replace hnew hc hstarts)
  cases h with
  | run htext hrun hend =>
      refine .run (by simpa using htext) ?_ ?_
      · intro hmem
        have hsource : new ∉ source := fun hc => hfree (List.mem_append_left _ hc)
        exact hrun ((new_mem_map_replace_iff hsource).mp hmem)
      · cases behind with
        | nil => simp
        | cons c behind =>
            obtain rfl : c = dialect.marker := hend c rfl
            rintro _ ⟨⟩
            exact hmarker
  | lone =>
      rw [Token.mapChars, List.map_singleton, hmarker]
      exact .lone
  | hex h =>
      rw [List.map_cons, hmarker]
      exact .hex ⟨h.1, h.2.replace hold⟩
  | @code c meaning _ hstarts hmeaning =>
      rw [List.map_cons, List.map_singleton, hmarker]
      refine .code (hhex c ?_ hstarts) ((hcode c).trans hmeaning)
      exact fun hc => hfree (List.mem_cons_of_mem _ hc)
  | @unknown c _ hstarts hnone =>
      -- The character may be the old marker itself, which the literal holds twice then.
      rw [Token.mapChars, List.map_cons, List.map_singleton, hmarker]
      refine .unknown (hhex c ?_ hstarts) ((hcode c).trans hnone)
      exact fun hc => hfree (List.mem_cons_of_mem _ hc)

theorem Cutting.replace {pieces : List (Text × Token)} (h : Cutting dialect text pieces)
    (hold : Marker.fault? dialect.marker = none) (hnew : Marker.fault? new = none)
    (hfree : new ∉ text) :
    let f := Marker.replace dialect.marker new
    Cutting (dialect.withMarker new) (text.map f)
      (pieces.map (Prod.map (List.map f) (Token.mapChars f))) := by
  intro f
  induction h with
  | done => exact .done
  | @piece source token behind pieces hreads _ ih =>
      have hbehind : new ∉ behind := fun hc => hfree (List.mem_append_right _ hc)
      rw [List.map_append]
      exact .piece (hreads.replace hold hnew hfree) (ih hbehind)

theorem Token.scan_replace (hold : Marker.fault? dialect.marker = none)
    (hnew : Marker.fault? new = none) (hfree : new ∉ text) :
    let f := Marker.replace dialect.marker new
    scan (dialect.withMarker new) (text.map f) = (scan dialect text).map (mapChars f) := by
  intro f
  obtain ⟨pieces, hpieces⟩ := exists_cutting dialect text
  rw [hpieces.scan_eq, (hpieces.replace hold hnew hfree).scan_eq, List.map_map, List.map_map]
  rfl

end Scanning

/-! ## Literals and spans -/

theorem Token.text_mapChars (f : Char → Char) (token : Token) :
    (token.mapChars f).text = token.text.map f := by
  cases token <;> rfl

theorem Dialect.strip_replace {dialect : Dialect} {new : Char} {text : Text}
    (hold : Marker.fault? dialect.marker = none) (hnew : Marker.fault? new = none)
    (hfree : new ∉ text) :
    let f := Marker.replace dialect.marker new
    (dialect.withMarker new).strip (text.map f) = (dialect.strip text).mapChars f := by
  intro f
  have hcodes : (dialect.withMarker new).withoutCodes (text.map f) =
      (dialect.withoutCodes text).map f := by
    rw [withoutCodes, withoutCodes, Token.scan_replace hold hnew hfree, List.flatMap_map,
      List.map_flatMap]
    exact List.flatMap_congr fun token _ => token.text_mapChars f
  have hmarker : (dialect.withMarker new).marker ∈ text.map f ↔ dialect.marker ∈ text :=
    Marker.new_mem_map_replace_iff hfree
  unfold strip
  by_cases hmem : dialect.marker ∈ text
  · rw [if_pos hmem, if_pos (hmarker.mpr hmem), hcodes, Stripped.mapChars]
  · rw [if_neg hmem, if_neg (mt hmarker.mp hmem), Stripped.mapChars]

namespace Span

variable (f : Char → Char)

theorem ofTokens_map_mapChars (colorEndsDecorations : Bool) (style : Style)
    (tokens : List Token) :
    ofTokens colorEndsDecorations style (tokens.map (Token.mapChars f)) =
      (ofTokens colorEndsDecorations style tokens).map (mapChars f) := by
  induction tokens generalizing style with
  | nil => rfl
  | cons token tokens ih =>
      cases token with
      | literal text => exact congrArg (⟨text.map f, style⟩ :: ·) (ih style)
      | code code => exact ih (style.apply colorEndsDecorations code)

theorem join_map_mapChars (span : Span) (spans : List Span) :
    join (span.mapChars f) (spans.map (mapChars f)) = (join span spans).map (mapChars f) := by
  cases spans with
  | nil => rfl
  | cons next spans =>
      rw [List.map_cons, join, join]
      split
      · next hstyle => simp_all [mapChars]
      · next hstyle => simp_all [mapChars]

theorem merge_map_mapChars (spans : List Span) :
    merge (spans.map (mapChars f)) = (merge spans).map (mapChars f) := by
  induction spans with
  | nil => rfl
  | cons span spans ih =>
      obtain ⟨text, style⟩ := span
      by_cases htext : text = []
      · subst htext
        rw [merge_cons_nil, ← ih]
        exact merge_cons_nil style _
      · rw [merge_cons_of_ne_nil htext, ← join_map_mapChars, ← ih]
        exact merge_cons_of_ne_nil (by simpa using htext) style _

end Span

/--
Let a text not hold some other accepted marker.  With that one in the place of the old
marker it is scanned, and read by a cursor, as the same codes and literals, the literals
changed like the text.  So what is left without codes is changed like the text too, and
the spans keep their styles.
-/
theorem marker_choice_is_free (converter : Converter) {marker : Char} {text : Text}
    (haccepted : Marker.fault? marker = none) (hfree : marker ∉ text) :
    let other := converter.withMarker marker haccepted
    let f := Marker.replace converter.settings.marker marker
    let tokens := Token.scan converter.dialect text
    Token.scan other.dialect (text.map f) = tokens.map (Token.mapChars f) ∧
    (∃ first last,
      ({ dialect := converter.dialect, text } : Cursor).readAll = .ok (tokens, first) ∧
      ({ dialect := other.dialect, text := text.map f } : Cursor).readAll =
        .ok (tokens.map (Token.mapChars f), last)) ∧
    other.strip (text.map f) = (converter.strip text).mapChars f ∧
    other.spans (text.map f) = (converter.spans text).map (Span.mapChars f) := by
  intro other f tokens
  have hscan : Token.scan other.dialect (text.map f) = tokens.map (Token.mapChars f) :=
    Token.scan_replace converter.accepted haccepted hfree
  refine ⟨hscan, ?_, Dialect.strip_replace converter.accepted haccepted hfree, ?_⟩
  · obtain ⟨first, hfirst⟩ := Cursor.readAll_start_iff.mpr (Eq.refl tokens)
    obtain ⟨last, hlast⟩ := Cursor.readAll_start_iff.mpr hscan
    exact ⟨first, last, hfirst, hlast⟩
  · calc
      other.spans (text.map f)
          = Span.merge (Span.ofTokens converter.dialect.colorEndsDecorations .plain
              (tokens.map (Token.mapChars f))) := by
            rw [← hscan]
            rfl
      _ = (converter.spans text).map (Span.mapChars f) := by
            rw [Span.ofTokens_map_mapChars, Span.merge_map_mapChars]
            rfl

/-- A marker of four bytes for one of one, doubled, in a whole and in partial hex colors. -/
theorem marker_choice_is_free_between_lengths :
    let converter : Converter := ⟨.extended, by decide⟩
    let other := converter.withMarker '𝄞' (by decide)
    let text : Text := "𝄞𝄞é𝄞x𝄞f𝄞F𝄞8𝄞8𝄞0𝄞0𝄞#ff880𝄞x𝄞1b".toList
    let orange : Color := .hex ⟨0xff, 0x88, 0x00⟩
    Token.scan other.dialect text =
      [.literal ['𝄞', '𝄞'], .literal ['é'], .code (.setColor orange), .literal ['𝄞', '#'],
        .literal "ff880".toList, .literal ['𝄞', 'x'], .code (.setColor (.named .darkBlue)),
        .literal ['b']] ∧
    other.spans text =
      [⟨"𝄞𝄞é".toList, .plain⟩, ⟨"𝄞#ff880𝄞x".toList, { color := some orange }⟩,
        ⟨['b'], { color := some (.named .darkBlue) }⟩] := by
  intro converter other text orange
  have hfree : '𝄞' ∉ "&&é&x&f&F&8&8&0&0&#ff880&x&1b".toList := by decide
  have htext : "&&é&x&f&F&8&8&0&0&#ff880&x&1b".toList.map
      (Marker.replace converter.settings.marker '𝄞') = text := by
    decide +kernel
  obtain ⟨hscan, -, -, hspans⟩ := marker_choice_is_free converter (by decide) hfree
  rw [htext] at hscan hspans
  exact ⟨hscan.trans (by decide +kernel), hspans.trans (by decide +kernel)⟩

end ChatCodes
