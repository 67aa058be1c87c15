import ChatCodes.Converter
import ChatCodes.Proofs.Spans
import ChatCodes.Proofs.Token.Stripping

/-!
# Codes in the middle of a text

A scan looks at most one hex color ahead, and a hex color cannot reach over a marker
that no digit stands on either side of.  So a text may be cut in front of such a
marker: its tokens are those of the part in front and those of the part behind.  A
code put between two texts only adds itself to their tokens, and a reset keeps the
styles of the first text away from the second.
-/

namespace ChatCodes

namespace HexForm

variable {marker : Char} {source : Text} {color : Rgb}

theorem exists_cons_of_marked_eq_append {digits front back : Text} (hfree : marker ∉ digits)
    (h : marked marker digits = front ++ marker :: back) :
    ∃ digit rest, back = digit :: rest ∧ digit ∈ digits := by
  induction digits generalizing front with
  | nil => simp [marked] at h
  | cons digit digits ih =>
      simp only [List.mem_cons, not_or] at hfree
      rw [marked_cons] at h
      cases front with
      | nil =>
          obtain rfl := (List.cons.inj h).2
          exact ⟨digit, _, rfl, List.mem_cons_self⟩
      | cons first front =>
          replace h := (List.cons.inj h).2
          cases front with
          | nil =>
              obtain ⟨rfl, -⟩ := List.cons.inj h
              exact (hfree.1 rfl).elim
          | cons second front =>
              obtain ⟨found, rest, hback, hfound⟩ := ih hfree.2 (List.cons.inj h).2
              exact ⟨found, rest, hback, List.mem_cons_of_mem _ hfound⟩

/-- Inside a spelled color a digit stands behind each marker. -/
theorem Spells.exists_digit {form : HexForm} {c : Char} {front back : Text}
    (h : form.Spells marker source color) (hmarker : Text.isHexDigit marker = false)
    (hsource : source = c :: (front ++ marker :: back)) :
    ∃ digit rest, back = digit :: rest ∧ Text.isHexDigit digit = true := by
  cases h with
  | @compact digits _ hcolor =>
      obtain ⟨-, rfl⟩ := List.cons.inj hsource
      exact (hcolor.not_mem hmarker (by simp)).elim
  | @spread _ digits _ _ hcolor =>
      obtain ⟨digit, rest, hback, hdigit⟩ :=
        exists_cons_of_marked_eq_append (hcolor.not_mem hmarker) (List.cons.inj hsource).2
      exact ⟨digit, rest, hback, hcolor.isHexDigit digit hdigit⟩

end HexForm

namespace Dialect

/-- A code as it stands in a text, with its marker. -/
inductive SpellsCode (dialect : Dialect) : Text → Code → Prop
  | char {c code} (h : dialect.code? c = some code) :
      SpellsCode dialect [dialect.marker, c] code
  | hex {form source color} (h : dialect.SpellsHex form source color) :
      SpellsCode dialect (dialect.marker :: source) (.setColor (.hex color))

/-- The text starts with a marker, over which no hex color in front can reach. -/
def StopsHex (dialect : Dialect) (text : Text) : Prop :=
  ∃ c rest, text = dialect.marker :: c :: rest ∧
    (dialect.hexColors = true →
      Text.isHexDigit dialect.marker = false ∧ Text.isHexDigit c = false)

variable {dialect : Dialect} {source : Text} {code : Code}

theorem not_startsWithHex_of_code? {c : Char} (h : dialect.code? c = some code)
    (rest : Text) : ¬ dialect.StartsWithHex (c :: rest) := by
  rintro ⟨form, source, color, ⟨-, hspells⟩, hprefix⟩
  cases hspells with
  | compact =>
      obtain ⟨rfl, -⟩ := List.cons_prefix_cons.mp hprefix
      cases h
  | spread hx =>
      obtain ⟨rfl, -⟩ := List.cons_prefix_cons.mp hprefix
      rcases hx with rfl | rfl <;> cases h

theorem SpellsCode.reads (h : dialect.SpellsCode source code) (behind : Text) :
    Reads dialect source (.code code) behind := by
  cases h with
  | char h => exact .code (not_startsWithHex_of_code? h behind) h
  | hex h => exact .hex h

theorem scan_of_spellsCode (h : dialect.SpellsCode source code) (behind : Text) :
    Token.scan dialect (source ++ behind) = .code code :: Token.scan dialect behind :=
  Token.scan_of_reads (h.reads behind)

theorem code_mem_scan_of_spellsCode {front : Text} (hfree : dialect.marker ∉ front)
    (h : dialect.SpellsCode source code) (behind : Text) :
    .code code ∈ Token.scan dialect (front ++ (source ++ behind)) := by
  by_cases hfront : front = []
  · subst hfront
    rw [List.nil_append, scan_of_spellsCode h]
    exact List.mem_cons_self
  · have hend : ∀ c ∈ (source ++ behind).head?, c = dialect.marker := by
      cases h <;> simp
    rw [Token.scan_of_reads (.run hfront hfree hend), scan_of_spellsCode h]
    simp

theorem spellsCode_reset (dialect : Dialect) :
    dialect.SpellsCode [dialect.marker, 'r'] .reset :=
  .char rfl

/-- A hex color that a text starts with does not get longer by what stands behind. -/
theorem startsWithHex_of_append {c : Char} {behind tail : Text}
    (htail : dialect.StopsHex tail) (h : dialect.StartsWithHex (c :: (behind ++ tail))) :
    dialect.StartsWithHex (c :: behind) := by
  obtain ⟨form, source, color, ⟨hon, hspells⟩, hprefix⟩ := h
  rw [← List.cons_append] at hprefix
  rcases List.prefix_or_prefix_of_prefix hprefix (List.prefix_append _ _) with
    hshort | ⟨beyond, rfl⟩
  · exact ⟨form, source, color, ⟨hon, hspells⟩, hshort⟩
  · rw [List.prefix_append_right_inj] at hprefix
    obtain ⟨stop, rest, rfl, hdigits⟩ := htail
    obtain ⟨hmarker, hstop⟩ := hdigits hon
    cases beyond with
    | nil => exact ⟨form, _, color, ⟨hon, hspells⟩, by simp⟩
    | cons first beyond =>
        obtain ⟨rfl, hbeyond⟩ := List.cons_prefix_cons.mp hprefix
        obtain ⟨digit, more, rfl, hdigit⟩ := hspells.exists_digit hmarker rfl
        obtain ⟨rfl, -⟩ := List.cons_prefix_cons.mp hbeyond
        rw [hdigit] at hstop
        contradiction

end Dialect

/-! ## Cutting in front of a marker -/

variable {dialect : Dialect}

theorem Reads.extend {source behind tail : Text} {token : Token}
    (h : Reads dialect source token behind) (htail : dialect.StopsHex tail)
    (hlone : token = .literal [dialect.marker] → behind ≠ []) :
    Reads dialect source token (behind ++ tail) := by
  cases h with
  | run htext hfree hend =>
      refine .run htext hfree ?_
      cases behind with
      | nil =>
          obtain ⟨c, rest, rfl, -⟩ := htail
          simp
      | cons c behind => exact hend
  | lone => exact (hlone rfl rfl).elim
  | hex h => exact .hex h
  | code hhex hcode =>
      exact .code (fun hlong => hhex (Dialect.startsWithHex_of_append htail hlong)) hcode
  | unknown hhex hcode =>
      exact .unknown (fun hlong => hhex (Dialect.startsWithHex_of_append htail hlong)) hcode

theorem Cutting.append {text tail : Text} {pieces later : List (Text × Token)}
    (h : Cutting dialect text pieces)
    (hlast : (pieces.map Prod.snd).getLast? ≠ some (.literal [dialect.marker]))
    (htail : dialect.StopsHex tail) (hlater : Cutting dialect tail later) :
    Cutting dialect (text ++ tail) (pieces ++ later) := by
  induction h with
  | done => exact hlater
  | @piece source token behind pieces hreads hbehind ih =>
      rw [List.append_assoc]
      refine .piece (hreads.extend htail ?_) (ih ?_)
      · rintro rfl hend
        rw [hbehind.eq_nil_iff.mp hend] at hlast
        exact hlast rfl
      · cases pieces with
        | nil => simp
        | cons next pieces => exact hlast

theorem Token.scan_append {front tail : Text}
    (hlast : (scan dialect front).getLast? ≠ some (.literal [dialect.marker]))
    (htail : dialect.StopsHex tail) :
    scan dialect (front ++ tail) = scan dialect front ++ scan dialect tail := by
  obtain ⟨pieces, hpieces⟩ := exists_cutting dialect front
  obtain ⟨later, hlater⟩ := exists_cutting dialect tail
  rw [hpieces.scan_eq] at hlast
  rw [(hpieces.append hlast htail hlater).scan_eq, List.map_append, hpieces.scan_eq,
    hlater.scan_eq]

/-! ## Codes between two texts -/

namespace Dialect

/-- The code is no single digit, which could complete a hex color in front of it. -/
def IsNoHexDigit (dialect : Dialect) (source : Text) : Prop :=
  ∀ digit, Text.isHexDigit digit = true → source ≠ [dialect.marker, digit]

variable {source : Text} {code : Code}

theorem SpellsCode.stopsHex (h : dialect.SpellsCode source code)
    (hmarker : Text.isHexDigit dialect.marker = false)
    (hdigit : dialect.hexColors = true → dialect.IsNoHexDigit source) (back : Text) :
    dialect.StopsHex (source ++ back) := by
  cases h with
  | @char c _ h =>
      refine ⟨c, back, rfl, fun hon => ⟨hmarker, ?_⟩⟩
      by_contra hc
      exact hdigit hon c (by simpa using hc) rfl
  | hex h =>
      obtain ⟨-, hspells⟩ := h
      cases hspells with
      | compact => exact ⟨'#', _, rfl, fun _ => ⟨hmarker, rfl⟩⟩
      | spread hx =>
          refine ⟨_, _, rfl, fun _ => ⟨hmarker, ?_⟩⟩
          rcases hx with rfl | rfl <;> rfl

theorem scan_splice {front : Text} (hmarker : Text.isHexDigit dialect.marker = false)
    (hlast : (Token.scan dialect front).getLast? ≠ some (.literal [dialect.marker]))
    (h : dialect.SpellsCode source code)
    (hdigit : dialect.hexColors = true → dialect.IsNoHexDigit source) (back : Text) :
    Token.scan dialect (front ++ source ++ back) =
      Token.scan dialect front ++ .code code :: Token.scan dialect back := by
  rw [List.append_assoc, Token.scan_append hlast (h.stopsHex hmarker hdigit back),
    scan_of_spellsCode h]

theorem spans_splice_reset {front : Text}
    (hmarker : Text.isHexDigit dialect.marker = false)
    (hlast : (Token.scan dialect front).getLast? ≠ some (.literal [dialect.marker]))
    (back : Text) :
    dialect.spans (front ++ [dialect.marker, 'r'] ++ back) =
      Span.seam (dialect.spans front) (dialect.spans back) := by
  have hdigit : dialect.IsNoHexDigit [dialect.marker, 'r'] := by
    rintro digit hdigit hsame
    cases hsame
    contradiction
  rw [spans, literals, scan_splice hmarker hlast dialect.spellsCode_reset (fun _ => hdigit),
    Span.ofTokens_append_reset, Span.merge_append]
  rfl

end Dialect

/--
A code between two texts adds itself to their tokens, unless the first text ends in a
lone marker or, with hex colors, the code is a single digit.  So a reset keeps the two
texts apart: their spans stand one behind the other, joined where they meet if the
styles there are equal.
-/
theorem codes_splice (converter : Converter) (front back : Text)
    (hlast : (Token.scan converter.dialect front).getLast? ≠
      some (.literal [converter.settings.marker])) :
    (∀ source code, converter.dialect.SpellsCode source code →
      (converter.settings.hexColors = true → converter.dialect.IsNoHexDigit source) →
      Token.scan converter.dialect (front ++ source ++ back) =
        Token.scan converter.dialect front ++
          .code code :: Token.scan converter.dialect back) ∧
    converter.spans (front ++ [converter.settings.marker, 'r'] ++ back) =
      Span.seam (converter.spans front) (converter.spans back) := by
  have hmarker := Marker.not_isHexDigit_of_fault? converter.accepted
  constructor
  · intro source code hspells hdigit
    exact Dialect.scan_splice hmarker hlast hspells hdigit back
  · exact Dialect.spans_splice_reset hmarker hlast back

/-- Five digits of a spread hex color stay incomplete, although a sixth one follows. -/
theorem codes_splice_into_hex :
    let converter : Converter := ⟨.extended, by decide⟩
    Token.scan converter.dialect ("&x&f&f&8&8&0".toList ++ ['&', 'l'] ++ "0".toList) =
      Token.scan converter.dialect "&x&f&f&8&8&0".toList ++
        [.code (.decorate .bold), .literal ['0']] ∧
    converter.spans ("&x&f&f&8&8&0".toList ++ ['&', 'r'] ++ "0".toList) =
      [⟨['&', 'x', '0'], .plain⟩] := by
  intro converter
  have hlast : (Token.scan converter.dialect "&x&f&f&8&8&0".toList).getLast? ≠
      some (.literal ['&']) := by
    decide +kernel
  have hbold : converter.dialect.SpellsCode ['&', 'l'] (.decorate .bold) := .char rfl
  have hdigit : converter.dialect.IsNoHexDigit ['&', 'l'] := by
    rintro digit hdigit hsame
    cases hsame
    contradiction
  have hzero : Token.scan converter.dialect "0".toList = [.literal ['0']] := by
    decide +kernel
  obtain ⟨hcodes, hreset⟩ := codes_splice converter _ "0".toList hlast
  constructor
  · rw [hcodes _ _ hbold fun _ => hdigit, hzero]
  · exact hreset.trans (by decide +kernel)

end ChatCodes
