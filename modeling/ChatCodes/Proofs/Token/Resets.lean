import ChatCodes.Proofs.Token.Splicing

/-!
# Resets in front of colors

Where a color ends the decorations, it does what a reset and a color do where it does
not.  A reset put in front of a color code is found there, and no other code of the text
is read differently, so the option can be had by writing resets into the text.
-/

namespace ChatCodes

def Token.isColor : Token → Bool
  | .code (.setColor _) => true
  | _ => false

/-- A reset token in front of each color. -/
def Token.resetColors (tokens : List Token) : List Token :=
  tokens.flatMap fun token => if token.isColor then [.code .reset, token] else [token]

/-- The text of the pieces, with a reset code in front of each color code. -/
def withResets (marker : Char) (pieces : List (Text × Token)) : Text :=
  pieces.flatMap fun (source, token) =>
    if token.isColor then marker :: 'r' :: source else source

/-! ## Scanning -/

section Scanning

variable {dialect : Dialect} {source behind : Text} {token : Token}
  {pieces : List (Text × Token)}

theorem Dialect.StartsWithHex.mono {text longer : Text} (h : dialect.StartsWithHex text)
    (hstarts : text <+: longer) : dialect.StartsWithHex longer := by
  obtain ⟨form, source, color, hspells, hsource⟩ := h
  exact ⟨form, source, color, hspells, hsource.trans hstarts⟩

theorem withResets_cons_of_color (h : token.isColor = true) (marker : Char) :
    withResets marker ((source, token) :: pieces) =
      [marker, 'r'] ++ (source ++ withResets marker pieces) := by
  simp [withResets, h]

theorem withResets_cons_of_not_color (h : token.isColor = false) (marker : Char) :
    withResets marker ((source, token) :: pieces) =
      source ++ withResets marker pieces := by
  simp [withResets, h]

/-- Up to the first reset that is put in, the text is the one that was there. -/
theorem exists_withResets_eq (marker : Char) (pieces : List (Text × Token)) :
    ∃ front tail, withResets marker pieces = front ++ tail ∧
      front <+: (pieces.map Prod.fst).flatten ∧
      (tail = [] ∨ ∃ rest, tail = marker :: 'r' :: rest) := by
  induction pieces with
  | nil => exact ⟨[], [], rfl, List.prefix_rfl, .inl rfl⟩
  | cons piece pieces ih =>
      obtain ⟨source, token⟩ := piece
      cases hcolor : token.isColor with
      | true =>
          refine ⟨[], _, withResets_cons_of_color hcolor marker, List.nil_prefix, ?_⟩
          exact .inr ⟨_, rfl⟩
      | false =>
          obtain ⟨front, tail, hsplit, hfront, htail⟩ := ih
          refine ⟨source ++ front, tail, ?_, ?_, htail⟩
          · rw [withResets_cons_of_not_color hcolor, hsplit, List.append_assoc]
          · exact (List.prefix_append_right_inj source).mpr hfront

theorem startsWithHex_of_withResets {c : Char}
    (hmarker : Text.isHexDigit dialect.marker = false)
    (h : dialect.StartsWithHex (c :: withResets dialect.marker pieces)) :
    dialect.StartsWithHex (c :: (pieces.map Prod.fst).flatten) := by
  obtain ⟨front, tail, hsplit, hfront, htail⟩ := exists_withResets_eq dialect.marker pieces
  have hshort : dialect.StartsWithHex (c :: front) := by
    rcases htail with rfl | ⟨rest, rfl⟩
    · rwa [hsplit, List.append_nil] at h
    -- Neither the marker nor the `r` is a digit, so no form runs across them.
    · have hstops : dialect.StopsHex (dialect.marker :: 'r' :: rest) :=
        ⟨'r', rest, rfl, fun _ => ⟨hmarker, rfl⟩⟩
      rw [hsplit] at h
      exact Dialect.startsWithHex_of_append hstops h
  exact hshort.mono (List.cons_prefix_cons.mpr ⟨rfl, hfront⟩)

theorem Reads.withResets (h : Reads dialect source token behind)
    (hlater : Cutting dialect behind pieces)
    (hmarker : Text.isHexDigit dialect.marker = false) :
    Reads dialect source token (withResets dialect.marker pieces) := by
  have hlong : ∀ c, ¬ dialect.StartsWithHex (c :: behind) →
      ¬ dialect.StartsWithHex (c :: ChatCodes.withResets dialect.marker pieces) := by
    intro c hhex hwith
    exact hhex (hlater.flatten_eq ▸ startsWithHex_of_withResets hmarker hwith)
  cases h with
  | run htext hfree hend =>
      refine .run htext hfree ?_
      obtain ⟨front, tail, hsplit, ⟨more, hfront⟩, htail⟩ :=
        exists_withResets_eq dialect.marker pieces
      rw [hlater.flatten_eq] at hfront
      rw [hsplit]
      cases front with
      | nil => rcases htail with rfl | ⟨rest, rfl⟩ <;> simp
      | cons first front => simpa [← hfront] using hend
  | lone =>
      rw [hlater.eq_nil_iff.mp rfl]
      exact .lone
  | hex h => exact .hex h
  | code hhex hcode => exact .code (hlong _ hhex) hcode
  | unknown hhex hcode => exact .unknown (hlong _ hhex) hcode

theorem Cutting.exists_withResets {text : Text} (h : Cutting dialect text pieces)
    (hmarker : Text.isHexDigit dialect.marker = false) :
    ∃ others, Cutting dialect (withResets dialect.marker pieces) others ∧
      others.map Prod.snd = Token.resetColors (pieces.map Prod.snd) := by
  induction h with
  | done => exact ⟨[], .done, rfl⟩
  | @piece source token behind pieces hreads hlater ih =>
      obtain ⟨others, hothers, htokens⟩ := ih
      have hpiece := Cutting.piece (hreads.withResets hlater hmarker) hothers
      cases hcolor : token.isColor with
      | true =>
          have hreset := dialect.spellsCode_reset.reads
            (source ++ withResets dialect.marker pieces)
          rw [withResets_cons_of_color hcolor]
          refine ⟨_, .piece hreset hpiece, ?_⟩
          simp [Token.resetColors, hcolor, htokens]
      | false =>
          rw [withResets_cons_of_not_color hcolor]
          refine ⟨_, hpiece, ?_⟩
          simp [Token.resetColors, hcolor, htokens]

end Scanning

/-! ## Styles -/

/-- The converter that differs at most in whether a color ends the decorations. -/
def Converter.endingDecorations (converter : Converter) (colorEndsDecorations : Bool) :
    Converter :=
  ⟨{ converter.settings with colorEndsDecorations }, converter.accepted⟩

theorem Converter.scan_endingDecorations (converter : Converter)
    (colorEndsDecorations : Bool) (text : Text) :
    Token.scan (converter.endingDecorations colorEndsDecorations).dialect text =
      Token.scan converter.dialect text := by
  have hnext : ∀ text, Token.next? (converter.endingDecorations colorEndsDecorations).dialect
      text = Token.next? converter.dialect text := by
    intro text
    cases text <;> rfl
  fun_induction Token.scan converter.dialect text with
  | case1 text hnone => rw [Token.scan, hnext, hnone]
  | case2 text token rest hsome ih =>
      rw [Token.scan_of_next? ((hnext text).trans hsome), ih]

theorem Span.ofTokens_resetColors (style : Style) (tokens : List Token) :
    ofTokens false style (Token.resetColors tokens) = ofTokens true style tokens := by
  induction tokens generalizing style with
  | nil => rfl
  | cons token tokens ih =>
      rw [Token.resetColors, List.flatMap_cons]
      cases token with
      | literal text => exact congrArg (⟨text, style⟩ :: ·) (ih style)
      | code code =>
          cases code with
          | setColor color => exact ih ⟨some color, .empty⟩
          | decorate decoration => exact ih (style.apply false (.decorate decoration))
          | reset => exact ih .plain

/--
Put a reset code in front of each color code of a text, named or hex.  Scanning finds
these resets and otherwise what it found before; and where a color does not end the
decorations, the new text has the spans, and gives the markup, that the old one has and
gives where it does.
-/
theorem color_ends_decorations_like_reset (converter : Converter) (text : Text) :
    ∃ pieces,
      (∀ other, Cutting converter.dialect text other ↔ other = pieces) ∧
      let reset := withResets converter.settings.marker pieces
      Token.scan converter.dialect reset =
        Token.resetColors (Token.scan converter.dialect text) ∧
      (converter.endingDecorations true).spans text =
        (converter.endingDecorations false).spans reset ∧
      (converter.endingDecorations true).convert text =
        (converter.endingDecorations false).convert reset := by
  have hmarker := Marker.not_isHexDigit_of_fault? converter.accepted
  obtain ⟨pieces, hpieces⟩ := exists_cutting converter.dialect text
  obtain ⟨others, hothers, htokens⟩ := hpieces.exists_withResets hmarker
  have hscan : Token.scan converter.dialect (withResets converter.settings.marker pieces) =
      Token.resetColors (Token.scan converter.dialect text) := by
    rw [hpieces.scan_eq, ← htokens]
    exact hothers.scan_eq
  have hliterals : (converter.endingDecorations true).dialect.literals text =
      (converter.endingDecorations false).dialect.literals
        (withResets converter.settings.marker pieces) := by
    rw [Dialect.literals, Dialect.literals, converter.scan_endingDecorations,
      converter.scan_endingDecorations, hscan]
    exact (Span.ofTokens_resetColors .plain _).symm
  refine ⟨pieces, fun other => ⟨hpieces.unique, ?_⟩, hscan, ?_, ?_⟩
  · rintro rfl
    exact hpieces
  · exact congrArg Span.merge hliterals
  · exact congrArg (Markup.render converter.settings.escaping) hliterals

/-- An incomplete spread form stays one, although its digits are color codes. -/
example :
    let converter : Converter := ⟨.extended, by decide⟩
    Token.scan converter.dialect "&x&r&f&r&8".toList =
      [.literal ['&', 'x'], .code .reset, .code (.setColor (.named .white)),
        .code .reset, .code (.setColor (.named .darkGray))] := by
  decide +kernel

end ChatCodes
