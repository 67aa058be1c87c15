import ChatCodes.Proofs.Token.HexForm
import ChatCodes.Token.Scan
import Mathlib.Data.List.TakeWhile

/-!
# Cuttings

The tokens of a text come from a cutting of it into pieces.  From left to right a
piece is the longest run without a marker, a marker with the spelling of a hex color,
a marker with one character, or a marker that ends the text.  Every text has exactly
one cutting, and scanning yields its tokens.
-/

namespace ChatCodes

namespace Dialect

/-- A hex color that the dialect knows, in one of its spellings. -/
def SpellsHex (dialect : Dialect) (form : HexForm) (source : Text) (color : Rgb) : Prop :=
  dialect.hexColors = true ∧ form.Spells dialect.marker source color

def StartsWithHex (dialect : Dialect) (text : Text) : Prop :=
  ∃ form source color, dialect.SpellsHex form source color ∧ source <+: text

variable {dialect : Dialect} {text : Text}

theorem hexCode?_eq_some_iff {form : HexForm} {color : Rgb} :
    dialect.hexCode? text = some (form, color) ↔
      ∃ source, dialect.SpellsHex form source color ∧ source <+: text := by
  unfold hexCode? SpellsHex
  split
  · next hon => simp [hon, HexForm.read?_eq_some_iff]
  · next hoff => simp [hoff]

theorem hexCode?_eq_none_iff :
    dialect.hexCode? text = none ↔ ¬ dialect.StartsWithHex text := by
  rw [Option.eq_none_iff_forall_ne_some, StartsWithHex]
  constructor
  · rintro hnone ⟨form, source, color, hsource⟩
    exact hnone (form, color) (hexCode?_eq_some_iff.mpr ⟨source, hsource⟩)
  · rintro hstarts ⟨form, color⟩ hsome
    exact hstarts ⟨form, _, color, (hexCode?_eq_some_iff.mp hsome).choose_spec⟩

theorem hexCode?_of_spellsHex {form : HexForm} {source : Text} {color : Rgb}
    (h : dialect.SpellsHex form source color) (behind : Text) :
    dialect.hexCode? (source ++ behind) = some (form, color) :=
  hexCode?_eq_some_iff.mpr ⟨source, h, List.prefix_append _ _⟩

end Dialect

/-- The piece in front of a text, and the token that it yields. -/
inductive Reads (dialect : Dialect) : Text → Token → Text → Prop
  | run {text behind} (htext : text ≠ []) (hfree : dialect.marker ∉ text)
      (hend : ∀ c ∈ behind.head?, c = dialect.marker) :
      Reads dialect text (.literal text) behind
  | lone : Reads dialect [dialect.marker] (.literal [dialect.marker]) []
  | hex {form source color behind} (h : dialect.SpellsHex form source color) :
      Reads dialect (dialect.marker :: source) (.code (.setColor (.hex color))) behind
  | code {c meaning behind} (hhex : ¬ dialect.StartsWithHex (c :: behind))
      (hcode : dialect.code? c = some meaning) :
      Reads dialect [dialect.marker, c] (.code meaning) behind
  | unknown {c behind} (hhex : ¬ dialect.StartsWithHex (c :: behind))
      (hcode : dialect.code? c = none) :
      Reads dialect [dialect.marker, c] (.literal [dialect.marker, c]) behind

namespace Reads

variable {dialect : Dialect} {source behind : Text} {token : Token}

theorem source_ne_nil (h : Reads dialect source token behind) : source ≠ [] := by
  cases h with
  | run htext => exact htext
  | _ => exact List.cons_ne_nil _ _

theorem source_eq_of_literal {chars : Text}
    (h : Reads dialect source (.literal chars) behind) : source = chars := by
  cases h <;> rfl

/-- A literal that starts with the marker is a code that was not recognized. -/
theorem head?_eq_marker_iff {chars : Text}
    (h : Reads dialect source (.literal chars) behind) :
    chars.head? = some dialect.marker ↔
      (chars = [dialect.marker] ∧ behind = []) ∨
        ∃ c, chars = [dialect.marker, c] ∧ dialect.code? c = none ∧
          ¬ dialect.StartsWithHex (c :: behind) := by
  cases h with
  | run htext hfree =>
      constructor
      · intro hhead
        exact (hfree (List.mem_of_mem_head? hhead)).elim
      · rintro (⟨rfl, -⟩ | ⟨c, rfl, -⟩)
        · exact (hfree List.mem_cons_self).elim
        · exact (hfree List.mem_cons_self).elim
  | lone => simp
  | unknown hhex hcode => simp [hhex, hcode]

end Reads

namespace Token

variable {dialect : Dialect} {source behind text : Text} {token : Token}

theorem next?_of_reads (h : Reads dialect source token behind) :
    next? dialect (source ++ behind) = some (token, behind) := by
  cases h with
  | @run text behind htext hfree hend =>
      obtain ⟨first, more, rfl⟩ := List.exists_cons_of_ne_nil htext
      simp only [List.mem_cons, not_or] at hfree
      have hall : ∀ c ∈ more, (c != dialect.marker) = true :=
        fun c hc => bne_iff_ne.mpr (ne_of_mem_of_not_mem hc hfree.2)
      have hstop : behind.takeWhile (fun c => c != dialect.marker) = [] ∧
          behind.dropWhile (fun c => c != dialect.marker) = behind := by
        cases behind with
        | nil => simp
        | cons c behind =>
            obtain rfl : c = dialect.marker := hend c rfl
            simp
      rw [List.cons_append, next?, if_neg (Ne.symm hfree.1)]
      simp only [List.takeWhile_append_of_pos hall, List.dropWhile_append_of_pos hall,
        hstop, List.append_nil]
  | lone => simp [next?, afterMarker]
  | @hex form source color behind h =>
      have hlength := h.2.length_eq
      have hhex := Dialect.hexCode?_of_spellsHex h behind
      obtain ⟨c, more, rfl⟩ := h.2.exists_cons
      have hdrop : (c :: more ++ behind).drop form.length = behind := by
        rw [← hlength, List.drop_left]
      rw [List.cons_append] at hhex hdrop
      rw [List.cons_append, List.cons_append, next?, if_pos rfl, afterMarker]
      simp only [hhex, hdrop]
  | code hhex hcode =>
      simp [next?, afterMarker, Dialect.hexCode?_eq_none_iff.mpr hhex, hcode]
  | unknown hhex hcode =>
      simp [next?, afterMarker, Dialect.hexCode?_eq_none_iff.mpr hhex, hcode]

theorem scan_of_reads (h : Reads dialect source token behind) :
    scan dialect (source ++ behind) = token :: scan dialect behind :=
  scan_of_next? (next?_of_reads h)

theorem exists_reads (dialect : Dialect) (htext : text ≠ []) :
    ∃ source token behind, text = source ++ behind ∧
      Reads dialect source token behind := by
  obtain ⟨first, rest, rfl⟩ := List.exists_cons_of_ne_nil htext
  by_cases hfirst : first = dialect.marker
  · subst hfirst
    cases rest with
    | nil => exact ⟨_, _, [], rfl, .lone⟩
    | cons c rest =>
        by_cases hhex : dialect.StartsWithHex (c :: rest)
        · obtain ⟨form, source, color, hsource, behind, hbehind⟩ := hhex
          exact ⟨dialect.marker :: source, _, behind, by simp [hbehind], .hex hsource⟩
        · cases hcode : dialect.code? c with
          | some meaning => exact ⟨[_, c], _, rest, rfl, .code hhex hcode⟩
          | none => exact ⟨[_, c], _, rest, rfl, .unknown hhex hcode⟩
  · let isText := fun c => c != dialect.marker
    refine ⟨(first :: rest).takeWhile isText, _, (first :: rest).dropWhile isText,
      List.takeWhile_append_dropWhile.symm, .run ?_ ?_ ?_⟩
    · simp [isText, hfirst]
    · intro hmem
      simpa [isText] using List.mem_takeWhile_imp hmem
    · intro c hc
      have hnot := List.head?_dropWhile_not isText (first :: rest)
      rw [Option.mem_def.mp hc] at hnot
      simpa [isText] using hnot

end Token

/-- Pieces from left to right, each with its characters and its token. -/
inductive Cutting (dialect : Dialect) : Text → List (Text × Token) → Prop
  | done : Cutting dialect [] []
  | piece {source token behind pieces} (h : Reads dialect source token behind)
      (later : Cutting dialect behind pieces) :
      Cutting dialect (source ++ behind) ((source, token) :: pieces)

namespace Cutting

variable {dialect : Dialect} {text : Text} {pieces : List (Text × Token)}

theorem flatten_eq (h : Cutting dialect text pieces) :
    (pieces.map Prod.fst).flatten = text := by
  induction h with
  | done => rfl
  | piece _ _ ih => rw [List.map_cons, List.flatten_cons, ih]

theorem eq_nil_iff (h : Cutting dialect text pieces) : text = [] ↔ pieces = [] := by
  cases h with
  | done => simp
  | piece h => simp [h.source_ne_nil]

theorem scan_eq (h : Cutting dialect text pieces) :
    Token.scan dialect text = pieces.map Prod.snd := by
  induction h with
  | done => exact Token.scan_nil dialect
  | piece h _ ih => rw [Token.scan_of_reads h, ih, List.map_cons]

theorem unique {other : List (Text × Token)} (h : Cutting dialect text pieces)
    (hother : Cutting dialect text other) : other = pieces := by
  induction h generalizing other with
  | done =>
      generalize hnil : ([] : Text) = text at hother
      cases hother with
      | done => rfl
      | piece h => simp [h.source_ne_nil] at hnil
  | @piece source token behind pieces h _ ih =>
      generalize hsame : source ++ behind = text at hother
      cases hother with
      | done => simp [h.source_ne_nil] at hsame
      | piece hfirst hlater =>
          have hnext := Token.next?_of_reads h
          rw [hsame, Token.next?_of_reads hfirst] at hnext
          cases hnext
          cases List.append_cancel_right hsame
          rw [ih hlater]

theorem of_split {front back : List (Text × Token)} {source : Text} {token : Token}
    (h : Cutting dialect text (front ++ (source, token) :: back)) :
    Reads dialect source token (back.map Prod.fst).flatten ∧
      Cutting dialect (back.map Prod.fst).flatten back := by
  induction front generalizing text with
  | nil =>
      cases h with
      | piece hreads later =>
          rw [later.flatten_eq]
          exact ⟨hreads, later⟩
  | cons piece front ih =>
      cases h with
      | piece _ later => exact ih later

end Cutting

theorem exists_cutting (dialect : Dialect) (text : Text) :
    ∃ pieces, Cutting dialect text pieces := by
  -- A piece can be of any length, so the induction is on the length of the text.
  induction hlength : text.length using Nat.strongRecOn generalizing text with
  | ind length ih =>
      by_cases htext : text = []
      · subst htext
        exact ⟨[], .done⟩
      · obtain ⟨source, token, behind, rfl, h⟩ := Token.exists_reads dialect htext
        have hshorter : behind.length < length := by
          have := List.length_pos_iff.mpr h.source_ne_nil
          rw [List.length_append] at hlength
          omega
        obtain ⟨pieces, hpieces⟩ := ih _ hshorter behind rfl
        exact ⟨_, .piece h hpieces⟩

end ChatCodes
