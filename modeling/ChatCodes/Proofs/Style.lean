import ChatCodes.Style
import Mathlib.Data.List.DropRight
import Mathlib.Data.List.Induction

/-!
# Styles behind many codes

A reset takes everything back, and a color may take the decorations back.  So the style
behind a list of codes depends on the codes since the last one that took something
back, and on the style in front only if there is none.

A set of decorations is as good as a byte with one bit for each of them.
-/

namespace ChatCodes

/-! ## Sets of decorations as bytes -/

def Decoration.bit : Decoration → UInt8
  | .obfuscated => 1
  | .bold => 2
  | .strikethrough => 4
  | .underlined => 8
  | .italic => 16

/-- The bits of the members, each put in by a bitwise or. -/
def Decoration.byteOf (members : List Decoration) : UInt8 :=
  members.foldl (fun byte decoration => byte ||| decoration.bit) 0

namespace Decorations

def byte (set : Decorations) : UInt8 := Decoration.byteOf set.toList

theorem byte_insert (set : Decorations) (decoration : Decoration) :
    (set.insert decoration).byte = set.byte ||| decoration.bit := by
  obtain ⟨obfuscated, bold, strikethrough, underlined, italic⟩ := set
  revert obfuscated bold strikethrough underlined italic
  cases decoration <;> decide

theorem contains_eq_byte (set : Decorations) (decoration : Decoration) :
    set.contains decoration = (set.byte &&& decoration.bit != 0) := by
  obtain ⟨obfuscated, bold, strikethrough, underlined, italic⟩ := set
  revert obfuscated bold strikethrough underlined italic
  cases decoration <;> decide

theorem byte_eq_iff {first second : Decorations} :
    first.byte = second.byte ↔ first = second := by
  constructor
  · intro h
    apply ext_contains
    intro decoration
    rw [contains_eq_byte, contains_eq_byte, h]
  · rintro rfl
    rfl

theorem byte_ofList (members : List Decoration) :
    (ofList members).byte = Decoration.byteOf members := by
  induction members using List.reverseRecOn with
  | nil => rfl
  | append_singleton members decoration ih =>
      rw [ofList, Decoration.byteOf, List.foldl_append, List.foldl_append]
      exact (byte_insert _ decoration).trans (congrArg (· ||| decoration.bit) ih)

theorem ofList_eq_iff {first second : List Decoration} :
    ofList first = ofList second ↔
      ∀ decoration, decoration ∈ first ↔ decoration ∈ second := by
  constructor
  · intro hset decoration
    have hcontains := congrArg (·.contains decoration) hset
    simpa using hcontains
  · intro hmembers
    apply ext_contains
    intro decoration
    simp [hmembers decoration]

theorem toList_inCodeOrder (set : Decorations) :
    set.toList.Pairwise fun first second => first.char < second.char := by
  have hall : Decoration.all.Pairwise fun first second => first.char < second.char := by
    decide
  exact hall.filter _

end Decorations

/-! ## Codes since the last of a kind -/

namespace Code

def color? : Code → Option Color
  | .setColor color => some color
  | _ => none

/-- A reset ends the decorations, and a color does if the dialect says so. -/
def endsDecorations (colorEndsDecorations : Bool) : Code → Bool
  | .setColor _ => colorEndsDecorations
  | .decorate _ => false
  | .reset => true

/-- The codes behind the last one of a kind, or all if there is none. -/
def sinceLast (kind : Code → Bool) (codes : List Code) : List Code :=
  codes.rtakeWhile fun code => !kind code

theorem sinceLast_concat_of_kind {kind : Code → Bool} {code : Code} (h : kind code = true)
    (codes : List Code) : sinceLast kind (codes ++ [code]) = [] :=
  List.rtakeWhile_concat_neg (fun code => !kind code) codes code (by simp [h])

theorem sinceLast_concat {kind : Code → Bool} {code : Code} (h : kind code = false)
    (codes : List Code) :
    sinceLast kind (codes ++ [code]) = sinceLast kind codes ++ [code] :=
  List.rtakeWhile_concat_pos (fun code => !kind code) codes code (by simp [h])

end Code

namespace Style

open Code (sinceLast endsDecorations)

theorem color_foldl_apply (colorEndsDecorations : Bool) (start : Style)
    (codes : List Code) :
    (codes.foldl (apply colorEndsDecorations) start).color =
      ((sinceLast (· = .reset) codes).filterMap Code.color?).getLast?.or
        (if .reset ∈ codes then none else start.color) := by
  induction codes using List.reverseRecOn with
  | nil => rfl
  | append_singleton codes code ih =>
      rw [List.foldl_append, List.foldl_cons, List.foldl_nil]
      cases code with
      | setColor color =>
          rw [Code.sinceLast_concat rfl, List.filterMap_append]
          simp [apply, Code.color?]
      | decorate decoration =>
          rw [Code.sinceLast_concat rfl, List.filterMap_append]
          simpa [apply, Code.color?] using ih
      | reset =>
          rw [Code.sinceLast_concat_of_kind rfl]
          simp [apply, plain]

theorem mem_decorations_foldl_apply (colorEndsDecorations : Bool) (start : Style)
    (codes : List Code) (decoration : Decoration) :
    decoration ∈ (codes.foldl (apply colorEndsDecorations) start).decorations.toList ↔
      .decorate decoration ∈ sinceLast (endsDecorations colorEndsDecorations) codes ∨
        codes.any (endsDecorations colorEndsDecorations) = false ∧
          decoration ∈ start.decorations.toList := by
  induction codes using List.reverseRecOn with
  | nil => simp [sinceLast]
  | append_singleton codes code ih =>
      rw [List.foldl_append, List.foldl_cons, List.foldl_nil, List.any_append]
      -- Only the last code counts if it ends the decorations, whichever code it is.
      cases hends : endsDecorations colorEndsDecorations code with
      | true =>
          rw [Code.sinceLast_concat_of_kind hends]
          have hempty : ∀ style : Style,
              (style.apply colorEndsDecorations code).decorations = .empty := by
            intro style
            cases code with
            | setColor color => exact if_pos hends
            | decorate => contradiction
            | reset => rfl
          simp [hempty, hends]
      | false =>
          rw [Code.sinceLast_concat hends]
          cases code with
          | setColor color =>
              have hkept : colorEndsDecorations = false := hends
              simpa [apply, hkept, endsDecorations] using ih
          | decorate added =>
              simp only [Decorations.mem_toList] at ih
              simp only [apply, Decorations.mem_toList, Decorations.contains_insert, hends,
                List.mem_append, List.mem_singleton, List.any_cons, List.any_nil,
                Bool.or_false, Bool.or_eq_true, decide_eq_true_eq, ih, Code.decorate.injEq]
              tauto
          | reset => contradiction

end Style

/--
The color behind a list of codes is the last one since the last reset; without one it
is that of the style in front, unless there was a reset.  The decorations are those
turned on since a code last ended them, and also those in front if none did.  They are
listed once each in the order of their characters.  Sets are equal if their members are,
also as bytes: it is all one in which order and how often they were put in.
-/
theorem style_follows_last_codes (colorEndsDecorations : Bool) (start : Style)
    (codes : List Code) :
    let style := codes.foldl (Style.apply colorEndsDecorations) start
    style.color =
      ((Code.sinceLast (· = .reset) codes).filterMap Code.color?).getLast?.or
        (if .reset ∈ codes then none else start.color) ∧
    (∀ decoration, decoration ∈ style.decorations.toList ↔
      .decorate decoration ∈
          Code.sinceLast (Code.endsDecorations colorEndsDecorations) codes ∨
        codes.any (Code.endsDecorations colorEndsDecorations) = false ∧
          decoration ∈ start.decorations.toList) ∧
    (style.decorations.toList.Pairwise fun first second => first.char < second.char) ∧
    (∀ first second : Decorations, first = second ↔
      ∀ decoration, decoration ∈ first.toList ↔ decoration ∈ second.toList) ∧
    ∀ first second : List Decoration,
      (Decorations.ofList first = Decorations.ofList second ↔
        ∀ decoration, decoration ∈ first ↔ decoration ∈ second) ∧
      (Decoration.byteOf first = Decoration.byteOf second ↔
        Decorations.ofList first = Decorations.ofList second) := by
  intro style
  refine ⟨Style.color_foldl_apply _ start codes,
    Style.mem_decorations_foldl_apply _ start codes,
    style.decorations.toList_inCodeOrder, fun first second => ?_,
    fun first second => ⟨Decorations.ofList_eq_iff, ?_⟩⟩
  · rw [← Decorations.ofList_eq_iff, Decorations.ofList_toList, Decorations.ofList_toList]
  · rw [← Decorations.byte_ofList, ← Decorations.byte_ofList]
    exact Decorations.byte_eq_iff

example :
    let bold : Decorations := .ofList [.bold]
    [Code.decorate .italic, .setColor (.named .red), .decorate .obfuscated].foldl
      (Style.apply true) ⟨none, bold⟩ =
        ⟨some (.named .red), .ofList [.obfuscated]⟩ := by
  decide

end ChatCodes
