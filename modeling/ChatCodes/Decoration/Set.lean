import ChatCodes.Decoration.Basic

/-!
# Sets of decorations

A set is determined by its members: it remembers neither the order nor the
number of the insertions.  Its list is in code order.
-/

namespace ChatCodes

structure Decorations where
  obfuscated : Bool := false
  bold : Bool := false
  strikethrough : Bool := false
  underlined : Bool := false
  italic : Bool := false
  deriving DecidableEq, Repr

namespace Decorations

def empty : Decorations := {}

def contains (set : Decorations) : Decoration → Bool
  | .obfuscated => set.obfuscated
  | .bold => set.bold
  | .strikethrough => set.strikethrough
  | .underlined => set.underlined
  | .italic => set.italic

def insert (set : Decorations) : Decoration → Decorations
  | .obfuscated => { set with obfuscated := true }
  | .bold => { set with bold := true }
  | .strikethrough => { set with strikethrough := true }
  | .underlined => { set with underlined := true }
  | .italic => { set with italic := true }

def isEmpty (set : Decorations) : Bool := set = empty

def toList (set : Decorations) : List Decoration :=
  Decoration.all.filter set.contains

def ofList (members : List Decoration) : Decorations :=
  members.foldl insert empty

theorem ext_contains {first second : Decorations}
    (h : ∀ decoration, first.contains decoration = second.contains decoration) :
    first = second := by
  cases first
  cases second
  have hobfuscated := h .obfuscated
  have hbold := h .bold
  have hstrikethrough := h .strikethrough
  have hunderlined := h .underlined
  have hitalic := h .italic
  simp_all [contains]

@[simp] theorem contains_empty (decoration : Decoration) :
    empty.contains decoration = false := by
  cases decoration <;> rfl

@[simp] theorem contains_insert (set : Decorations)
    (inserted decoration : Decoration) :
    (set.insert inserted).contains decoration =
      (decide (decoration = inserted) || set.contains decoration) := by
  cases inserted <;> cases decoration <;> simp [contains, insert]

theorem contains_foldl_insert (set : Decorations) (members : List Decoration)
    (decoration : Decoration) :
    (members.foldl insert set).contains decoration =
      (decide (decoration ∈ members) || set.contains decoration) := by
  induction members generalizing set with
  | nil => simp
  | cons first members ih =>
      rw [List.foldl_cons, ih, contains_insert, Bool.or_left_comm,
        ← Bool.or_assoc]
      simp [List.mem_cons]

@[simp] theorem contains_ofList (members : List Decoration)
    (decoration : Decoration) :
    (ofList members).contains decoration = decide (decoration ∈ members) := by
  simp [ofList, contains_foldl_insert]

@[simp] theorem mem_toList {set : Decorations} {decoration : Decoration} :
    decoration ∈ set.toList ↔ set.contains decoration = true := by
  simp [toList, Decoration.mem_all]

@[simp] theorem ofList_toList (set : Decorations) : ofList set.toList = set := by
  apply ext_contains
  intro decoration
  simp

theorem toList_nodup (set : Decorations) : set.toList.Nodup :=
  Decoration.all_nodup.filter _

end Decorations

end ChatCodes
