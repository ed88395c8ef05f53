import Mathlib.Tactic

/-!
# Operator trees and postfix words

A postfix word is read on a stack of trees. The words that read as one tree are exactly the
postfix forms. An operator that comes late in a word has fewer leaves after it; `weight` adds
them up, so that a word that delays operators is lighter than the postfix form.
-/

namespace Postfix

/-- Trees of unary operators `U` and binary operators `B` over leaves `L`. -/
inductive Tree (L U B : Type) where
  | leaf (x : L)
  | unary (u : U) (operand : Tree L U B)
  | binary (b : B) (left right : Tree L U B)
deriving DecidableEq, Repr

/-- The items of a postfix word. -/
inductive Item (L U B : Type) where
  | leaf (x : L)
  | unary (u : U)
  | binary (b : B)
deriving DecidableEq, Repr

variable {L U B : Type}

/-- The postfix form. -/
def Tree.word : Tree L U B → List (Item L U B)
  | .leaf x => [.leaf x]
  | .unary u t => t.word ++ [.unary u]
  | .binary b l r => l.word ++ r.word ++ [.binary b]

/-- The leaves from left to right. -/
def Tree.leaves : Tree L U B → List L
  | .leaf x => [x]
  | .unary _ t => t.leaves
  | .binary _ l r => l.leaves ++ r.leaves

/-! ## Reading -/

/-- One item on the stack of trees. -/
def Item.push : Item L U B → List (Tree L U B) → Option (List (Tree L U B))
  | .leaf x, s => some (.leaf x :: s)
  | .unary u, t :: s => some (.unary u t :: s)
  | .binary b, r :: l :: s => some (.binary b l r :: s)
  | _, _ => none

/-- A word on the stack of trees. -/
def assemble : List (Item L U B) → List (Tree L U B) → Option (List (Tree L U B))
  | [], s => some s
  | i :: is, s => (i.push s).bind (assemble is)

theorem assemble_append (is js : List (Item L U B)) (s : List (Tree L U B)) :
    assemble (is ++ js) s = (assemble is s).bind (assemble js) := by
  induction is generalizing s with
  | nil => rfl
  | cons i is ih =>
      simp only [List.cons_append, assemble, Option.bind_assoc]
      cases i.push s with
      | none => rfl
      | some s' => exact ih s'

theorem assemble_word (t : Tree L U B) (s : List (Tree L U B)) :
    assemble t.word s = some (t :: s) := by
  induction t generalizing s with
  | leaf x => rfl
  | unary u t ih =>
      rw [Tree.word, assemble_append, ih]
      rfl
  | binary b l r ihl ihr =>
      rw [Tree.word, assemble_append, assemble_append, ihl]
      rw [Option.bind_some, ihr]
      rfl

/-- The postfix forms of the trees of a stack, from the bottom to the top. -/
def spell : List (Tree L U B) → List (Item L U B)
  | [] => []
  | t :: s => spell s ++ t.word

theorem Item.spell_push {i : Item L U B} {s s' : List (Tree L U B)} (h : i.push s = some s') :
    spell s' = spell s ++ [i] := by
  cases i with
  | leaf x =>
      obtain rfl : Tree.leaf x :: s = s' := Option.some.inj h
      rfl
  | unary u =>
      rcases s with _ | ⟨t, s⟩
      · cases h
      obtain rfl : Tree.unary u t :: s = s' := Option.some.inj h
      simp only [spell, Tree.word, List.append_assoc]
  | binary b =>
      rcases s with _ | ⟨r, _ | ⟨l, s⟩⟩
      · cases h
      · cases h
      obtain rfl : Tree.binary b l r :: s = s' := Option.some.inj h
      simp only [spell, Tree.word, List.append_assoc]

theorem spell_assemble {is : List (Item L U B)} {s s' : List (Tree L U B)}
    (h : assemble is s = some s') : spell s' = spell s ++ is := by
  induction is generalizing s with
  | nil =>
      obtain rfl : s = s' := Option.some.inj h
      exact (List.append_nil _).symm
  | cons i is ih =>
      obtain ⟨s₁, hpush, hrest⟩ := Option.bind_eq_some_iff.mp h
      rw [ih hrest, Item.spell_push hpush, List.append_assoc, List.singleton_append]

/-- **The postfix form is the only word of a tree.** -/
theorem assemble_eq_some_iff {is : List (Item L U B)} {t : Tree L U B} :
    assemble is [] = some [t] ↔ is = t.word := by
  constructor
  · intro h
    have hspell := spell_assemble h
    simpa only [spell, List.nil_append] using hspell.symm
  · rintro rfl
    exact assemble_word t []

/-! ## Leaves, operators and weight -/

/-- The leaf an item is. -/
def Item.leaf? : Item L U B → Option L
  | .leaf x => some x
  | _ => none

/-- The leaves of a word. -/
def leafList (is : List (Item L U B)) : List L := is.filterMap Item.leaf?

@[simp] theorem leafList_append (is js : List (Item L U B)) :
    leafList (is ++ js) = leafList is ++ leafList js :=
  List.filterMap_append

@[simp] theorem leafList_word (t : Tree L U B) : leafList t.word = t.leaves := by
  induction t with
  | leaf x => rfl
  | unary u t ih =>
      rw [Tree.word, leafList_append, ih]
      exact List.append_nil _
  | binary b l r ihl ihr =>
      rw [Tree.word, leafList_append, leafList_append, ihl, ihr]
      exact List.append_nil _

/-- The number of leaves of a word. -/
def leafCount : List (Item L U B) → ℕ
  | [] => 0
  | .leaf _ :: is => leafCount is + 1
  | _ :: is => leafCount is

/-- The number of operators of a word. -/
def opCount : List (Item L U B) → ℕ
  | [] => 0
  | .leaf _ :: is => opCount is
  | _ :: is => opCount is + 1

/-- The leaves that follow each operator, and the binary operators, added up. -/
def weight : List (Item L U B) → ℕ
  | [] => 0
  | .leaf _ :: is => weight is
  | .unary _ :: is => leafCount is + weight is
  | .binary _ :: is => leafCount is + 1 + weight is

@[simp] theorem leafCount_append (is js : List (Item L U B)) :
    leafCount (is ++ js) = leafCount is + leafCount js := by
  induction is with
  | nil => exact (Nat.zero_add _).symm
  | cons i is ih =>
      cases i with
      | leaf x =>
          simp only [List.cons_append, leafCount, ih]
          ring
      | unary u => exact ih
      | binary b => exact ih

@[simp] theorem opCount_append (is js : List (Item L U B)) :
    opCount (is ++ js) = opCount is + opCount js := by
  induction is with
  | nil => exact (Nat.zero_add _).symm
  | cons i is ih =>
      cases i with
      | leaf x => exact ih
      | unary u | binary b =>
          simp only [List.cons_append, opCount, ih]
          ring

@[simp] theorem weight_append (is js : List (Item L U B)) :
    weight (is ++ js) = weight is + weight js + opCount is * leafCount js := by
  induction is with
  | nil => simp only [List.nil_append, weight, opCount, Nat.zero_add, Nat.zero_mul, Nat.add_zero]
  | cons i is ih =>
      cases i <;> simp only [List.cons_append, weight, opCount, leafCount_append, ih] <;> ring

theorem leafCount_word_pos (t : Tree L U B) : 0 < leafCount t.word := by
  induction t with
  | leaf x => exact Nat.one_pos
  | unary u t ih => simpa only [Tree.word, leafCount_append] using Nat.add_pos_left ih _
  | binary b l r ihl ihr =>
      simp only [Tree.word, leafCount_append]
      exact Nat.add_pos_left (Nat.add_pos_left ihl _) _

end Postfix
