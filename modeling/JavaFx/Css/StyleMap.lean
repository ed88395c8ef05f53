import JavaFx.Css.BinaryFormat
import JavaFx.Css.Match
import Mathlib.Data.List.Lex
import Mathlib.Data.Prod.Lex
import Mathlib.Data.List.Pairwise

/-!
# `StyleMap`

The declarations of all selectors are sorted by property and, within a property, by the
cascade; then the sorted list is cut into the lists of the map. The order is that of a tuple of
keys, so that equal properties stand together and the loop that cuts the list ends.
-/

namespace JavaFx.Css

variable {P S V : Type} [Indexed P] [Indexed S]

def StyleOrigin.ordinal : StyleOrigin → ℤ
  | userAgent => 0
  | user => 1
  | author => 2
  | inline => 3

/-- A declaration with the origin of the rule it belongs to, which is null for a rule without a
style sheet. -/
structure StyleDeclaration (V : Type) where
  property : JString
  parsedValue : V
  important : Bool
  origin : Option StyleOrigin

structure CascadingStyle (P S V : Type) [Indexed P] [Indexed S] where
  selector : Selector P S
  declaration : StyleDeclaration V
  pseudoClasses : BitSet P
  specificity : ℕ
  ordinal : ℕ

namespace CascadingStyle

def getProperty (s : CascadingStyle P S V) : JString := s.declaration.property

def skinProp (s : CascadingStyle P S V) : Bool := s.declaration.property = lit "-fx-skin"

/-- Where the origins differ. -/
def compareOrigins : Option StyleOrigin → Option StyleOrigin → ℤ
  | none, _ => -1
  | some _, none => 1
  | some source, some otherSource => otherSource.ordinal - source.ordinal

def compareTo (this other : CascadingStyle P S V) : ℤ :=
  let important := this.declaration.important
  let source := this.declaration.origin
  let otherImportant := other.declaration.important
  let otherSource := other.declaration.origin
  let c : ℤ :=
    if this.skinProp && !other.skinProp then 1
    else if important ≠ otherImportant then (if important then -1 else 1)
    else if source ≠ otherSource then compareOrigins source otherSource
    else (other.specificity : ℤ) - this.specificity
  if c = 0 then (other.ordinal : ℤ) - this.ordinal else c

end CascadingStyle

/-- `compareTo` of strings: the first difference of two code units, or that of the lengths. -/
def JString.compareTo : JString → JString → ℤ
  | [], [] => 0
  | [], b => -(b.length : ℤ)
  | a, [] => a.length
  | x :: a, y :: b => if x = y then JString.compareTo a b else (x.toNat : ℤ) - y.toNat

/-- The entries of the map, in the order in which they are put. -/
abbrev CascadingStyles (P S V : Type) [Indexed P] [Indexed S] :=
  List (JString × List (CascadingStyle P S V))

namespace CascadingStyle

/-- Rules without a style sheet win, then inline styles, those of the author, of the user and of
the user agent. -/
def originRank : Option StyleOrigin → ℤ
  | none => 0
  | some origin => 4 - origin.ordinal

theorem compareOrigins_spec {a b : Option StyleOrigin} (h : a ≠ b) :
    originRank a ≠ originRank b ∧ compareOrigins a b ≠ 0 ∧
      (compareOrigins a b ≤ 0 ↔ originRank a < originRank b) := by
  cases a with
  | none =>
      cases b with
      | none => exact absurd rfl h
      | some b => cases b <;> decide
  | some a =>
      cases b with
      | none => cases a <;> decide
      | some b =>
          revert h
          cases a <;> cases b <;> decide

end CascadingStyle

open CascadingStyle

/-! ## The list of the styles -/

/-- The styles that have been cut off, as the map has them. -/
structure Cut (done : List (CascadingStyle P S V)) (map : CascadingStyles P S V) : Prop where
  all : map.flatMap Prod.snd = done
  nodup : (map.map Prod.fst).Nodup
  under : ∀ e ∈ map, ∀ s ∈ e.2, s.getProperty = e.1
  known : ∀ e ∈ map, ∃ s ∈ done, s.getProperty = e.1
  sublists : ∀ e ∈ map, e.2.Sublist done

theorem lookup_eq_none {map : CascadingStyles P S V} {property : JString}
    (h : ∀ e ∈ map, e.1 ≠ property) : map.lookup property = none := by
  induction map with
  | nil => rfl
  | cons e map ih =>
      have hne : (property == e.1) = false :=
        beq_eq_false_iff_ne.mpr fun he => h e List.mem_cons_self he.symm
      rw [List.lookup_cons, hne]
      exact ih fun e' he' => h e' (List.mem_cons_of_mem _ he')

/-- One more list in the map. -/
theorem Cut.concat {done : List (CascadingStyle P S V)} {map : CascadingStyles P S V}
    (h : Cut done map) {first : CascadingStyle P S V} {run : List (CascadingStyle P S V)}
    (hrun : ∀ s ∈ run, s.getProperty = first.getProperty)
    (hnew : ∀ d ∈ done, d.getProperty ≠ first.getProperty) :
    Cut (done ++ first :: run) (map ++ [(first.getProperty, first :: run)]) := by
  have hmem : ∀ e ∈ map ++ [(first.getProperty, first :: run)],
      e ∈ map ∨ e = (first.getProperty, first :: run) := by
    intro e he
    rcases List.mem_append.mp he with he | he
    · exact Or.inl he
    · exact Or.inr (List.mem_singleton.mp he)
  refine ⟨?_, ?_, ?_, ?_, ?_⟩
  · rw [List.flatMap_append, h.all]
    simp
  · rw [List.map_append, List.nodup_append]
    refine ⟨h.nodup, by simp, ?_⟩
    rintro property hproperty _ hfirst rfl
    obtain ⟨e, he, rfl⟩ := List.mem_map.mp hproperty
    obtain ⟨d, hd, hdp⟩ := h.known e he
    refine hnew d hd (hdp.trans ?_)
    simpa using hfirst
  · intro e he s hs
    rcases hmem e he with he | rfl
    · exact h.under e he s hs
    · rcases List.mem_cons.mp hs with rfl | hs
      · rfl
      · exact hrun s hs
  · intro e he
    rcases hmem e he with he | rfl
    · obtain ⟨d, hd, hdp⟩ := h.known e he
      exact ⟨d, List.mem_append_left _ hd, hdp⟩
    · exact ⟨first, by simp, rfl⟩
  · intro e he
    rcases hmem e he with he | rfl
    · exact (h.sublists e he).trans (List.sublist_append_left _ _)
    · exact List.sublist_append_right _ _

end JavaFx.Css
