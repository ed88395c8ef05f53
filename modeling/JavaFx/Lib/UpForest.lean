import Mathlib.Data.Fintype.Card
import Mathlib.Logic.Relation
import Mathlib.Logic.Function.Basic
import Mathlib.Tactic

/-!
# Forests given by their upward links

`up n` is the node that `n` hangs under. `Above up n a` says that a walk from `n` along
the links meets `a`. New links to a node that has no cycle above it make none. In a finite
forest the walks are shorter than the number of nodes: `depth` falls on the way up and
`height` on the way down.
-/

namespace UpForest

variable {ν : Type} {up up' : ν → Option ν} {n m p a b : ν}

/-- `a` is `n` or one of the nodes above it. -/
def Above (up : ν → Option ν) (n a : ν) : Prop :=
  Relation.ReflTransGen (fun x y => up x = some y) n a

/-- No node lies above itself. -/
def Acyclic (up : ν → Option ν) : Prop := ∀ n p, up n = some p → ¬ Above up p n

theorem Above.refl (up : ν → Option ν) (n : ν) : Above up n n := Relation.ReflTransGen.refl

theorem Above.trans (h : Above up n m) (h' : Above up m a) : Above up n a :=
  Relation.ReflTransGen.trans h h'

theorem Above.head (h : up n = some p) (h' : Above up p a) : Above up n a :=
  Relation.ReflTransGen.head h h'

theorem Above.single (h : up n = some p) : Above up n p := Above.head h (Above.refl up p)

theorem above_iff : Above up n a ↔ n = a ∨ ∃ p, up n = some p ∧ Above up p a := by
  constructor
  · intro h
    rcases Relation.ReflTransGen.cases_head h with h | ⟨p, hp, h⟩
    · exact Or.inl h
    · exact Or.inr ⟨p, hp, h⟩
  · rintro (rfl | ⟨p, hp, h⟩)
    · exact Above.refl up n
    · exact Above.head hp h

theorem above_of_none (h : up n = none) : Above up n a ↔ n = a := by
  rw [above_iff, h]
  simp

theorem above_of_some (h : up n = some p) : Above up n a ↔ n = a ∨ Above up p a := by
  rw [above_iff, h]
  simp

/-- Induction along a walk, from its upper end. -/
@[elab_as_elim]
theorem Above.induct {motive : (x : ν) → Above up x a → Prop}
    (top : motive a (Above.refl up a))
    (next : ∀ x y (hxy : up x = some y) (hya : Above up y a), motive y hya →
      motive x (Above.head hxy hya))
    {n : ν} (h : Above up n a) : motive n h :=
  Relation.ReflTransGen.head_induction_on h top fun hxy hya ih => next _ _ hxy hya ih

theorem Acyclic.ne (h : Acyclic up) (hp : up n = some p) : p ≠ n := by
  rintro rfl
  exact h p p hp (Above.refl up p)

/-! ## Links to one node -/

/-- A walk from a node on a cycle comes back to it. -/
theorem Above.back (hq : up n = some p) (hcycle : Above up p n) (h : Above up p m) :
    Above up m n := by
  induction h with
  | refl => exact hcycle
  | tail _ hstep ih =>
      rcases above_iff.mp ih with rfl | ⟨y, hy, hyn⟩
      · rw [hq, Option.some_inj] at hstep
        exact hstep ▸ hcycle
      · rw [hy, Option.some_inj] at hstep
        exact hstep ▸ hyn

/-- **New links to one node make no cycle** when there is none above that node. -/
theorem Acyclic.relinked (h : Acyclic up) (hnew : ∀ x y, up' x = some y → y ≠ p → up x = some y)
    (hfree : ∀ n q, Above up' p n → up' n = some q → ¬ Above up' q n) : Acyclic up' := by
  intro n q hq hcycle
  by_cases hp : Above up' q p
  · exact hfree n q (Above.back hq hcycle hp) hq hcycle
  · -- the cycle does not meet the node, so its links are old
    have hold : ∀ x, Above up' x n → Above up' q x → Above up x n := by
      intro x hx
      induction hx using Above.induct with
      | top => exact fun _ => Above.refl up n
      | next x y hxy _ ih =>
          intro hqx
          have hqy : Above up' q y := hqx.trans (Above.single hxy)
          have hne : y ≠ p := fun he => hp (he ▸ hqy)
          exact Above.head (hnew x y hxy hne) (ih hqy)
    have hne : q ≠ p := fun he => hp (he ▸ Above.refl up' q)
    exact h n q (hnew n q hq hne) (hold q hcycle (Above.refl up' q))

/-! ## Finite forests -/

section Finite

variable [Fintype ν]

open Classical in
/-- The number of nodes above `n`. -/
noncomputable def depth (up : ν → Option ν) (n : ν) : ℕ :=
  (Finset.univ.filter fun a => Above up n a ∧ a ≠ n).card

open Classical in
/-- The number of nodes below `n`. -/
noncomputable def height (up : ν → Option ν) (n : ν) : ℕ :=
  (Finset.univ.filter fun a => Above up a n ∧ a ≠ n).card

theorem depth_lt_card (up : ν → Option ν) (n : ν) : depth up n < Fintype.card ν := by
  classical
  refine Finset.card_lt_univ_of_notMem (x := n) ?_
  simp

theorem height_lt_card (up : ν → Option ν) (n : ν) : height up n < Fintype.card ν := by
  classical
  refine Finset.card_lt_univ_of_notMem (x := n) ?_
  simp

theorem Acyclic.depth_lt (h : Acyclic up) (hp : up n = some p) : depth up p < depth up n := by
  classical
  refine Finset.card_lt_card ((Finset.ssubset_iff_of_subset ?_).mpr ⟨p, ?_, ?_⟩)
  · intro a ha
    rw [Finset.mem_filter] at ha ⊢
    refine ⟨ha.1, Above.head hp ha.2.1, ?_⟩
    rintro rfl
    exact h a p hp ha.2.1
  · rw [Finset.mem_filter]
    exact ⟨Finset.mem_univ _, Above.single hp, h.ne hp⟩
  · simp

theorem Acyclic.height_lt (h : Acyclic up) (hp : up n = some p) : height up n < height up p := by
  classical
  refine Finset.card_lt_card ((Finset.ssubset_iff_of_subset ?_).mpr ⟨n, ?_, ?_⟩)
  · intro a ha
    rw [Finset.mem_filter] at ha ⊢
    refine ⟨ha.1, ha.2.1.trans (Above.single hp), ?_⟩
    rintro rfl
    exact h n a hp ha.2.1
  · rw [Finset.mem_filter]
    exact ⟨Finset.mem_univ _, Above.single hp, (h.ne hp).symm⟩
  · simp

end Finite

end UpForest
