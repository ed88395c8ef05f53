import Mathlib.Data.List.Sort

/-!
# Sets of numbers as ascending lists

A finite set of natural numbers, kept as the list of its members in ascending order: the
order in which a bit set is walked. Two of them with the same members are equal.
-/

/-- A finite set of natural numbers. -/
structure Ascending where
  toList : List ℕ
  ascending : toList.Pairwise (· < ·)
deriving DecidableEq

namespace Ascending

instance : Membership ℕ Ascending where
  mem s i := i ∈ s.toList

instance (i : ℕ) (s : Ascending) : Decidable (i ∈ s) := inferInstanceAs (Decidable (i ∈ s.toList))

theorem mem_toList {i : ℕ} {s : Ascending} : i ∈ s.toList ↔ i ∈ s := Iff.rfl

@[ext] theorem ext {s t : Ascending} (h : ∀ i, i ∈ s ↔ i ∈ t) : s = t := by
  obtain ⟨l, hl⟩ := s
  obtain ⟨m, hm⟩ := t
  have : l = m := hl.eq_of_mem_iff hm fun i => h i
  subst this
  rfl

theorem nodup (s : Ascending) : s.toList.Nodup := s.ascending.imp fun h => ne_of_lt h

/-- The set without members. -/
def empty : Ascending := ⟨[], .nil⟩

@[simp] theorem not_mem_empty (i : ℕ) : i ∉ empty := List.not_mem_nil

theorem eq_empty_iff {s : Ascending} : s = empty ↔ ∀ i, i ∉ s := by
  constructor
  · rintro rfl
    exact not_mem_empty
  · intro h
    ext i
    simp [h i]

theorem toList_eq_nil_iff {s : Ascending} : s.toList = [] ↔ s = empty := by
  constructor
  · intro h
    rw [eq_empty_iff]
    intro i hi
    rw [← mem_toList, h] at hi
    cases hi
  · rintro rfl
    rfl

/-- The numbers below `n`. -/
def below (n : ℕ) : Ascending := ⟨List.range n, List.pairwise_lt_range⟩

@[simp] theorem mem_below {i n : ℕ} : i ∈ below n ↔ i < n := List.mem_range

/-- Without a number. -/
def erase (i : ℕ) (s : Ascending) : Ascending := ⟨s.toList.filter (· ≠ i), s.ascending.filter _⟩

@[simp] theorem mem_erase {i j : ℕ} {s : Ascending} : j ∈ erase i s ↔ j ∈ s ∧ j ≠ i := by
  rw [← mem_toList, erase, List.mem_filter, mem_toList]
  simp

/-- The members before a number, the number, and the members behind it. -/
def insert (i : ℕ) (s : Ascending) : Ascending where
  toList := s.toList.filter (· < i) ++ i :: s.toList.filter (i < ·)
  ascending := by
    rw [List.pairwise_append, List.pairwise_cons]
    refine ⟨s.ascending.filter _, ⟨?_, s.ascending.filter _⟩, ?_⟩
    · intro j hj
      simpa using (List.mem_filter.mp hj).2
    · intro j hj k hk
      have hji : j < i := by simpa using (List.mem_filter.mp hj).2
      rcases List.mem_cons.mp hk with rfl | hk
      · exact hji
      · have hik : i < k := by simpa using (List.mem_filter.mp hk).2
        exact hji.trans hik

@[simp] theorem mem_insert {i j : ℕ} {s : Ascending} : j ∈ insert i s ↔ j = i ∨ j ∈ s := by
  rw [← mem_toList, insert, List.mem_append, List.mem_cons, List.mem_filter, List.mem_filter,
    mem_toList]
  simp only [decide_eq_true_eq]
  constructor
  · rintro (⟨h, -⟩ | h | ⟨h, -⟩)
    · exact Or.inr h
    · exact Or.inl h
    · exact Or.inr h
  · rintro (rfl | h)
    · exact Or.inr (Or.inl rfl)
    · rcases Nat.lt_trichotomy j i with hlt | rfl | hgt
      · exact Or.inl ⟨h, hlt⟩
      · exact Or.inr (Or.inl rfl)
      · exact Or.inr (Or.inr ⟨h, hgt⟩)

/-- Around a number that is not a member the list is cut in two. -/
theorem toList_split {i : ℕ} {s : Ascending} (h : i ∉ s) :
    s.toList = s.toList.filter (· < i) ++ s.toList.filter (i < ·) := by
  refine s.ascending.eq_of_mem_iff ?_ ?_
  · rw [List.pairwise_append]
    refine ⟨s.ascending.filter _, s.ascending.filter _, ?_⟩
    intro j hj k hk
    have hji : j < i := by simpa using (List.mem_filter.mp hj).2
    have hik : i < k := by simpa using (List.mem_filter.mp hk).2
    exact hji.trans hik
  · intro j
    rw [List.mem_append, List.mem_filter, List.mem_filter]
    simp only [decide_eq_true_eq]
    constructor
    · intro hj
      rcases Nat.lt_trichotomy j i with hlt | rfl | hgt
      · exact Or.inl ⟨hj, hlt⟩
      · exact absurd hj h
      · exact Or.inr ⟨hj, hgt⟩
    · rintro (⟨hj, -⟩ | ⟨hj, -⟩)
      · exact hj
      · exact hj

theorem length_insert {i : ℕ} {s : Ascending} (h : i ∉ s) :
    (insert i s).toList.length = s.toList.length + 1 := by
  have := congrArg List.length (toList_split h)
  rw [List.length_append] at this
  simp only [insert, List.length_append, List.length_cons]
  omega

/-- A subset is the end of the list when all that is left out is below it. -/
theorem drop_eq_iff {s t : Ascending} (hsub : ∀ i ∈ s, i ∈ t) {n : ℕ}
    (hn : n + s.toList.length = t.toList.length) :
    t.toList.drop n = s.toList ↔ ∀ i ∈ t, i ∉ s → ∀ j ∈ s, i < j := by
  constructor
  · intro hdrop i hi hnot j hj
    have hcut := List.take_append_drop n t.toList
    have hasc := t.ascending
    rw [← hcut, List.pairwise_append] at hasc
    have hi' : i ∈ t.toList.take n := by
      rw [← mem_toList, ← hcut, List.mem_append, hdrop] at hi
      exact hi.resolve_right hnot
    exact hasc.2.2 i hi' j (by rw [hdrop]; exact hj)
  · intro hbelow
    have hsplit : t.toList = t.toList.filter (· ∉ s) ++ s.toList := by
      refine t.ascending.eq_of_mem_iff ?_ ?_
      · rw [List.pairwise_append]
        refine ⟨t.ascending.filter _, s.ascending, ?_⟩
        intro i hi j hj
        rw [List.mem_filter, decide_eq_true_eq] at hi
        exact hbelow i hi.1 hi.2 j hj
      · intro i
        rw [List.mem_append, List.mem_filter, decide_eq_true_eq]
        constructor
        · intro hi
          by_cases hs : i ∈ s
          · exact Or.inr hs
          · exact Or.inl ⟨hi, hs⟩
        · rintro (⟨hi, -⟩ | hi)
          · exact hi
          · exact hsub i hi
    have hlength := congrArg List.length hsplit
    rw [List.length_append] at hlength
    have hfront : n = (t.toList.filter (· ∉ s)).length := by omega
    rw [hsplit, hfront, List.drop_left]

end Ascending
