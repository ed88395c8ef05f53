import JavaFx.Collections.VetoableListDecorator

/-!
# Describing a change

The arguments of `onProposedChange` describe a change (`Describes`) when they are
ascending pairs of positions of the top-level list that do not touch, and deleting
these ranges and putting `toBeAdded` at the start of the first one gives the new list.
One range that is replaced is described, and so are elements that are removed one by
one, if no two of them are neighbours.
-/

namespace JavaFx.Collections

variable {α : Type}

/-- The list without the positions, counted from `i`, that are to go. -/
def deleteAt (gone : ℕ → Bool) : ℕ → List α → List α
  | _, [] => []
  | i, a :: l => if gone i = true then deleteAt gone (i + 1) l else a :: deleteAt gone (i + 1) l

/-- The position lies in one of the ranges. -/
def inRanges (pairs : List (ℕ × ℕ)) (i : ℕ) : Bool :=
  pairs.any fun p => decide (p.1 ≤ i) && decide (i < p.2)

/-- The indexes `onProposedChange` gets for some ranges. -/
def indexesOf (pairs : List (ℕ × ℕ)) : List ℤ := pairs.flatMap fun p => [(p.1 : ℤ), (p.2 : ℤ)]

/-- **The arguments of `onProposedChange` describe the change of `l` into `l'`.** -/
def Describes (toBeAdded : List α) (indexes : List ℤ) (l l' : List α) : Prop :=
  ∃ (first : ℕ × ℕ) (rest : List (ℕ × ℕ)), indexes = indexesOf (first :: rest) ∧
    (first :: rest).Pairwise (fun p q => p.2 < q.1) ∧
    (∀ p ∈ first :: rest, p.1 ≤ p.2 ∧ p.2 ≤ l.length) ∧
    (rest ≠ [] → toBeAdded = [] ∧ ∀ p ∈ first :: rest, p.1 < p.2) ∧
    Splice.splice first.1 0 toBeAdded (deleteAt (inRanges (first :: rest)) 0 l) = l'

theorem deleteAt_append (gone : ℕ → Bool) (l m : List α) (i : ℕ) :
    deleteAt gone i (l ++ m) = deleteAt gone i l ++ deleteAt gone (i + l.length) m := by
  induction l generalizing i with
  | nil => rfl
  | cons a l ih =>
      rw [List.cons_append, deleteAt, deleteAt, ih (i + 1), List.length_cons,
        show i + 1 + l.length = i + (l.length + 1) by omega]
      split <;> rfl

theorem deleteAt_keep {gone : ℕ → Bool} {l : List α} {i : ℕ}
    (h : ∀ k, i ≤ k → k < i + l.length → gone k = false) : deleteAt gone i l = l := by
  induction l generalizing i with
  | nil => rfl
  | cons a l ih =>
      have hi : gone i = false := h i (le_refl _) (by rw [List.length_cons]; omega)
      rw [deleteAt, if_neg (by rw [hi]; exact Bool.false_ne_true), ih]
      intro k hk hlt
      apply h k (by omega)
      rw [List.length_cons]
      omega

theorem deleteAt_drop {gone : ℕ → Bool} {l : List α} {i : ℕ}
    (h : ∀ k, i ≤ k → k < i + l.length → gone k = true) : deleteAt gone i l = [] := by
  induction l generalizing i with
  | nil => rfl
  | cons a l ih =>
      have hi : gone i = true := h i (le_refl _) (by rw [List.length_cons]; omega)
      rw [deleteAt, if_pos hi, ih]
      intro k hk hlt
      apply h k (by omega)
      rw [List.length_cons]
      omega

/-- One range that is replaced. -/
theorem describes_splice {l : List α} {a n : ℕ} (h : a + n ≤ l.length) (toBeAdded : List α) :
    Describes toBeAdded [(a : ℤ), ((a + n : ℕ) : ℤ)] l (Splice.splice a n toBeAdded l) := by
  refine ⟨(a, a + n), [], rfl, List.pairwise_singleton _ _, ?_, fun hn => absurd rfl hn, ?_⟩
  · intro p hp
    rw [List.mem_singleton.mp hp]
    exact ⟨Nat.le_add_right _ _, h⟩
  · have hpre : (l.take a).length = a := List.length_take_of_le (by omega)
    have hmid : (Splice.slice a (a + n) l).length = n := by
      rw [Splice.length_slice h]
      omega
    have hdelete : deleteAt (inRanges [(a, a + n)]) 0 l = l.take a ++ ([] ++ l.drop (a + n)) := by
      have hsplit : l = l.take a ++ (Splice.slice a (a + n) l ++ l.drop (a + n)) :=
        Splice.take_slice_drop
      conv_lhs => rw [hsplit]
      rw [deleteAt_append, deleteAt_append, hpre, hmid]
      congr 1
      · apply deleteAt_keep
        intro k _ hk
        simp [inRanges]
        omega
      · congr 1
        · apply deleteAt_drop
          intro k hk hlt
          simp [inRanges]
          omega
        · apply deleteAt_keep
          intro k hk _
          simp [inRanges]
          omega
    rw [hdelete]
    exact Splice.splice_append hpre rfl

/-- Replacing a part of a window. -/
theorem splice_window {l : List α} {lo size i n : ℕ} (hi : i + n ≤ size)
    (hlo : lo + size ≤ l.length) (ins : List α) :
    Splice.splice lo size (Splice.splice i n ins (Splice.slice lo (lo + size) l)) l =
      Splice.splice (lo + i) n ins l := by
  have hlen : (Splice.slice lo (lo + size) l).length = size := by
    rw [Splice.length_slice hlo]
    omega
  have hsplit : l = l.take lo ++ (Splice.slice lo (lo + size) l ++ l.drop (lo + size)) :=
    Splice.take_slice_drop
  generalize hw : Splice.slice lo (lo + size) l = w at hlen hsplit
  have hpre : (l.take lo).length = lo := List.length_take_of_le (by omega)
  have hwsplit : w = w.take i ++ (Splice.slice i (i + n) w ++ w.drop (i + n)) :=
    Splice.take_slice_drop
  have hmid : (Splice.slice i (i + n) w).length = n := by
    rw [Splice.length_slice (by omega)]
    omega
  have hl : l = (l.take lo ++ w.take i) ++
      (Splice.slice i (i + n) w ++ (w.drop (i + n) ++ l.drop (lo + size))) := by
    rw [List.append_assoc, ← List.append_assoc (Splice.slice i (i + n) w),
      ← List.append_assoc (w.take i), ← hwsplit]
    exact hsplit
  have hright : Splice.splice (lo + i) n ins l = (l.take lo ++ w.take i) ++
      (ins ++ (w.drop (i + n) ++ l.drop (lo + size))) := by
    conv_lhs => rw [hl]
    refine Splice.splice_append ?_ hmid
    rw [List.length_append, hpre, List.length_take_of_le (by omega)]
  rw [hright]
  show l.take lo ++ ((w.take i ++ (ins ++ w.drop (i + n))) ++ l.drop (lo + size)) = _
  simp only [List.append_assoc]

/-! ### Removing what a collection contains -/

/-- No two neighbours are to be removed. -/
def NoNeighbours (test : α → Bool) : List α → Prop
  | a :: b :: l => ¬ (test a = true ∧ test b = true) ∧ NoNeighbours test (b :: l)
  | _ => True

/-- `removedAt` for natural numbers. -/
def removedFrom (test : α → Bool) : ℕ → List α → List ℕ
  | _, [] => []
  | i, a :: l => if test a = true then i :: removedFrom test (i + 1) l
      else removedFrom test (i + 1) l

theorem removedAt_eq (test : α → Bool) (w : List α) (i : ℕ) :
    removedAt test w i = (removedFrom test i w).map Nat.cast := by
  induction w generalizing i with
  | nil => rfl
  | cons a w ih =>
      have hstep : ((i : ℤ) + 1) = ((i + 1 : ℕ) : ℤ) := rfl
      rw [removedAt, removedFrom, hstep, ih]
      split <;> rfl

theorem le_of_mem_removedFrom {test : α → Bool} {w : List α} {i n : ℕ}
    (h : n ∈ removedFrom test i w) : i ≤ n ∧ n < i + w.length := by
  induction w generalizing i with
  | nil => cases h
  | cons a w ih =>
      rw [List.length_cons]
      rw [removedFrom] at h
      split at h
      · rcases List.mem_cons.mp h with rfl | h
        · omega
        · have := ih h
          omega
      · have := ih h
        omega

theorem removedFrom_pairwise {test : α → Bool} {w : List α} {i : ℕ} (h : NoNeighbours test w) :
    (removedFrom test i w).Pairwise fun n m => n + 1 < m := by
  induction w generalizing i with
  | nil => exact List.Pairwise.nil
  | cons a w ih =>
      cases w with
      | nil =>
          rw [removedFrom]
          split
          · exact List.pairwise_singleton _ _
          · exact List.Pairwise.nil
      | cons b w =>
          have hrest := ih (i := i + 1) h.2
          rw [removedFrom]
          split
          · next ha =>
              have hb : ¬ test b = true := fun hb => h.1 ⟨ha, hb⟩
              refine List.pairwise_cons.mpr ⟨fun m hm => ?_, hrest⟩
              rw [removedFrom, if_neg hb] at hm
              have := (le_of_mem_removedFrom hm).1
              omega
          · exact hrest

theorem inRanges_unit (ns : List ℕ) (k : ℕ) :
    inRanges (ns.map fun n => (n, n + 1)) k = decide (k ∈ ns) := by
  rw [Bool.eq_iff_iff]
  simp only [inRanges, List.any_map, List.any_eq_true, Function.comp, Bool.and_eq_true,
    decide_eq_true_eq]
  constructor
  · rintro ⟨n, hn, hle, hlt⟩
    have : k = n := by omega
    rw [this]
    exact hn
  · exact fun hk => ⟨k, hk, le_refl _, Nat.lt_succ_self _⟩

theorem deleteAt_congr {gone gone' : ℕ → Bool} {l : List α} {i : ℕ}
    (h : ∀ k, i ≤ k → gone k = gone' k) : deleteAt gone i l = deleteAt gone' i l := by
  induction l generalizing i with
  | nil => rfl
  | cons a l ih =>
      rw [deleteAt, deleteAt, h i (le_refl _), ih fun k hk => h k (by omega)]

theorem deleteAt_removedFrom (test : α → Bool) (w : List α) (i : ℕ) :
    deleteAt (fun k => decide (k ∈ removedFrom test i w)) i w = w.filter fun a => !test a := by
  induction w generalizing i with
  | nil => rfl
  | cons a w ih =>
      have hnot : i ∉ removedFrom test (i + 1) w := fun hm => by
        have := (le_of_mem_removedFrom hm).1
        omega
      by_cases ha : test a = true
      · have hgone : decide (i ∈ removedFrom test i (a :: w)) = true := by
          rw [removedFrom, if_pos ha]
          exact decide_eq_true List.mem_cons_self
        rw [deleteAt, if_pos hgone, List.filter_cons_of_neg (by rw [ha]; exact Bool.false_ne_true),
          ← ih (i + 1)]
        apply deleteAt_congr
        intro k hk
        rw [removedFrom, if_pos ha]
        simp only [List.mem_cons, show ¬ k = i by omega, false_or]
      · have hrem : removedFrom test i (a :: w) = removedFrom test (i + 1) w := by
          rw [removedFrom, if_neg ha]
        rw [hrem, deleteAt, if_neg (by simp only [hnot, decide_false]; exact Bool.false_ne_true),
          List.filter_cons_of_pos (by simp only [ha]; rfl), ih (i + 1)]

/-- The elements of a window that are removed one by one. -/
theorem describes_removed {test : α → Bool} {l : List α} {lo size : ℕ}
    (hlo : lo + size ≤ l.length)
    (hnone : NoNeighbours test (Splice.slice lo (lo + size) l))
    (hne : removedAt test (Splice.slice lo (lo + size) l) lo ≠ []) :
    Describes [] (unitPairs (removedAt test (Splice.slice lo (lo + size) l) lo)) l
      (Splice.splice lo size ((Splice.slice lo (lo + size) l).filter fun a => !test a) l) := by
  have hlen : (Splice.slice lo (lo + size) l).length = size := by
    rw [Splice.length_slice hlo]
    omega
  have hsplit : l = l.take lo ++ (Splice.slice lo (lo + size) l ++ l.drop (lo + size)) :=
    Splice.take_slice_drop
  have hpre : (l.take lo).length = lo := List.length_take_of_le (by omega)
  generalize hw : Splice.slice lo (lo + size) l = w at *
  have hbounds : ∀ n ∈ removedFrom test lo w, lo ≤ n ∧ n + 1 ≤ l.length := by
    intro n hn
    have := le_of_mem_removedFrom hn
    omega
  have hpairs : unitPairs (removedAt test w lo) =
      indexesOf ((removedFrom test lo w).map fun n => (n, n + 1)) := by
    rw [removedAt_eq, unitPairs, indexesOf, List.flatMap_map, List.flatMap_map]
    rfl
  have hdelete : deleteAt (inRanges ((removedFrom test lo w).map fun n => (n, n + 1))) 0 l =
      Splice.splice lo size (w.filter fun a => !test a) l := by
    have hgone : ∀ k, inRanges ((removedFrom test lo w).map fun n => (n, n + 1)) k =
        decide (k ∈ removedFrom test lo w) := inRanges_unit _
    conv_lhs => rw [hsplit]
    rw [deleteAt_append, deleteAt_append, hpre, hlen, Nat.zero_add]
    show _ = l.take lo ++ (_ ++ l.drop (lo + size))
    congr 1
    · apply deleteAt_keep
      intro k _ hk
      rw [hgone, decide_eq_false_iff_not]
      intro hm
      have := (hbounds k hm).1
      omega
    · congr 1
      · rw [← deleteAt_removedFrom test w lo]
        exact deleteAt_congr fun k _ => hgone k
      · apply deleteAt_keep
        intro k hk _
        rw [hgone, decide_eq_false_iff_not]
        intro hm
        have := (le_of_mem_removedFrom hm).2
        omega
  rw [hpairs, ← hdelete]
  have hpw := removedFrom_pairwise (i := lo) hnone
  cases hns : removedFrom test lo w with
  | nil =>
      rw [removedAt_eq, hns] at hne
      exact absurd rfl hne
  | cons n ns =>
      rw [hns] at hbounds hpw
      refine ⟨(n, n + 1), ns.map fun n => (n, n + 1), rfl, ?_, ?_, fun _ => ⟨rfl, ?_⟩, ?_⟩
      · rw [← List.map_cons (f := fun n => (n, n + 1)), List.pairwise_map]
        exact hpw
      · intro p hp
        rw [← List.map_cons (f := fun n => (n, n + 1))] at hp
        obtain ⟨m, hm, rfl⟩ := List.mem_map.mp hp
        exact ⟨Nat.le_succ _, (hbounds m hm).2⟩
      · intro p hp
        rw [← List.map_cons (f := fun n => (n, n + 1))] at hp
        obtain ⟨m, -, rfl⟩ := List.mem_map.mp hp
        exact Nat.lt_succ_self _
      · show List.take n _ ++ ([] ++ List.drop n _) = _
        rw [List.nil_append, List.take_append_drop]
        rfl

end JavaFx.Collections
