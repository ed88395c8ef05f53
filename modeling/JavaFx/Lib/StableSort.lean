import Mathlib.Data.List.Sort
import Mathlib.Tactic

/-!
# Stable sorting by tags

A list whose elements are tagged with their positions is sorted stably when it is sorted by
the elements and, among equal ones, by the tags. There is only one such order, so whatever
sorts the tagged list has moved every element to the same place.
-/

namespace StableSort

variable {α : Type*} {le : α → α → Bool}

/-- The elements with their positions from `lo` on, in the order of a stable sort. -/
def stable (le : α → α → Bool) (lo : ℕ) (xs : List α) : List (α × ℕ) :=
  (xs.zipIdx lo).mergeSort (List.zipIdxLE le)

theorem stable_perm (lo : ℕ) (xs : List α) : (stable le lo xs).Perm (xs.zipIdx lo) :=
  List.mergeSort_perm _ _

@[simp] theorem length_stable (lo : ℕ) (xs : List α) : (stable le lo xs).length = xs.length := by
  rw [(stable_perm lo xs).length_eq, List.length_zipIdx]

theorem zipIdxLE_of_tags {x y : α × ℕ} (h : x.2 ≤ y.2) :
    List.zipIdxLE le x y = le x.1 y.1 := by
  rw [List.zipIdxLE]
  split
  · next hle =>
      rw [hle]
      split
      · exact decide_eq_true h
      · rfl
  · next hle => exact (Bool.not_eq_true _ ▸ hle).symm

theorem le_of_zipIdxLE {x y : α × ℕ} (h : List.zipIdxLE le x y = true) : le x.1 y.1 = true := by
  rw [List.zipIdxLE] at h
  split at h
  · assumption
  · cases h

theorem tags_of_zipIdxLE {x y : α × ℕ} (h : List.zipIdxLE le x y = true)
    (hback : le y.1 x.1 = true) : x.2 ≤ y.2 := by
  rw [List.zipIdxLE, le_of_zipIdxLE h, hback] at h
  exact of_decide_eq_true h

/-- The tags of a sorted list are those of its elements. -/
theorem mem_stable {lo i : ℕ} {x : α} {xs : List α} :
    (x, i) ∈ stable le lo xs ↔ lo ≤ i ∧ xs[i - lo]? = some x := by
  rw [(stable_perm lo xs).mem_iff, List.mk_mem_zipIdx_iff_le_and_getElem?_sub]

theorem tag_mem_stable {lo : ℕ} {xs : List α} {z : α × ℕ} (h : z ∈ stable le lo xs) :
    lo ≤ z.2 ∧ z.2 < lo + xs.length := by
  obtain ⟨hle, hget⟩ := mem_stable.mp h
  obtain ⟨hlt, -⟩ := List.getElem?_eq_some_iff.mp hget
  omega

theorem tags_stable (lo : ℕ) (xs : List α) :
    ((stable le lo xs).map Prod.snd).Perm (List.range' lo xs.length) := by
  have h := (@stable_perm _ le lo xs).map Prod.snd
  rwa [List.zipIdx_map_snd] at h

/-- The same elements further on. -/
theorem stable_shift (lo d : ℕ) (xs : List α) :
    stable le (lo + d) xs = (stable le lo xs).map fun z => (z.1, z.2 + d) := by
  have hshift : xs.zipIdx (lo + d) = (xs.zipIdx lo).map fun z => (z.1, z.2 + d) := by
    apply List.ext_getElem?
    intro k
    rw [List.getElem?_map, List.getElem?_zipIdx, List.getElem?_zipIdx, Option.map_map]
    congr 1
    funext x
    rw [Function.comp_apply, Nat.add_right_comm]
  rw [stable, stable, hshift]
  refine (List.map_mergeSort fun x _ y _ => ?_).symm
  simp only [List.zipIdxLE, Nat.add_le_add_iff_right]

/-- The elements alone are sorted by Lean's stable sort. -/
theorem map_fst_stable (lo : ℕ) (xs : List α) : (stable le lo xs).map Prod.fst = xs.mergeSort le := by
  have hshift := @stable_shift _ le 0 lo xs
  rw [Nat.zero_add] at hshift
  rw [hshift, List.map_map]
  exact List.mergeSort_zipIdx

section Order

variable (htrans : ∀ x y z, le x y = true → le y z = true → le x z = true)
  (htotal : ∀ x y, (le x y || le y x) = true)

include htrans htotal

theorem stable_pairwise (lo : ℕ) (xs : List α) :
    (stable le lo xs).Pairwise fun x y => List.zipIdxLE le x y = true :=
  List.pairwise_mergeSort (List.zipIdxLE_trans htrans) (List.zipIdxLE_total htotal) _

/-- **There is one stable order.** -/
theorem eq_stable {lo : ℕ} {xs : List α} {zs : List (α × ℕ)} (hperm : zs.Perm (xs.zipIdx lo))
    (hsorted : zs.Pairwise fun x y => List.zipIdxLE le x y = true) : zs = stable le lo xs := by
  refine List.Perm.eq_of_pairwise ?_ hsorted (stable_pairwise htrans htotal lo xs)
    (hperm.trans (stable_perm lo xs).symm)
  rintro ⟨x, i⟩ ⟨y, j⟩ hx hy hxy hyx
  -- two entries with one tag are one
  have htags : i = j :=
    le_antisymm (tags_of_zipIdxLE hxy (le_of_zipIdxLE hyx)) (tags_of_zipIdxLE hyx (le_of_zipIdxLE hxy))
  subst htags
  have hx' := List.mk_mem_zipIdx_iff_le_and_getElem?_sub.mp (hperm.mem_iff.mp hx)
  have hy' := (mem_stable.mp hy).2
  rw [hx'.2] at hy'
  rw [Option.some.inj hy']

/-- Two sorted halves merge to the sorted whole. -/
theorem merge_stable (lo : ℕ) (xs ys : List α) :
    List.merge (stable le lo xs) (stable le (lo + xs.length) ys) (List.zipIdxLE le) =
      stable le lo (xs ++ ys) := by
  apply eq_stable htrans htotal
  · refine (List.merge_perm_append (List.zipIdxLE le)).trans ?_
    rw [List.zipIdx_append]
    exact (stable_perm lo xs).append (stable_perm _ ys)
  · exact List.pairwise_merge (List.zipIdxLE_trans htrans) (List.zipIdxLE_total htotal) _ _
      (stable_pairwise htrans htotal lo xs) (stable_pairwise htrans htotal _ ys)

/-- Halves that are in order already only stand one behind the other. -/
theorem append_stable (lo : ℕ) (xs ys : List α) (h : ∀ x ∈ xs, ∀ y ∈ ys, le x y = true) :
    stable le lo xs ++ stable le (lo + xs.length) ys = stable le lo (xs ++ ys) := by
  rw [← merge_stable htrans htotal, List.merge_of_le]
  intro x y hx hy
  have hx' := mem_stable.mp hx
  have hy' := mem_stable.mp hy
  have htag := (tag_mem_stable hx).2
  have hxtag : x.2 ≤ y.2 := by omega
  rw [zipIdxLE_of_tags hxtag]
  exact h _ (List.mem_of_getElem? hx'.2) _ (List.mem_of_getElem? hy'.2)

/-- An ordered list stays as it is. -/
theorem stable_of_sorted (lo : ℕ) {xs : List α} (h : xs.Pairwise fun x y => le x y = true) :
    stable le lo xs = xs.zipIdx lo := by
  refine (eq_stable htrans htotal (List.Perm.refl _) ?_).symm
  rw [List.pairwise_iff_getElem]
  intro i j hi hj hij
  rw [List.getElem_zipIdx, List.getElem_zipIdx]
  rw [zipIdxLE_of_tags (by show lo + i ≤ lo + j; omega)]
  exact List.pairwise_iff_getElem.mp h i j _ _ hij

end Order

end StableSort
