import JavaFx.Collections.SortTracking
import JavaFx.Lib.IndexPerm

/-!
# Sorting an array, a list and a part of an array

The sort of a whole array is stable and returns its permutation. The sort of a part is that
of a copy of it, but the permutation is so only if nothing is moved where the auxiliary array
and the record have different positions.
-/

namespace JavaFx.Collections.SortHelper

open Splice StableSort Window

variable {β : Type}

/-! ## The code -/

/-- `sort(a, c)`, and `sort(a)` without a comparator. -/
def sortArray (compareTo : β → β → ℤ) (a : List β) (c : Option (β → β → ℤ)) :
    Except Exn (List β × List ℕ) := do
  let s ← mergeSort (c.getD compareTo) (a.length + 1) ⟨a, a, initPermutation a.length⟩ 0 a.length 0
  return (s.dest, s.ps.permutation)

/-- `i.next(); i.set(a[j]);` for the iterator `i` of a list, at its position `j`. -/
def setNext (a : List β) (list : List β) (j : ℕ) : Except Exn (List β) := do
  let _ ← if j < list.length then Except.ok () else .error .noSuchElement
  let x ← arrayGet a j
  return list.set j x

/-- `sort(list, c)`, and `sort(list)` without a comparator: the list afterwards and the result. -/
def sortList (compareTo : β → β → ℤ) (list : List β) (c : Option (β → β → ℤ)) :
    Except Exn (List β × List ℕ) := do
  let s ← sortArray compareTo list c
  let list ← (List.range s.1.length).foldlM (setNext s.1) list
  return (list, s.2)

/-! ## Whole arrays -/

/-- `new` is `old`, sorted stably, and `p` says where every element has gone. -/
structure StablySorts (c : β → β → ℤ) (old new : List β) (p : List ℕ) : Prop where
  perm : p.Perm (List.range old.length)
  length : new.length = old.length
  moved : ∀ (i : ℕ) (x : β), old[i]? = some x → ∃ k, p[i]? = some k ∧ new[k]? = some x
  sorted : new.Pairwise fun x y => c x y ≤ 0
  stable : ∀ (i j : ℕ) (x y : β), i < j → old[i]? = some x → old[j]? = some y → c x y = 0 →
    ∃ k l, p[i]? = some k ∧ p[j]? = some l ∧ k < l

/-- The permutation of the stable order: the entry at position `k` goes to `lo + k`. -/
def Places (lo : ℕ) (zs : List (Entry β)) (p : List ℕ) : Prop :=
  p.length = zs.length ∧ ∀ k z, zs[k]? = some z → p[z.2]? = some (lo + k)

/-- There is one such permutation. -/
theorem Places.unique {lo : ℕ} {c : β → β → ℤ} {xs : List β} {p q : List ℕ}
    (hp : Places lo (stable (le c) 0 xs) p) (hq : Places lo (stable (le c) 0 xs) q) : p = q := by
  apply List.ext_getElem?
  intro i
  by_cases hi : i < xs.length
  · obtain ⟨k, hk, hki⟩ := List.mem_iff_getElem.mp
      ((@mem_stable _ (le c) 0 i _ _).mpr ⟨Nat.zero_le i, List.getElem?_eq_getElem hi⟩)
    have hz := List.getElem?_eq_getElem hk
    rw [hki] at hz
    exact (hp.2 k _ hz).trans (hq.2 k _ hz).symm
  · rw [List.getElem?_eq_none (by rw [hp.1, length_stable]; omega),
      List.getElem?_eq_none (by rw [hq.1, length_stable]; omega)]

variable {c : β → β → ℤ} (hc : IsComparator c)

include hc in
theorem stablySorts {xs : List β} {p : List ℕ} (hp : Places 0 (stable (le c) 0 xs) p) :
    StablySorts c xs ((stable (le c) 0 xs).map Prod.fst) p := by
  have hplace (i : ℕ) (x : β) (hx : xs[i]? = some x) :
      ∃ k, (stable (le c) 0 xs)[k]? = some (x, i) ∧ p[i]? = some k := by
    obtain ⟨k, hk, hki⟩ := List.mem_iff_getElem.mp
      ((@mem_stable _ (le c) 0 i _ _).mpr ⟨Nat.zero_le i, hx⟩)
    have hz := List.getElem?_eq_getElem hk
    rw [hki] at hz
    have hget := hp.2 k _ hz
    rw [Nat.zero_add] at hget
    exact ⟨k, hz, hget⟩
  have hlength : p.length = xs.length := hp.1.trans (length_stable 0 xs)
  have hpairwise := stable_pairwise (le_trans' hc) (le_total' hc) 0 xs
  refine ⟨?_, ?_, ?_, ?_, ?_⟩
  · rw [← hlength, List.range_eq_range']
    apply IndexPerm.perm_range'_of_nodup
    · rw [List.nodup_iff_getElem?_ne_getElem?]
      intro i j hij hj heq
      have hi := hij.trans hj
      obtain ⟨k, hk, hpk⟩ := hplace i _ (List.getElem?_eq_getElem (hlength ▸ hi))
      obtain ⟨l, hl, hpl⟩ := hplace j _ (List.getElem?_eq_getElem (hlength ▸ hj))
      rw [hpk, hpl] at heq
      rw [Option.some.inj heq, hl] at hk
      have := congrArg Prod.snd (Option.some.inj hk)
      exact absurd this (ne_of_gt hij)
    · intro k hk
      obtain ⟨i, hi, rfl⟩ := List.mem_iff_getElem.mp hk
      obtain ⟨k, hz, hpk⟩ := hplace i _ (List.getElem?_eq_getElem (hlength ▸ hi))
      rw [List.getElem?_eq_getElem hi] at hpk
      have hlt := (List.getElem?_eq_some_iff.mp hz).1
      rw [length_stable] at hlt
      rw [Option.some.inj hpk]
      omega
  · rw [List.length_map, length_stable]
  · intro i x hx
    obtain ⟨k, hz, hk⟩ := hplace i x hx
    exact ⟨k, hk, by rw [List.getElem?_map, hz]; rfl⟩
  · rw [List.pairwise_map]
    exact hpairwise.imp fun h => le_iff.mp (le_of_zipIdxLE h)
  · intro i j x y hij hx hy hxy
    obtain ⟨k, hk, hpk⟩ := hplace i x hx
    obtain ⟨l, hl, hpl⟩ := hplace j y hy
    refine ⟨k, l, hpk, hpl, ?_⟩
    by_contra hlk
    rcases Nat.eq_or_lt_of_le (not_lt.mp hlk) with rfl | hlt
    · rw [hk] at hl
      have := congrArg Prod.snd (Option.some.inj hl)
      exact absurd this (ne_of_lt hij)
    · obtain ⟨hll, hly⟩ := List.getElem?_eq_some_iff.mp hl
      obtain ⟨hkl, hkx⟩ := List.getElem?_eq_some_iff.mp hk
      have hordered := List.pairwise_iff_getElem.mp hpairwise l k hll hkl hlt
      rw [hly, hkx] at hordered
      have := tags_of_zipIdxLE hordered (le_iff.mpr hxy.le)
      exact absurd this (not_le.mpr hij)

/-- The record of a range of which nothing has been moved. -/
theorem unsorted_start (a : List β) {lo hi : ℕ} (hle : lo ≤ hi) (hhi : hi ≤ a.length) :
    Unsorted 0 lo lo (slice lo hi a) ⟨slice lo hi a, a, initPermutation a.length⟩ := by
  obtain ⟨n, rfl⟩ := Nat.exists_eq_add_of_le hle
  have hlength : (slice lo (lo + n) a).length = n := by
    rw [length_slice hhi, Nat.add_sub_cancel_left]
  have hrange (k : ℕ) (hk : k < n) : (List.range a.length)[lo + k]? = some (lo + k) :=
    List.getElem?_range (by omega)
  refine ⟨stands_slice hhi, ?_, ⟨?_, ?_⟩, ?_, ?_, ?_, ?_⟩
  · intro k y hy
    rwa [Nat.zero_add]
  · intro k i hi
    have hk := (List.getElem?_eq_some_iff.mp hi).1
    rw [List.length_map, List.length_zipIdx, hlength] at hk
    rw [List.getElem?_map, List.getElem?_zipIdx, Option.map_map] at hi
    obtain ⟨x, -, hx⟩ := Option.map_eq_some_iff.mp hi
    rw [← hx]
    exact hrange k hk
  · intro k z hz
    have hk := (List.getElem?_eq_some_iff.mp hz).1
    rw [List.length_zipIdx, hlength] at hk
    rw [List.getElem?_zipIdx] at hz
    obtain ⟨x, -, rfl⟩ := Option.map_eq_some_iff.mp hz
    exact hrange k hk
  · rw [hlength]
    exact hhi
  · exact (Nat.zero_add _).le
  · rw [hlength, initPermutation, List.length_range]
    exact hhi
  · rw [hlength, initPermutation, List.length_range]
    exact hhi

/-- What a sorted range leaves of the record. -/
theorem Sorted.places {slow lo : ℕ} {xs : List β} {a a' : Arrays β}
    (h : Sorted c slow lo lo xs a a') (hle : lo + xs.length ≤ a'.ps.permutation.length) :
    Places lo (stable (le c) 0 xs) (slice lo (lo + xs.length) a'.ps.permutation) := by
  constructor
  · rw [length_slice hle, Nat.add_sub_cancel_left, length_stable]
  · intro k z hz
    have htag := (tag_mem_stable (List.mem_of_getElem? hz)).2
    have hshift := @stable_shift _ (le c) 0 lo xs
    rw [Nat.zero_add] at hshift
    have hforward := h.tracked.forward k (z.1, z.2 + lo) (by rw [hshift, List.getElem?_map, hz]; rfl)
    rw [getElem?_slice (by omega), Nat.add_comm lo]
    exact hforward

include hc in
theorem sortArray_eq (compareTo : β → β → ℤ) (a : List β) (comparator : Option (β → β → ℤ))
    (hcomparator : comparator.getD compareTo = c) :
    ∃ p, sortArray compareTo a comparator = .ok ((stable (le c) 0 a).map Prod.fst, p) ∧
      Places 0 (stable (le c) 0 a) p := by
  have hslice : slice 0 a.length a = a := by
    rw [slice, List.drop_zero, Nat.sub_zero, List.take_length]
  have hstart := unsorted_start a (Nat.zero_le _) (le_refl a.length)
  rw [hslice] at hstart
  have hrecorded : Recorded c 0 0 0 true a := Or.inl ⟨rfl, rfl⟩
  obtain ⟨a', hsort, hsorted⟩ := mergeSort_spec hc (a.length + 1) 0 (Nat.lt_succ_self _) hstart rfl
    hrecorded
  have hlength : a'.dest.length = a.length := hsorted.destKept.length
  have hplength : a'.ps.permutation.length = a.length :=
    hsorted.recordKept.permutation.length.trans List.length_range
  have hdest : a'.dest = (stable (le c) 0 a).map Prod.fst := by
    have hwhole := hsorted.dest.slice_eq (n := a.length) (by rw [List.length_map, length_stable])
      (by rw [hlength, Nat.zero_add])
    rw [← hwhole, slice, List.drop_zero, Nat.zero_add, Nat.sub_zero, ← hlength, List.take_length]
  refine ⟨a'.ps.permutation, ?_, ?_⟩
  · rw [sortArray, hcomparator]
    rw [Nat.zero_add] at hsort
    rw [hsort, except_ok_bind, hdest]
    rfl
  · have hplaces := hsorted.places (by rw [hplength, Nat.zero_add])
    rwa [slice, List.drop_zero, Nat.zero_add, Nat.sub_zero, ← hplength, List.take_length] at hplaces

/-- The loop over the iterator replaces all elements. -/
theorem setNext_all {a : List β} (n : ℕ) {list : List β} (hlist : list.length = a.length)
    (hn : n ≤ a.length) :
    (List.range n).foldlM (setNext a) list = .ok (a.take n ++ list.drop n) := by
  induction n with
  | zero => rfl
  | succ n ih =>
      have hlt : n < a.length := hn
      have hfits : n < (a.take n ++ list.drop n).length := by
        rw [List.length_append, List.length_take, List.length_drop]
        omega
      rw [List.range_succ, List.foldlM_append, ih (le_of_lt hlt), except_ok_bind, List.foldlM_cons,
        setNext, if_pos hfits, except_ok_bind, arrayGet_of_lt hlt, except_ok_bind]
      show Except.ok _ = Except.ok _
      have htake : (a.take n).length = n := by
        rw [List.length_take]
        omega
      rw [List.set_append_right _ _ htake.le, htake, Nat.sub_self,
        List.drop_eq_getElem_cons (hlist.symm ▸ hlt), List.set_cons_zero,
        List.take_succ_eq_append_getElem hlt, List.append_assoc, List.singleton_append]

/-- **The sort of a whole array or list** is stable, and the result is the permutation that was
carried out. -/
theorem sort_stable (compareTo : β → β → ℤ) (a : List β) (comparator : Option (β → β → ℤ))
    (hcomparator : IsComparator (comparator.getD compareTo)) :
    ∃ new p, sortArray compareTo a comparator = .ok (new, p) ∧
      sortList compareTo a comparator = .ok (new, p) ∧
      StablySorts (comparator.getD compareTo) a new p := by
  obtain ⟨p, hsort, hp⟩ := sortArray_eq hcomparator compareTo a comparator rfl
  refine ⟨_, p, hsort, ?_, stablySorts hcomparator hp⟩
  have hlength : a.length = ((stable (le (comparator.getD compareTo)) 0 a).map Prod.fst).length := by
    rw [List.length_map, length_stable]
  rw [sortList, hsort, except_ok_bind, setNext_all _ hlength (le_refl _), except_ok_bind,
    List.take_length, ← hlength, List.drop_length, List.append_nil]
  rfl

/-- Numbers, compared by `Integer.compareTo`. -/
def byValue (x y : ℤ) : ℤ := if x < y then -1 else if x = y then 0 else 1

theorem isComparator_byValue : IsComparator byValue := by
  constructor
  · intro x y
    unfold byValue
    split_ifs <;> omega
  · intro x y z
    unfold byValue
    split_ifs <;> omega

theorem sort_stable_threeTwoOne : ∃ new p, sortArray byValue [3, 2, 1] none = .ok (new, p) ∧
    sortList byValue [3, 2, 1] none = .ok (new, p) ∧ StablySorts byValue [3, 2, 1] new p :=
  sort_stable byValue [3, 2, 1] none isComparator_byValue

/-! ## Parts of arrays -/

/-- The sort of a part does what the sort of a copy of it does, and returns the positions of the
whole array. -/
def PartAsCopy (c : β → β → ℤ) (a : List β) (fromIndex toIndex : ℕ) : Prop :=
  ∃ new q, sortArray c (slice fromIndex toIndex a) (some c) = .ok (new, q) ∧
    StablySorts c (slice fromIndex toIndex a) new q ∧
    sort a fromIndex toIndex c = .ok (splice fromIndex (toIndex - fromIndex) new a,
      q.map (fromIndex + ·))

/-- The part begins with the array, or nothing of it is moved in the auxiliary array or by a merge.
A part of less than seven elements never is. -/
def PartRecorded (c : β → β → ℤ) (a : List β) (fromIndex toIndex : ℕ) : Prop :=
  fromIndex = 0 ∨ Unmoved c true (slice fromIndex toIndex a)

/-- **The sort of a part of an array** is that of a copy if the part begins with the array or nothing
is moved where the auxiliary array and the record have different positions. -/
theorem partAsCopy_of_recorded (a : List β) {fromIndex toIndex : ℕ} (c : β → β → ℤ)
    (hc : IsComparator c) (hfrom : fromIndex ≤ toIndex) (hto : toIndex ≤ a.length)
    (hrecorded : PartRecorded c a fromIndex toIndex) : PartAsCopy c a fromIndex toIndex := by
  have hlength : (slice fromIndex toIndex a).length = toIndex - fromIndex := length_slice hto
  obtain ⟨q, hcopy, hq⟩ := sortArray_eq hc c (slice fromIndex toIndex a) (some c) rfl
  refine ⟨_, q, hcopy, stablySorts hc hq, ?_⟩
  have haligned : Recorded c 0 fromIndex fromIndex true (slice fromIndex toIndex a) := by
    rcases hrecorded with rfl | hunmoved
    · exact Or.inl ⟨rfl, rfl⟩
    · exact Or.inr ⟨hunmoved, rfl⟩
  obtain ⟨a', hsort, hsorted⟩ := mergeSort_spec hc (toIndex - fromIndex + 1) (-fromIndex)
    (by rw [hlength]; exact Nat.lt_succ_self _) (unsorted_start a hfrom hto) (by omega) haligned
  have hcheck : rangeCheck a.length fromIndex toIndex = .ok () := by
    rw [rangeCheck, if_neg (not_lt.mpr hfrom), if_neg (not_lt.mpr hto)]
  have hend : fromIndex + (slice fromIndex toIndex a).length = toIndex := by omega
  have hplength : a'.ps.permutation.length = a.length :=
    hsorted.recordKept.permutation.length.trans List.length_range
  have hplaces := hsorted.places (by rw [hend, hplength]; exact hto)
  have hdest : a'.dest = splice fromIndex (toIndex - fromIndex)
      ((stable (le c) 0 (slice fromIndex toIndex a)).map Prod.fst) a := by
    have heq := hsorted.destKept.eq_splice (by rw [hend]; exact hto)
      (by rw [List.length_map, length_stable]) hsorted.dest
    rw [hlength, map_fst_stable] at heq
    rw [map_fst_stable]
    exact heq
  have hshifted : Places fromIndex (stable (le c) 0 (slice fromIndex toIndex a))
      (q.map (fromIndex + ·)) := by
    constructor
    · rw [List.length_map, hq.1]
    · intro k z hz
      rw [List.getElem?_map, hq.2 k z hz, Option.map_some, Nat.zero_add]
  have hresult := hplaces.unique hshifted
  rw [hend] at hsort hresult
  rw [sort, hcheck, except_ok_bind, hsort, except_ok_bind, hdest, hresult]
  rfl

theorem partAsCopy_fourOneTwo : PartAsCopy byValue [9, 4, 1, 2] 1 4 :=
  partAsCopy_of_recorded [9, 4, 1, 2] byValue isComparator_byValue (by decide) (by decide)
    (Or.inr (.inPlace (by decide)))

/-- From position 1 on the permutation of `[1, 2, 3, 4, 5, 7, 6]` is not that of a copy. -/
theorem part_permutation_wrong :
    sort [0, 1, 2, 3, 4, 5, 7, 6] 1 8 byValue =
        .ok ([0, 1, 2, 3, 4, 5, 6, 7], [1, 2, 3, 4, 6, 5, 7]) ∧
      sortArray byValue [1, 2, 3, 4, 5, 7, 6] (some byValue) =
        .ok ([1, 2, 3, 4, 5, 6, 7], [0, 1, 2, 3, 4, 6, 5]) ∧
      ¬ PartAsCopy byValue [0, 1, 2, 3, 4, 5, 7, 6] 1 8 := by
  have hpart : sort [0, 1, 2, 3, 4, 5, 7, 6] 1 8 byValue =
      .ok ([0, 1, 2, 3, 4, 5, 6, 7], [1, 2, 3, 4, 6, 5, 7]) := by decide +kernel
  have hcopy : sortArray byValue [1, 2, 3, 4, 5, 7, 6] (some byValue) =
      .ok ([1, 2, 3, 4, 5, 6, 7], [0, 1, 2, 3, 4, 6, 5]) := by decide +kernel
  refine ⟨hpart, hcopy, ?_⟩
  rintro ⟨new, q, hq, -, heq⟩
  rw [show slice 1 8 [0, 1, 2, 3, 4, 5, 7, 6] = ([1, 2, 3, 4, 5, 7, 6] : List ℤ) from rfl, hcopy] at hq
  cases hq
  rw [hpart] at heq
  exact absurd (congrArg Prod.snd (Except.ok.inj heq)) (by decide)

end JavaFx.Collections.SortHelper
