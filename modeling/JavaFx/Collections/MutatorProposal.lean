import JavaFx.Collections.ChangeDescription
import JavaFx.Collections.ObservableListWrapper

/-!
# What a decorated mutator proposes

A mutator of a `VetoableListDecorator` proposes the elements it is going to add, and pairs of
indexes for those it is going to remove. With indexes of the list, the proposal names exactly
the elements that go and come.
-/

namespace JavaFx.Collections

variable {α : Type}

/-- The indexes between the two of each pair. -/
def indexRanges : List ℤ → List ℤ
  | from_ :: to_ :: rest =>
      (List.range (to_ - from_).toNat).map (fun k : ℕ => from_ + k) ++ indexRanges rest
  | _ => []

/-- The change a mutator of the decorator proposes; a removal of nothing proposes none. -/
def ListMutator.proposal [BEq α] (l : List α) : ListMutator α → Option (List α × List ℤ)
  | .add e => some ([e], [l.length, l.length])
  | .addAt index e => some ([e], [index, index])
  | .addAll c => some (c, [l.length, l.length])
  | .addAllAt index c => some (c, [index, index])
  | .set index e => some ([e], [index, index + 1])
  | .setAll c => some (c, [0, l.length])
  | .remove o =>
      if indexOf l o ≠ -1 then some ([], [indexOf l o, indexOf l o + 1]) else none
  | .removeAt index => some ([], [index, index + 1])
  | .removeRange fromIndex toIndex => some ([], [fromIndex, toIndex])
  | .removeAll contains => removals contains false
  | .retainAll contains => removals contains true
  | .clear => some ([], [0, l.length])
where
  removals (contains : α → Bool) (complement : Bool) : Option (List α × List ℤ) :=
    match removeFromList l 0 contains complement with
    | .ok p => p
    | .error _ => none

/-! ## The indexes of the elements that go -/

theorem indexRanges_pair (from_ to_ : ℤ) :
    indexRanges [from_, to_] =
      (List.range (to_ - from_).toNat).map fun k : ℕ => from_ + k :=
  List.append_nil _

theorem indexRanges_self (i : ℤ) : indexRanges [i, i] = [] := by
  rw [indexRanges_pair, Int.sub_self]
  rfl

theorem indexRanges_single (i : ℤ) : indexRanges [i, i + 1] = [i] := by
  rw [indexRanges_pair, add_sub_cancel_left]
  show [i + ((0 : ℕ) : ℤ)] = [i]
  rw [Nat.cast_zero, Int.add_zero]

/-- A range that is not empty begins with its first index. -/
theorem indexRanges_succ {from_ to_ : ℤ} {n : ℕ} (h : (to_ - from_).toNat = n + 1) :
    indexRanges [from_, to_] =
      from_ :: (List.range n).map fun k : ℕ => from_ + ((k + 1 : ℕ) : ℤ) := by
  rw [indexRanges_pair, h, List.range_succ_eq_map, List.map_cons, List.map_map,
    Nat.cast_zero, Int.add_zero]
  rfl

theorem indexRanges_unitPairs (positions : List ℤ) :
    indexRanges (unitPairs positions) = positions := by
  induction positions with
  | nil => rfl
  | cons i positions ih =>
      show indexRanges (i :: (i + 1) :: unitPairs positions) = i :: positions
      rw [indexRanges, ih, ← indexRanges_pair, indexRanges_single]
      rfl

theorem elementAt_natCast (l : List α) (k : ℕ) : elementAt l k = listGet l k := by
  rw [elementAt, if_pos (Int.natCast_nonneg k), Int.toNat_natCast]

/-- The indexes of a range are those of its elements. -/
theorem elements_range (l : List α) (lo hi : ℕ) (h : hi ≤ l.length) :
    (indexRanges [lo, hi]).map (elementAt l) = (Splice.slice lo hi l).map .ok := by
  have hcount : ((hi : ℤ) - lo).toNat = hi - lo := by omega
  rw [indexRanges_pair, hcount]
  refine List.ext_getElem? fun k => ?_
  by_cases hk : k < hi - lo
  · have hget : l[lo + k]? = some l[lo + k] := List.getElem?_eq_getElem (by omega)
    rw [List.getElem?_map, List.getElem?_map, List.getElem?_range hk, List.getElem?_map,
      Splice.getElem?_slice hk, hget]
    show some (elementAt l ((lo : ℤ) + k)) = _
    rw [← Nat.cast_add, elementAt_natCast, listGet, hget]
    rfl
  · have hslice : (Splice.slice lo hi l).length = hi - lo := Splice.length_slice h
    rw [List.getElem?_eq_none, List.getElem?_eq_none]
    · rw [List.length_map, hslice]
      omega
    · rw [List.length_map, List.length_map, List.length_range]
      omega

/-- `removedAt` gives the indexes of what the test finds. -/
theorem elements_removedAt (test : α → Bool) (l : List α) :
    (removedAt test l 0).map (elementAt l) = (l.filter test).map .ok := by
  have hfrom : ∀ (rest pre : List α),
      (removedFrom test pre.length rest).map (fun k : ℕ => elementAt (pre ++ rest) k) =
        (rest.filter test).map .ok := by
    intro rest
    induction rest with
    | nil => exact fun _ => rfl
    | cons x rest ih =>
        intro pre
        have hrest := ih (pre ++ [x])
        rw [List.length_append, List.length_singleton, List.append_assoc,
          List.singleton_append] at hrest
        have hx : elementAt (pre ++ x :: rest) pre.length = .ok x := by
          rw [elementAt_natCast, listGet, List.getElem?_append_right (Nat.le_refl _), Nat.sub_self]
          rfl
        rw [removedFrom]
        split
        · next ht => rw [List.map_cons, hrest, hx, List.filter_cons_of_pos ht, List.map_cons]
        · next ht => rw [hrest, List.filter_cons_of_neg ht]
  have h := hfrom l []
  rw [← Nat.cast_zero, removedAt_eq, List.map_map]
  exact h

/-- `removeAll` and `retainAll` propose what the test finds. -/
theorem removals_spec (l : List α) (contains : α → Bool) (complement : Bool) :
    match ListMutator.proposal.removals l contains complement with
    | none => l.filter (fun e => contains e ^^ complement) = []
    | some (added, indexes) => added = [] ∧
        (indexRanges indexes).map (elementAt l) =
          (l.filter fun e => contains e ^^ complement).map .ok := by
  have helements := elements_removedAt (fun e => contains e ^^ complement) l
  rw [ListMutator.proposal.removals, removeFromList_eq]
  by_cases hnil : removedAt (fun e => contains e ^^ complement) l 0 = []
  · rw [if_neg fun hne => hne hnil]
    rw [hnil, List.map_nil] at helements
    exact List.map_eq_nil_iff.mp helements.symm
  · rw [if_pos hnil]
    refine ⟨rfl, ?_⟩
    rw [indexRanges_unitPairs]
    exact helements

/-- **A proposal names what goes and what comes.** -/
theorem proposal_spec [BEq α] {l : List α} {m : ListMutator α} (h : m.InRange l)
    (hm : ∀ o, m ≠ .remove o) :
    match m.proposal l with
    | none => m.gone l = [] ∧ m.come = []
    | some (added, indexes) => added = m.come ∧
        (indexRanges indexes).map (elementAt l) = (m.gone l).map .ok := by
  have hsingle : ∀ {index : ℤ}, 0 ≤ index ∧ index < l.length →
      (indexRanges [index, index + 1]).map (elementAt l) =
        (Splice.slice index.toNat (index.toNat + 1) l).map .ok := by
    rintro index ⟨hlo, hhi⟩
    have hcast : ((index.toNat : ℕ) : ℤ) = index := Int.toNat_of_nonneg hlo
    have hrange := elements_range l index.toNat (index.toNat + 1) (by omega)
    rw [Nat.cast_add, Nat.cast_one, hcast] at hrange
    exact hrange
  have hall : (indexRanges [0, (l.length : ℤ)]).map (elementAt l) = l.map .ok := by
    have hrange := elements_range l 0 l.length (Nat.le_refl _)
    rw [ObservableListWrapper.slice_all] at hrange
    exact hrange
  have hnothing : ∀ i : ℤ, (indexRanges [i, i]).map (elementAt l) = ([] : List α).map .ok :=
    fun i => by rw [indexRanges_self]; rfl
  cases m with
  | add e => exact ⟨rfl, hnothing _⟩
  | addAt index e => exact ⟨rfl, hnothing _⟩
  | addAll c => exact ⟨rfl, hnothing _⟩
  | addAllAt index c => exact ⟨rfl, hnothing _⟩
  | set index e => exact ⟨rfl, hsingle h⟩
  | setAll c => exact ⟨rfl, hall⟩
  | remove o => exact absurd rfl (hm o)
  | removeAt index => exact ⟨rfl, hsingle h⟩
  | removeRange fromIndex toIndex =>
      refine ⟨rfl, ?_⟩
      by_cases hempty : toIndex ≤ fromIndex
      · have hnat : (toIndex - fromIndex).toNat = 0 := by omega
        rw [indexRanges_pair, hnat]
        show [] = (Splice.slice fromIndex.toNat toIndex.toNat l).map Except.ok
        rw [Splice.slice, show toIndex.toNat - fromIndex.toNat = 0 by omega]
        rfl
      · obtain ⟨hlo, hhi⟩ := h.resolve_left hempty
        have hlt : fromIndex < toIndex := not_le.mp hempty
        have hrange := elements_range l fromIndex.toNat toIndex.toNat (by omega)
        rw [Int.toNat_of_nonneg hlo, Int.toNat_of_nonneg (hlo.trans (le_of_lt hlt))] at hrange
        exact hrange
  | removeAll contains =>
      have hspec := removals_spec l contains false
      simp only [Bool.xor_false] at hspec
      rw [show ListMutator.proposal l (.removeAll contains) =
        ListMutator.proposal.removals l contains false from rfl]
      split
      · next hp =>
          rw [hp] at hspec
          exact ⟨hspec, rfl⟩
      · next hp =>
          rw [hp] at hspec
          exact hspec
  | retainAll contains =>
      have hspec := removals_spec l contains true
      simp only [Bool.xor_true] at hspec
      rw [show ListMutator.proposal l (.retainAll contains) =
        ListMutator.proposal.removals l contains true from rfl]
      split
      · next hp =>
          rw [hp] at hspec
          exact ⟨hspec, rfl⟩
      · next hp =>
          rw [hp] at hspec
          exact hspec
  | clear => exact ⟨rfl, hall⟩

end JavaFx.Collections
