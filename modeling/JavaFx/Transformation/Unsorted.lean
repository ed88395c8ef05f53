import JavaFx.Transformation.SortedList

/-!
# A `SortedList` without a comparator

`updateUnsorted` carries out on the array of records what the change did to the
source, so the elements always agree. A record keeps the index it was created
with, so `getSourceIndex` is right as long as no record moves.
-/

namespace JavaFx.Transformation

open JavaFx.Collections IndexPerm Splice Runs

variable {α : Type}

namespace SortedList

/-- The records `sorted[0..size)`. -/
def Holds (s : SortedList α) (xs : List (Element α)) : Prop :=
  s.size = xs.length ∧ ∃ tail, s.sorted = xs.map some ++ tail

/-- The records created for the positions `[lo, hi)` of a list. -/
def records (lo hi : ℕ) (l : List α) : List (Element α) :=
  ((slice lo hi l).zipIdx lo).map fun p => ⟨p.1, p.2⟩

@[simp] theorem length_records (lo hi : ℕ) (l : List α) :
    (records lo hi l).length = (slice lo hi l).length := by
  simp [records]

theorem map_e_records (lo hi : ℕ) (l : List α) :
    (records lo hi l).map Element.e = slice lo hi l := by
  unfold records
  rw [List.map_map]
  exact List.zipIdx_map_fst ..

theorem getElem?_records {lo hi k : ℕ} {l : List α} (hk : k < hi - lo) :
    (records lo hi l)[k]? = l[lo + k]?.map fun e => ⟨e, lo + k⟩ := by
  unfold records
  rw [List.getElem?_map, List.getElem?_zipIdx, getElem?_slice hk]
  cases l[lo + k]? <;> simp

/-- A record of a list names its element. -/
theorem mem_records {lo hi : ℕ} {l : List α} {x : Element α}
    (hx : x ∈ records lo hi l) : l[x.index]? = some x.e := by
  obtain ⟨k, hk⟩ := List.mem_iff_getElem?.mp hx
  have hlt : k < (records lo hi l).length := by
    by_contra hge
    rw [List.getElem?_eq_none (by omega)] at hk
    cases hk
  have hlt' : k < hi - lo := by
    rw [length_records, slice, List.length_take] at hlt
    omega
  rw [getElem?_records hlt'] at hk
  obtain ⟨e, he, rfl⟩ := Option.map_eq_some_iff.mp hk
  exact he

theorem new_holds (source : List α) :
    Holds (new source) (records 0 source.length source) := by
  have hslice : slice 0 source.length source = source := by simp [slice]
  refine ⟨by simp [new, hslice], List.replicate
    (source.length * 3 / 2 + 1 - source.length) none, ?_⟩
  unfold new records
  rw [hslice, List.map_map]
  rfl

section Reading

variable {s : SortedList α} {xs : List (Element α)} {i : ℕ}

theorem arrayDeref_of_holds (h : Holds s xs) (hi : i < xs.length) :
    arrayDeref s.sorted i = .ok xs[i] := by
  obtain ⟨-, tail, hsorted⟩ := h
  have hget : s.sorted[i]? = some (some xs[i]) := by
    rw [hsorted, List.getElem?_append_left (by simpa using hi), List.getElem?_map,
      List.getElem?_eq_getElem hi]
    rfl
  unfold arrayDeref
  rw [arrayGet_eq_of_getElem? (Int.natCast_nonneg i) (by simpa using hget)]
  rfl

theorem get_of_holds (h : Holds s xs) (hi : i < xs.length) :
    s.get i = .ok xs[i].e := by
  rw [get, if_neg (by rw [h.1]; omega), arrayDeref_of_holds h hi]
  rfl

theorem getSourceIndex_of_holds (h : Holds s xs) (hi : i < xs.length) :
    s.getSourceIndex i = .ok xs[i].index := by
  rw [getSourceIndex, arrayDeref_of_holds h hi]
  rfl

end Reading

/-! ## The array operations -/

/-- `ensureSize` keeps the records and makes room. -/
theorem ensureSize_spec {s : SortedList α} {xs : List (Element α)} (h : Holds s xs)
    (n : ℕ) : ∃ s', s.ensureSize n = .ok s' ∧ Holds s' xs ∧
      n ≤ s'.sorted.length ∧ s'.builder = s.builder := by
  obtain ⟨hsize, tail, hsorted⟩ := h
  unfold ensureSize
  by_cases hn : s.sorted.length < n
  · rw [if_pos hn]
    have hle : s.size ≤ s.sorted.length := by rw [hsorted, hsize]; simp
    have hroom : 0 + s.size ≤
        (List.replicate (n * 3 / 2 + 1) (none : Option (Element α))).length := by
      rw [List.length_replicate]
      omega
    have hslice : slice 0 (0 + s.size) s.sorted = xs.map some := by
      rw [slice, hsorted, hsize]
      simp
    have hcopy : arraycopy s.sorted 0 (List.replicate (n * 3 / 2 + 1) none) 0 s.size =
        .ok (splice 0 s.size (xs.map some) (List.replicate (n * 3 / 2 + 1) none)) := by
      rw [← hslice]
      exact @arraycopy_of_le _ s.sorted _ 0 0 s.size (by omega) hroom
    rw [hcopy]
    refine ⟨_, rfl, ⟨hsize, _, rfl⟩, ?_, rfl⟩
    show n ≤ (splice _ _ _ _).length
    rw [length_splice hroom, List.length_map, List.length_replicate]
    omega
  · rw [if_neg hn]
    exact ⟨s, rfl, ⟨hsize, tail, hsorted⟩, by omega, rfl⟩

/-- Filling a gap with the records of its positions. -/
theorem foldlM_putElement {list : List α} {pre gap post : List (Option (Element α))}
    {lo k : ℕ} (hlo : pre.length = lo) (hk : gap.length = k)
    (hle : lo + k ≤ list.length) :
    (List.range' lo k).foldlM (putElement list) (pre ++ (gap ++ post)) =
      .ok (pre ++ ((records lo (lo + k) list).map some ++ post)) := by
  induction gap generalizing pre lo k with
  | nil =>
      subst hk
      simp [records, slice]
      rfl
  | cons x gap ih =>
      obtain ⟨k, rfl⟩ : ∃ k', k = k' + 1 := ⟨gap.length, by simpa using hk.symm⟩
      have hlt : lo < list.length := by omega
      have hput : putElement list (pre ++ (x :: gap ++ post)) lo =
          .ok (pre ++ [some ⟨list[lo], lo⟩] ++ (gap ++ post)) := by
        unfold putElement listGet
        rw [List.getElem?_eq_getElem hlt, except_ok_bind,
          arraySet_of_lt _ (by simp [hlo])]
        congr 1
        rw [List.set_append_right _ _ (by omega), hlo, Nat.sub_self]
        simp
      rw [List.range'_succ, List.foldlM_cons, hput, except_ok_bind,
        ih (by simp [hlo]) (by simpa using hk) (by omega)]
      have hrec : records lo (lo + (k + 1)) list =
          ⟨list[lo], lo⟩ :: records (lo + 1) (lo + 1 + k) list := by
        unfold records slice
        rw [Nat.add_sub_cancel_left, Nat.add_sub_cancel_left,
          List.drop_eq_getElem_cons hlt, List.take_succ_cons, List.zipIdx_cons,
          List.map_cons]
      rw [hrec]
      simp

/-! ## The branches of `updateUnsorted` -/

section Branches

variable {s : SortedList α} {xs : List (Element α)} {c : SubChange α}

theorem removeUnsorted_spec (h : Holds s xs)
    (hle : c.from_ + c.getRemovedSize ≤ xs.length) :
    ∃ s', s.removeUnsorted c = .ok s' ∧
      Holds s' (splice c.from_ c.getRemovedSize [] xs) := by
  unfold removeUnsorted
  by_cases hrem : c.wasRemoved = true
  · rw [if_pos hrem]
    obtain ⟨hsize, tail, hsorted⟩ := h
    have hxs : xs = xs.take c.from_ ++
        (slice c.from_ (c.from_ + c.getRemovedSize) xs ++
          xs.drop (c.from_ + c.getRemovedSize)) := take_slice_drop
    have hpre : ((xs.take c.from_).map some).length = c.from_ := by
      rw [List.length_map, List.length_take]
      omega
    have hold : ((slice c.from_ (c.from_ + c.getRemovedSize) xs).map some).length =
        c.getRemovedSize := by
      rw [List.length_map, length_slice hle, Nat.add_sub_cancel_left]
    have hpost : ((xs.drop (c.from_ + c.getRemovedSize)).map some).length =
        xs.length - (c.from_ + c.getRemovedSize) := by
      rw [List.length_map, List.length_drop]
    have ha : s.sorted = (xs.take c.from_).map some ++
        ((slice c.from_ (c.from_ + c.getRemovedSize) xs).map some ++
          ((xs.drop (c.from_ + c.getRemovedSize)).map some ++ tail)) := by
      rw [hsorted]
      conv_lhs => rw [hxs]
      simp
    obtain ⟨tail', hcopy, -⟩ := arraycopy_close ha hpre hold hpost
    have hm : (s.size : ℤ) - (c.from_ + c.getRemovedSize : ℕ) =
        ((xs.length - (c.from_ + c.getRemovedSize) : ℕ) : ℤ) := by
      rw [hsize]
      omega
    rw [hm, hcopy]
    refine ⟨_, rfl, ?_, tail', ?_⟩
    · show s.size - c.getRemovedSize = _
      rw [length_splice hle, hsize]
      simp
    · show _ = (splice _ _ _ _).map some ++ tail'
      simp [splice]
  · rw [if_neg hrem]
    have hnil : c.getRemovedSize = 0 := by
      simpa [SubChange.wasRemoved, SubChange.getRemovedSize] using hrem
    exact ⟨s, rfl, by simpa [hnil, splice] using h⟩

theorem addUnsorted_spec {list : List α} (h : Holds s xs) (hperm : c.perm = [])
    (hupd : c.updated = false) (hft : c.from_ ≤ c.to_) (hto : c.to_ ≤ list.length)
    (hle : c.from_ ≤ xs.length) :
    ∃ s', s.addUnsorted list c = .ok s' ∧
      Holds s' (splice c.from_ 0 (records c.from_ c.to_ list) xs) := by
  unfold addUnsorted
  have hwas : c.wasAdded = decide (c.from_ < c.to_) := by
    simp [SubChange.wasAdded, SubChange.wasPermutated, hperm, hupd]
  by_cases hlt : c.from_ < c.to_
  · have hadded : c.wasAdded = true := by rw [hwas]; exact decide_eq_true hlt
    have hk : getAddedSize c = c.to_ - c.from_ := by rw [getAddedSize, if_pos hadded]
    rw [if_pos hadded, hk]
    obtain ⟨s₁, hensure, ⟨hsize, tail, hsorted⟩, hroom, -⟩ :=
      ensureSize_spec h (s.size + (c.to_ - c.from_))
    rw [hensure, except_ok_bind]
    have hpre : ((xs.take c.from_).map some).length = c.from_ := by
      rw [List.length_map, List.length_take]
      omega
    have hpost : ((xs.drop c.from_).map some).length = xs.length - c.from_ := by
      rw [List.length_map, List.length_drop]
    have ha : s₁.sorted = (xs.take c.from_).map some ++
        ((xs.drop c.from_).map some ++ tail) := by
      rw [hsorted, ← List.append_assoc, ← List.map_append, List.take_append_drop]
    have htail : c.to_ - c.from_ ≤ tail.length := by
      rw [hsorted, List.length_append, List.length_map, h.1] at hroom
      omega
    obtain ⟨gap, tail', hcopy, hgap, -⟩ := arraycopy_open ha hpre hpost htail
    have hto' : ((c.from_ + (c.to_ - c.from_) : ℕ) : ℤ) = c.to_ := by
      rw [Nat.add_sub_cancel' hft]
    have hm : (s₁.size : ℤ) - c.from_ = ((xs.length - c.from_ : ℕ) : ℤ) := by
      rw [hsize]
      omega
    rw [hto'] at hcopy
    rw [hm, hcopy, except_ok_bind, foldlM_putElement hpre hgap (by omega),
      Nat.add_sub_cancel' hft]
    refine ⟨_, rfl, ?_, tail', ?_⟩
    · show s₁.size + (c.to_ - c.from_) = _
      rw [length_splice (by omega), length_records, length_slice hto, hsize]
      rfl
    · show _ = (splice _ _ _ _).map some ++ tail'
      simp [splice]
  · have hadded : ¬c.wasAdded = true := by rw [hwas]; simpa using hlt
    rw [if_neg hadded]
    have hnil : records c.from_ c.to_ list = [] := by
      have : c.to_ - c.from_ = 0 := by omega
      simp [records, slice, this]
    exact ⟨s, rfl, by simpa [hnil, splice] using h⟩

theorem permuteUnsorted_spec (h : Holds s xs) (hne : c.perm ≠ [])
    (hperm : IsPerm c.from_ c.perm) (hto : c.to_ = c.from_ + c.perm.length)
    (hle : c.to_ ≤ xs.length) :
    ∃ s', s.permuteUnsorted c = .ok s' ∧ Holds s' (permute c.from_ c.perm xs) := by
  obtain ⟨hsize, tail, hsorted⟩ := h
  have hwas : c.wasPermutated = true := by
    simpa [SubChange.wasPermutated] using hne
  have hlen : xs.length ≤ s.sorted.length := by rw [hsorted]; simp
  -- every round writes one record to its new position
  have hround : ∀ (tmp : List (Option (Element α))) (i : ℕ), i ∈ List.range s.size →
      tmp.length = s.sorted.length →
      permuteStep c s.sorted tmp i =
        .ok (tmp.set (target c.from_ c.perm i) (s.sorted.getD i none)) ∧
      (tmp.set (target c.from_ c.perm i) (s.sorted.getD i none)).length =
        s.sorted.length := by
    intro tmp i hi htmp
    have hi' : i < xs.length := by rw [← hsize]; exact List.mem_range.mp hi
    refine ⟨?_, by rw [List.length_set, htmp]⟩
    have hget : arrayGet s.sorted (i : ℤ) = .ok (s.sorted.getD i none) := by
      rw [arrayGet_of_lt (by omega)]
      simp [show i < s.sorted.length by omega]
    have htarget : target c.from_ c.perm i < tmp.length := by
      have := hperm.target_lt (by omega : c.from_ + c.perm.length ≤ xs.length) hi'
      omega
    unfold permuteStep
    rw [hget, except_ok_bind]
    by_cases hin : c.from_ ≤ i ∧ i < c.to_
    · obtain ⟨k, rfl⟩ := Nat.exists_eq_add_of_le hin.1
      have hk : k < c.perm.length := by omega
      have hp : getPermutation c (c.from_ + k) = .ok c.perm[k] := by
        rw [getPermutation, if_pos hwas, Nat.cast_add, add_sub_cancel_left,
          arrayGet_of_lt hk]
      rw [if_pos hin, hp, except_ok_bind]
      rw [target_of_mem hk] at htarget ⊢
      exact arraySet_of_lt _ htarget
    · rw [if_neg hin]
      rw [target_of_not (by omega)] at htarget ⊢
      exact arraySet_of_lt _ htarget
  obtain ⟨hfold, htmp⟩ := foldlM_eq_ok
    (fun tmp : List (Option (Element α)) => tmp.length = s.sorted.length) hround
    (List.length_replicate :
      (List.replicate s.sorted.length (none : Option (Element α))).length = _)
  rw [permuteUnsorted, if_pos hwas, hfold]
  obtain ⟨-, hget⟩ := foldl_set_get hperm.target_injective
    (fun i => s.sorted.getD i none) (List.replicate s.sorted.length none) s.size
    fun i hi => by
      have := hperm.target_lt (by omega : c.from_ + c.perm.length ≤ xs.length)
        (by omega : i < xs.length)
      rw [List.length_replicate]
      omega
  generalize (List.range s.size).foldl (fun tmp i =>
    tmp.set (target c.from_ c.perm i) (s.sorted.getD i none))
      (List.replicate s.sorted.length none) = tmp at htmp hget
  have hmoves := permute_moves hperm (by omega : c.from_ + c.perm.length ≤ xs.length)
  have htake : tmp.take xs.length = (permute c.from_ c.perm xs).map some := by
    apply Moves.unique hperm.target_injective ?_ (hmoves.map some)
    refine ⟨by rw [List.length_take, List.length_map]; omega, fun i hi => ?_⟩
    rw [List.length_map] at hi
    have htarget := hperm.target_lt
      (by omega : c.from_ + c.perm.length ≤ xs.length) hi
    rw [List.getElem?_take_of_lt htarget, hget i (by omega), List.getElem?_map,
      hsorted, List.getD_eq_getElem?_getD,
      List.getElem?_append_left (by simpa using hi), List.getElem?_map]
    simp [hi]
  refine ⟨_, rfl, ?_, tmp.drop xs.length, ?_⟩
  · show s.size = _
    rw [hmoves.length_eq, hsize]
  · show tmp = _
    rw [← htake, List.take_append_drop]

end Branches

/-! ## A whole change -/

/-- The splice an addition or removal makes in the array of records. -/
def recordEdit (list : List α) (c : SubChange α) : Edit (Element α) :=
  ⟨c.from_, c.getRemovedSize, records c.from_ c.to_ list⟩

/-- The records after a change, from those before it. -/
def recordsAfter (ch : DocumentedChange α) (xs : List (Element α)) :
    List (Element α) :=
  spliceAll (ch.addRemoves.map (recordEdit ch.list)) (permuteAll ch.permutations xs)

section Step

variable {list : List α} {s : SortedList α} {xs : List (Element α)}
  {c : SubChange α} {l l' : List α}

theorem step_permutation (hne : c.perm ≠ []) (hc : c.Replays .references list l l')
    (h : Holds s xs) (hlen : xs.length = l.length) :
    ∃ s', updateUnsortedStep list s c = .ok s' ∧
      Holds s' (permute c.from_ c.perm xs) ∧
      (permute c.from_ c.perm xs).length = l'.length := by
  obtain ⟨hp, hto, hle, rfl⟩ := replays_permutation hne hc
  obtain ⟨-, hrem⟩ := replays_permutation_only hne hc
  have hfit : c.from_ + c.perm.length ≤ xs.length := by omega
  obtain ⟨s', hs', hholds⟩ := permuteUnsorted_spec h hne hp hto (by omega)
  refine ⟨s', ?_, hholds, ?_⟩
  · rw [updateUnsortedStep, hs', except_ok_bind, removeUnsorted,
      if_neg (by simp [SubChange.wasRemoved, hrem]), except_ok_bind, addUnsorted,
      if_neg (by simp [SubChange.wasAdded, SubChange.wasPermutated, hne])]
  · rw [(permute_moves hp hfit).length_eq, (permute_moves hp (by omega)).length_eq,
      hlen]

theorem step_addRemove (hperm : c.perm = []) (hupd : c.updated = false)
    (hc : c.Replays .references list l l') (h : Holds s xs)
    (hlen : xs.length = l.length) :
    ∃ s', updateUnsortedStep list s c = .ok s' ∧
      Holds s' (splice c.from_ c.getRemovedSize (records c.from_ c.to_ list) xs) ∧
      (splice c.from_ c.getRemovedSize (records c.from_ c.to_ list) xs).length =
        l'.length := by
  obtain ⟨hft, hto, hle, rfl⟩ := replays_addRemove hperm hupd hc
  have hrem : c.from_ + c.getRemovedSize ≤ xs.length := by omega
  obtain ⟨s₁, hs₁, hholds₁⟩ := removeUnsorted_spec h hrem
  obtain ⟨s', hs', hholds⟩ := addUnsorted_spec hholds₁ hperm hupd hft hto
    (by rw [length_splice (by omega)]; simp; omega)
  rw [splice_delete_insert (by omega)] at hholds
  refine ⟨s', ?_, hholds, ?_⟩
  · rw [updateUnsortedStep, permuteUnsorted,
      if_neg (by simp [SubChange.wasPermutated, hperm]), except_ok_bind, hs₁,
      except_ok_bind, hs']
  · rw [length_splice (by omega), length_splice hle, length_records, hlen]

theorem step_update (hperm : c.perm = []) (hupd : c.updated = true)
    (hc : c.Replays .references list l l') :
    updateUnsortedStep list s c = .ok s ∧ l' = l := by
  obtain ⟨hrem, rfl⟩ := replays_update hperm hupd hc
  refine ⟨?_, rfl⟩
  rw [updateUnsortedStep, permuteUnsorted,
    if_neg (by simp [SubChange.wasPermutated, hperm]), except_ok_bind,
    removeUnsorted, if_neg (by simp [SubChange.wasRemoved, hrem]), except_ok_bind,
    addUnsorted, if_neg (by simp [SubChange.wasAdded, hupd])]

end Step

section Loop

variable {list : List α} {s : SortedList α} {xs : List (Element α)}
  {cs : List (SubChange α)} {l l' : List α}

theorem loop_permutations (hcs : ∀ c ∈ cs, c.perm ≠ [])
    (h : ReplaysAll .references list cs l l') (hs : Holds s xs)
    (hlen : xs.length = l.length) :
    ∃ s', cs.foldlM (updateUnsortedStep list) s = .ok s' ∧
      Holds s' (permuteAll cs xs) ∧ (permuteAll cs xs).length = l'.length := by
  induction h generalizing s xs with
  | nil l => exact ⟨s, rfl, hs, hlen⟩
  | @cons c cs l m l' hc _ ih =>
      obtain ⟨s₁, hs₁, hholds, hlen₁⟩ :=
        step_permutation (hcs c List.mem_cons_self) hc hs hlen
      rw [List.foldlM_cons, hs₁]
      exact ih (fun c hcm => hcs c (List.mem_cons_of_mem _ hcm)) hholds hlen₁

theorem loop_addRemoves (hcs : ∀ c ∈ cs, c.perm = [] ∧ c.updated = false)
    (h : ReplaysAll .references list cs l l') (hs : Holds s xs)
    (hlen : xs.length = l.length) :
    ∃ s', cs.foldlM (updateUnsortedStep list) s = .ok s' ∧
      Holds s' (spliceAll (cs.map (recordEdit list)) xs) := by
  induction h generalizing s xs with
  | nil l => exact ⟨s, rfl, hs⟩
  | @cons c cs l m l' hc _ ih =>
      obtain ⟨hperm, hupd⟩ := hcs c List.mem_cons_self
      obtain ⟨s₁, hs₁, hholds, hlen₁⟩ := step_addRemove hperm hupd hc hs hlen
      rw [List.foldlM_cons, hs₁]
      exact ih (fun c hcm => hcs c (List.mem_cons_of_mem _ hcm)) hholds hlen₁

theorem loop_updates (hcs : ∀ c ∈ cs, c.perm = [] ∧ c.updated = true)
    (h : ReplaysAll .references list cs l l') :
    cs.foldlM (updateUnsortedStep list) s = .ok s ∧ l' = l := by
  induction h with
  | nil l => exact ⟨rfl, rfl⟩
  | @cons c cs l m l' hc _ ih =>
      obtain ⟨hperm, hupd⟩ := hcs c List.mem_cons_self
      obtain ⟨hs₁, rfl⟩ := step_update hperm hupd hc
      rw [List.foldlM_cons, hs₁]
      exact ih fun c hcm => hcs c (List.mem_cons_of_mem _ hcm)

end Loop

theorem updateUnsorted_spec {ch : DocumentedChange α} {l : List α}
    (h : ch.Replays .references l) {s : SortedList α} {xs : List (Element α)}
    (hs : Holds s xs) (hlen : xs.length = l.length) :
    ∃ s', s.updateUnsorted ch = .ok s' ∧ Holds s' (recordsAfter ch xs) := by
  obtain ⟨m, hps, hrest⟩ := ReplaysAll.append_inv h
  obtain ⟨m', hars, hups⟩ := ReplaysAll.append_inv hrest
  obtain ⟨s₁, hs₁, hholds₁, hlen₁⟩ := loop_permutations ch.isPermutation hps hs hlen
  obtain ⟨s₂, hs₂, hholds₂⟩ := loop_addRemoves ch.isAddRemove hars hholds₁ hlen₁
  refine ⟨s₂, ?_, hholds₂⟩
  unfold updateUnsorted DocumentedChange.changes
  rw [foldlM_append_ok hs₁, foldlM_append_ok hs₂, (loop_updates ch.isUpdate hups).1]

/-! ## Elements and indexes -/

/-- Where the elements of the list after a change come from: the position before
the change, or for an added element the position it was added at. -/
def origins (ch : DocumentedChange α) (n : ℕ) : List ℕ :=
  spliceAll (ch.addRemoves.map fun c =>
      ⟨c.from_, c.getRemovedSize, List.range' c.from_ (c.to_ - c.from_)⟩)
    (permuteAll ch.permutations (List.range n))

/-- The change leaves every element it does not remove where it is. -/
def NothingMoves (l : List α) (ch : DocumentedChange α) : Prop :=
  origins ch l.length = List.range ch.list.length

instance (l : List α) (ch : DocumentedChange α) : Decidable (NothingMoves l ch) :=
  inferInstanceAs (Decidable (_ = _))

/-- The array holds a record for each element of the source, in its order, and
each record has its own position as its index. -/
def InStep (l : List α) (s : SortedList α) : Prop :=
  ∃ xs, Holds s xs ∧ xs.map Element.e = l ∧ xs.map Element.index = List.range l.length

/-- What a reader of the list sees: its size, its elements, and source indexes at
which the source has the same elements. -/
def Mirrors (l : List α) (s : SortedList α) : Prop :=
  s.size = l.length ∧ ∀ i, i < l.length →
    s.get i = listGet l i ∧
      ∃ j, s.getSourceIndex i = .ok j ∧ listGet l j = s.get i

theorem map_e_recordsAfter {ch : DocumentedChange α} {l : List α}
    (h : ch.Replays .references l) {xs : List (Element α)}
    (hxs : xs.map Element.e = l) : (recordsAfter ch xs).map Element.e = ch.list := by
  have hedits : (ch.addRemoves.map (recordEdit ch.list)).map (Edit.map Element.e) =
      ch.edits := by
    unfold DocumentedChange.edits
    rw [List.map_map]
    apply List.map_congr_left
    intro c _
    show Edit.mk _ _ _ = Edit.mk _ _ _
    rw [recordEdit, map_e_records]
  unfold recordsAfter
  rw [map_spliceAll, map_permuteAll, hedits, hxs]
  exact h.list_eq.symm

theorem map_index_records {lo hi : ℕ} {l : List α} (h : hi ≤ l.length) :
    (records lo hi l).map Element.index = List.range' lo (hi - lo) := by
  unfold records
  rw [List.map_map, ← length_slice h]
  exact List.zipIdx_map_snd ..

theorem map_index_recordsAfter {ch : DocumentedChange α} {l : List α}
    (h : ch.Replays .references l) {xs : List (Element α)}
    (hxs : xs.map Element.index = List.range l.length) :
    (recordsAfter ch xs).map Element.index = origins ch l.length := by
  have hedits : (ch.addRemoves.map (recordEdit ch.list)).map
      (Edit.map Element.index) = ch.addRemoves.map fun c =>
        ⟨c.from_, c.getRemovedSize, List.range' c.from_ (c.to_ - c.from_)⟩ := by
    rw [List.map_map]
    apply List.map_congr_left
    intro c hc
    show Edit.mk _ _ _ = Edit.mk _ _ _
    rw [recordEdit, map_index_records (h.to_le c hc)]
  unfold recordsAfter origins
  rw [map_spliceAll, map_permuteAll, hedits, hxs]

theorem mirrors_of_holds {l : List α} {s : SortedList α} {xs : List (Element α)}
    (hs : Holds s xs) (hxs : xs.map Element.e = l)
    (hindex : ∀ (i : ℕ) (hi : i < xs.length), l[xs[i].index]? = l[i]?) :
    Mirrors l s := by
  have hlen : l.length = xs.length := by rw [← hxs, List.length_map]
  refine ⟨hs.1.trans hlen.symm, fun i hi => ?_⟩
  have hi' : i < xs.length := by omega
  have hget : listGet l i = .ok xs[i].e := by
    simp [listGet, ← hxs, hi']
  rw [get_of_holds hs hi', hget]
  refine ⟨rfl, xs[i].index, getSourceIndex_of_holds hs hi', ?_⟩
  rw [listGet, hindex i hi']
  exact hget

theorem InStep.mirrors {l : List α} {s : SortedList α} (h : InStep l s) :
    Mirrors l s := by
  obtain ⟨xs, hs, hxs, hindex⟩ := h
  refine mirrors_of_holds hs hxs fun i hi => ?_
  have hi' : i < l.length := by rw [← hxs, List.length_map]; exact hi
  have hget : (xs.map Element.index)[i]? = (List.range l.length)[i]? := by rw [hindex]
  rw [List.getElem?_map, List.getElem?_eq_getElem hi,
    List.getElem?_eq_getElem (by simpa using hi'), List.getElem_range,
    Option.map_some] at hget
  rw [Option.some.inj hget]

theorem new_inStep (l : List α) : InStep l (new l) := by
  refine ⟨_, new_holds l, ?_, ?_⟩
  · rw [map_e_records]
    simp [slice]
  · rw [map_index_records le_rfl, List.range_eq_range', Nat.sub_zero]

/-! ## Runs -/

/-- The elements of the array are those of the source, whatever their indexes. -/
def SameElements (l : List α) (s : SortedList α) : Prop :=
  ∃ xs, Holds s xs ∧ xs.map Element.e = l

section Change

variable {l : List α} {s : SortedList α} {ch : DocumentedChange α}

theorem sourceChanged_unsorted (h : ch.Replays .references l)
    {xs : List (Element α)} (hs : Holds s xs) (hxs : xs.map Element.e = l) :
    ∃ s', s.sourceChanged none ch = .ok s' ∧ Holds s' (recordsAfter ch xs) := by
  have hlen : xs.length = l.length := by rw [← hxs, List.length_map]
  obtain ⟨s', hs', hholds⟩ := updateUnsorted_spec h hs hlen
  exact ⟨s', by rw [sourceChanged, hs']; rfl, hholds⟩

theorem sameElements_step (h : ch.Replays .references l) (hs : SameElements l s) :
    ∃ s', s.sourceChanged none ch = .ok s' ∧ SameElements ch.list s' := by
  obtain ⟨xs, hholds, hxs⟩ := hs
  obtain ⟨s', hs', hholds'⟩ := sourceChanged_unsorted h hholds hxs
  exact ⟨s', hs', _, hholds', map_e_recordsAfter h hxs⟩

theorem inStep_step (h : ch.Replays .references l) (hstill : NothingMoves l ch)
    (hs : InStep l s) : ∃ s', s.sourceChanged none ch = .ok s' ∧ InStep ch.list s' := by
  obtain ⟨xs, hholds, hxs, hindex⟩ := hs
  obtain ⟨s', hs', hholds'⟩ := sourceChanged_unsorted h hholds hxs
  refine ⟨s', hs', _, hholds', map_e_recordsAfter h hxs, ?_⟩
  rw [map_index_recordsAfter h hindex]
  exact hstill

/-- With distinct elements a record names its element only in its place. -/
theorem nothingMoves_of_mirrors (h : ch.Replays .references l)
    (hnodup : ch.list.Nodup) (hs : InStep l s) {s' : SortedList α}
    (hs' : s.sourceChanged none ch = .ok s') (hm : Mirrors ch.list s') :
    NothingMoves l ch ∧ InStep ch.list s' := by
  obtain ⟨xs, hholds, hxs, hindex⟩ := hs
  obtain ⟨t, ht, hholds'⟩ := sourceChanged_unsorted h hholds hxs
  obtain rfl : t = s' := by rw [ht] at hs'; exact Except.ok.inj hs'
  have helems := map_e_recordsAfter h hxs
  have hlen : (recordsAfter ch xs).length = ch.list.length := by
    rw [← helems, List.length_map]
  have hrange : (recordsAfter ch xs).map Element.index =
      List.range ch.list.length := by
    apply List.ext_getElem
    · rw [List.length_map, List.length_range, hlen]
    · intro i hi₁ hi₂
      have hi : i < (recordsAfter ch xs).length := by simpa using hi₁
      obtain ⟨hget, j, hj, hsame⟩ := hm.2 i (by omega)
      rw [getSourceIndex_of_holds hholds' hi] at hj
      obtain rfl := Except.ok.inj hj
      rw [List.getElem_map, List.getElem_range]
      rw [hget] at hsame
      exact ((List.getElem?_inj (by omega) hnodup).mp (listGet_inj hsame).symm).symm
  refine ⟨?_, _, hholds', helems, hrange⟩
  rw [NothingMoves, ← map_index_recordsAfter h hindex, hrange]

end Change

/-- **A `SortedList` without a comparator.** Along every run of changes that
replay the source's content nothing is thrown and the size and the elements are
those of the source. If no change moves an element, the source indexes are right
too; for sources with distinct elements only then. -/
theorem unsorted_mirrors (l : List α) (run : List (DocumentedChange α))
    (h : Throughout (fun l ch => ch.Replays .references l) l run) :
    (∀ pre, pre <+: run →
      ∃ s, runAll (fun s ch => sourceChanged none ch s) (new l) pre = .ok s ∧
        SameElements (contentAfter l pre) s) ∧
    (Throughout NothingMoves l run → ∀ pre, pre <+: run →
      ∃ s, runAll (fun s ch => sourceChanged none ch s) (new l) pre = .ok s ∧
        Mirrors (contentAfter l pre) s) ∧
    (Throughout (fun _ ch => ch.list.Nodup) l run → (∀ pre, pre <+: run →
      ∃ s, runAll (fun s ch => sourceChanged none ch s) (new l) pre = .ok s ∧
        Mirrors (contentAfter l pre) s) → Throughout NothingMoves l run) := by
  have hnew := new_inStep l
  rw [← List.map_id run] at h ⊢
  refine ⟨fun pre hpre => ?_, fun hstill pre hpre => ?_, fun hnodup hm => ?_⟩
  · rw [List.map_id] at hpre
    obtain ⟨xs, hs, hxs, -⟩ := hnew
    obtain ⟨s, hrun, hsame⟩ := follows_prefixes id SameElements
      (fun l s ch hch hsync => sameElements_step hch hsync) h ⟨xs, hs, hxs⟩ hpre
    rw [List.map_id] at hsame
    exact ⟨s, hrun, hsame⟩
  · rw [List.map_id] at hpre
    obtain ⟨s, hrun, hstep⟩ := follows_prefixes id InStep
      (fun l s ch hch hsync => inStep_step hch.1 hch.2 hsync) (h.and hstill) hnew hpre
    rw [List.map_id] at hstep
    exact ⟨s, hrun, hstep.mirrors⟩
  · rw [List.map_id] at hm
    refine throughout_of_follows id InStep Mirrors
      (fun l s ch s' hch hsync hs' hgood =>
        nothingMoves_of_mirrors hch.1 hch.2 hsync hs' hgood)
      (h.and hnodup) hnew fun pre hpre => ?_
    obtain ⟨s, hrun, hgood⟩ := hm pre hpre
    exact ⟨s, hrun, by rwa [List.map_id]⟩

/-- The second of three elements is replaced and a fourth one appended. -/
def replaceAndAppend : DocumentedChange ℕ where
  permutations := []
  addRemoves := [⟨1, 2, some [2], [], false⟩, ⟨3, 4, some [], [], false⟩]
  updates := []
  list := [1, 9, 3, 4]
  isPermutation := by decide
  isAddRemove := by decide
  isUpdate := DocumentedChange.no_updates
  sorted := by decide

theorem unsorted_mirrors_replacement :
    replaceAndAppend.Replays .references [1, 2, 3] ∧
      ∀ pre, pre <+: [replaceAndAppend] →
        ∃ s, runAll (fun s ch => sourceChanged none ch s) (new [1, 2, 3]) pre =
          .ok s ∧ Mirrors (contentAfter [1, 2, 3] pre) s := by
  have hreplays : replaceAndAppend.Replays .references [1, 2, 3] :=
    .cons (.addRemove [1] [3] rfl rfl rfl (by decide) (by decide))
      (.cons (.addRemove [1, 9, 3] [] rfl rfl rfl (by decide) (by decide)) (.nil _))
  exact ⟨hreplays, (unsorted_mirrors [1, 2, 3] [replaceAndAppend]
    ⟨hreplays, trivial⟩).2.1 ⟨by decide, trivial⟩⟩

/-- The first of two elements is removed. -/
def removeFirst : DocumentedChange ℕ where
  permutations := []
  addRemoves := [⟨0, 0, some [1], [], false⟩]
  updates := []
  list := [2]
  isPermutation := by decide
  isAddRemove := by decide
  isUpdate := DocumentedChange.no_updates
  sorted := by decide

/-- The element that is left still has its old index, which the source no longer
has. -/
theorem source_index_stale_after_removal :
    removeFirst.Replays .references [1, 2] ∧
      ∃ s, sourceChanged none removeFirst (new [1, 2]) = .ok s ∧
        s.getSourceIndex 0 = .ok 1 ∧ ¬Mirrors [2] s := by
  refine ⟨.cons (.addRemove [] [2] rfl rfl rfl (by decide) (by decide)) (.nil _),
    _, rfl, rfl, ?_⟩
  rintro ⟨-, h⟩
  obtain ⟨-, j, hj, hsame⟩ := h 0 (by decide)
  cases hj
  cases hsame

end SortedList

end JavaFx.Transformation
