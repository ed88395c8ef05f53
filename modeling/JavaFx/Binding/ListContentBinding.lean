import JavaFx.Collections.Replay

/-!
# Content bindings of lists

`ContentBinding` and `BidirectionalContentBinding` copy the changes of one list
into another. Both read the elements they copy from the source, which has its
final content by then. For additions that is what they need; a permuted range is
filled with what stands there at the end, and a later addition or removal of the
same change may then move these elements once more.
-/

namespace JavaFx.Binding

open JavaFx.Collections IndexPerm Splice Runs

variable {α : Type}

/-! ## `java.util.List` -/

/-- `list.subList(from, to)` -/
def subList (from_ to_ : ℕ) (l : List α) : Except Exn (List α) :=
  if l.length < to_ then .error .indexOutOfBounds
  else if to_ < from_ then
    .error (.illegalArgument ("fromIndex(" ++ toString from_ ++ ") > toIndex(" ++
      toString to_ ++ ")"))
  else .ok (slice from_ to_ l)

/-- `list.subList(from, to).clear()` -/
def clearSubList (from_ to_ : ℕ) (l : List α) : Except Exn (List α) := do
  let _ ← subList from_ to_ l
  return splice from_ (to_ - from_) [] l

/-- `list.addAll(index, c)` -/
def addAll (index : ℕ) (c l : List α) : Except Exn (List α) :=
  if l.length < index then .error .indexOutOfBounds
  else .ok (splice index 0 c l)

/-- `list.remove(index)` -/
def remove (index : ℕ) (l : List α) : Except Exn (List α) :=
  if index < l.length then .ok (l.eraseIdx index) else .error .indexOutOfBounds

/-- `ObservableListWrapper.remove(from, to)` calls `remove(from)` once for each
index of the range. -/
def removeRange (from_ to_ : ℕ) (l : List α) : Except Exn (List α) :=
  (List.range' from_ (to_ - from_)).foldlM (fun l _ => remove from_ l) l

/-! ## `ContentBinding.ListContentBinding` -/

/-- A list and the source it is bound to. -/
structure Bound (α : Type) where
  source : List α
  list : List α
deriving DecidableEq, Repr

namespace ContentBinding

/-- The branch on `wasRemoved()`. -/
def clearRemoved (change : SubChange α) (list : List α) :
    Except Exn (List α) :=
  if change.wasRemoved then
    clearSubList change.from_ (change.from_ + change.getRemovedSize) list
  else .ok list

/-- The branch on `wasAdded()`. -/
def insertAdded (source : List α) (change : SubChange α) (list : List α) :
    Except Exn (List α) :=
  if change.wasAdded then do
    let added ← subList change.from_ change.to_ source
    addAll change.from_ added list
  else .ok list

/-- The body of the loop of `onChanged`; `source` is `change.getList()`. -/
def onSubChange (source : List α) (list : List α) (change : SubChange α) :
    Except Exn (List α) :=
  if change.wasPermutated then do
    let list ← clearSubList change.from_ change.to_ list
    let elements ← subList change.from_ change.to_ source
    addAll change.from_ elements list
  else do
    let list ← clearRemoved change list
    insertAdded source change list

def onChanged (change : DocumentedChange α) (list : List α) :
    Except Exn (List α) :=
  change.changes.foldlM (onSubChange change.list) list

/-- `bind(list1, list2)` copies the source. -/
def bind (source : List α) : Bound α := ⟨source, source⟩

/-- The source changes and its listener is called. -/
def step (s : Bound α) (change : DocumentedChange α) : Except Exn (Bound α) := do
  let list ← onChanged change s.list
  return ⟨change.list, list⟩

end ContentBinding

/-! ## `BidirectionalContentBinding.ListContentBinding` -/

inductive Side where
  | first
  | second
deriving DecidableEq, Repr

def Side.other : Side → Side
  | .first => .second
  | .second => .first

structure BidirectionalBound (α : Type) where
  list1 : List α
  list2 : List α
  updating : Bool
deriving DecidableEq, Repr

namespace BidirectionalBound

def get (s : BidirectionalBound α) : Side → List α
  | .first => s.list1
  | .second => s.list2

def set (s : BidirectionalBound α) (side : Side) (l : List α) :
    BidirectionalBound α :=
  match side with
  | .first => { s with list1 := l }
  | .second => { s with list2 := l }

@[simp] theorem get_set (s : BidirectionalBound α) (side : Side) (l : List α) :
    (s.set side l).get side = l := by
  cases side <;> rfl

@[simp] theorem get_set_other (s : BidirectionalBound α) (side : Side)
    (l : List α) : (s.set side.other l).get side = s.get side := by
  cases side <;> rfl

@[simp] theorem set_set (s : BidirectionalBound α) (side : Side) (l l' : List α) :
    (s.set side l).set side l' = s.set side l' := by
  cases side <;> rfl

@[simp] theorem set_get (s : BidirectionalBound α) (side : Side) :
    s.set side (s.get side) = s := by
  cases side <;> rfl

@[simp] theorem set_updating (s : BidirectionalBound α) (side : Side)
    (l : List α) : (s.set side l).updating = s.updating := by
  cases side <;> rfl

end BidirectionalBound

namespace BidirectionalContentBinding

/-- The listener of both lists, as a modification of either one calls it. -/
abbrev Listener (α : Type) :=
  BidirectionalBound α → Side → List (SubChange α) →
    Except Exn (BidirectionalBound α)

/-- `dest.remove(from, to)`, which notifies the listener of `dest`. -/
def destRemove (notify : Listener α) (dest : Side) (from_ to_ : ℕ)
    (s : BidirectionalBound α) : Except Exn (BidirectionalBound α) := do
  let l ← removeRange from_ to_ (s.get dest)
  notify (s.set dest l) dest
    [⟨from_, from_, some (slice from_ to_ (s.get dest)), [], false⟩]

/-- `dest.addAll(from, elements)`, which notifies the listener of `dest`. -/
def destAddAll (notify : Listener α) (dest : Side) (from_ : ℕ)
    (elements : List α) (s : BidirectionalBound α) :
    Except Exn (BidirectionalBound α) := do
  let l ← addAll from_ elements (s.get dest)
  notify (s.set dest l) dest
    [⟨from_, from_ + elements.length, some [], [], false⟩]

def clearRemoved (notify : Listener α) (side : Side) (change : SubChange α)
    (s : BidirectionalBound α) : Except Exn (BidirectionalBound α) :=
  if change.wasRemoved then
    destRemove notify side.other change.from_
      (change.from_ + change.getRemovedSize) s
  else .ok s

def insertAdded (notify : Listener α) (side : Side) (change : SubChange α)
    (s : BidirectionalBound α) : Except Exn (BidirectionalBound α) :=
  if change.wasAdded then do
    let added ← subList change.from_ change.to_ (s.get side)
    destAddAll notify side.other change.from_ added s
  else .ok s

/-- The body of the loop of `onChanged` for a change of the list `side`. -/
def onSubChange (notify : Listener α) (side : Side) (s : BidirectionalBound α)
    (change : SubChange α) : Except Exn (BidirectionalBound α) :=
  if change.wasPermutated then do
    let s ← destRemove notify side.other change.from_ change.to_ s
    let elements ← subList change.from_ change.to_ (s.get side)
    destAddAll notify side.other change.from_ elements s
  else do
    let s ← clearRemoved notify side change s
    insertAdded notify side change s

/-- `onChanged`; `stack` bounds the depth of nested calls. -/
def onChanged : ℕ → Listener α
  | 0, _, _, _ => .error .stackOverflow
  | stack + 1, s, side, changes =>
      if s.updating then .ok s
      else do
        let s ← changes.foldlM (onSubChange (onChanged stack) side)
          { s with updating := true }
        return { s with updating := false }

/-- `bind(list1, list2)` copies the second list into the first one. -/
def bind (list2 : List α) : BidirectionalBound α := ⟨list2, list2, false⟩

/-- One of the two lists changes and its listener is called. -/
def step (stack : ℕ) (s : BidirectionalBound α)
    (event : Side × DocumentedChange α) : Except Exn (BidirectionalBound α) :=
  onChanged stack (s.set event.1 event.2.list) event.1 event.2.changes

end BidirectionalContentBinding

/-! ## The operations on the bound list -/

theorem subList_of_le {from_ to_ : ℕ} {l : List α} (hft : from_ ≤ to_)
    (hto : to_ ≤ l.length) : subList from_ to_ l = .ok (slice from_ to_ l) := by
  rw [subList, if_neg (by omega), if_neg (by omega)]

theorem subList_of_lt {from_ to_ : ℕ} {l : List α} (h : l.length < to_) :
    subList from_ to_ l = .error .indexOutOfBounds := by
  rw [subList, if_pos h]

theorem clearSubList_of_le {from_ to_ : ℕ} {l : List α} (hft : from_ ≤ to_)
    (hto : to_ ≤ l.length) :
    clearSubList from_ to_ l = .ok (splice from_ (to_ - from_) [] l) := by
  rw [clearSubList, subList_of_le hft hto]
  rfl

theorem addAll_splice {from_ n : ℕ} {ins l : List α} (h : from_ + n ≤ l.length) :
    addAll from_ ins (splice from_ n [] l) = .ok (splice from_ n ins l) := by
  rw [addAll, if_neg (by rw [length_splice h]; simp; omega),
    splice_delete_insert (by omega)]

/-- Removing `n` times at one index. -/
theorem foldlM_remove (from_ : ℕ) : ∀ (n start : ℕ) (l : List α),
    (List.range' start n).foldlM (fun l _ => remove from_ l) l =
      if n = 0 ∨ from_ + n ≤ l.length then .ok (splice from_ n [] l)
      else .error .indexOutOfBounds := by
  intro n
  induction n with
  | zero =>
      intro start l
      rw [if_pos (Or.inl rfl)]
      simp [splice]
      rfl
  | succ n ih =>
      intro start l
      rw [List.range'_succ, List.foldlM_cons, remove]
      by_cases hlt : from_ < l.length
      · have hlen : (l.take from_).length = from_ := by
          rw [List.length_take]; omega
        rw [if_pos hlt, except_ok_bind, ih, List.length_eraseIdx_of_lt hlt,
          List.eraseIdx_eq_take_drop_succ]
        by_cases hfit : from_ + (n + 1) ≤ l.length
        · rw [if_pos (Or.inr (by omega)), if_pos (Or.inr hfit)]
          congr 1
          unfold splice
          rw [List.nil_append, List.nil_append, List.take_left' hlen,
            List.drop_append, hlen, List.drop_eq_nil_of_le (by omega),
            List.nil_append, Nat.add_sub_cancel_left, List.drop_drop]
          congr 2
          omega
        · rw [if_neg (by omega), if_neg (by omega)]
      · rw [if_neg hlt, if_neg (by omega)]
        rfl

theorem removeRange_eq_clearSubList {from_ to_ : ℕ} (h : from_ < to_)
    (l : List α) : removeRange from_ to_ l = clearSubList from_ to_ l := by
  rw [removeRange, foldlM_remove]
  by_cases hto : to_ ≤ l.length
  · rw [if_pos (Or.inr (by omega)), clearSubList_of_le h.le hto]
  · rw [if_neg (by omega), clearSubList, subList_of_lt (by omega)]
    rfl

/-! ## What one sub-change does to the bound list -/

namespace ContentBinding

theorem onSubChange_permutation {new l : List α} {c : SubChange α}
    (hperm : c.perm ≠ []) (hft : c.from_ ≤ c.to_) (hl : c.to_ ≤ l.length)
    (hnew : c.to_ ≤ new.length) :
    onSubChange new l c =
      .ok (splice c.from_ (c.to_ - c.from_) (slice c.from_ c.to_ new) l) := by
  have hwas : c.wasPermutated = true := by
    simpa [SubChange.wasPermutated] using hperm
  rw [onSubChange, if_pos hwas, clearSubList_of_le hft hl, except_ok_bind,
    subList_of_le hft hnew, except_ok_bind]
  exact addAll_splice (by omega)

/-- Copying a permuted range needs it to be there in the final source. -/
theorem le_of_onSubChange_permutation {new l d : List α} {c : SubChange α}
    (hperm : c.perm ≠ []) (h : onSubChange new l c = .ok d) :
    c.to_ ≤ new.length := by
  have hwas : c.wasPermutated = true := by
    simpa [SubChange.wasPermutated] using hperm
  rw [onSubChange, if_pos hwas] at h
  obtain ⟨l₁, -, h⟩ := except_bind_eq_ok.mp h
  obtain ⟨l₂, hsub, -⟩ := except_bind_eq_ok.mp h
  by_contra hlt
  rw [subList_of_lt (by omega)] at hsub
  cases hsub

theorem onSubChange_addRemove {new l : List α} {c : SubChange α}
    (hperm : c.perm = []) (hupd : c.updated = false) (hft : c.from_ ≤ c.to_)
    (hl : c.from_ + c.getRemovedSize ≤ l.length) (hnew : c.to_ ≤ new.length) :
    onSubChange new l c =
      .ok (splice c.from_ c.getRemovedSize (slice c.from_ c.to_ new) l) := by
  have hwas : c.wasPermutated = false := by simp [SubChange.wasPermutated, hperm]
  have hcleared : clearRemoved c l =
      .ok (splice c.from_ c.getRemovedSize [] l) := by
    unfold clearRemoved
    by_cases hrem : c.wasRemoved = true
    · rw [if_pos hrem, clearSubList_of_le (by omega) hl, Nat.add_sub_cancel_left]
    · rw [if_neg hrem]
      have : c.getRemovedSize = 0 := by
        simpa [SubChange.wasRemoved, SubChange.getRemovedSize] using hrem
      rw [this]
      simp [splice]
  rw [onSubChange, if_neg (by simp [hwas]), hcleared, except_ok_bind, insertAdded]
  by_cases hadd : c.wasAdded = true
  · rw [if_pos hadd, subList_of_le hft hnew, except_ok_bind]
    exact addAll_splice hl
  · rw [if_neg hadd]
    have : c.to_ - c.from_ = 0 := by
      have : ¬ c.from_ < c.to_ := by
        simpa [SubChange.wasAdded, hwas, hupd] using hadd
      omega
    rw [slice, this, List.take_zero]

theorem onSubChange_update {new l : List α} {c : SubChange α}
    (hperm : c.perm = []) (hupd : c.updated = true) (hrem : c.getRemoved = []) :
    onSubChange new l c = .ok l := by
  rw [onSubChange, if_neg (by simp [SubChange.wasPermutated, hperm]),
    clearRemoved, if_neg (by simp [SubChange.wasRemoved, hrem]), except_ok_bind,
    insertAdded, if_neg (by simp [SubChange.wasAdded, hupd])]

end ContentBinding

/-! ## What a whole change does to the bound list -/

/-- The position lies in the range of one of the permutations. -/
def Covered (ps : List (SubChange α)) (j : ℕ) : Prop :=
  ∃ c ∈ ps, c.from_ ≤ j ∧ j < c.to_

/-- Copying from the final source does no harm: every permuted range still
exists there, and an element of a permuted range that is not removed afterwards
equals what the final source has at the position it had then. -/
def PermutedStay (l : List α) (ch : DocumentedChange α) : Prop :=
  (∀ c ∈ ch.permutations, c.to_ ≤ ch.list.length) ∧
  ∀ j, Covered ch.permutations j → Survives ch.edits l.length j →
    ch.list[j]? = (permuteAll ch.permutations l)[j]?

namespace ContentBinding

/-- After the permutations the bound list has the final elements in the permuted
ranges and is unchanged elsewhere, where the source is unchanged too. -/
theorem foldlM_permutations {k : Elements} {new : List α}
    {ps : List (SubChange α)} {l l' : List α} (hps : ∀ c ∈ ps, c.perm ≠ [])
    (h : ReplaysAll k new ps l l') (hfit : ∀ c ∈ ps, c.to_ ≤ new.length)
    {list : List α} (hlen : list.length = l.length) :
    ∃ d, ps.foldlM (onSubChange new) list = .ok d ∧ d.length = l'.length ∧
      (∀ j, Covered ps j → d[j]? = new[j]?) ∧
      (∀ j, ¬Covered ps j → d[j]? = list[j]? ∧ l'[j]? = l[j]?) := by
  induction h generalizing list with
  | nil l =>
      refine ⟨list, rfl, hlen, ?_, fun j _ => ⟨rfl, rfl⟩⟩
      rintro j ⟨c, hc, -⟩
      cases hc
  | @cons c cs l m l' hc hcs ih =>
      obtain ⟨hp, hto, hle, rfl⟩ :=
        replays_permutation (hps _ List.mem_cons_self) hc
      have hmoves := permute_moves hp (by omega : c.from_ + c.perm.length ≤ l.length)
      have hnew := hfit c List.mem_cons_self
      have hlen' : (splice c.from_ (c.to_ - c.from_) (slice c.from_ c.to_ new)
          list).length = (permute c.from_ c.perm l).length := by
        rw [length_splice (by omega), length_slice hnew, hmoves.length_eq]
        omega
      obtain ⟨d, hd, hdlen, hcov, hncov⟩ :=
        ih (fun c hcm => hps c (List.mem_cons_of_mem _ hcm))
          (fun c hcm => hfit c (List.mem_cons_of_mem _ hcm)) hlen'
      refine ⟨d, ?_, hdlen, ?_, ?_⟩
      · rw [List.foldlM_cons, onSubChange_permutation (hps _ List.mem_cons_self)
          (by omega) (by omega) hnew]
        exact hd
      · rintro j ⟨e, he, hj⟩
        by_cases hlater : Covered cs j
        · exact hcov j hlater
        · rcases List.mem_cons.mp he with rfl | he
          · obtain ⟨i, rfl⟩ := Nat.exists_eq_add_of_le hj.1
            have hi : i < e.to_ - e.from_ := by omega
            rw [(hncov _ hlater).1,
              getElem?_splice_mid (by rw [length_slice hnew]; exact hi) (by omega),
              getElem?_slice hi]
          · exact absurd ⟨e, he, hj⟩ hlater
      · intro j hj
        have hlater : ¬Covered cs j := fun ⟨e, he, hej⟩ =>
          hj ⟨e, List.mem_cons_of_mem _ he, hej⟩
        have hout : ¬(c.from_ ≤ j ∧ j < c.to_) := fun hin =>
          hj ⟨c, List.mem_cons_self, hin⟩
        obtain ⟨hd₁, hl₁⟩ := hncov j hlater
        rw [hd₁, hl₁]
        constructor
        · by_cases hlt : j < c.from_
          · exact getElem?_splice_of_lt hlt (by omega)
          · exact getElem?_splice_of_ge (length_slice hnew) (by omega) (by omega)
        · by_cases hjl : j < l.length
          · have := hmoves.get j hjl
            rwa [target_of_not (by omega)] at this
          · rw [List.getElem?_eq_none (by rw [hmoves.length_eq]; omega),
              List.getElem?_eq_none (by omega)]

theorem foldlM_addRemoves {k : Elements} {new : List α}
    {cs : List (SubChange α)} {l l' : List α}
    (hcs : ∀ c ∈ cs, c.perm = [] ∧ c.updated = false)
    (h : ReplaysAll k new cs l l') {list : List α}
    (hlen : list.length = l.length) :
    cs.foldlM (onSubChange new) list = .ok (spliceAll (cs.map (SubChange.edit new)) list) ∧
      l' = spliceAll (cs.map (SubChange.edit new)) l := by
  induction h generalizing list with
  | nil l => exact ⟨rfl, rfl⟩
  | @cons c cs l m l' hc _ ih =>
      obtain ⟨hperm, hupd⟩ := hcs c List.mem_cons_self
      obtain ⟨hft, hto, hle, rfl⟩ := replays_addRemove hperm hupd hc
      have hlen' : (splice c.from_ c.getRemovedSize (slice c.from_ c.to_ new)
          list).length =
          (splice c.from_ c.getRemovedSize (slice c.from_ c.to_ new) l).length := by
        rw [length_splice hle, length_splice (by omega), hlen]
      obtain ⟨hfold, hl'⟩ :=
        ih (fun c hcm => hcs c (List.mem_cons_of_mem _ hcm)) hlen'
      refine ⟨?_, hl'⟩
      rw [List.foldlM_cons, onSubChange_addRemove hperm hupd hft (by omega) hto]
      exact hfold

theorem foldlM_updates {new : List α} {cs : List (SubChange α)} {l l' : List α}
    (hcs : ∀ c ∈ cs, c.perm = [] ∧ c.updated = true)
    (h : ReplaysAll .references new cs l l') (list : List α) :
    cs.foldlM (onSubChange new) list = .ok list ∧ l' = l := by
  induction h with
  | nil l => exact ⟨rfl, rfl⟩
  | @cons c cs l m l' hc _ ih =>
      obtain ⟨hperm, hupd⟩ := hcs c List.mem_cons_self
      obtain ⟨hrem, rfl⟩ := replays_update hperm hupd hc
      obtain ⟨hfold, hl'⟩ := ih fun c hcm => hcs c (List.mem_cons_of_mem _ hcm)
      refine ⟨?_, hl'⟩
      rw [List.foldlM_cons, onSubChange_update hperm hupd hrem]
      exact hfold

theorem fit_of_foldlM_ok {new d : List α} {cs : List (SubChange α)}
    {list : List α} (h : cs.foldlM (onSubChange new) list = .ok d) :
    ∀ c ∈ cs, c.perm ≠ [] → c.to_ ≤ new.length := by
  induction cs generalizing list with
  | nil => intro c hc; cases hc
  | cons c cs ih =>
      rw [List.foldlM_cons] at h
      obtain ⟨list', hc, hcs⟩ := except_bind_eq_ok.mp h
      intro e he hperm
      rcases List.mem_cons.mp he with rfl | he
      · exact le_of_onSubChange_permutation hperm hc
      · exact ih hcs e he hperm

/-- **One change.** The bound list follows a change of its source if and only if
the elements of the permuted ranges stay. -/
theorem onChanged_mirrors_iff {ch : DocumentedChange α} {l : List α}
    (h : ch.Replays .references l) :
    onChanged ch l = .ok ch.list ↔ PermutedStay l ch := by
  obtain ⟨m, hps, hrest⟩ := ReplaysAll.append_inv h
  obtain ⟨m', hars, hups⟩ := ReplaysAll.append_inv hrest
  obtain ⟨hm, hmlen⟩ := replaysAll_permuteAll ch.isPermutation hps
  -- given that the ranges fit, both sides are runs of the same splices
  have key : (∀ c ∈ ch.permutations, c.to_ ≤ ch.list.length) →
      (onChanged ch l = .ok ch.list ↔ ∀ j, Covered ch.permutations j →
        Survives ch.edits l.length j →
          ch.list[j]? = (permuteAll ch.permutations l)[j]?) := by
    intro hfit
    obtain ⟨d, hd, hdlen, hcov, hncov⟩ :=
      foldlM_permutations ch.isPermutation hps hfit rfl
    obtain ⟨hfold, hm'⟩ := foldlM_addRemoves ch.isAddRemove hars hdlen
    obtain ⟨hupd, hlist⟩ := foldlM_updates ch.isUpdate hups
      (spliceAll (ch.addRemoves.map (SubChange.edit ch.list)) d)
    have hon : onChanged ch l = .ok (spliceAll ch.edits d) := by
      unfold onChanged DocumentedChange.changes
      rw [foldlM_append_ok hd, foldlM_append_ok hfold, hupd]
      rfl
    have hnew : ch.list = spliceAll ch.edits m := hlist.trans hm'
    have hlen : d.length = l.length := hdlen.trans hmlen
    rw [hon]
    constructor
    · intro heq j hj hsurv
      have heq' : spliceAll ch.edits d = spliceAll ch.edits m := by
        rw [← hnew]; exact Except.ok.inj heq
      rw [← hcov j hj, ← hm]
      exact (spliceAll_eq_iff hdlen).mp heq' j (by rw [hlen]; exact hsurv)
    · intro hstay
      congr 1
      rw [(spliceAll_eq_iff hdlen).mpr, ← hnew]
      intro j hsurv
      rw [hlen] at hsurv
      by_cases hj : Covered ch.permutations j
      · rw [hcov j hj, hstay j hj hsurv, hm]
      · obtain ⟨h₁, h₂⟩ := hncov j hj
        rw [h₁, h₂]
  constructor
  · intro hon
    have hfit : ∀ c ∈ ch.permutations, c.to_ ≤ ch.list.length := fun c hc =>
      fit_of_foldlM_ok hon c (List.mem_append_left _ hc) (ch.isPermutation c hc)
    exact ⟨hfit, (key hfit).mp hon⟩
  · rintro ⟨hfit, hstay⟩
    exact (key hfit).mpr hstay

end ContentBinding

/-! ## The bidirectional binding does the same -/

namespace BidirectionalContentBinding

/-- A nested notification finds `updating` set and returns. -/
def Quiet (notify : Listener α) : Prop :=
  ∀ s side changes, s.updating = true → notify s side changes = .ok s

theorem onChanged_quiet (stack : ℕ) :
    Quiet (onChanged (stack + 1) : Listener α) := by
  intro s side changes h
  rw [onChanged, if_pos h]

section Quiet

variable {notify : Listener α} (hq : Quiet notify) {s : BidirectionalBound α}
  (hs : s.updating = true) (side : Side)

include hq hs

theorem destRemove_eq {from_ to_ : ℕ} (h : from_ < to_) :
    destRemove notify side from_ to_ s =
      (clearSubList from_ to_ (s.get side)).map (s.set side) := by
  rw [destRemove, removeRange_eq_clearSubList h]
  cases clearSubList from_ to_ (s.get side) with
  | error e => rfl
  | ok l => exact hq _ _ _ (by rw [BidirectionalBound.set_updating, hs])

theorem destAddAll_eq (from_ : ℕ) (elements : List α) :
    destAddAll notify side from_ elements s =
      (addAll from_ elements (s.get side)).map (s.set side) := by
  rw [destAddAll]
  cases addAll from_ elements (s.get side) with
  | error e => rfl
  | ok l => exact hq _ _ _ (by rw [BidirectionalBound.set_updating, hs])

theorem clearRemoved_eq (c : SubChange α) :
    clearRemoved notify side c s =
      (ContentBinding.clearRemoved c (s.get side.other)).map
        (s.set side.other) := by
  unfold clearRemoved ContentBinding.clearRemoved
  by_cases hrem : c.wasRemoved = true
  · have hpos : 0 < c.getRemovedSize := by
      rw [SubChange.wasRemoved] at hrem
      exact List.length_pos_iff.mpr (by simpa using hrem)
    rw [if_pos hrem, if_pos hrem, destRemove_eq hq hs side.other (by omega)]
  · rw [if_neg hrem, if_neg hrem]
    show _ = Except.ok (s.set side.other (s.get side.other))
    rw [BidirectionalBound.set_get]

theorem insertAdded_eq (c : SubChange α) :
    insertAdded notify side c s =
      (ContentBinding.insertAdded (s.get side) c (s.get side.other)).map
        (s.set side.other) := by
  unfold insertAdded ContentBinding.insertAdded
  by_cases hadd : c.wasAdded = true
  · rw [if_pos hadd, if_pos hadd]
    cases subList c.from_ c.to_ (s.get side) with
    | error e => rfl
    | ok added => exact destAddAll_eq hq hs side.other c.from_ added
  · rw [if_neg hadd, if_neg hadd]
    show _ = Except.ok (s.set side.other (s.get side.other))
    rw [BidirectionalBound.set_get]

/-- The two listeners make the same copies. -/
theorem onSubChange_eq {c : SubChange α} (hc : c.wasPermutated → c.from_ < c.to_) :
    onSubChange notify side s c =
      (ContentBinding.onSubChange (s.get side) (s.get side.other) c).map
        (s.set side.other) := by
  unfold onSubChange ContentBinding.onSubChange
  by_cases hperm : c.wasPermutated = true
  · rw [if_pos hperm, if_pos hperm, destRemove_eq hq hs side.other (hc hperm)]
    cases clearSubList c.from_ c.to_ (s.get side.other) with
    | error e => rfl
    | ok l =>
        show (subList c.from_ c.to_ ((s.set side.other l).get side) >>= _) = _
        rw [BidirectionalBound.get_set_other, except_ok_bind]
        cases subList c.from_ c.to_ (s.get side) with
        | error e => rfl
        | ok elements =>
            rw [except_ok_bind, except_ok_bind, destAddAll_eq hq
              (by rw [BidirectionalBound.set_updating, hs]),
              BidirectionalBound.get_set]
            congr 1
            funext l'
            exact BidirectionalBound.set_set s side.other l l'
  · rw [if_neg hperm, if_neg hperm, clearRemoved_eq hq hs]
    cases ContentBinding.clearRemoved c (s.get side.other) with
    | error e => rfl
    | ok l =>
        show insertAdded notify side c (s.set side.other l) = _
        rw [insertAdded_eq hq (by rw [BidirectionalBound.set_updating, hs]),
          BidirectionalBound.get_set, BidirectionalBound.get_set_other,
          except_ok_bind]
        congr 1
        funext l'
        exact BidirectionalBound.set_set s side.other l l'

theorem foldlM_onSubChange_eq {cs : List (SubChange α)}
    (hcs : ∀ c ∈ cs, c.wasPermutated → c.from_ < c.to_) :
    cs.foldlM (onSubChange notify side) s =
      (cs.foldlM (ContentBinding.onSubChange (s.get side))
        (s.get side.other)).map (s.set side.other) := by
  induction cs generalizing s with
  | nil =>
      show Except.ok s = Except.ok (s.set side.other (s.get side.other))
      rw [BidirectionalBound.set_get]
  | cons c cs ih =>
      rw [List.foldlM_cons, List.foldlM_cons,
        onSubChange_eq hq hs side (hcs c List.mem_cons_self)]
      cases ContentBinding.onSubChange (s.get side) (s.get side.other) c with
      | error e => rfl
      | ok l =>
          show cs.foldlM (onSubChange notify side) (s.set side.other l) = _
          rw [ih (by rw [BidirectionalBound.set_updating, hs])
              (fun c hc => hcs c (List.mem_cons_of_mem _ hc)),
            BidirectionalBound.get_set, BidirectionalBound.get_set_other,
            except_ok_bind]
          congr 1
          funext l'
          exact BidirectionalBound.set_set s side.other l l'

end Quiet

/-- A change of one list does to the other one what the listener of a plain
binding does. -/
theorem step_eq (stack : ℕ) (l : List α) (side : Side) {ch : DocumentedChange α}
    (hch : ∀ c ∈ ch.changes, c.wasPermutated → c.from_ < c.to_) :
    step (stack + 2) (bind l) (side, ch) =
      (ContentBinding.onChanged ch l).map fun d =>
        ((bind l).set side ch.list).set side.other d := by
  have hother : ((bind l).set side ch.list).get side.other = l := by
    cases side <;> rfl
  have hself : ((bind l).set side ch.list).get side = ch.list :=
    BidirectionalBound.get_set _ _ _
  unfold step
  rw [onChanged, if_neg (by rw [BidirectionalBound.set_updating]; exact Bool.false_ne_true)]
  generalize hs : (bind l).set side ch.list = s at hother hself
  have hbusy : ∀ side', BidirectionalBound.get { s with updating := true } side' =
      s.get side' := fun side' => by cases side' <;> rfl
  rw [foldlM_onSubChange_eq (onChanged_quiet stack) rfl side hch, hbusy, hbusy,
    hself, hother]
  unfold ContentBinding.onChanged
  cases ch.changes.foldlM (ContentBinding.onSubChange ch.list) l with
  | error e => rfl
  | ok d =>
      have hidle : s.updating = false := by rw [← hs]; cases side <;> rfl
      show Except.ok _ = Except.ok _
      congr 1
      cases side <;> simp [BidirectionalBound.set, Side.other, hidle]

end BidirectionalContentBinding

/-! ## Runs -/

/-- After every change of the run the bound list equals its source. -/
def ContentBinding.Mirrors (l : List α) (run : List (DocumentedChange α)) : Prop :=
  ∀ pre, pre <+: run →
    ∃ s, runAll ContentBinding.step (ContentBinding.bind l) pre = .ok s ∧
      s.list = s.source

/-- After every change of the run, on either side, the two lists are equal. -/
def BidirectionalContentBinding.Mirrors (stack : ℕ) (l : List α)
    (run : List (Side × DocumentedChange α)) : Prop :=
  ∀ pre, pre <+: run →
    ∃ s, runAll (BidirectionalContentBinding.step stack)
        (BidirectionalContentBinding.bind l) pre = .ok s ∧
      s.list1 = s.list2 ∧ s.updating = false

theorem replays_from_lt_to {k : Elements} {ch : DocumentedChange α} {l : List α}
    (h : ch.Replays k l) : ∀ c ∈ ch.changes, c.wasPermutated → c.from_ < c.to_ := by
  have hall : ∀ {cs : List (SubChange α)} {l l' : List α},
      ReplaysAll k ch.list cs l l' → ∀ c ∈ cs, c.wasPermutated → c.from_ < c.to_ := by
    intro cs l l' hcs
    induction hcs with
    | nil l => intro c hc; cases hc
    | cons hc _ ih =>
        intro c hcm hperm
        rcases List.mem_cons.mp hcm with rfl | hcm
        · have hlen : c.perm.length ≠ 0 := by
            simpa [SubChange.wasPermutated] using hperm
          obtain ⟨-, hto, -⟩ := replays_permutation
            (List.length_pos_iff.mp (Nat.pos_of_ne_zero hlen)) hc
          omega
        · exact ih c hcm hperm
  exact hall h

theorem ContentBinding.step_mirrors_iff {l : List α} {ch : DocumentedChange α}
    (h : ch.Replays .references l) :
    ContentBinding.step (ContentBinding.bind l) ch =
      .ok (ContentBinding.bind ch.list) ↔ PermutedStay l ch := by
  rw [← ContentBinding.onChanged_mirrors_iff h]
  unfold ContentBinding.step ContentBinding.bind
  cases ContentBinding.onChanged ch l with
  | error e => simp
  | ok d =>
      show Except.ok (Bound.mk ch.list d) = _ ↔ _
      simp

theorem ContentBinding.mirrors_iff {l : List α} {run : List (DocumentedChange α)}
    (h : Throughout (fun l ch => ch.Replays .references l) l run) :
    Throughout PermutedStay l run ↔ ContentBinding.Mirrors l run := by
  rw [← List.map_id run] at h ⊢
  constructor
  · intro hstay pre hpre
    rw [List.map_id] at hpre
    obtain ⟨s, hs, rfl⟩ := follows_prefixes id
      (fun l s => s = ContentBinding.bind l)
      (fun l s ch ⟨hch, hC⟩ hs =>
        ⟨_, by rw [hs]; exact (ContentBinding.step_mirrors_iff hch).mpr hC, rfl⟩)
      (h.and hstay) rfl hpre
    exact ⟨_, hs, rfl⟩
  · intro hm
    rw [List.map_id] at hm
    refine throughout_of_follows id (fun l s => s = ContentBinding.bind l)
      (fun _ s => s.list = s.source) ?_ h rfl hm
    rintro l _ ch s' hch rfl hs' hgood
    have heq : s' = ContentBinding.bind ch.list := by
      obtain ⟨d, -, hd⟩ := except_bind_eq_ok.mp hs'
      cases hd
      exact congrArg (Bound.mk ch.list) hgood
    subst heq
    exact ⟨(ContentBinding.step_mirrors_iff hch).mp hs', rfl⟩

theorem BidirectionalContentBinding.step_mirrors_iff (stack : ℕ) {l : List α}
    {x : Side × DocumentedChange α} (h : x.2.Replays .references l) :
    BidirectionalContentBinding.step (stack + 2) (bind l) x =
      .ok (bind x.2.list) ↔ PermutedStay l x.2 := by
  obtain ⟨side, ch⟩ := x
  rw [← ContentBinding.onChanged_mirrors_iff h,
    step_eq stack l side (replays_from_lt_to h)]
  cases ContentBinding.onChanged ch l with
  | error e => simp [Except.map]
  | ok d => cases side <;> simp [Except.map, BidirectionalBound.set, bind, Side.other]

theorem BidirectionalContentBinding.mirrors_iff (stack : ℕ) {l : List α}
    {run : List (Side × DocumentedChange α)}
    (h : Throughout (fun l ch => ch.Replays .references l) l (run.map Prod.snd)) :
    Throughout PermutedStay l (run.map Prod.snd) ↔
      BidirectionalContentBinding.Mirrors (stack + 2) l run := by
  constructor
  · intro hstay pre hpre
    obtain ⟨s, hs, rfl⟩ := follows_prefixes Prod.snd
      (fun l s => s = BidirectionalContentBinding.bind l)
      (fun l s x ⟨hch, hC⟩ hs =>
        ⟨_, by rw [hs]; exact (step_mirrors_iff stack hch).mpr hC, rfl⟩)
      (h.and hstay) rfl hpre
    exact ⟨_, hs, rfl, rfl⟩
  · intro hm
    refine throughout_of_follows Prod.snd
      (fun l s => s = BidirectionalContentBinding.bind l)
      (fun _ s => s.list1 = s.list2 ∧ s.updating = false) ?_ h rfl hm
    rintro l _ ⟨side, ch⟩ s' hch rfl hs' ⟨heq, hidle⟩
    have hbind : s' = BidirectionalContentBinding.bind ch.list := by
      rw [step_eq stack l side (replays_from_lt_to hch)] at hs'
      cases hd : ContentBinding.onChanged ch l with
      | error e => rw [hd] at hs'; cases hs'
      | ok d =>
          rw [hd] at hs'
          cases hs'
          cases side <;> simp_all [BidirectionalBound.set, bind, Side.other]
    subst hbind
    exact ⟨(step_mirrors_iff stack hch).mp hs', rfl⟩

/-- **List content bindings.** Along every run of changes, each of which replays
its source's content, a list bound by `ContentBinding` and two lists bound by
`BidirectionalContentBinding` (whichever side changes) stay equal if and only if
the elements of permuted ranges stay throughout. -/
theorem list_content_bindings_mirror_iff (stack : ℕ) (l : List α)
    (run : List (Side × DocumentedChange α))
    (h : Throughout (fun l ch => ch.Replays .references l) l (run.map Prod.snd)) :
    Throughout PermutedStay l (run.map Prod.snd) ↔
      ContentBinding.Mirrors l (run.map Prod.snd) ∧
        BidirectionalContentBinding.Mirrors (stack + 2) l run := by
  rw [← ContentBinding.mirrors_iff h, ← BidirectionalContentBinding.mirrors_iff stack h,
    and_self]

/-- `[1, 2, 3]` is rotated, its last element replaced and its first updated. -/
def rotateAndReplaceLast : DocumentedChange ℕ where
  permutations := [⟨0, 3, some [], [2, 0, 1], false⟩]
  addRemoves := [⟨2, 3, some [1], [], false⟩]
  updates := [⟨0, 1, some [], [], true⟩]
  list := [2, 3, 9]
  isPermutation := by decide
  isAddRemove := by decide
  isUpdate := by decide
  sorted := by decide

theorem list_content_bindings_mirror_rotation :
    ContentBinding.Mirrors [1, 2, 3] [rotateAndReplaceLast] ∧
      BidirectionalContentBinding.Mirrors 2 [1, 2, 3]
        [(.second, rotateAndReplaceLast)] := by
  have hreplays : rotateAndReplaceLast.Replays .references [1, 2, 3] :=
    .cons (.permutation [1, 2, 3] (by decide) rfl rfl (by decide) rfl (by decide))
      (.cons (.addRemove [2, 3] [] rfl rfl rfl (by decide) (by decide))
        (.cons (.update [2, 3, 9] rfl rfl rfl (by decide) (by decide) (by decide))
          (.nil _)))
  apply (list_content_bindings_mirror_iff 0 [1, 2, 3]
    [(.second, rotateAndReplaceLast)] ⟨hreplays, trivial⟩).mp
  refine ⟨⟨by decide, ?_⟩, trivial⟩
  intro j _ hsurv
  have htraced : traced rotateAndReplaceLast.edits 3 =
      [.inl 0, .inl 1, .inr 9] := by decide
  rw [Survives, show [1, 2, 3].length = 3 from rfl, htraced] at hsurv
  simp only [List.mem_cons, Sum.inl.injEq, reduceCtorEq, List.not_mem_nil,
    or_false] at hsurv
  rcases hsurv with rfl | rfl <;> decide

/-- The first two elements of `[1, 2, 3, 4]` are swapped and the one that is then
first is removed. -/
def swapAndRemoveFirst : DocumentedChange ℕ where
  permutations := [⟨0, 2, some [], [1, 0], false⟩]
  addRemoves := [⟨0, 0, some [2], [], false⟩]
  updates := []
  list := [1, 3, 4]
  isPermutation := by decide
  isAddRemove := by decide
  isUpdate := DocumentedChange.no_updates
  sorted := by decide

/-- The bound lists get `3` where the source has `1`. -/
theorem permuted_element_lost_by_copying :
    swapAndRemoveFirst.Replays .references [1, 2, 3, 4] ∧
      runAll ContentBinding.step (ContentBinding.bind [1, 2, 3, 4])
        [swapAndRemoveFirst] = .ok ⟨[1, 3, 4], [3, 3, 4]⟩ ∧
      ¬ContentBinding.Mirrors [1, 2, 3, 4] [swapAndRemoveFirst] ∧
      ¬BidirectionalContentBinding.Mirrors 2 [1, 2, 3, 4]
        [(.first, swapAndRemoveFirst)] := by
  have hrun : runAll ContentBinding.step (ContentBinding.bind [1, 2, 3, 4])
      [swapAndRemoveFirst] = .ok ⟨[1, 3, 4], [3, 3, 4]⟩ := rfl
  have hrun' : runAll (BidirectionalContentBinding.step 2)
      (BidirectionalContentBinding.bind [1, 2, 3, 4])
      [(.first, swapAndRemoveFirst)] = .ok ⟨[1, 3, 4], [3, 3, 4], false⟩ := rfl
  refine ⟨?_, hrun, ?_, ?_⟩
  · exact .cons (.permutation [1, 2, 3, 4] (by decide) rfl rfl (by decide) rfl
      (by decide)) (.cons (.addRemove [] [1, 3, 4] rfl rfl rfl (by decide)
        (by decide)) (.nil _))
  · intro h
    obtain ⟨s, hs, heq⟩ := h [swapAndRemoveFirst] (List.prefix_refl _)
    rw [hrun] at hs
    cases hs
    cases heq
  · intro h
    obtain ⟨s, hs, heq, -⟩ := h [(.first, swapAndRemoveFirst)] (List.prefix_refl _)
    rw [hrun'] at hs
    cases hs
    cases heq

end JavaFx.Binding
