import JavaFx.Collections.ListChangeBuilder
import JavaFx.Lib.EditScript

/-!
# Additions and removals recorded by `ListChangeBuilder`

A sub-change of the builder is a hunk of an edit script: `removed` was
replaced by what the list now holds in `[from, to)`. Each of the builder's
operations on the recorded sub-changes is shown to enter one edit of the list
into that script. Two branches of `nextRemove` do not; `skipsNeighbour` and
`dropsAdded` say when they are taken.
-/

namespace JavaFx.Collections

open EditScript

variable {α : Type}

def SubChange.hunk (c : SubChange α) : Hunk α :=
  ⟨c.from_, c.to_, c.removed.getD []⟩

abbrev hunks (cs : List (SubChange α)) : List (Hunk α) := cs.map SubChange.hunk

theorem hunks_cons (c : SubChange α) (cs : List (SubChange α)) :
    hunks (c :: cs) = c.hunk :: hunks cs := rfl

/-! ## The branches that go wrong -/

/-- `nextRemove` extends the last sub-change to the left although the one before
it ends exactly there: the removed element belongs to that one, or lies in front
of it. -/
def skipsNeighbour (changes : List (SubChange α)) (idx : ℕ) : Bool :=
  match changes.reverse with
  | last :: prev :: _ =>
      last.to_ != idx && last.from_ == idx + 1 && prev.to_ == last.from_
  | _ => false

/-- Neither of the two fast paths of `nextRemove` on the last sub-change
applies, so `insertRemoved` is called. -/
def usesInsertRemoved (changes : List (SubChange α)) (idx : ℕ) : Bool :=
  match changes.getLast? with
  | none => true
  | some last => last.to_ != idx && last.from_ != idx + 1

/-- `nextRemove` takes an element out of the added range of a sub-change that
has removed nothing. The source then drops the sub-change and leaves the next
one unshifted, which is right only for the last sub-change, and only if the
element was all it added. -/
def dropsAdded (changes : List (SubChange α)) (idx : ℕ) : Bool :=
  usesInsertRemoved changes idx &&
    match findSubChange idx changes with
    | .negSucc _ => false
    | .ofNat i =>
        match changes[i]? with
        | none => false
        | some c => (c.removed.getD []).isEmpty &&
            !(i + 1 == changes.length && c.to_ == c.from_ + 1)

/-- `nextRemove` adds the element to a `removed` list that is `null`. -/
def addsToNull (changes : List (SubChange α)) (idx : ℕ) : Bool :=
  if usesInsertRemoved changes idx then
    match findSubChange idx changes with
    | .negSucc i =>
        if endsBefore changes i idx then
          changes[i - 1]?.any fun c => c.removed.isNone
        else if startsAt changes i (idx + 1) then
          changes[i]?.any fun c => c.removed.isNone
        else false
    | .ofNat _ => false
  else changes.getLast?.any fun c => c.removed.isNone

/-- `nextRemove` drops a sub-change that is not the last one; the one behind it
then keeps its old position. -/
def dropsInner (changes : List (SubChange α)) (idx : ℕ) : Bool :=
  usesInsertRemoved changes idx &&
    match findSubChange idx changes with
    | .negSucc _ => false
    | .ofNat i =>
        match changes[i]? with
        | none => false
        | some c => (c.removed.getD []).isEmpty && i + 1 != changes.length

/-- `nextRemove` takes an element out of the added range of a sub-change and
asks a `null` list whether it is empty. -/
def asksNull (changes : List (SubChange α)) (idx : ℕ) : Bool :=
  usesInsertRemoved changes idx &&
    match findSubChange idx changes with
    | .negSucc _ => false
    | .ofNat i =>
        match changes[i]? with
        | none => false
        | some c => c.removed.isNone && c.to_ != c.from_ + 1

/-! ## Lists of sub-changes -/

@[simp] theorem hunk_moveDown (c : SubChange α) :
    c.moveDown.hunk = c.hunk.down 1 := rfl

@[simp] theorem hunk_moveUp (n : ℕ) (c : SubChange α) :
    (c.moveUp n).hunk = c.hunk.up n := rfl

theorem hunks_moveDown (cs : List (SubChange α)) :
    hunks (cs.map SubChange.moveDown) = (hunks cs).map (Hunk.down 1) := by
  simp [hunks, Function.comp_def]

theorem hunks_moveUp (n : ℕ) (cs : List (SubChange α)) :
    hunks (cs.map (SubChange.moveUp n)) = (hunks cs).map (Hunk.up n) := by
  simp [hunks, Function.comp_def]

theorem forFrom_append (f : SubChange α → SubChange α)
    (pre post : List (SubChange α)) :
    forFrom pre.length f (pre ++ post) = pre ++ post.map f := by
  simp [forFrom]

theorem forFrom_append_cons (f : SubChange α → SubChange α)
    (pre post : List (SubChange α)) (c : SubChange α) :
    forFrom (pre.length + 1) f (pre ++ c :: post) = pre ++ c :: post.map f := by
  have := forFrom_append f (pre ++ [c]) post
  simpa using this

theorem changeAt_append (f : SubChange α → Except Exn (SubChange α))
    (pre post : List (SubChange α)) (c : SubChange α) :
    changeAt (pre ++ c :: post) pre.length f =
      (f c >>= fun c' => .ok (pre ++ c' :: post)) := by
  simp [changeAt]
  rfl

theorem getElem?_length_append_cons (pre post : List (SubChange α))
    (c : SubChange α) : (pre ++ c :: post)[pre.length]? = some c := by
  simp

theorem insertIdx_length_append (pre post : List (SubChange α))
    (c : SubChange α) : (pre ++ post).insertIdx pre.length c = pre ++ c :: post := by
  induction pre with
  | nil => simp
  | cons d pre ih =>
      rw [List.cons_append, List.length_cons, List.insertIdx_succ_cons, ih]
      rfl

theorem eraseIdx_length_append (pre post : List (SubChange α))
    (c : SubChange α) : (pre ++ c :: post).eraseIdx pre.length = pre ++ post := by
  rw [List.eraseIdx_append_of_length_le (Nat.le_refl _), Nat.sub_self]
  rfl

theorem set_length_append (pre post : List (SubChange α)) (c d : SubChange α) :
    (pre ++ c :: post).set pre.length d = pre ++ d :: post := by
  rw [List.set_append_right _ _ (Nat.le_refl _), Nat.sub_self,
    List.set_cons_zero]

theorem modify_length_append (f : SubChange α → SubChange α)
    (pre post : List (SubChange α)) (c : SubChange α) :
    (pre ++ c :: post).modify pre.length f = pre ++ f c :: post := by
  induction pre with
  | nil => rfl
  | cons d pre ih =>
      rw [List.cons_append, List.length_cons, List.modify_succ_cons, ih]
      rfl

theorem endsBefore_append_singleton (pre post : List (SubChange α))
    (c : SubChange α) (pos : ℕ) :
    endsBefore (pre ++ c :: post) (pre.length + 1) pos = (c.to_ == pos) := by
  simp [endsBefore]

theorem startsAt_append_cons (pre post : List (SubChange α))
    (c : SubChange α) (pos : ℕ) :
    startsAt (pre ++ c :: post) pre.length pos = (c.from_ == pos) := by
  simp [startsAt]

theorem startsAt_length (pre : List (SubChange α)) (pos : ℕ) :
    startsAt pre pre.length pos = false := by
  simp [startsAt]

/-! ## The binary search -/

/-- Ascending sub-changes with disjoint ranges. -/
structure InOrder (cs : List (SubChange α)) : Prop where
  le : ∀ c ∈ cs, c.from_ ≤ c.to_
  pairwise : cs.Pairwise (fun a b => a.to_ ≤ b.from_)

theorem inOrder_of_diff {p : ℕ} {O cur : List α} {cs : List (SubChange α)}
    (h : Diff p O (hunks cs) cur) : InOrder cs where
  le := fun c hc => (h.bounds c.hunk (List.mem_map_of_mem hc)).2.1
  pairwise := by
    have := h.ordered
    simp only [Ordered, hunks, List.pairwise_map] at this
    exact this

theorem InOrder.to_le_of_lt {cs : List (SubChange α)} (h : InOrder cs)
    {i j : ℕ} {a b : SubChange α} (hi : cs[i]? = some a) (hj : cs[j]? = some b)
    (hij : i < j) : a.to_ ≤ b.from_ := by
  obtain ⟨hi', rfl⟩ := List.getElem?_eq_some_iff.mp hi
  obtain ⟨hj', rfl⟩ := List.getElem?_eq_some_iff.mp hj
  exact List.pairwise_iff_getElem.mp h.pairwise i j hi' hj' hij

/-- The result of `findSubChange` on sub-changes in order. -/
inductive Found (idx : ℕ) (cs : List (SubChange α)) : ℤ → Prop where
  | inside (pre post : List (SubChange α)) (c : SubChange α) :
      cs = pre ++ c :: post → c.from_ ≤ idx → idx < c.to_ →
      Found idx cs (.ofNat pre.length)
  | between (pre post : List (SubChange α)) :
      cs = pre ++ post → (∀ c ∈ pre, c.to_ ≤ idx) →
      (∀ c ∈ post, idx < c.from_) → Found idx cs (.negSucc pre.length)

theorem findSubChangeLoop_spec {cs : List (SubChange α)} (h : InOrder cs)
    (idx : ℕ) : ∀ (fuel lo hi : ℕ), lo ≤ hi → hi ≤ cs.length → hi ≤ lo + fuel →
      (∀ i c, cs[i]? = some c → i < lo → c.to_ ≤ idx) →
      (∀ i c, cs[i]? = some c → hi ≤ i → idx < c.from_) →
      Found idx cs (findSubChangeLoop idx cs fuel lo hi) := by
  -- what the search returns once `lo` and `hi` have met
  have hmeet : ∀ lo, lo ≤ cs.length →
      (∀ i c, cs[i]? = some c → i < lo → c.to_ ≤ idx) →
      (∀ i c, cs[i]? = some c → lo ≤ i → idx < c.from_) →
      Found idx cs (.negSucc lo) := by
    intro lo hlen hbefore hafter
    have hlo : (cs.take lo).length = lo := by rw [List.length_take]; omega
    have : Found idx cs (.negSucc (cs.take lo).length) :=
      Found.between (cs.take lo) (cs.drop lo) (List.take_append_drop lo cs).symm
      (fun c hc => by
        obtain ⟨i, hi, rfl⟩ := List.mem_iff_getElem.mp hc
        rw [List.length_take] at hi
        exact hbefore i _ (by simp) (by omega))
      (fun c hc => by
        obtain ⟨i, hi, rfl⟩ := List.mem_iff_getElem.mp hc
        rw [List.length_drop] at hi
        exact hafter (lo + i) _ (by simp) (by omega))
    rwa [hlo] at this
  intro fuel
  induction fuel with
  | zero =>
      intro lo hi hle hlen hfuel hbefore hafter
      have hmet : lo = hi := by omega
      subst hmet
      exact hmeet lo hlen hbefore hafter
  | succ fuel ih =>
      intro lo hi hle hlen hfuel hbefore hafter
      rw [findSubChangeLoop]
      by_cases hlt : lo < hi
      · rw [if_pos hlt]
        have hmid : (lo + (hi - 1)) / 2 < cs.length := by omega
        simp only [List.getElem?_eq_getElem hmid]
        generalize hm : (lo + (hi - 1)) / 2 = mid at hmid
        have hget : cs[mid]? = some cs[mid] := List.getElem?_eq_getElem hmid
        have hself := h.le cs[mid] (List.getElem_mem hmid)
        by_cases hto : cs[mid].to_ ≤ idx
        · rw [if_pos hto]
          refine ih (mid + 1) hi (by omega) hlen (by omega) ?_ hafter
          intro i c hi' hlt'
          rcases Nat.lt_succ_iff_lt_or_eq.mp hlt' with hlt' | rfl
          · have := h.to_le_of_lt hi' hget hlt'
            omega
          · rw [hget] at hi'
            cases hi'
            exact hto
        · rw [if_neg hto]
          by_cases hfrom : idx < cs[mid].from_
          · rw [if_pos hfrom]
            refine ih lo mid (by omega) (by omega) (by omega) hbefore ?_
            intro i c hi' hge
            rcases Nat.eq_or_lt_of_le hge with rfl | hlt'
            · rw [hget] at hi'
              cases hi'
              exact hfrom
            · have := h.to_le_of_lt hget hi' hlt'
              omega
          · rw [if_neg hfrom]
            have hpre : (cs.take mid).length = mid := by
              rw [List.length_take]; omega
            have : Found idx cs (.ofNat (cs.take mid).length) :=
              Found.inside (cs.take mid) (cs.drop (mid + 1)) cs[mid] (by simp)
                (by omega) (by omega)
            rwa [hpre] at this
      · rw [if_neg hlt]
        have hmet : lo = hi := by omega
        subst hmet
        exact hmeet lo hlen hbefore hafter

theorem findSubChange_spec {cs : List (SubChange α)} (h : InOrder cs)
    (idx : ℕ) : Found idx cs (findSubChange idx cs) :=
  findSubChangeLoop_spec h idx cs.length 0 cs.length (Nat.zero_le _)
    (Nat.le_refl _) (by omega) (by omega)
    (fun i c hi hge => by
      obtain ⟨hlt, -⟩ := List.getElem?_eq_some_iff.mp hi
      omega)

/-! ## Removals -/

section Removals

variable {O cur : List α} {cs : List (SubChange α)} {idx : ℕ} {x : α}

theorem addRemoved_of_some {c : SubChange α} (h : c.removed.isNone = false) :
    ∃ c', c.addRemoved x = .ok c' ∧
      c'.hunk = ⟨c.from_, c.to_, c.hunk.old ++ [x]⟩ := by
  cases hr : c.removed with
  | none => rw [hr] at h; cases h
  | some r =>
      refine ⟨_, by rw [SubChange.addRemoved, hr], ?_⟩
      simp [SubChange.hunk, hr]

theorem addRemovedFirst_of_some {c : SubChange α}
    (h : c.removed.isNone = false) :
    ∃ c', c.moveDown.addRemovedFirst x = .ok c' ∧
      c'.hunk = ⟨c.from_ - 1, c.to_ - 1, x :: c.hunk.old⟩ := by
  cases hr : c.removed with
  | none => rw [hr] at h; cases h
  | some r =>
      refine ⟨_, by rw [SubChange.addRemovedFirst, SubChange.moveDown, hr], ?_⟩
      simp [SubChange.hunk, hr]

/-- A kept element right behind the sub-change `c` is appended to what `c`
removed. -/
theorem diff_append_removed {pre post : List (SubChange α)} {c : SubChange α}
    (h : Diff 0 O (hunks (pre ++ c :: post)) cur) (hx : cur[idx]? = some x)
    (hto : c.to_ = idx) (hpost : ∀ y ∈ post, idx < y.from_) :
    Diff 0 O (hunks pre ++ ⟨c.from_, c.to_, c.hunk.old ++ [x]⟩ ::
      (hunks post).map (Hunk.down 1)) (cur.eraseIdx idx) := by
  have hord := inOrder_of_diff h
  have hsplit : hunks (pre ++ c :: post) = hunks (pre ++ [c]) ++ hunks post := by
    simp [hunks]
  rw [hsplit] at h
  have hdel := h.delete_kept hx
    (fun y hy => by
      obtain ⟨d, hd, rfl⟩ := List.mem_map.mp hy
      rcases List.mem_append.mp hd with hd | hd
      · have := (List.pairwise_append.mp hord.pairwise).2.2 d hd c (by simp)
        have := hord.le c (by simp)
        simp only [SubChange.hunk]
        omega
      · simp only [List.mem_singleton] at hd
        subst hd
        exact Nat.le_of_eq hto)
    (fun y hy => by
      obtain ⟨d, hd, rfl⟩ := List.mem_map.mp hy
      exact hpost d hd)
  rw [hunks, List.map_append, List.append_assoc] at hdel
  have hjoin := Diff.join (hunks pre) (a := c.hunk) hdel hto
  simpa [SubChange.hunk, hto] using hjoin

/-- A kept element right in front of `c` is prepended to what `c` removed. -/
theorem diff_prepend_removed {pre post : List (SubChange α)} {c : SubChange α}
    (h : Diff 0 O (hunks (pre ++ c :: post)) cur) (hx : cur[idx]? = some x)
    (hfrom : c.from_ = idx + 1) (hpre : ∀ y ∈ pre, y.to_ ≤ idx) :
    Diff 0 O (hunks pre ++ ⟨c.from_ - 1, c.to_ - 1, x :: c.hunk.old⟩ ::
      (hunks post).map (Hunk.down 1)) (cur.eraseIdx idx) := by
  have hord := inOrder_of_diff h
  rw [hunks, List.map_append] at h
  have hdel := h.delete_kept hx
    (fun y hy => by
      obtain ⟨d, hd, rfl⟩ := List.mem_map.mp hy
      exact hpre d hd)
    (fun y hy => by
      obtain ⟨d, hd, rfl⟩ := List.mem_map.mp hy
      rcases List.mem_cons.mp hd with rfl | hd
      · simp only [SubChange.hunk]
        omega
      · have h₁ := (List.pairwise_append.mp hord.pairwise).2.1
        have h₂ := (List.pairwise_cons.mp h₁).1 d hd
        have h₃ := hord.le c (by simp)
        simp only [SubChange.hunk]
        omega)
  rw [List.map_cons, List.map_cons] at hdel
  have hjoin := Diff.join _ hdel (by simp only [Hunk.down, SubChange.hunk]; omega)
  simpa [SubChange.hunk, Hunk.down, hfrom] using hjoin

/-- The last sub-change, as the fast paths see it. -/
theorem eq_append_of_getLast? {last : SubChange α}
    (h : cs.getLast? = some last) :
    ∃ pre, cs = pre ++ [last] ∧ cs.length - 1 = pre.length := by
  obtain ⟨pre, rfl⟩ := List.getLast?_eq_some_iff.mp h
  exact ⟨pre, rfl, by simp⟩

/-- Removing an element from the middle of what `c` added. -/
theorem insertRemoved_inside_diff {pre post : List (SubChange α)}
    {c : SubChange α} (h : Diff 0 O (hunks (pre ++ c :: post)) cur)
    (hfind : findSubChange idx (pre ++ c :: post) = .ofNat pre.length)
    (hfrom : c.from_ ≤ idx) (hto : idx < c.to_)
    (hdrop : ((c.removed.getD []).isEmpty &&
      !(pre.length + 1 == (pre ++ c :: post).length &&
        c.to_ == c.from_ + 1)) = false) :
    ∃ cs', insertRemoved idx x (pre ++ c :: post) = .ok cs' ∧
      Diff 0 O (hunks cs') (cur.eraseIdx idx) := by
  have hdel := Diff.delete_added (h := c.hunk)
    (by simpa [hunks] using h) hfrom hto
  simp only [insertRemoved, hfind, getElem?_length_append_cons]
  rcases hr : c.removed.getD [] with _ | ⟨y, ys⟩
  · -- nothing removed: the sub-change goes, and it was the last one
    rw [hr] at hdrop
    simp only [List.isEmpty_nil, Bool.true_and, Bool.not_eq_false',
      Bool.and_eq_true, beq_iff_eq, List.length_append, List.length_cons] at hdrop
    obtain ⟨hlen, hone⟩ := hdrop
    have hpost : post = [] := List.eq_nil_of_length_eq_zero (by omega)
    subst hpost
    have herase : forFrom (pre.length + 1) SubChange.moveDown
        ((pre ++ [c]).eraseIdx pre.length) = pre := by
      rw [eraseIdx_length_append, List.append_nil, forFrom,
        List.take_of_length_le (Nat.le_succ _),
        List.drop_of_length_le (Nat.le_succ _), List.map_nil, List.append_nil]
    have hpre : Diff 0 O (hunks pre) (cur.eraseIdx idx) := by
      have := hdel.erase_trivial _ (by simp only [SubChange.hunk]; omega) hr
      simpa using this
    cases hrem : c.removed with
    | none =>
        refine ⟨pre, ?_, hpre⟩
        rw [if_pos ⟨by omega, rfl⟩, herase]
        rfl
    | some r =>
        rw [hrem, Option.getD_some] at hr
        subst hr
        refine ⟨pre, ?_, hpre⟩
        rw [if_neg (by simp)]
        simp only [List.isEmpty_nil, if_true, herase]
        rfl
  · have hrem : c.removed = some (y :: ys) := by
      cases hc : c.removed with
      | none => rw [hc] at hr; cases hr
      | some r => rw [hc, Option.getD_some] at hr; rw [hr]
    refine ⟨_, by simp only [hrem, reduceCtorEq, and_false, if_false,
      List.isEmpty_cons]; rfl, ?_⟩
    rw [set_length_append, forFrom_append_cons, hunks, List.map_append,
      List.map_cons, ← hunks, ← hunks, hunks_moveDown]
    simpa [SubChange.hunk, hrem] using hdel

/-- Removing an element that was there before the block. -/
theorem insertRemoved_between_diff {pre post : List (SubChange α)}
    (h : Diff 0 O (hunks (pre ++ post)) cur) (hx : cur[idx]? = some x)
    (hfind : findSubChange idx (pre ++ post) = .negSucc pre.length)
    (hpre : ∀ c ∈ pre, c.to_ ≤ idx) (hpost : ∀ c ∈ post, idx < c.from_)
    (hnull : (if endsBefore (pre ++ post) pre.length idx then
        (pre ++ post)[pre.length - 1]?.any fun c => c.removed.isNone
      else if startsAt (pre ++ post) pre.length (idx + 1) then
        (pre ++ post)[pre.length]?.any fun c => c.removed.isNone
      else false) = false) :
    ∃ cs', insertRemoved idx x (pre ++ post) = .ok cs' ∧
      Diff 0 O (hunks cs') (cur.eraseIdx idx) := by
  simp only [insertRemoved, hfind]
  by_cases hends : endsBefore (pre ++ post) pre.length idx = true
  · -- the sub-change in front ends at `idx`
    rcases List.eq_nil_or_concat' pre with rfl | ⟨pre', c, rfl⟩
    · simp [endsBefore] at hends
    · simp only [List.length_append,
        List.length_singleton, List.append_assoc, List.singleton_append,
        Nat.add_sub_cancel] at hends hnull ⊢
      rw [if_pos hends] at hnull ⊢
      rw [endsBefore_append_singleton, beq_iff_eq] at hends
      rw [getElem?_length_append_cons, Option.any_some] at hnull
      obtain ⟨c', hc', hhunk⟩ := addRemoved_of_some (x := x) hnull
      refine ⟨_, by rw [changeAt_append, hc']; rfl, ?_⟩
      rw [forFrom_append_cons, hunks, List.map_append, List.map_cons, hhunk,
        ← hunks, ← hunks, hunks_moveDown]
      exact diff_append_removed (by simpa using h) hx hends hpost
  · rw [if_neg hends] at hnull ⊢
    by_cases hstarts : startsAt (pre ++ post) pre.length (idx + 1) = true
    · -- the sub-change behind starts at `idx + 1`
      rw [if_pos hstarts] at hnull ⊢
      rcases post with _ | ⟨c, post⟩
      · rw [List.append_nil, startsAt_length] at hstarts
        cases hstarts
      · rw [startsAt_append_cons, beq_iff_eq] at hstarts
        rw [getElem?_length_append_cons, Option.any_some] at hnull
        obtain ⟨c', hc', hhunk⟩ := addRemovedFirst_of_some (x := x) hnull
        refine ⟨_, by rw [changeAt_append, hc']; rfl, ?_⟩
        rw [forFrom_append_cons, hunks, List.map_append, List.map_cons, hhunk,
          ← hunks, ← hunks, hunks_moveDown]
        exact diff_prepend_removed h hx hstarts hpre
    · rw [if_neg hstarts]
      refine ⟨_, rfl, ?_⟩
      rw [insertIdx_length_append, forFrom_append_cons, hunks, List.map_append,
        List.map_cons, ← hunks, ← hunks, hunks_moveDown]
      rw [hunks, List.map_append] at h
      exact h.delete_kept hx
        (fun y hy => by
          obtain ⟨d, hd, rfl⟩ := List.mem_map.mp hy
          exact hpre d hd)
        (fun y hy => by
          obtain ⟨d, hd, rfl⟩ := List.mem_map.mp hy
          exact hpost d hd)

theorem insertRemoved_diff (h : Diff 0 O (hunks cs) cur)
    (hx : cur[idx]? = some x) (huse : usesInsertRemoved cs idx = true)
    (hdrop : dropsAdded cs idx = false) (hnull : addsToNull cs idx = false) :
    ∃ cs', insertRemoved idx x cs = .ok cs' ∧
      Diff 0 O (hunks cs') (cur.eraseIdx idx) := by
  have hfound := findSubChange_spec (inOrder_of_diff h) idx
  rw [dropsAdded, huse, Bool.true_and] at hdrop
  rw [addsToNull, if_pos huse] at hnull
  generalize hfind : findSubChange idx cs = r at hfound
  rw [hfind] at hdrop hnull
  cases hfound with
  | inside pre post c hcs hfrom hto =>
      subst hcs
      simp only [getElem?_length_append_cons] at hdrop
      exact insertRemoved_inside_diff h hfind hfrom hto hdrop
  | between pre post hcs hpre hpost =>
      subst hcs
      exact insertRemoved_between_diff h hx hfind hpre hpost hnull

open ListChangeBuilder in
/-- **One removal.** Outside the two defective branches, and when no `null`
list is met, `nextRemove` enters the removal into the recorded script. -/
theorem removeChange_diff (h : Diff 0 O (hunks cs) cur)
    (hx : cur[idx]? = some x) (hskip : skipsNeighbour cs idx = false)
    (hdrop : dropsAdded cs idx = false) (hnull : addsToNull cs idx = false) :
    ∃ cs', removeChange idx x cs = .ok cs' ∧
      Diff 0 O (hunks cs') (cur.eraseIdx idx) := by
  rw [removeChange]
  cases hlast : cs.getLast? with
  | none =>
      exact insertRemoved_diff h hx (by rw [usesInsertRemoved, hlast]) hdrop hnull
  | some last =>
      obtain ⟨pre, rfl, hlen⟩ := eq_append_of_getLast? hlast
      simp only [hlen]
      have hord := inOrder_of_diff h
      simp only [addsToNull, usesInsertRemoved, hlast, Option.any_some] at hnull
      by_cases hto : last.to_ = idx
      · rw [if_pos hto]
        have hsome : last.removed.isNone = false := by simpa [hto] using hnull
        obtain ⟨c', hc', hhunk⟩ := addRemoved_of_some (x := x) hsome
        refine ⟨_, by rw [changeAt_append, hc']; rfl, ?_⟩
        rw [hunks, List.map_append, List.map_singleton, hhunk]
        exact diff_append_removed h hx hto (by simp)
      · rw [if_neg hto]
        by_cases hfrom : last.from_ = idx + 1
        · rw [if_pos hfrom]
          have hsome : last.removed.isNone = false := by
            simpa [hto, hfrom] using hnull
          obtain ⟨c', hc', hhunk⟩ := addRemovedFirst_of_some (x := x) hsome
          refine ⟨_, by rw [changeAt_append, hc']; rfl, ?_⟩
          rw [hunks, List.map_append, List.map_singleton, hhunk]
          refine diff_prepend_removed h hx hfrom ?_
          -- `skipsNeighbour` keeps the sub-change before the last one clear
          intro y hy
          have hle := (List.pairwise_append.mp hord.pairwise).2.2 y hy last
            (by simp)
          rcases List.eq_nil_or_concat' pre with rfl | ⟨pre', c, rfl⟩
          · cases hy
          · have hc : c.to_ ≠ last.from_ := by
              intro heq
              simp [skipsNeighbour, hto, hfrom, heq] at hskip
            have hcle := (List.pairwise_append.mp hord.pairwise).2.2 c
              (by simp) last (by simp)
            rcases List.mem_append.mp hy with hy | hy
            · have h₁ := (List.pairwise_append.mp hord.pairwise).1
              have h₂ := (List.pairwise_append.mp h₁).2.2 y hy c (by simp)
              have h₃ := hord.le c (by simp)
              omega
            · simp only [List.mem_singleton] at hy
              subst hy
              omega
        · rw [if_neg hfrom]
          refine insertRemoved_diff h hx ?_ hdrop ?_
          · simp [usesInsertRemoved, hto, hfrom]
          · simpa [addsToNull, usesInsertRemoved] using hnull

theorem removeChange_of_uses (huse : usesInsertRemoved cs idx = true) :
    ListChangeBuilder.removeChange idx x cs = insertRemoved idx x cs := by
  rw [ListChangeBuilder.removeChange]
  cases hlast : cs.getLast? with
  | none => rfl
  | some last =>
      rw [usesInsertRemoved, hlast] at huse
      simp only [Bool.and_eq_true, bne_iff_ne] at huse
      simp only [if_neg huse.1, if_neg huse.2]

/-- Dropping the last sub-change leaves a script, if only from another list. -/
theorem removeChange_drop_last {pre : List (SubChange α)} {c : SubChange α}
    (h : Diff 0 O (hunks (pre ++ [c])) cur)
    (huse : usesInsertRemoved (pre ++ [c]) idx = true)
    (hfind : findSubChange idx (pre ++ [c]) = .ofNat pre.length)
    (hfrom : c.from_ ≤ idx) (hempty : (c.removed.getD []).isEmpty = true)
    (hask : (c.removed.isNone && c.to_ != c.from_ + 1) = false) :
    ListChangeBuilder.removeChange idx x (pre ++ [c]) = .ok pre ∧
      ∃ O', Diff 0 O' (hunks pre) (cur.eraseIdx idx) := by
  have herase : forFrom (pre.length + 1) SubChange.moveDown
      ((pre ++ [c]).eraseIdx pre.length) = pre := by
    rw [eraseIdx_length_append, List.append_nil, forFrom,
      List.take_of_length_le (Nat.le_succ _),
      List.drop_of_length_le (Nat.le_succ _), List.map_nil, List.append_nil]
  constructor
  · rw [removeChange_of_uses huse]
    simp only [insertRemoved, hfind, getElem?_length_append_cons, herase]
    cases hr : c.removed with
    | none =>
        rw [hr] at hask
        have hto : c.to_ = c.from_ + 1 := by simpa using hask
        rw [if_pos ⟨by omega, rfl⟩]
        rfl
    | some r =>
        rw [hr, Option.getD_some] at hempty
        simp only [reduceCtorEq, and_false, if_false, hempty, if_true]
        rfl
  · have hb := h.bounds c.hunk (by simp [hunks])
    have hord := List.pairwise_append.mp (inOrder_of_diff h).pairwise
    rw [hunks, List.map_append] at h
    obtain ⟨O₁, O₂, cur₁, cur₂, rfl, rfl, hlen, h₁, -⟩ :=
      h.split_at (Nat.zero_le _) (q := c.from_)
        (by simp only [SubChange.hunk] at hb; omega)
        (fun y hy => by
          obtain ⟨d, hd, rfl⟩ := List.mem_map.mp hy
          exact hord.2.2 d hd c (by simp))
        (fun y hy => by
          rw [List.map_singleton, List.mem_singleton] at hy
          rw [hy]
          exact Nat.le_refl _)
    refine ⟨O₁ ++ cur₂.eraseIdx (idx - cur₁.length), ?_⟩
    rw [List.eraseIdx_append_of_length_le (by omega)]
    have := h₁.append (Diff.nil _ (cur₂.eraseIdx (idx - cur₁.length)))
    rwa [List.append_nil] at this

/-- **One removal, with less asked.** The sub-changes stay in order, whether or
not they still describe the original list. -/
theorem removeChange_ordered (h : Diff 0 O (hunks cs) cur)
    (hx : cur[idx]? = some x) (hskip : skipsNeighbour cs idx = false)
    (hinner : dropsInner cs idx = false) (hask : asksNull cs idx = false)
    (hnull : addsToNull cs idx = false) :
    ∃ cs' O', ListChangeBuilder.removeChange idx x cs = .ok cs' ∧
      Diff 0 O' (hunks cs') (cur.eraseIdx idx) := by
  cases hdrop : dropsAdded cs idx with
  | false =>
      obtain ⟨cs', hcs', hdiff⟩ := removeChange_diff h hx hskip hdrop hnull
      exact ⟨cs', O, hcs', hdiff⟩
  | true =>
      rw [dropsAdded, Bool.and_eq_true] at hdrop
      obtain ⟨huse, hdrop⟩ := hdrop
      rw [dropsInner, huse, Bool.true_and] at hinner
      rw [asksNull, huse, Bool.true_and] at hask
      have hfound := findSubChange_spec (inOrder_of_diff h) idx
      generalize hfind : findSubChange idx cs = r at hfound
      rw [hfind] at hdrop hinner hask
      cases hfound with
      | between pre post hcs hpre hpost => cases hdrop
      | inside pre post c hcs hfrom hto =>
          subst hcs
          simp only [getElem?_length_append_cons] at hdrop hinner hask
          rw [Bool.and_eq_true] at hdrop
          rw [hdrop.1, Bool.true_and] at hinner
          have hpost : post = [] := by
            refine List.eq_nil_of_length_eq_zero ?_
            simp only [List.length_append, List.length_cons, bne_eq_false_iff_eq]
              at hinner
            omega
          subst hpost
          obtain ⟨hret, O', hdiff⟩ := removeChange_drop_last (x := x) h huse hfind
            hfrom hdrop.1 hask
          exact ⟨pre, O', hret, hdiff⟩

end Removals

/-! ## Additions -/

section Additions

variable {O cur : List α} {cs : List (SubChange α)} {from_ : ℕ}

/-- A block inserted into the range of `c` or right behind it. -/
theorem diff_extend_added {pre post : List (SubChange α)} {c c' : SubChange α}
    (h : Diff 0 O (hunks (pre ++ c :: post)) cur) (xs : List α)
    (hfrom : c.from_ ≤ from_) (hto : from_ ≤ c.to_)
    (hc' : c'.hunk = ⟨c.from_, c.to_ + xs.length, c.hunk.old⟩) :
    Diff 0 O (hunks (pre ++ c' :: post.map (SubChange.moveUp xs.length)))
      (cur.take from_ ++ (xs ++ cur.drop from_)) := by
  have hins := Diff.insert_added (h := c.hunk)
    (by simpa [hunks] using h) xs hfrom hto
  rw [hunks, List.map_append, List.map_cons, hc', ← hunks, ← hunks, hunks_moveUp]
  exact hins

theorem insertAdd_diff (h : Diff 0 O (hunks cs) cur) (xs : List α)
    (hf : from_ ≤ cur.length) :
    Diff 0 O (hunks (insertAdd from_ (from_ + xs.length) cs))
      (cur.take from_ ++ (xs ++ cur.drop from_)) := by
  have hord := inOrder_of_diff h
  have hfound := findSubChange_spec hord from_
  simp only [insertAdd, Nat.add_sub_cancel_left]
  generalize findSubChange from_ cs = r at hfound
  cases hfound with
  | inside pre post c hcs hlo hhi =>
      subst hcs
      simp only [modify_length_append, forFrom_append_cons]
      exact diff_extend_added h xs hlo (Nat.le_of_lt hhi) rfl
  | between pre post hcs hpre hpost =>
      subst hcs
      by_cases hends : endsBefore (pre ++ post) pre.length from_ = true
      · rcases List.eq_nil_or_concat' pre with rfl | ⟨pre', c, rfl⟩
        · simp [endsBefore] at hends
        · simp only [List.length_append, List.length_singleton,
            List.append_assoc, List.singleton_append, Nat.add_sub_cancel]
            at hends h ⊢
          rw [if_pos hends, modify_length_append, forFrom_append_cons]
          rw [endsBefore_append_singleton, beq_iff_eq] at hends
          exact diff_extend_added h xs (hends ▸ hord.le c (by simp))
            (Nat.le_of_eq hends.symm) (by rw [hends]; rfl)
      · simp only [if_neg hends]
        rw [insertIdx_length_append, forFrom_append_cons, hunks, List.map_append,
          List.map_cons, ← hunks, ← hunks, hunks_moveUp]
        rw [hunks, List.map_append] at h
        exact h.insert_kept xs hf
          (fun y hy => by
            obtain ⟨d, hd, rfl⟩ := List.mem_map.mp hy
            exact hpre d hd)
          (fun y hy => by
            obtain ⟨d, hd, rfl⟩ := List.mem_map.mp hy
            exact Nat.le_of_lt (hpost d hd))

open ListChangeBuilder in
/-- **One addition.** `nextAdd` always enters the added block into the recorded
script. -/
theorem addChange_diff (h : Diff 0 O (hunks cs) cur) (xs : List α)
    (hf : from_ ≤ cur.length) :
    Diff 0 O (hunks (addChange from_ (from_ + xs.length) cs))
      (cur.take from_ ++ (xs ++ cur.drop from_)) := by
  rw [addChange]
  cases hlast : cs.getLast? with
  | none => exact insertAdd_diff h xs hf
  | some last =>
      obtain ⟨pre, rfl, hlen⟩ := eq_append_of_getLast? hlast
      have hle := (inOrder_of_diff h).le last (by simp)
      simp only [hlen, Nat.add_sub_cancel_left]
      by_cases hto : last.to_ = from_
      · rw [if_pos hto, set_length_append]
        exact diff_extend_added h xs (hto ▸ hle) (Nat.le_of_eq hto.symm)
          (by rw [hto]; rfl)
      · rw [if_neg hto]
        by_cases hmid : last.from_ ≤ from_ ∧ from_ < last.to_
        · rw [if_pos hmid, set_length_append]
          exact diff_extend_added h xs hmid.1 (Nat.le_of_lt hmid.2) rfl
        · rw [if_neg hmid]
          exact insertAdd_diff h xs hf

end Additions

/-! ## Compression -/

/-- Within a run of touching sub-changes, `compress` meets a `null` list after
it has collected a list: `removed` says whether it has, `to_` is where the run
ends so far. -/
def meetsNull (removed : Bool) (to_ : ℕ) : List (SubChange α) → Bool
  | [] => false
  | cur :: rest =>
      if to_ = cur.from_ then
        (removed && cur.removed.isNone) ||
          meetsNull (removed || cur.removed.isSome) cur.to_ rest
      else meetsNull cur.removed.isSome cur.to_ rest

def compressMeetsNull : List (SubChange α) → Bool
  | [] => false
  | prev :: rest => meetsNull prev.removed.isSome prev.to_ rest

theorem mergeRemoved_of_safe {a b : Option (List α)}
    (h : (a.isSome && b.isNone) = false) :
    ∃ r, mergeRemoved a b = .ok r ∧ r.isSome = (a.isSome || b.isSome) ∧
      r.getD [] = a.getD [] ++ b.getD [] := by
  cases a <;> cases b <;> simp_all [mergeRemoved]

theorem compressFrom_diff (rest : List (SubChange α)) :
    ∀ (prev : SubChange α) (p : ℕ) (O cur : List α),
      Diff p O (hunks (prev :: rest)) cur →
      meetsNull prev.removed.isSome prev.to_ rest = false →
      ∃ cs', compressFrom prev rest = .ok cs' ∧ Diff p O (hunks cs') cur := by
  induction rest with
  | nil =>
      intro prev p O cur h _
      exact ⟨_, rfl, h⟩
  | cons c rest ih =>
      intro prev p O cur h hsafe
      rw [compressFrom]
      rw [meetsNull] at hsafe
      by_cases htouch : prev.to_ = c.from_
      · rw [if_pos htouch, Bool.or_eq_false_iff] at hsafe
        rw [if_pos htouch]
        obtain ⟨r, hr, hsome, hgetD⟩ := mergeRemoved_of_safe hsafe.1
        have hjoin := Diff.join [] (show Diff p O
          ([] ++ prev.hunk :: c.hunk :: hunks rest) cur from h) htouch
        obtain ⟨cs', hcs', hdiff⟩ := ih
          { prev with to_ := c.to_, removed := r } p O cur
          (by simpa [SubChange.hunk, hgetD] using hjoin)
          (by rw [hsome]; exact hsafe.2)
        exact ⟨cs', by rw [hr]; exact hcs', hdiff⟩
      · rw [if_neg htouch] at hsafe ⊢
        cases h with
        | cons _ K A O' cur' _ _ hlo hhi htail =>
            obtain ⟨cs', hcs', hdiff⟩ := ih c _ O' cur' htail hsafe
            exact ⟨prev :: cs', by rw [hcs']; rfl,
              Diff.cons p K A O' cur' prev.hunk _ hlo hhi hdiff⟩

/-- **Compression** keeps the recorded script, unless it meets a `null` list. -/
theorem compress_diff {O cur : List α} {cs : List (SubChange α)}
    (h : Diff 0 O (hunks cs) cur) (hsafe : compressMeetsNull cs = false) :
    ∃ cs', compress cs = .ok cs' ∧ Diff 0 O (hunks cs') cur := by
  cases cs with
  | nil => exact ⟨[], rfl, h⟩
  | cons prev rest => exact compressFrom_diff rest prev 0 O cur h hsafe

/-! ## The kind of a sub-change

The three lists of the builder never mix: no operation turns an addition or
removal into a permutation or an update. -/

def SubChange.IsAddRemove (c : SubChange α) : Prop :=
  c.perm = [] ∧ c.updated = false

def SubChange.IsUpdate (c : SubChange α) : Prop :=
  c.removed = none ∧ c.perm = [] ∧ c.updated = true

section Kinds

variable {P : SubChange α → Prop} {cs : List (SubChange α)}

theorem forall_mem_set (h : ∀ c ∈ cs, P c) {d : SubChange α} (hd : P d) (i : ℕ) :
    ∀ c ∈ cs.set i d, P c := by
  intro c hc
  rcases List.mem_or_eq_of_mem_set hc with hc | rfl
  · exact h c hc
  · exact hd

theorem forall_mem_insertIdx (h : ∀ c ∈ cs, P c) {d : SubChange α} (hd : P d)
    (i : ℕ) : ∀ c ∈ cs.insertIdx i d, P c := by
  intro c hc
  rcases List.eq_or_mem_of_mem_insertIdx hc with rfl | hc
  · exact hd
  · exact h c hc

theorem forall_mem_eraseIdx (h : ∀ c ∈ cs, P c) (i : ℕ) :
    ∀ c ∈ cs.eraseIdx i, P c :=
  fun c hc => h c (List.mem_of_mem_eraseIdx hc)

theorem forall_mem_modify (h : ∀ c ∈ cs, P c) {f : SubChange α → SubChange α}
    (hf : ∀ c, P c → P (f c)) (i : ℕ) : ∀ c ∈ cs.modify i f, P c := by
  intro c hc
  obtain ⟨k, hk, rfl⟩ := List.mem_iff_getElem.mp hc
  rw [List.getElem_modify]
  split
  · exact hf _ (h _ (List.getElem_mem _))
  · exact h _ (List.getElem_mem _)

theorem forall_mem_forFrom (h : ∀ c ∈ cs, P c) {f : SubChange α → SubChange α}
    (hf : ∀ c, P c → P (f c)) (k : ℕ) : ∀ c ∈ forFrom k f cs, P c := by
  intro c hc
  rcases List.mem_append.mp hc with hc | hc
  · exact h c (List.mem_of_mem_take hc)
  · obtain ⟨d, hd, rfl⟩ := List.mem_map.mp hc
    exact hf d (h d (List.mem_of_mem_drop hd))

theorem forall_mem_changeAt (h : ∀ c ∈ cs, P c) {i : ℕ}
    {f : SubChange α → Except Exn (SubChange α)} {cs' : List (SubChange α)}
    (hf : ∀ c c', P c → f c = .ok c' → P c') (hcs' : changeAt cs i f = .ok cs') :
    ∀ c ∈ cs', P c := by
  rw [changeAt] at hcs'
  cases hi : cs[i]? with
  | none => rw [hi] at hcs'; cases hcs'
  | some c =>
      rw [hi] at hcs'
      obtain ⟨c', hc', hset⟩ := except_bind_eq_ok.mp hcs'
      cases hset
      exact forall_mem_set h (hf c c' (h c (List.mem_of_getElem? hi)) hc') i

/-- A property that recording additions and removals does not touch: it holds
of every new sub-change and survives changes of range and removed list. -/
structure Stable (P : SubChange α → Prop) : Prop where
  range : ∀ c f t, P c → P { c with from_ := f, to_ := t }
  removed : ∀ c r, P c → P { c with removed := some r }
  fresh : ∀ f t r, P ⟨f, t, some r, [], false⟩

theorem stable_isAddRemove : Stable (SubChange.IsAddRemove (α := α)) where
  range := fun _ _ _ h => h
  removed := fun _ _ h => h
  fresh := fun _ _ _ => ⟨rfl, rfl⟩

theorem stable_removed_isSome :
    Stable (fun c : SubChange α => c.removed.isSome = true) where
  range := fun _ _ _ h => h
  removed := fun _ _ _ => rfl
  fresh := fun _ _ _ => rfl

theorem Stable.addRemoved (hP : Stable P) {x : α} {c c' : SubChange α} (h : P c)
    (hc' : c.addRemoved x = .ok c') : P c' := by
  rw [SubChange.addRemoved] at hc'
  cases hr : c.removed with
  | none => rw [hr] at hc'; cases hc'
  | some r => rw [hr] at hc'; cases hc'; exact hP.removed c _ h

theorem Stable.addRemovedFirst (hP : Stable P) {x : α} {c c' : SubChange α}
    (h : P c) (hc' : c.moveDown.addRemovedFirst x = .ok c') : P c' := by
  rw [SubChange.addRemovedFirst] at hc'
  cases hr : c.moveDown.removed with
  | none => rw [hr] at hc'; cases hc'
  | some r =>
      rw [hr] at hc'
      cases hc'
      exact hP.removed _ _ (hP.range c _ _ h)

theorem Stable.insertRemoved (hP : Stable P) (h : ∀ c ∈ cs, P c) {idx : ℕ}
    {x : α} {cs' : List (SubChange α)}
    (hcs' : insertRemoved idx x cs = .ok cs') : ∀ c ∈ cs', P c := by
  have hdown : ∀ c : SubChange α, P c → P c.moveDown := fun c => hP.range c _ _
  rw [Collections.insertRemoved] at hcs'
  cases hfind : findSubChange idx cs with
  | negSucc i =>
      simp only [hfind] at hcs'
      split at hcs'
      · obtain ⟨cs₁, h₁, hret⟩ := except_bind_eq_ok.mp hcs'
        cases hret
        exact forall_mem_forFrom (forall_mem_changeAt h
          (fun _ _ hc => hP.addRemoved hc) h₁) hdown _
      · split at hcs'
        · obtain ⟨cs₁, h₁, hret⟩ := except_bind_eq_ok.mp hcs'
          cases hret
          exact forall_mem_forFrom (forall_mem_changeAt h
            (fun _ _ hc => hP.addRemovedFirst hc) h₁) hdown _
        · cases hcs'
          exact forall_mem_forFrom
            (forall_mem_insertIdx h (hP.fresh idx idx [x]) _) hdown _
  | ofNat i =>
      simp only [hfind] at hcs'
      cases hi : cs[i]? with
      | none => rw [hi] at hcs'; cases hcs'
      | some c =>
          have hc := h c (List.mem_of_getElem? hi)
          simp only [hi] at hcs'
          split at hcs'
          · cases hcs'
            exact forall_mem_forFrom (forall_mem_eraseIdx h _) hdown _
          · split at hcs'
            · cases hcs'
            · split at hcs'
              · cases hcs'
                exact forall_mem_forFrom (forall_mem_eraseIdx h _) hdown _
              · cases hcs'
                exact forall_mem_forFrom
                  (forall_mem_set h (hP.range c _ _ hc) _) hdown _

theorem Stable.removeChange (hP : Stable P) (h : ∀ c ∈ cs, P c) {idx : ℕ} {x : α}
    {cs' : List (SubChange α)}
    (hcs' : ListChangeBuilder.removeChange idx x cs = .ok cs') :
    ∀ c ∈ cs', P c := by
  rw [ListChangeBuilder.removeChange] at hcs'
  cases hlast : cs.getLast? with
  | none => rw [hlast] at hcs'; exact hP.insertRemoved h hcs'
  | some last =>
      simp only [hlast] at hcs'
      split at hcs'
      · exact forall_mem_changeAt h (fun _ _ hc => hP.addRemoved hc) hcs'
      · split at hcs'
        · exact forall_mem_changeAt h (fun _ _ hc => hP.addRemovedFirst hc) hcs'
        · exact hP.insertRemoved h hcs'

theorem Stable.insertAdd (hP : Stable P) (h : ∀ c ∈ cs, P c) (from_ to_ : ℕ) :
    ∀ c ∈ insertAdd from_ to_ cs, P c := by
  have hup : ∀ n, ∀ c : SubChange α, P c → P (c.moveUp n) :=
    fun _ c => hP.range c _ _
  rw [Collections.insertAdd]
  cases hfind : findSubChange from_ cs with
  | negSucc i =>
      simp only
      split
      · refine forall_mem_forFrom (forall_mem_modify h ?_ _) (hup _) _
        exact fun c => hP.range c _ _
      · exact forall_mem_forFrom
          (forall_mem_insertIdx h (hP.fresh from_ to_ []) _) (hup _) _
  | ofNat i =>
      refine forall_mem_forFrom (forall_mem_modify h ?_ _) (hup _) _
      exact fun c => hP.range c _ _

theorem Stable.addChange (hP : Stable P) (h : ∀ c ∈ cs, P c) (from_ to_ : ℕ) :
    ∀ c ∈ ListChangeBuilder.addChange from_ to_ cs, P c := by
  rw [ListChangeBuilder.addChange]
  cases hlast : cs.getLast? with
  | none => exact hP.insertAdd h from_ to_
  | some last =>
      have hc := h last (List.mem_of_getLast? hlast)
      simp only
      split
      · exact forall_mem_set h (hP.range last _ _ hc) _
      · split
        · exact forall_mem_set h (hP.range last _ _ hc) _
        · exact hP.insertAdd h from_ to_

/-- Without a permutation no `removed` list is ever `null`. -/
theorem addsToNull_eq_false (h : ∀ c ∈ cs, c.removed.isSome = true) (idx : ℕ) :
    addsToNull cs idx = false := by
  have hget : ∀ i : ℕ, (cs[i]?.any fun c => c.removed.isNone) = false := by
    intro i
    cases hi : cs[i]? with
    | none => rfl
    | some c =>
        have := h c (List.mem_of_getElem? hi)
        rw [Option.any_some]
        cases hr : c.removed with
        | none => rw [hr] at this; cases this
        | some r => rfl
  have hlast : (cs.getLast?.any fun c => c.removed.isNone) = false := by
    rw [List.getLast?_eq_getElem?]
    exact hget _
  rw [addsToNull, hlast]
  simp only [hget]
  split
  · split
    · split
      · rfl
      · simp
    · rfl
  · rfl

theorem meetsNull_eq_false (h : ∀ c ∈ cs, c.removed.isSome = true) :
    ∀ (r : Bool) (t : ℕ), meetsNull r t cs = false := by
  induction cs with
  | nil => intro r t; rfl
  | cons c cs ih =>
      intro r t
      have hc : c.removed.isNone = false := by
        rw [← Option.not_isSome, h c List.mem_cons_self]
        rfl
      have htail := ih fun d hd => h d (List.mem_cons_of_mem _ hd)
      rw [meetsNull, hc, htail, htail]
      simp

theorem compressMeetsNull_eq_false (h : ∀ c ∈ cs, c.removed.isSome = true) :
    compressMeetsNull cs = false := by
  cases cs with
  | nil => rfl
  | cons c cs =>
      exact meetsNull_eq_false (fun d hd => h d (List.mem_cons_of_mem _ hd)) _ _

theorem compressFrom_isAddRemove (rest : List (SubChange α)) :
    ∀ (prev : SubChange α) (cs' : List (SubChange α)), prev.IsAddRemove →
      (∀ c ∈ rest, c.IsAddRemove) → compressFrom prev rest = .ok cs' →
      ∀ c ∈ cs', c.IsAddRemove := by
  induction rest with
  | nil =>
      intro prev cs' hprev _ hcs'
      cases hcs'
      simpa using hprev
  | cons cur rest ih =>
      intro prev cs' hprev hrest hcs'
      rw [compressFrom] at hcs'
      have htail := fun c hc => hrest c (List.mem_cons_of_mem _ hc)
      split at hcs'
      · obtain ⟨r, -, hr⟩ := except_bind_eq_ok.mp hcs'
        exact ih { prev with to_ := cur.to_, removed := r } cs' hprev htail hr
      · obtain ⟨t, ht, hret⟩ := except_bind_eq_ok.mp hcs'
        cases hret
        intro c hc
        rcases List.mem_cons.mp hc with rfl | hc
        · exact hprev
        · exact ih cur t (hrest cur List.mem_cons_self) htail ht c hc

theorem compress_isAddRemove (h : ∀ c ∈ cs, c.IsAddRemove)
    {cs' : List (SubChange α)} (hcs' : compress cs = .ok cs') :
    ∀ c ∈ cs', c.IsAddRemove := by
  cases cs with
  | nil => cases hcs'; exact h
  | cons prev rest =>
      exact compressFrom_isAddRemove rest prev cs' (h prev List.mem_cons_self)
        (fun c hc => h c (List.mem_cons_of_mem _ hc)) hcs'

/-! ### Updates -/

theorem insertUpdate_isUpdate (h : ∀ c ∈ cs, c.IsUpdate) (pos : ℕ) :
    ∀ c ∈ insertUpdate pos cs, c.IsUpdate := by
  rw [insertUpdate]
  cases hfind : findSubChange pos cs with
  | ofNat i => exact h
  | negSucc i =>
      simp only
      split
      · refine forall_mem_modify h ?_ _
        exact fun c hc => hc
      · split
        · refine forall_mem_modify h ?_ _
          exact fun c hc => hc
        · exact forall_mem_insertIdx h
            (d := ⟨pos, pos + 1, none, [], true⟩) ⟨rfl, rfl, rfl⟩ _

theorem removeFromUpdates_isUpdate (h : ∀ c ∈ cs, c.IsUpdate) (idx : ℕ) :
    ∀ c ∈ removeFromUpdates idx cs, c.IsUpdate := by
  have hdown : ∀ c : SubChange α, c.IsUpdate → c.moveDown.IsUpdate :=
    fun _ hc => hc
  rw [removeFromUpdates]
  cases hfind : findSubChange idx cs with
  | negSucc i => exact forall_mem_forFrom h hdown _
  | ofNat i =>
      cases hi : cs[i]? with
      | none => simpa only [hi] using h
      | some c =>
          have hc := h c (List.mem_of_getElem? hi)
          simp only [hi]
          split
          · exact forall_mem_forFrom (forall_mem_eraseIdx h _) hdown _
          · exact forall_mem_forFrom (forall_mem_set h
              (d := { c with to_ := c.to_ - 1 }) hc _) hdown _

theorem addToUpdates_isUpdate (h : ∀ c ∈ cs, c.IsUpdate) (from_ to_ : ℕ) :
    ∀ c ∈ addToUpdates from_ to_ cs, c.IsUpdate := by
  have hup : ∀ n, ∀ c : SubChange α, c.IsUpdate → (c.moveUp n).IsUpdate :=
    fun _ _ hc => hc
  rw [addToUpdates]
  cases hfind : findSubChange from_ cs with
  | negSucc i => exact forall_mem_forFrom h (hup _) _
  | ofNat i =>
      cases hi : cs[i]? with
      | none => simpa only [hi] using h
      | some c =>
          have hc := h c (List.mem_of_getElem? hi)
          simp only [hi]
          exact forall_mem_forFrom (forall_mem_set (forall_mem_insertIdx h
            (d := ⟨to_, c.to_ + to_ - from_, none, [], true⟩) ⟨rfl, rfl, rfl⟩ _)
            (d := { c with to_ := from_ }) hc _) (hup _) _

/-- Updates have nothing removed, so compressing them never meets a list. -/
theorem compressFrom_isUpdate (rest : List (SubChange α)) :
    ∀ prev : SubChange α, prev.IsUpdate → (∀ c ∈ rest, c.IsUpdate) →
      ∃ cs', compressFrom prev rest = .ok cs' ∧ ∀ c ∈ cs', c.IsUpdate := by
  induction rest with
  | nil =>
      intro prev hprev _
      exact ⟨[prev], rfl, by simpa using hprev⟩
  | cons cur rest ih =>
      intro prev hprev hrest
      have hcur := hrest cur List.mem_cons_self
      have htail := fun c hc => hrest c (List.mem_cons_of_mem _ hc)
      rw [compressFrom]
      split
      · rw [hprev.1, hcur.1]
        exact ih { prev with to_ := cur.to_, removed := none }
          ⟨rfl, hprev.2⟩ htail
      · obtain ⟨t, ht, hall⟩ := ih cur hcur htail
        refine ⟨prev :: t, by rw [ht]; rfl, fun c hc => ?_⟩
        rcases List.mem_cons.mp hc with rfl | hc
        · exact hprev
        · exact hall c hc

theorem compress_isUpdate (h : ∀ c ∈ cs, c.IsUpdate) :
    ∃ cs', compress cs = .ok cs' ∧ ∀ c ∈ cs', c.IsUpdate := by
  cases cs with
  | nil => exact ⟨[], rfl, h⟩
  | cons prev rest =>
      exact compressFrom_isUpdate rest prev (h prev List.mem_cons_self)
        fun c hc => h c (List.mem_cons_of_mem _ hc)

end Kinds

end JavaFx.Collections
