import JavaFx.Collections.MutatorProposal
import JavaFx.Lib.UpForest
import JavaFx.Lib.Runs

/-!
# The children of a transition

A `SequentialTransition` and a `ParallelTransition` check each change of their children in the
same way: `childrenSet` finds duplicates, and `checkCycle` walks up the `parent` links from the
transition. An animation has one such link, which the last transition it has been added to has
set, and which any transition it leaves clears. The listeners on rates and durations are left
out: they do not touch this structure.
-/

namespace JavaFx.Animation

open Collections UpForest

/-- An `Animation`: a sequential or parallel transition, or one without children. -/
inductive Child (τ ν : Type) where
  | transition (t : τ)
  | other (a : ν)
deriving DecidableEq

variable {τ ν : Type}

/-- The fields that tie the animations together; a null is `none`. -/
structure Hierarchy (τ ν : Type) where
  parent : Child τ ν → Option τ := fun _ => none
  children : τ → List (Option (Child τ ν)) := fun _ => []
  childrenSet : τ → Finset (Option (Child τ ν)) := fun _ => ∅

/-- A call returns, or throws and leaves a hierarchy behind. -/
abbrev Result (τ ν : Type) := Except (Exn × Hierarchy τ ν)

def Result.state : Result τ ν (Hierarchy τ ν) → Hierarchy τ ν
  | .ok h => h
  | .error (_, h) => h

namespace Hierarchy

/-- The transition above a transition. -/
def up (h : Hierarchy τ ν) (t : τ) : Option τ := h.parent (.transition t)

variable [DecidableEq τ] [DecidableEq ν]

def setParent (h : Hierarchy τ ν) (animation : Child τ ν) (p : Option τ) : Hierarchy τ ν :=
  { h with parent := Function.update h.parent animation p }

def setChildren (h : Hierarchy τ ν) (this : τ) (l : List (Option (Child τ ν))) :
    Hierarchy τ ν :=
  { h with children := Function.update h.children this l }

def setChildrenSet (h : Hierarchy τ ν) (this : τ) (s : Finset (Option (Child τ ν))) :
    Hierarchy τ ν :=
  { h with childrenSet := Function.update h.childrenSet this s }

/-- The loop of `checkCycle`, which ends when the links make no cycle. -/
def checkCycle (h : Hierarchy τ ν) (child : Child τ ν) : ℕ → τ → Bool
  | 0, _ => true
  | fuel + 1, a =>
      if .transition a = child then true
      else
        match h.parent (.transition a) with
        | some p => h.checkCycle child fuel p
        | none => false

/-- `childrenSet.remove(children.get(idx))` for each index. -/
def eraseChildren (children : List (Option (Child τ ν))) :
    List ℤ → Finset (Option (Child τ ν)) →
      Except (Exn × Finset (Option (Child τ ν))) (Finset (Option (Child τ ν)))
  | [], s => .ok s
  | idx :: rest, s =>
      match elementAt children idx with
      | .ok child => eraseChildren children rest (s.erase child)
      | .error e => .error (e, s)

/-- The loop over `toBeAdded`. -/
def addChildren [Fintype τ] (h : Hierarchy τ ν) (this : τ) :
    List (Option (Child τ ν)) → Finset (Option (Child τ ν)) →
      Except Exn (Finset (Option (Child τ ν)))
  | [], s => .ok s
  | none :: _, _ => .error (.illegalArgument "Child cannot be null")
  | some child :: rest, s =>
      if some child ∈ s then
        .error (.illegalArgument "Attempting to add a duplicate to the list of children")
      else if h.checkCycle child (Fintype.card τ) this then
        .error (.illegalArgument "This change would create cycle")
      else h.addChildren this rest (insert (some child) s)

/-- `onProposedChange(toBeAdded, indexes)` -/
def onProposedChange [Fintype τ] (h : Hierarchy τ ν) (this : τ)
    (toBeAdded : List (Option (Child τ ν))) (indexes : List ℤ) : Result τ ν (Hierarchy τ ν) :=
  match eraseChildren (h.children this) (indexRanges indexes) (h.childrenSet this) with
  | .error (e, s) => .error (e, h.setChildrenSet this s)
  | .ok s =>
      match h.addChildren this toBeAdded s with
      | .error e => .error (e, h.setChildrenSet this (h.children this).toFinset)
      | .ok s => .ok (h.setChildrenSet this s)

/-- `animation.parent = p` for each animation. -/
def setParents (p : Option τ) : List (Option (Child τ ν)) → Hierarchy τ ν →
    Result τ ν (Hierarchy τ ν)
  | [], h => .ok h
  | some animation :: rest, h => setParents p rest (h.setParent animation p)
  | none :: _, h => .error (.nullPointer, h)

/-- `onChanged(c)` -/
def onChanged (this : τ) : List (SubChange (Option (Child τ ν))) → Hierarchy τ ν →
    Result τ ν (Hierarchy τ ν)
  | [], h => .ok h
  | c :: rest, h => do
      let h ← setParents none (c.removed.getD []) h
      let h ← setParents (some this) (Splice.slice c.from_ c.to_ (h.children this)) h
      onChanged this rest h

/-- The call of the decorated list, which notifies `onChanged`. -/
def changeList (h : Hierarchy τ ν) (this : τ) (op : ListMutator (Option (Child τ ν))) :
    Result τ ν (Hierarchy τ ν) :=
  match ObservableListWrapper.mutate (h.children this) op with
  | .error e => .error (e, h)
  | .ok (l, fired) => onChanged this (fired.getD []) (h.setChildren this l)

variable [Fintype τ]

/-- A mutator of the children of `this`. -/
def mutate (h : Hierarchy τ ν) (this : τ) (op : ListMutator (Option (Child τ ν))) :
    Result τ ν (Hierarchy τ ν) :=
  match op.proposal (h.children this) with
  | some (toBeAdded, indexes) => do
      let h ← h.onProposedChange this toBeAdded indexes
      h.changeList this op
  | none => h.changeList this op

/-- `onProposedChange` refuses one of the new children. -/
def vetoes (h : Hierarchy τ ν) (this : τ) (op : ListMutator (Option (Child τ ν))) : Bool :=
  match op.proposal (h.children this) with
  | none => false
  | some (toBeAdded, indexes) =>
      match eraseChildren (h.children this) (indexRanges indexes) (h.childrenSet this) with
      | .error _ => false
      | .ok s =>
          match h.addChildren this toBeAdded s with
          | .error _ => true
          | .ok _ => false

end Hierarchy

/-! ## What the checks establish -/

namespace Hierarchy

variable [DecidableEq τ] [DecidableEq ν]

/-- The walk of `checkCycle` ends, and meets the transitions above. -/
theorem checkCycle_iff [Fintype τ] {h : Hierarchy τ ν} (hacyclic : Acyclic h.up)
    (child : Child τ ν) (this : τ) :
    h.checkCycle child (Fintype.card τ) this = true ↔
      ∃ t, child = .transition t ∧ Above h.up this t := by
  have hwalk : ∀ fuel a, depth h.up a < fuel →
      (h.checkCycle child fuel a = true ↔ ∃ t, child = .transition t ∧ Above h.up a t) := by
    intro fuel
    induction fuel with
    | zero => exact fun a ha => absurd ha (Nat.not_lt_zero _)
    | succ fuel ih =>
        intro a ha
        rw [checkCycle]
        by_cases hchild : .transition a = child
        · rw [if_pos hchild]
          exact iff_of_true rfl ⟨a, hchild.symm, Above.refl _ a⟩
        · rw [if_neg hchild]
          cases hp : h.parent (.transition a) with
          | none =>
              refine iff_of_false Bool.false_ne_true ?_
              rintro ⟨t, rfl, habove⟩
              rw [above_of_none (show h.up a = none from hp)] at habove
              exact hchild (congrArg _ habove)
          | some p =>
              have hfuel : depth h.up p < fuel :=
                lt_of_lt_of_le (hacyclic.depth_lt hp) (Nat.lt_succ_iff.mp ha)
              rw [ih p hfuel]
              refine exists_congr fun t => and_congr_right fun ht => ?_
              rw [above_of_some (show h.up a = some p from hp)]
              refine ⟨Or.inr, fun habove => habove.resolve_left ?_⟩
              rintro rfl
              exact hchild ht.symm
  exact hwalk _ this (depth_lt_card _ this)

/-- What `addChildren` has checked when it returns. -/
structure Added (h : Hierarchy τ ν) (this : τ) (come : List (Option (Child τ ν)))
    (s s' : Finset (Option (Child τ ν))) : Prop where
  nodup : come.Nodup
  nonnull : none ∉ come
  disjoint : ∀ x ∈ come, x ∉ s
  notAbove : ∀ t, some (.transition t) ∈ come → ¬ Above h.up this t
  union : s' = s ∪ come.toFinset

theorem addChildren_ok [Fintype τ] {h : Hierarchy τ ν} (hacyclic : Acyclic h.up) {this : τ}
    {come : List (Option (Child τ ν))} {s s' : Finset (Option (Child τ ν))}
    (hok : h.addChildren this come s = .ok s') : h.Added this come s s' := by
  induction come generalizing s with
  | nil =>
      cases hok
      refine ⟨List.nodup_nil, List.not_mem_nil, ?_, ?_, ?_⟩
      · exact fun x hx => absurd hx List.not_mem_nil
      · exact fun t ht => absurd ht List.not_mem_nil
      · rw [List.toFinset_nil, Finset.union_empty]
  | cons child come ih =>
      cases child with
      | none => cases hok
      | some child =>
          rw [addChildren] at hok
          split at hok
          · cases hok
          · next hnew =>
              split at hok
              · cases hok
              · next hcycle =>
                  have hrest := ih hok
                  rw [checkCycle_iff hacyclic] at hcycle
                  refine ⟨?_, ?_, ?_, ?_, ?_⟩
                  · refine List.nodup_cons.mpr ⟨fun hmem => ?_, hrest.nodup⟩
                    exact hrest.disjoint _ hmem (Finset.mem_insert_self _ _)
                  · rintro (_ | ⟨_, hmem⟩)
                    exact hrest.nonnull hmem
                  · intro x hx hs
                    rcases List.mem_cons.mp hx with rfl | hx
                    · exact hnew hs
                    · exact hrest.disjoint x hx (Finset.mem_insert_of_mem hs)
                  · intro t ht habove
                    rcases List.mem_cons.mp ht with heq | ht
                    · exact hcycle ⟨t, (Option.some.inj heq).symm, habove⟩
                    · exact hrest.notAbove t ht habove
                  · rw [hrest.union, List.toFinset_cons, Finset.insert_union, Finset.union_insert]

theorem eraseChildren_ok {l gone : List (Option (Child τ ν))} {indexes : List ℤ}
    (hgone : indexes.map (elementAt l) = gone.map .ok) (s : Finset (Option (Child τ ν))) :
    eraseChildren l indexes s = .ok (s \ gone.toFinset) := by
  induction indexes generalizing gone s with
  | nil =>
      rw [List.map_nil, eq_comm, List.map_eq_nil_iff] at hgone
      rw [hgone, eraseChildren, List.toFinset_nil, Finset.sdiff_empty]
  | cons idx indexes ih =>
      cases gone with
      | nil => cases hgone
      | cons child gone =>
          rw [List.map_cons, List.map_cons, List.cons.injEq] at hgone
          rw [eraseChildren, hgone.1]
          simp only
          rw [ih hgone.2, List.toFinset_cons]
          congr 1
          ext x
          simp only [Finset.mem_sdiff, Finset.mem_erase, Finset.mem_insert, not_or]
          tauto

/-- An index that is not one of the list is found out before anything has changed. -/
theorem eraseChildren_error {l : List (Option (Child τ ν))} {idx : ℤ} (rest : List ℤ)
    (hidx : ¬ (0 ≤ idx ∧ idx < l.length)) (s : Finset (Option (Child τ ν))) :
    eraseChildren l (idx :: rest) s = .error (.indexOutOfBounds, s) := by
  rw [eraseChildren, ObservableListWrapper.elementAt_error hidx]

/-! ## The new parents -/

/-- The animations of `l` have the parent `p`. -/
def relink (h : Hierarchy τ ν) (l : List (Option (Child τ ν))) (p : Option τ) :
    Hierarchy τ ν :=
  { h with parent := fun x => if some x ∈ l then p else h.parent x }

theorem relink_nil (h : Hierarchy τ ν) (p : Option τ) : h.relink [] p = h := by
  simp only [relink, List.not_mem_nil, if_false]

theorem relink_append (h : Hierarchy τ ν) (l l' : List (Option (Child τ ν)))
    (p : Option τ) : (h.relink l p).relink l' p = h.relink (l ++ l') p := by
  simp only [relink]
  congr 1
  funext x
  by_cases hl : some x ∈ l
  · rw [if_pos hl, if_pos (List.mem_append_left _ hl), ite_self]
  · by_cases hl' : some x ∈ l'
    · rw [if_pos hl', if_pos (List.mem_append_right _ hl')]
    · have hnot : some x ∉ l ++ l' := fun hmem => (List.mem_append.mp hmem).elim hl hl'
      rw [if_neg hl', if_neg hl, if_neg hnot]

theorem setParents_eq {p : Option τ} {l : List (Option (Child τ ν))} (hl : none ∉ l)
    (h : Hierarchy τ ν) : setParents p l h = .ok (h.relink l p) := by
  induction l generalizing h with
  | nil => rw [setParents, relink_nil]
  | cons x l ih =>
      cases x with
      | none => exact absurd List.mem_cons_self hl
      | some a =>
          have hone : h.setParent a p = h.relink [some a] p := by
            rw [setParent, relink]
            congr 1
            funext x
            simp only [Function.update_apply, List.mem_singleton, Option.some.injEq]
          rw [setParents, ih (fun hmem => hl (List.mem_cons_of_mem _ hmem)), hone, relink_append]
          rfl

/-- **The parents after a change:** those that have gone have none, those that have come
have the transition. -/
theorem onChanged_eq {this : τ} {l removed added : List (Option (Child τ ν))}
    {subs : List (SubChange (Option (Child τ ν)))} {h : Hierarchy τ ν}
    (ht : Told l (h.children this) removed added subs) (hremoved : none ∉ removed)
    (hadded : none ∉ added) :
    onChanged this subs h = .ok ((h.relink removed none).relink added (some this)) := by
  rcases ht.shape with ⟨c, rfl⟩ | hempty
  · have hr : c.removed.getD [] = removed := by
      rw [← ht.removed_eq, List.flatMap_singleton]
    have ha : Splice.slice c.from_ c.to_ (h.children this) = added := by
      rw [← ht.added_eq, List.flatMap_singleton]
    rw [onChanged, hr, setParents_eq hremoved, except_ok_bind]
    show setParents (some this) (Splice.slice c.from_ c.to_ (h.children this)) _ >>= _ = _
    rw [ha, setParents_eq hadded, except_ok_bind, onChanged]
  · -- nothing has come: each sub-change only clears links
    have hclear : ∀ (cs : List (SubChange (Option (Child τ ν)))) (h : Hierarchy τ ν),
        (∀ c ∈ cs, c.from_ = c.to_) → none ∉ cs.flatMap (fun c => c.removed.getD []) →
        onChanged this cs h = .ok (h.relink (cs.flatMap fun c => c.removed.getD []) none) := by
      intro cs
      induction cs with
      | nil => exact fun h _ _ => by rw [onChanged, List.flatMap_nil, relink_nil]
      | cons c cs ih =>
          intro h hcs hnone
          rw [List.flatMap_cons, List.mem_append, not_or] at hnone
          rw [onChanged, setParents_eq hnone.1, except_ok_bind, hcs c List.mem_cons_self,
            ObservableListWrapper.slice_self, setParents, except_ok_bind,
            ih _ (fun d hd => hcs d (List.mem_cons_of_mem _ hd)) hnone.2, relink_append,
            List.flatMap_cons]
    have hnil : added = [] := by
      rw [← ht.added_eq, List.flatMap_eq_nil_iff]
      intro c hc
      rw [hempty c hc, ObservableListWrapper.slice_self]
    rw [hclear subs h hempty (by rw [ht.removed_eq]; exact hremoved), ht.removed_eq, hnil,
      relink_nil]

end Hierarchy

end JavaFx.Animation
