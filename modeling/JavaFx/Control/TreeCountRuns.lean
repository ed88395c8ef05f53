import JavaFx.Control.TreeQueries

/-!
# The counts along a run

While no item stands in two places and no `remove(from, to)` throws, every query answers with
the count of the tree as it is, whatever was expanded, collapsed, attached or asked for before.
-/

namespace JavaFx.Control

open Collections UpForest

variable {ι : Type} [DecidableEq ι] {s t : TreeItems ι} {p x y c : ι}

namespace TreeItems

/-! ## What the listener does not touch -/

theorem updateChildParent_children (newParent o : Option ι) (s : TreeItems ι) (x : ι) :
    (updateChildParent newParent s o x).children = (s x).children := by
  have hmodify : ∀ (u : TreeItems ι) (z : ι) (f : TreeItem ι → TreeItem ι),
      (∀ item, (f item).children = item.children) → (u.modify z f x).children = (u x).children := by
    intro u z f hf
    by_cases hx : x = z
    · subst hx
      rw [modify_self, hf]
    · rw [modify_of_ne _ _ hx]
  cases o with
  | none => rfl
  | some z =>
      rw [updateChildParent]
      have hset : ((if (s z).parentLinkCount = 0 then
          s.modify z fun item => { item with parent := newParent } else s) x).children =
          (s x).children := by
        split
        · exact hmodify _ _ _ fun _ => rfl
        · rfl
      split
      · split
        · refine Eq.trans (hmodify _ _ _ ?_) hset
          exact fun _ => rfl
        · refine Eq.trans (hmodify _ _ _ ?_) hset
          exact fun _ => rfl
      · exact hset

theorem updateChildrenParent_children (treeItems : List (Option ι)) (newParent : Option ι)
    (s : TreeItems ι) (x : ι) :
    (updateChildrenParent treeItems newParent s x).children = (s x).children := by
  induction treeItems generalizing s with
  | nil => rfl
  | cons o treeItems ih =>
      rw [updateChildrenParent, List.foldl_cons]
      exact (ih _).trans (updateChildParent_children newParent o s x)

variable [Fintype ι]

theorem updateChildren_children {d : ChildrenChange ι} (h : updateChildren p s d = some t) (x : ι) :
    (t x).children = (s x).children := by
  rw [updateChildren] at h
  rw [fireEvent_fields h x]
  refine (updateChildrenParent_children _ _ _ x).trans
    ((updateChildrenParent_children _ _ _ x).trans ?_)
  by_cases hx : x = p
  · subst hx
    rw [modify_self]
  · rw [modify_of_ne _ _ hx]

theorem foldlM_updateChildren_children {changes : List (ChildrenChange ι)}
    (h : changes.foldlM (updateChildren p) s = some t) (x : ι) :
    (t x).children = (s x).children := by
  induction changes generalizing s with
  | nil =>
      cases h
      rfl
  | cons d changes ih =>
      rw [List.foldlM_cons] at h
      obtain ⟨u, hu, hrest⟩ := Option.bind_eq_some_iff.mp h
      exact (ih hrest).trans (updateChildren_children hu x)

theorem onChanged_children {changes : List (ChildrenChange ι)}
    (h : s.onChanged p changes = some t) (x : ι) : (t x).children = (s x).children := by
  rw [onChanged] at h
  rw [foldlM_updateChildren_children h x]
  by_cases hx : x = p
  · subst hx
    rw [itemListener, modify_self]
  · rw [itemListener, modify_of_ne _ _ hx]

/-! ## Items in one place -/

/-- Every item stands in one place at most. -/
def AtMostOnce (s : TreeItems ι) : Prop :=
  (∀ p, ((s p).children.filterMap id).Nodup) ∧
    ∀ x p q, some x ∈ (s p).children → some x ∈ (s q).children → p = q

instance (s : TreeItems ι) : Decidable (AtMostOnce s) := inferInstanceAs (Decidable (_ ∧ _))

end TreeItems

variable [Fintype ι]

/-- No `remove(from, to)` throws. -/
def TreeOp.Closed (s : TreeItems ι) : TreeOp ι → Prop
  | .mutateChildren p m => ∀ a b, m = .removeRange a b → m.InRange (s p).children
  | _ => True

open TreeItems

/-- A call that leaves every item in one place has put in only items that stood in none. -/
theorem TreeOp.fresh_of_atMostOnce (h : Linked s) {op : TreeOp ι} (hclosed : op.Closed s)
    (ht : op.perform s = some t) (honce : AtMostOnce t) : op.Fresh s := by
  cases op with
  | mutateChildren p m =>
      refine ⟨fun hin => ?_, hclosed⟩
      obtain ⟨l', fired, removed, hrun, hrep, hgone⟩ := mutate_told (s p).children hin
      have ht' : s.mutateChildren p m = some t := ht
      unfold TreeItems.mutateChildren at ht'
      rw [hrun] at ht'
      simp only [h.closed p, Bool.false_eq_true, if_false] at ht'
      cases fired with
      | none =>
          obtain ⟨-, -, hnil⟩ := hrep.quiet rfl
          simp [hnil]
      | some subs =>
          obtain ⟨kept, hbefore, hafter⟩ := (hrep.told subs rfl).kept
          have hlist : (t p).children = l' := by
            rw [onChanged_children ht' p, modify_self]
          have hother : ∀ q, q ≠ p → (t q).children = (s q).children := by
            intro q hq
            rw [onChanged_children ht' q, modify_of_ne _ _ hq]
          have hparts : (kept.filterMap id ++ m.come.filterMap id).Nodup := by
            rw [← List.filterMap_append, ← (hafter.filterMap id).nodup_iff, ← hlist]
            exact honce.1 p
          obtain ⟨-, hnodup, hdisjoint⟩ := List.nodup_append.mp hparts
          refine ⟨hnodup, fun x hx q hq => ?_⟩
          have hxin : some x ∈ (t p).children := by
            rw [hlist, hafter.mem_iff, List.mem_append]
            exact Or.inr hx
          have hqp : q = p := by
            by_contra hne
            exact hne (honce.2 x q p (by rw [hother q hne]; exact hq) hxin)
          subst hqp
          refine ⟨rfl, ?_⟩
          rw [← hgone fun hnil => by rw [hnil] at hx; cases hx]
          rw [hbefore.mem_iff, List.mem_append] at hq
          refine hq.resolve_left fun hkept => ?_
          exact hdisjoint x (by simpa using hkept) x (by simpa using hx) rfl
  | sortChildren p le => trivial
  | setExpanded x value => trivial
  | isExpanded x => trivial
  | getExpandedDescendentCount reset x => trivial

namespace TreeItems

/-! ## Calls on the lists -/

/-- **A change of a children list** keeps the counts right. -/
theorem Counted.changed {l' removed added kept : List (Option ι)}
    {changes : List (ChildrenChange ι)} (h : Counted s) (hlinked : Linked s) (hleaf : LeafRight s)
    (hbefore : (s p).children.Perm (kept ++ removed)) (hafter : l'.Perm (kept ++ added))
    (hparts : Parts removed added changes) (hnodup : (added.filterMap id).Nodup)
    (hfresh : ∀ x, some x ∈ added → ∀ q, some x ∈ (s q).children → q = p ∧ some x ∈ removed)
    (ht : (s.modify p fun item => { item with children := l' }).onChanged p changes = some t) :
    Counted t ∧ LeafRight t := by
  set u := s.modify p fun item => { item with children := l' } with hu
  have hfield : ∀ q, u q = { s q with
      children := if q = p then l' else (s q).children } := by
    intro q
    by_cases hq : q = p
    · subst hq
      rw [hu, modify_self]
      simp
    · rw [hu, modify_of_ne _ _ hq]
      simp [hq]
  have hnew : NewTo u p ⟨added, removed⟩ := by
    refine ⟨hnodup, fun x hx => ?_⟩
    rw [hfield x]
    by_cases hparent : (s x).parent = some p
    · exact Or.inl (hfresh x hx p ((hlinked.parent x p).mp hparent)).2
    · exact Or.inr hparent
  -- when the parts have been worked off, the links are those of the lists
  have hlinked' : Linked (u.relinked p ⟨added, removed⟩) := by
    refine hlinked.replace hbefore hafter hnodup hfresh (fun q => ?_) (fun x => ?_) (fun x => ?_)
      fun q => ?_
    · rw [relinked, hfield q]
    · rw [relinked, hfield x]
    · rw [relinked, hfield x]
      exact hlinked.linkCount x
    · rw [relinked, hfield q]
      exact hlinked.closed q
  have hother : ∀ x, x ≠ p → u x = s x := fun x hx => modify_of_ne _ _ hx
  have hup : ∀ x, u.up x = s.up x := by
    intro x
    rw [up, hfield x]
    rfl
  have hcount : ∀ x, (u x).parentLinkCount = 0 := by
    intro x
    rw [hfield x]
    exact hlinked.linkCount x
  refine h.onChanged hleaf hother hup hcount hparts hnew (fun x d hd => ?_)
    (fun d hd hnot x hx => ?_) ht
  · exact (hlinked'.parent d x).mpr hd
  · have hparent := (hlinked'.parent d x).mpr hx
    rw [show ((u.relinked p ⟨added, removed⟩) d).parent = (u.relinked p ⟨added, removed⟩).up d
      from rfl, relinked_up, if_neg hnot, if_pos hd] at hparent
    cases hparent

theorem Counted.mutateChildren (h : Counted s) (hlinked : Linked s) (hleaf : LeafRight s)
    {m : ListMutator (Option ι)} (hfresh : (TreeOp.mutateChildren p m).Fresh s)
    (ht : s.mutateChildren p m = some t) : Counted t ∧ LeafRight t := by
  obtain ⟨hcome, hrange⟩ := hfresh
  unfold TreeItems.mutateChildren at ht
  by_cases hin : m.InRange (s p).children
  · obtain ⟨l', fired, removed, hrun, hrep, hgone⟩ := mutate_told (s p).children hin
    obtain ⟨hnodup, honce⟩ := hcome hin
    rw [hrun] at ht
    simp only [hlinked.closed p, Bool.false_eq_true, if_false] at ht
    cases fired with
    | none =>
        obtain ⟨hsame, -, -⟩ := hrep.quiet rfl
        have hunchanged : (s.modify p fun item => { item with children := l' }) = s := by
          rw [modify, hsame]
          exact Function.update_eq_self p s
        cases ht
        rw [hunchanged]
        exact ⟨h, hleaf⟩
    | some subs =>
        have htold := hrep.told subs rfl
        obtain ⟨kept, hbefore, hafter⟩ := htold.kept
        refine h.changed hlinked hleaf hbefore hafter (parts_of_told htold) hnodup
          (fun x hx q hq => ?_) ht
        rw [hgone fun hnil => by rw [hnil] at hx; cases hx]
        exact honce x hx q hq
  · rw [ObservableListWrapper.mutate_error hin] at ht
    have hsame : t = s := by
      cases m with
      | removeRange a b => exact absurd (hrange a b rfl) hin
      | _ => exact (Option.some_inj.mp ht).symm
    rw [hsame]
    exact ⟨h, hleaf⟩

theorem Counted.sortChildren (h : Counted s) (hlinked : Linked s) (hleaf : LeafRight s)
    {le : Option ι → Option ι → Bool} (ht : s.sortChildren p le = some t) :
    Counted t ∧ LeafRight t := by
  rw [TreeItems.sortChildren] at ht
  split at ht
  · cases ht
    exact ⟨h, hleaf⟩
  · have hparts : Parts ([] : List (Option ι)) [] [⟨[], []⟩] :=
      ⟨Or.inl ⟨_, rfl⟩, rfl, rfl, by simp⟩
    have hbefore : (s p).children.Perm ((s p).children ++ []) := by simp
    have hafter : ((s p).children.mergeSort le).Perm ((s p).children ++ []) := by
      simpa using List.mergeSort_perm (s p).children le
    refine h.changed hlinked hleaf hbefore hafter hparts (by simp) (by simp) ?_
    rw [← ht]
    congr 1

end TreeItems

/-! ## One call, and whole runs -/

theorem TreeOp.perform_counted (h : Counted s) (hlinked : Linked s) (hleaf : LeafRight s)
    {op : TreeOp ι} (hfresh : op.Fresh s) (ht : op.perform s = some t) :
    Counted t ∧ LeafRight t := by
  have hkeep : SameShape s t → LeafRight t := by
    intro hsame x
    rw [isLeaf, hsame.leaf x, hsame.children x]
    exact hleaf x
  cases op with
  | mutateChildren p m => exact h.mutateChildren hlinked hleaf hfresh ht
  | sortChildren p le => exact h.sortChildren hlinked hleaf ht
  | setExpanded x value => exact ⟨h.setExpanded ht, hkeep (sameShape_setExpanded ht)⟩
  | isExpanded x =>
      cases ht
      exact ⟨h.validate x, hkeep (sameShape_validate s x)⟩
  | getExpandedDescendentCount reset x =>
      obtain ⟨u, hrun, hprogress, hcounted⟩ := h.getExpandedDescendentCount reset x
      have hperform : s.getExpandedDescendentCount reset x = some (s.trueCount x, u) := hrun
      rw [TreeOp.perform, hperform] at ht
      cases ht
      exact ⟨hcounted, hkeep hprogress.same.toSameShape⟩

namespace TreeItems

omit [DecidableEq ι] in
theorem counted_new : Counted (fun _ => TreeItem.new : TreeItems ι) where
  links x c hc := absurd hc List.not_mem_nil
  acyclic n q hq := by cases hq
  exact x hx := by cases hx
  valid x hx := by cases hx
  seen x hx := by cases hx

/-! ## The counts -/

/-- What a query without a reset answers. -/
def queried (s : TreeItems ι) (x : ι) : ℤ :=
  match s.getExpandedDescendentCount false x with
  | some (n, _) => n
  | none => 0

/-- An item is a leaf when its list is empty. A query returns, and it returns one more than
what the children of an expanded item count. -/
def CountsRight (s : TreeItems ι) : Prop :=
  ∀ x, (s.isLeaf x = true ↔ (s x).children = []) ∧
    (s.getExpandedDescendentCount false x).isSome ∧ s.queried x = s.countOver s.queried x

theorem Counted.countsRight (h : Counted s) (hleaf : LeafRight s) : CountsRight s := by
  have hqueried : s.queried = s.trueCount := by
    funext x
    obtain ⟨u, hrun, -, -⟩ := h.getExpandedDescendentCount false x
    rw [queried, hrun]
  intro x
  refine ⟨?_, ?_, ?_⟩
  · rw [hleaf x, List.isEmpty_iff]
  · obtain ⟨u, hrun, -, -⟩ := h.getExpandedDescendentCount false x
    rw [hrun]
    rfl
  · rw [hqueried]
    exact h.toRooted.trueCount_eq x

/-- In every state of a run every item stands in one place at most. -/
def OnceRun (ops : List (TreeOp ι)) : Prop :=
  ∀ done rest, ops = done ++ rest → ∀ s, afterOps done = some s → AtMostOnce s

/-- No call of a run is a `remove(from, to)` that throws. -/
def ClosedRun (ops : List (TreeOp ι)) : Prop :=
  ∀ done op rest, ops = done ++ op :: rest → ∀ s, afterOps done = some s → op.Closed s

theorem afterOps_counted {ops : List (TreeOp ι)} (honce : OnceRun ops) (hclosed : ClosedRun ops)
    (h : afterOps ops = some s) : Linked s ∧ Counted s ∧ LeafRight s := by
  induction ops using List.reverseRecOn generalizing s with
  | nil =>
      cases h
      exact ⟨linked_new, counted_new, fun _ => rfl⟩
  | append_singleton ops op ih =>
      have hrun := h
      rw [afterOps_concat] at h
      obtain ⟨u, hu, hop⟩ := Option.bind_eq_some_iff.mp h
      obtain ⟨hlinked, hcounted, hleaf⟩ := ih
        (fun done rest heq => honce done (rest ++ [op]) (by rw [heq]; simp))
        (fun done op' rest heq => hclosed done op' (rest ++ [op]) (by rw [heq]; simp)) hu
      have hfresh := TreeOp.fresh_of_atMostOnce hlinked (hclosed ops op [] rfl u hu) hop
        (honce (ops ++ [op]) [] (by simp) s hrun)
      exact ⟨TreeOp.perform_linked hlinked hfresh hop,
        TreeOp.perform_counted hcounted hlinked hleaf hfresh hop⟩

/-- **Counts are never stale.** In a run in which every item stands in one place at most and no
`remove(from, to)` throws, every query of every state is right. -/
theorem countsRight_of_onceRun {ops : List (TreeOp ι)} (honce : OnceRun ops)
    (hclosed : ClosedRun ops) {done rest} (hops : ops = done ++ rest) {s : TreeItems ι}
    (h : afterOps done = some s) : CountsRight s := by
  obtain ⟨-, hcounted, hleaf⟩ := afterOps_counted
    (fun done' rest' heq => honce done' (rest' ++ rest) (by rw [hops, heq]; simp))
    (fun done' op rest' heq => hclosed done' op (rest' ++ rest) (by rw [hops, heq]; simp)) h
  exact hcounted.countsRight hleaf

/-- A prefix is taken from the front. -/
theorem onceRun_of_take {ops : List (TreeOp ι)}
    (h : ∀ n ≤ ops.length, ∀ s ∈ afterOps (ops.take n), AtMostOnce s) : OnceRun ops := by
  intro done rest heq s hs
  refine h done.length (by simp [heq]) s ?_
  rw [heq, List.take_left]
  exact hs

/-- `remove(0, 2)` of one child throws, with the child taken out and nobody told: the item is no
leaf. -/
theorem failed_removeRange_leaf_stale :
    OnceRun ([.mutateChildren 0 (.add (some 1)), .mutateChildren 0 (.removeRange 0 2)] :
        List (TreeOp (Fin 2))) ∧
      ∃ s, afterOps ([.mutateChildren 0 (.add (some 1)), .mutateChildren 0 (.removeRange 0 2)] :
        List (TreeOp (Fin 2))) = some s ∧ ¬ CountsRight s := by
  refine ⟨onceRun_of_take (by decide), _, rfl, fun h => ?_⟩
  have hleaf := (h 0).1
  revert hleaf
  decide

/-- A child is attached, its parent expanded and asked for its count. -/
theorem countsRight_expanded :
    ∃ s, afterOps ([.mutateChildren 0 (.add (some 1)), .setExpanded 0 true,
        .getExpandedDescendentCount false 0] : List (TreeOp (Fin 2))) = some s ∧
      CountsRight s ∧ s.queried 0 = 2 := by
  have honce : OnceRun ([.mutateChildren 0 (.add (some 1)), .setExpanded 0 true,
      .getExpandedDescendentCount false 0] : List (TreeOp (Fin 2))) :=
    onceRun_of_take (by decide)
  have hclosed : ClosedRun ([.mutateChildren 0 (.add (some 1)), .setExpanded 0 true,
      .getExpandedDescendentCount false 0] : List (TreeOp (Fin 2))) := by
    intro done op rest heq s _
    have hop : op ∈ ([.mutateChildren 0 (.add (some 1)), .setExpanded 0 true,
        .getExpandedDescendentCount false 0] : List (TreeOp (Fin 2))) := by
      rw [heq]
      simp
    simp only [List.mem_cons, List.not_mem_nil, or_false] at hop
    rcases hop with rfl | rfl | rfl
    · exact fun a b hrange => by cases hrange
    · trivial
    · trivial
  exact ⟨_, rfl, countsRight_of_onceRun honce hclosed (List.append_nil _).symm rfl, by decide⟩

end TreeItems

end JavaFx.Control
