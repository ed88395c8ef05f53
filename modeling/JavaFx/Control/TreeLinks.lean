import JavaFx.Control.TreeItem

/-!
# The parent links of tree items

A link counter was meant to absorb an item that stands twice in a list for a moment, but it is
never taken back. While every item that is put into a list stands in none, the counters stay
zero and the links are those of the lists.
-/

namespace JavaFx.Control

open Collections UpForest

namespace TreeItems

variable {ι : Type} [DecidableEq ι] {s t : TreeItems ι} {p x y : ι}

/-- The parent links. -/
def up (s : TreeItems ι) (x : ι) : Option ι := (s x).parent

@[simp] theorem modify_self (s : TreeItems ι) (x : ι) (f : TreeItem ι → TreeItem ι) :
    s.modify x f x = f (s x) := Function.update_self ..

theorem modify_of_ne (s : TreeItems ι) (f : TreeItem ι → TreeItem ι) (h : y ≠ x) :
    s.modify x f y = s y := Function.update_of_ne h ..

/-! ## Events -/

omit [DecidableEq ι] in
theorem mem_buildEventDispatchChain {fuel : ℕ} {chain : List ι}
    (h : s.buildEventDispatchChain fuel x = some chain) : y ∈ chain ↔ Above s.up x y := by
  induction fuel generalizing x chain with
  | zero => cases h
  | succ fuel ih =>
      rw [buildEventDispatchChain] at h
      cases hparent : (s x).parent with
      | none =>
          simp only [hparent, Option.some.injEq] at h
          rw [← h, List.mem_singleton, above_of_none hparent, eq_comm]
      | some q =>
          simp only [hparent] at h
          obtain ⟨rest, hrest, rfl⟩ := Option.map_eq_some_iff.mp h
          have hup : s.up x = some q := hparent
          rw [List.mem_append, List.mem_singleton, ih hrest, above_of_some hup, or_comm,
            @eq_comm ι y x]

omit [DecidableEq ι] in
/-- A chain that has been built shows that no item on it lies above itself. -/
theorem not_above_of_chain {fuel : ℕ} {chain : List ι}
    (h : s.buildEventDispatchChain fuel x = some chain) {n q : ι} (hn : Above s.up x n)
    (hq : s.up n = some q) : ¬ Above s.up q n := by
  induction fuel generalizing x chain n q with
  | zero => cases h
  | succ fuel ih =>
      rw [buildEventDispatchChain] at h
      cases hparent : (s x).parent with
      | none =>
          rw [above_of_none hparent] at hn
          subst hn
          rw [up, hparent] at hq
          cases hq
      | some r =>
          simp only [hparent] at h
          obtain ⟨rest, hrest, -⟩ := Option.map_eq_some_iff.mp h
          rcases (above_of_some hparent).mp hn with rfl | hn
          · rw [up, hparent, Option.some_inj] at hq
            subst hq
            intro hcycle
            exact ih hrest hcycle hparent hcycle
          · exact ih hrest hn hq

theorem foldr_itemListener (chain : List ι) (s : TreeItems ι) (y : ι) :
    chain.foldr itemListener s y =
      if y ∈ chain then { s y with expandedDescendentCountDirty := true } else s y := by
  induction chain with
  | nil => simp
  | cons z chain ih =>
      rw [List.foldr_cons, itemListener]
      by_cases hy : y = z
      · subst hy
        rw [modify_self, ih, if_pos List.mem_cons_self]
        split <;> rfl
      · rw [modify_of_ne _ _ hy, ih]
        simp [hy]

variable [Fintype ι]

/-- **An event** makes the items above dirty, and there is no cycle among them. -/
theorem fireEvent_spec (h : s.fireEvent x = some t) :
    (∀ y, Above s.up x y → t y = { s y with expandedDescendentCountDirty := true }) ∧
      (∀ y, ¬ Above s.up x y → t y = s y) ∧
      ∀ n q, Above s.up x n → s.up n = some q → ¬ Above s.up q n := by
  rw [fireEvent] at h
  obtain ⟨chain, hchain, rfl⟩ := Option.map_eq_some_iff.mp h
  refine ⟨fun y hy => ?_, fun y hy => ?_, fun n q hn hq => not_above_of_chain hchain hn hq⟩
  · rw [foldr_itemListener, if_pos ((mem_buildEventDispatchChain hchain).mpr hy)]
  · rw [foldr_itemListener, if_neg fun hmem => hy ((mem_buildEventDispatchChain hchain).mp hmem)]

/-- Nothing else is changed by an event. -/
theorem fireEvent_fields (h : s.fireEvent x = some t) (y : ι) :
    t y = { s y with expandedDescendentCountDirty := (t y).expandedDescendentCountDirty } := by
  obtain ⟨habove, hother, -⟩ := fireEvent_spec h
  by_cases hy : Above s.up x y
  · rw [habove y hy]
  · rw [hother y hy]

theorem fireEvent_up (h : s.fireEvent x = some t) : t.up = s.up := by
  funext y
  rw [up, fireEvent_fields h y]
  rfl

/-! ## Linking children -/

omit [Fintype ι] in
/-- A child whose counter is zero and that is not linked to the new parent gets linked. -/
theorem updateChildParent_some {newParent : Option ι} (hcount : (s x).parentLinkCount = 0)
    (hne : newParent = none ∨ (s x).parent ≠ newParent) :
    updateChildParent newParent s (some x) =
      s.modify x fun item => { item with parent := newParent } := by
  have hmatch : ((s x).parent.isSome && decide ((s x).parent = newParent)) = false := by
    rcases hne with rfl | hne
    · cases (s x).parent <;> simp
    · simp [hne]
  rw [updateChildParent]
  simp only [hmatch, Bool.false_eq_true, if_false]
  rw [if_pos hcount]

omit [Fintype ι] in
/-- Unlinking. -/
theorem updateChildrenParent_none (hcount : ∀ x, (s x).parentLinkCount = 0)
    (removed : List (Option ι)) (x : ι) :
    updateChildrenParent removed none s x =
      { s x with parent := if some x ∈ removed then none else (s x).parent } := by
  induction removed generalizing s with
  | nil => simp [updateChildrenParent]
  | cons o removed ih =>
      rw [updateChildrenParent, List.foldl_cons]
      cases o with
      | none =>
          have := ih hcount
          rw [updateChildrenParent] at this
          rw [updateChildParent, this]
          simp
      | some z =>
          rw [updateChildParent_some (hcount z) (Or.inl rfl)]
          have hcount' : ∀ y, ((s.modify z fun item => { item with parent := none }) y).parentLinkCount
              = 0 := by
            intro y
            by_cases hy : y = z
            · subst hy
              rw [modify_self]
              exact hcount y
            · rw [modify_of_ne _ _ hy]
              exact hcount y
          have := ih hcount'
          rw [updateChildrenParent] at this
          rw [this]
          by_cases hx : x = z
          · subst hx
            simp
          · rw [modify_of_ne _ _ hx]
            simp [hx]

omit [Fintype ι] in
/-- Linking, each child once. -/
theorem updateChildrenParent_some (hcount : ∀ x, (s x).parentLinkCount = 0)
    {added : List (Option ι)} (hnodup : (added.filterMap id).Nodup)
    (hnew : ∀ x, some x ∈ added → (s x).parent ≠ some p) (x : ι) :
    updateChildrenParent added (some p) s x =
      { s x with parent := if some x ∈ added then some p else (s x).parent } := by
  induction added generalizing s with
  | nil => simp [updateChildrenParent]
  | cons o added ih =>
      rw [updateChildrenParent, List.foldl_cons]
      cases o with
      | none =>
          have := ih hcount (by simpa using hnodup)
            fun y hy => hnew y (List.mem_cons_of_mem _ hy)
          rw [updateChildrenParent] at this
          rw [updateChildParent, this]
          simp
      | some z =>
          have hcons : z ∉ added.filterMap id ∧ (added.filterMap id).Nodup := by
            simpa using hnodup
          have hz : some z ∉ added := by simpa using hcons.1
          rw [updateChildParent_some (hcount z) (Or.inr (hnew z List.mem_cons_self))]
          have hcount' : ∀ y, ((s.modify z fun item =>
              { item with parent := some p }) y).parentLinkCount = 0 := by
            intro y
            by_cases hy : y = z
            · subst hy
              rw [modify_self]
              exact hcount y
            · rw [modify_of_ne _ _ hy]
              exact hcount y
          have hnew' : ∀ y, some y ∈ added →
              ((s.modify z fun item => { item with parent := some p }) y).parent ≠ some p := by
            intro y hy
            have hne : y ≠ z := fun he => hz (he ▸ hy)
            rw [modify_of_ne _ _ hne]
            exact hnew y (List.mem_cons_of_mem _ hy)
          have := ih hcount' hcons.2 hnew'
          rw [updateChildrenParent] at this
          rw [this]
          by_cases hx : x = z
          · subst hx
            simp [hz]
          · rw [modify_of_ne _ _ hx]
            simp [hx]

/-- What a part of a change makes of the links and the leaf flag. -/
def relinked (s : TreeItems ι) (p : ι) (c : ChildrenChange ι) : TreeItems ι := fun x =>
  { s x with
    parent := if some x ∈ c.added then some p else if some x ∈ c.removed then none else (s x).parent
    leaf := if x = p then (s p).children.isEmpty else (s x).leaf }

omit [Fintype ι] in
theorem relinked_up (s : TreeItems ι) (p : ι) (c : ChildrenChange ι) (x : ι) :
    (s.relinked p c).up x =
      if some x ∈ c.added then some p else if some x ∈ c.removed then none else s.up x := rfl

/-- The children that a part brings in are new to the item. -/
structure NewTo (s : TreeItems ι) (p : ι) (c : ChildrenChange ι) : Prop where
  nodup : (c.added.filterMap id).Nodup
  unlinked : ∀ x, some x ∈ c.added → some x ∈ c.removed ∨ (s x).parent ≠ some p

theorem updateChildren_eq (hcount : ∀ x, (s x).parentLinkCount = 0) {c : ChildrenChange ι}
    (hnew : NewTo s p c) : updateChildren p s c = (s.relinked p c).fireEvent p := by
  rw [updateChildren]
  set leafSet := s.modify p fun item => { item with leaf := item.children.isEmpty } with hleafSet
  have hfield : ∀ x, leafSet x =
      { s x with leaf := if x = p then (s p).children.isEmpty else (s x).leaf } := by
    intro x
    by_cases hx : x = p
    · subst hx
      rw [hleafSet, modify_self]
      simp
    · rw [hleafSet, modify_of_ne _ _ hx]
      simp [hx]
  have hremoved := updateChildrenParent_none (s := leafSet)
    (fun x => by rw [hfield]; exact hcount x) c.removed
  have hadded := updateChildrenParent_some (s := updateChildrenParent c.removed none leafSet)
    (p := p) (fun x => by rw [hremoved, hfield]; exact hcount x) hnew.nodup (by
      intro x hx
      rw [hremoved, hfield]
      rcases hnew.unlinked x hx with hgone | hother
      · simp [hgone]
      · by_cases hgone : some x ∈ c.removed
        · simp [hgone]
        · simpa [hgone] using hother)
  have heq : updateChildrenParent c.added (some p) (updateChildrenParent c.removed none leafSet) =
      s.relinked p c := by
    funext x
    rw [hadded, hremoved, hfield, relinked]
  simp only [heq]

/-- Several parts that only take out. -/
theorem foldlM_updateChildren_removed {changes : List (ChildrenChange ι)}
    (hcount : ∀ x, (s x).parentLinkCount = 0) (hempty : ∀ c ∈ changes, c.added = [])
    (h : changes.foldlM (updateChildren p) s = some t) :
    ∀ x, (t x).children = (s x).children ∧ (t x).changeOpen = (s x).changeOpen ∧
      (t x).parentLinkCount = 0 ∧
      (t x).parent =
        if some x ∈ changes.flatMap ChildrenChange.removed then none else (s x).parent := by
  induction changes generalizing s with
  | nil =>
      cases h
      intro x
      exact ⟨rfl, rfl, hcount x, by simp⟩
  | cons c changes ih =>
      rw [List.foldlM_cons] at h
      obtain ⟨u, hu, hrest⟩ := Option.bind_eq_some_iff.mp h
      have hadded : c.added = [] := hempty c List.mem_cons_self
      rw [updateChildren_eq hcount ⟨by simp [hadded], by simp [hadded]⟩] at hu
      have hfields := fireEvent_fields hu
      intro x
      obtain ⟨hchildren, hopen, hzero, hparent⟩ := ih
        (fun y => by rw [hfields y]; exact hcount y)
        (fun d hd => hempty d (List.mem_cons_of_mem _ hd)) hrest x
      rw [hfields x] at hchildren hopen hparent
      refine ⟨hchildren, hopen, hzero, ?_⟩
      rw [hparent]
      simp only [relinked, hadded, List.not_mem_nil, if_false, List.flatMap_cons, List.mem_append]
      by_cases hin : some x ∈ c.removed
      · simp [hin]
      · simp [hin]

end TreeItems

/-! ## What a children list tells -/

/-- What a mutator tells its listeners, `remove(Object)` included. -/
theorem mutate_told {α : Type} [BEq α] (l : List α) {m : ListMutator α} (h : m.InRange l) :
    ∃ l' fired removed, ObservableListWrapper.mutate l m = .ok (l', fired) ∧
      Reported l l' removed m.come fired ∧ (m.come ≠ [] → removed = m.gone l) := by
  by_cases hm : ∃ o, m = .remove o
  · obtain ⟨o, rfl⟩ := hm
    rw [ObservableListWrapper.mutate]
    cases hfind : l.findIdx? (o == ·) with
    | none =>
        have hindex : indexOf l o = -1 := by rw [indexOf, hfind]
        rw [hindex, if_neg (by simp)]
        exact ⟨l, none, [], rfl, ObservableListWrapper.reported_nothing l, fun hne => absurd rfl hne⟩
    | some i =>
        have hindex : indexOf l o = i := by rw [indexOf, hfind]
        obtain ⟨hi, -⟩ := List.findIdx?_eq_some_iff_getElem.mp hfind
        have hin : (ListMutator.removeAt (i : ℤ) : ListMutator α).InRange l :=
          ⟨by omega, by omega⟩
        obtain ⟨l', fired, hrun, hrep⟩ := ObservableListWrapper.mutate_reported hin (by simp)
        rw [hindex, if_pos (by omega)]
        exact ⟨l', fired, _, hrun, hrep, fun hne => absurd rfl hne⟩
  · push Not at hm
    obtain ⟨l', fired, hrun, hrep⟩ := ObservableListWrapper.mutate_reported h hm
    exact ⟨l', fired, m.gone l, hrun, hrep, fun _ => rfl⟩

namespace TreeItems

variable {ι : Type} [DecidableEq ι] {s t : TreeItems ι} {p x y : ι}

/-- The links are those of the lists, and no item stands in two places. -/
structure Linked (s : TreeItems ι) : Prop where
  once : ∀ p, ((s p).children.filterMap id).Nodup
  parent : ∀ x p, (s x).parent = some p ↔ some x ∈ (s p).children
  linkCount : ∀ x, (s x).parentLinkCount = 0
  closed : ∀ p, (s p).changeOpen = false

/-- What has gone and what has come, as the links see it. -/
theorem Linked.replace {l' removed added kept : List (Option ι)} (h : Linked s)
    (hbefore : (s p).children.Perm (kept ++ removed)) (hafter : l'.Perm (kept ++ added))
    (hnodup : (added.filterMap id).Nodup)
    (hfresh : ∀ x, some x ∈ added → ∀ q, some x ∈ (s q).children → q = p ∧ some x ∈ removed)
    (hchildren : ∀ q, (t q).children = if q = p then l' else (s q).children)
    (hparent : ∀ x, (t x).parent =
      if some x ∈ added then some p else if some x ∈ removed then none else (s x).parent)
    (hlinkCount : ∀ x, (t x).parentLinkCount = 0) (hclosed : ∀ q, (t q).changeOpen = false) :
    Linked t := by
  have hparts : (kept.filterMap id ++ removed.filterMap id).Nodup := by
    rw [← List.filterMap_append]
    exact ((hbefore.filterMap id).nodup_iff).mp (h.once p)
  have hdisjoint : ∀ x, some x ∈ kept → some x ∉ removed := by
    intro x hkept hremoved
    exact (List.nodup_append.mp hparts).2.2 x (by simpa using hkept) x (by simpa using hremoved) rfl
  have hmem : ∀ x, some x ∈ (s p).children ↔ some x ∈ kept ∨ some x ∈ removed := by
    intro x
    rw [hbefore.mem_iff, List.mem_append]
  refine ⟨fun q => ?_, fun x q => ?_, hlinkCount, hclosed⟩
  · rw [hchildren q]
    split
    · rw [(hafter.filterMap id).nodup_iff, List.filterMap_append, List.nodup_append]
      refine ⟨(List.nodup_append.mp hparts).1, hnodup, ?_⟩
      rintro x hx _ hy rfl
      have hkept : some x ∈ kept := by simpa using hx
      obtain ⟨-, hgone⟩ := hfresh x (by simpa using hy) p ((hmem x).mpr (Or.inl hkept))
      exact hdisjoint x hkept hgone
    · exact h.once q
  · rw [hchildren q, hparent x]
    by_cases hq : q = p
    · subst hq
      rw [if_pos rfl, hafter.mem_iff, List.mem_append]
      by_cases hadd : some x ∈ added
      · simp [hadd]
      · by_cases hgone : some x ∈ removed
        · simpa [hadd, hgone] using fun hkept => hdisjoint x hkept hgone
        · simp [hadd, hgone, h.parent x q, hmem x]
    · rw [if_neg hq]
      by_cases hadd : some x ∈ added
      · rw [if_pos hadd]
        refine iff_of_false (fun he => hq (Option.some_inj.mp he).symm) fun hin => ?_
        exact hq (hfresh x hadd q hin).1
      · rw [if_neg hadd]
        by_cases hgone : some x ∈ removed
        · rw [if_pos hgone]
          refine iff_of_false (by simp) fun hin => hq ?_
          have hold : (s x).parent = some p := (h.parent x p).mpr ((hmem x).mpr (Or.inr hgone))
          rw [(h.parent x q).mpr hin, Option.some_inj] at hold
          exact hold
        · rw [if_neg hgone]
          exact h.parent x q

variable [Fintype ι]

/-- What the parts of a change have in common with the children list they come from. -/
structure Parts (removed added : List (Option ι)) (changes : List (ChildrenChange ι)) :
    Prop where
  shape : (∃ c, changes = [c]) ∨ ∀ c ∈ changes, c.added = []
  removed_eq : changes.flatMap ChildrenChange.removed = removed
  added_eq : changes.flatMap ChildrenChange.added = added
  ne_nil : changes ≠ []

omit [DecidableEq ι] [Fintype ι] in
theorem parts_of_told {l l' removed added : List (Option ι)} {subs : List (SubChange (Option ι))}
    (h : Told l l' removed added subs) : Parts removed added (subs.map (shown l')) where
  shape := by
    rcases h.shape with ⟨c, rfl⟩ | hall
    · exact Or.inl ⟨_, rfl⟩
    · refine Or.inr fun c hc => ?_
      obtain ⟨sub, hsub, rfl⟩ := List.mem_map.mp hc
      rw [shown, hall sub hsub]
      exact ObservableListWrapper.slice_self _ _
  removed_eq := by
    rw [← h.removed_eq, List.flatMap_map]
    rfl
  added_eq := by
    rw [← h.added_eq, List.flatMap_map]
    rfl
  ne_nil := by simpa using h.ne_nil

/-- The links after the listener of the children list has run. -/
theorem onChanged_links {removed added : List (Option ι)} {changes : List (ChildrenChange ι)}
    (hparts : Parts removed added changes) (hcount : ∀ x, (s x).parentLinkCount = 0)
    (hnew : NewTo s p ⟨added, removed⟩) (h : s.onChanged p changes = some t) :
    ∀ x, (t x).children = (s x).children ∧ (t x).changeOpen = (s x).changeOpen ∧
      (t x).parentLinkCount = 0 ∧ (t x).parent =
        if some x ∈ added then some p else if some x ∈ removed then none else (s x).parent := by
  have hdirty : ∀ x, itemListener p s x = { s x with
      expandedDescendentCountDirty := (itemListener p s x).expandedDescendentCountDirty } := by
    intro x
    by_cases hx : x = p
    · subst hx
      rw [itemListener, modify_self]
    · rw [itemListener, modify_of_ne _ _ hx]
  have hcount' : ∀ x, (itemListener p s x).parentLinkCount = 0 := by
    intro x
    rw [hdirty x]
    exact hcount x
  rw [onChanged] at h
  rcases hparts.shape with ⟨c, rfl⟩ | hempty
  · have hadded : c.added = added := by simpa using hparts.added_eq
    have hremoved : c.removed = removed := by simpa using hparts.removed_eq
    have hnew' : NewTo (itemListener p s) p c := by
      refine ⟨by rw [hadded]; exact hnew.nodup, fun x hx => ?_⟩
      rw [hadded] at hx
      rw [hremoved, hdirty x]
      exact hnew.unlinked x hx
    simp only [List.foldlM_cons, List.foldlM_nil, bind_pure] at h
    rw [updateChildren_eq hcount' hnew'] at h
    intro x
    rw [fireEvent_fields h x]
    simp only [relinked, hadded, hremoved]
    rw [hdirty x]
    exact ⟨rfl, rfl, hcount x, rfl⟩
  · have hnone : added = [] := by
      rw [← hparts.added_eq, List.flatMap_eq_nil_iff]
      exact hempty
    intro x
    obtain ⟨hchildren, hopen, hzero, hparent⟩ :=
      foldlM_updateChildren_removed hcount' hempty h x
    rw [hdirty x] at hchildren hopen hparent
    rw [hparts.removed_eq] at hparent
    refine ⟨hchildren, hopen, hzero, ?_⟩
    rw [hparent, hnone]
    simp

/-- **A change of a children list** that puts in only items that stand in no list. -/
theorem Linked.changed {l' removed added : List (Option ι)} (h : Linked s)
    {fired : Option (List (SubChange (Option ι)))}
    (hrep : Reported (s p).children l' removed added fired)
    (hnodup : (added.filterMap id).Nodup)
    (hfresh : ∀ x, some x ∈ added → ∀ q, some x ∈ (s q).children → q = p ∧ some x ∈ removed)
    (ht : (s.modify p fun item => { item with children := l' }).heard p l' fired = some t) :
    Linked t := by
  set s' := s.modify p fun item => { item with children := l' } with hs'
  have hfield : ∀ q, s' q = { s q with
      children := if q = p then l' else (s q).children } := by
    intro q
    by_cases hq : q = p
    · subst hq
      rw [hs', modify_self]
      simp
    · rw [hs', modify_of_ne _ _ hq]
      simp [hq]
  cases fired with
  | none =>
      obtain ⟨hsame, -, -⟩ := hrep.quiet rfl
      have : s' = s := by
        funext q
        rw [hfield q]
        by_cases hq : q = p
        · subst hq
          simp [hsame]
        · simp [hq]
      rw [← Option.some_inj.mp ht, this]
      exact h
  | some subs =>
      have htold := hrep.told subs rfl
      obtain ⟨kept, hbefore, hafter⟩ := htold.kept
      have hlinks := onChanged_links (parts_of_told htold)
        (fun x => by rw [hfield x]; exact h.linkCount x)
        ⟨hnodup, fun x hx => by
          rw [hfield x]
          by_cases hparent : (s x).parent = some p
          · exact Or.inl (hfresh x hx p ((h.parent x p).mp hparent)).2
          · exact Or.inr hparent⟩ ht
      refine h.replace hbefore hafter hnodup hfresh ?_ ?_ ?_ ?_
      · intro q
        rw [(hlinks q).1, hfield q]
      · intro x
        rw [(hlinks x).2.2.2, hfield x]
      · exact fun x => (hlinks x).2.2.1
      · intro q
        rw [(hlinks q).2.1, hfield q]
        exact h.closed q

/-! ## Calls that leave the tree as it is -/

/-- The lists, the links and the leaf flags are the same. -/
structure SameShape (s t : TreeItems ι) : Prop where
  children : ∀ x, (t x).children = (s x).children
  changeOpen : ∀ x, (t x).changeOpen = (s x).changeOpen
  parent : ∀ x, (t x).parent = (s x).parent
  parentLinkCount : ∀ x, (t x).parentLinkCount = (s x).parentLinkCount
  leaf : ∀ x, (t x).leaf = (s x).leaf

omit [DecidableEq ι] [Fintype ι] in
theorem SameShape.refl (s : TreeItems ι) : SameShape s s :=
  ⟨fun _ => rfl, fun _ => rfl, fun _ => rfl, fun _ => rfl, fun _ => rfl⟩

omit [DecidableEq ι] [Fintype ι] in
theorem SameShape.trans {u : TreeItems ι} (h : SameShape s t) (h' : SameShape t u) :
    SameShape s u where
  children x := (h'.children x).trans (h.children x)
  changeOpen x := (h'.changeOpen x).trans (h.changeOpen x)
  parent x := (h'.parent x).trans (h.parent x)
  parentLinkCount x := (h'.parentLinkCount x).trans (h.parentLinkCount x)
  leaf x := (h'.leaf x).trans (h.leaf x)

omit [Fintype ι] in
/-- A change of the other fields of one item. -/
theorem sameShape_modify (s : TreeItems ι) (x : ι) {f : TreeItem ι → TreeItem ι}
    (h : ∀ item, (f item).children = item.children ∧ (f item).changeOpen = item.changeOpen ∧
      (f item).parent = item.parent ∧ (f item).parentLinkCount = item.parentLinkCount ∧
      (f item).leaf = item.leaf) : SameShape s (s.modify x f) := by
  have hfield : ∀ y, s.modify x f y = s y ∨ s.modify x f y = f (s y) := by
    intro y
    by_cases hy : y = x
    · subst hy
      exact Or.inr (modify_self s y f)
    · exact Or.inl (modify_of_ne s f hy)
  constructor
  all_goals
    intro y
    rcases hfield y with heq | heq
    · rw [heq]
    · rw [heq]
      obtain ⟨h₁, h₂, h₃, h₄, h₅⟩ := h (s y)
      assumption

omit [Fintype ι] in
theorem sameShape_validate (s : TreeItems ι) (x : ι) : SameShape s (s.validate x) :=
  sameShape_modify s x fun _ => ⟨rfl, rfl, rfl, rfl, rfl⟩

theorem sameShape_fireEvent (h : s.fireEvent x = some t) : SameShape s t := by
  constructor
  all_goals
    intro y
    rw [fireEvent_fields h y]

theorem sameShape_setExpanded {value : Bool} (h : s.setExpanded x value = some t) :
    SameShape s t := by
  unfold setExpanded at h
  split at h
  · cases h
    exact SameShape.refl s
  · simp only [] at h
    split at h
    · cases h
      exact sameShape_modify s x fun _ => ⟨rfl, rfl, rfl, rfl, rfl⟩
    · have hset := sameShape_modify s x (f := fun item =>
        { item with expanded := some ⟨value, false⟩ }) fun _ => ⟨rfl, rfl, rfl, rfl, rfl⟩
      split at h
      · unfold expandedInvalidated at h
        split at h
        · cases h
          exact hset
        · exact (hset.trans (sameShape_validate _ x)).trans (sameShape_fireEvent h)
      · cases h
        exact hset

omit [Fintype ι] in
theorem sameShape_addChildCounts {count : ι → TreeItems ι → Option (ℤ × TreeItems ι)}
    (hcount : ∀ c n (s t : TreeItems ι), count c s = some (n, t) → SameShape s t)
    {children : List (Option ι)} (h : addChildCounts count x s children = some t) : SameShape s t := by
  induction children generalizing s with
  | nil =>
      cases h
      exact SameShape.refl _
  | cons o rest ih =>
      cases o with
      | none => exact ih h
      | some child =>
          rw [addChildCounts] at h
          obtain ⟨⟨n, u⟩, hu, hrest⟩ := Option.bind_eq_some_iff.mp h
          have hchild : SameShape s u := by
            unfold childCount at hu
            split at hu
            · exact (sameShape_validate s child).trans (hcount _ _ _ _ hu)
            · cases hu
              exact sameShape_validate s child
          have hadd := sameShape_modify u x (f := fun item => { item with
            expandedDescendentCount := (s x).expandedDescendentCount + n })
            fun _ => ⟨rfl, rfl, rfl, rfl, rfl⟩
          exact hchild.trans (hadd.trans (ih hrest))

omit [Fintype ι] in
theorem sameShape_countWithin {fuel : ℕ} {reset : Bool} {n : ℤ}
    (h : countWithin fuel reset x s = some (n, t)) : SameShape s t := by
  induction fuel generalizing x s t n with
  | zero => cases h
  | succ fuel ih =>
      rw [countWithin] at h
      split at h
      next =>
        obtain ⟨u, hu, hdone⟩ := Option.bind_eq_some_iff.mp h
        have hupdate : SameShape s u := by
          unfold updateExpandedDescendentCount at hu
          simp only [] at hu
          have hstart := sameShape_modify s x (f := fun item => { item with
            previousExpandedDescendentCount := item.expandedDescendentCount
            expandedDescendentCount := 1 }) fun _ => ⟨rfl, rfl, rfl, rfl, rfl⟩
          split at hu
          · cases hu
            exact hstart
          · split at hu
            · exact (hstart.trans (sameShape_validate _ x)).trans
                (sameShape_addChildCounts (fun _ _ _ _ hc => ih hc) hu)
            · cases hu
              exact hstart.trans (sameShape_validate _ x)
        cases hdone
        exact hupdate.trans (sameShape_modify u x fun _ => ⟨rfl, rfl, rfl, rfl, rfl⟩)
      next =>
        cases h
        exact SameShape.refl s

omit [DecidableEq ι] [Fintype ι] in
theorem Linked.of_sameShape (h : Linked s) (hsame : SameShape s t) : Linked t where
  once p := by rw [hsame.children p]; exact h.once p
  parent x p := by rw [hsame.children p, hsame.parent x]; exact h.parent x p
  linkCount x := by rw [hsame.parentLinkCount x]; exact h.linkCount x
  closed p := by rw [hsame.changeOpen p]; exact h.closed p

end TreeItems

/-! ## One call, and whole runs -/

variable {ι : Type} [DecidableEq ι] [Fintype ι] {s t : TreeItems ι}

/-- What is put into a list stands in none, except where the same call takes it out; and no
`remove(from, to)` throws. -/
def TreeOp.Fresh (s : TreeItems ι) : TreeOp ι → Prop
  | .mutateChildren p m =>
    (m.InRange (s p).children → (m.come.filterMap id).Nodup ∧
      ∀ x, some x ∈ m.come → ∀ q, some x ∈ (s q).children →
        q = p ∧ some x ∈ m.gone (s p).children) ∧
    ∀ a b, m = .removeRange a b → m.InRange (s p).children
  | _ => True

namespace TreeItems

theorem Linked.mutateChildren (h : Linked s) {p : ι} {m : ListMutator (Option ι)}
    (hfresh : (TreeOp.mutateChildren p m).Fresh s) (ht : s.mutateChildren p m = some t) :
    Linked t := by
  obtain ⟨hcome, hrange⟩ := hfresh
  unfold TreeItems.mutateChildren at ht
  by_cases hin : m.InRange (s p).children
  · obtain ⟨l', fired, removed, hrun, hrep, hgone⟩ := mutate_told (s p).children hin
    obtain ⟨hnodup, honce⟩ := hcome hin
    rw [hrun] at ht
    simp only [h.closed p, Bool.false_eq_true, if_false] at ht
    refine h.changed hrep hnodup (fun x hx q hq => ?_) ht
    rw [hgone fun hnil => by rw [hnil] at hx; cases hx]
    exact honce x hx q hq
  · rw [ObservableListWrapper.mutate_error hin] at ht
    have hsame : t = s := by
      cases m with
      | removeRange a b => exact absurd (hrange a b rfl) hin
      | _ => exact (Option.some_inj.mp ht).symm
    rw [hsame]
    exact h

theorem Linked.sortChildren (h : Linked s) {p : ι} {le : Option ι → Option ι → Bool}
    (ht : s.sortChildren p le = some t) : Linked t := by
  rw [TreeItems.sortChildren] at ht
  split at ht
  · cases ht
    exact h
  · set s' := s.modify p fun item => { item with children := item.children.mergeSort le } with hs'
    have hfield : ∀ q, s' q = { s q with
        children := if q = p then (s p).children.mergeSort le else (s q).children } := by
      intro q
      by_cases hq : q = p
      · subst hq
        rw [hs', modify_self]
        simp
      · rw [hs', modify_of_ne _ _ hq]
        simp [hq]
    have hparts : Parts ([] : List (Option ι)) [] [⟨[], []⟩] := ⟨Or.inl ⟨_, rfl⟩, rfl, rfl, by simp⟩
    have hnew : NewTo s' p ⟨[], []⟩ := ⟨by simp, by simp⟩
    have hlinks := onChanged_links hparts (fun x => by rw [hfield x]; exact h.linkCount x) hnew ht
    -- a permutation: the same children in another order
    have hbefore : (s p).children.Perm ((s p).children ++ []) := by simp
    have hafter : ((s p).children.mergeSort le).Perm ((s p).children ++ []) := by
      simpa using List.mergeSort_perm (s p).children le
    refine h.replace hbefore hafter (by simp) (by simp) ?_ ?_ ?_ ?_
    · intro q
      rw [(hlinks q).1, hfield q]
    · intro x
      rw [(hlinks x).2.2.2, hfield x]
    · exact fun x => (hlinks x).2.2.1
    · intro q
      rw [(hlinks q).2.1, hfield q]
      exact h.closed q

end TreeItems

open TreeItems

theorem TreeOp.perform_linked (h : Linked s) {op : TreeOp ι} (hfresh : op.Fresh s)
    (ht : op.perform s = some t) : Linked t := by
  cases op with
  | mutateChildren p m => exact h.mutateChildren hfresh ht
  | sortChildren p le => exact h.sortChildren ht
  | setExpanded x value => exact h.of_sameShape (sameShape_setExpanded ht)
  | isExpanded x =>
      cases ht
      exact h.of_sameShape (sameShape_validate s x)
  | getExpandedDescendentCount reset x =>
      obtain ⟨⟨n, u⟩, hu, rfl⟩ := Option.map_eq_some_iff.mp ht
      exact h.of_sameShape (sameShape_countWithin hu)

namespace TreeItems

omit [DecidableEq ι] [Fintype ι] in
theorem linked_new : Linked (fun _ => TreeItem.new : TreeItems ι) where
  once _ := List.nodup_nil
  parent _ _ := by simp [TreeItem.new]
  linkCount _ := rfl
  closed _ := rfl

theorem afterOps_concat {ops : List (TreeOp ι)} {op : TreeOp ι} :
    afterOps (ops ++ [op]) = (afterOps ops).bind (TreeOp.perform · op) := by
  rw [afterOps, List.foldlM_append]
  simp only [List.foldlM_cons, List.foldlM_nil, bind_pure]
  rfl

/-- Every call of a run is fresh in the state it finds. -/
def FreshRun (ops : List (TreeOp ι)) : Prop :=
  ∀ done op rest, ops = done ++ op :: rest → ∀ s, afterOps done = some s → op.Fresh s

theorem FreshRun.init {ops : List (TreeOp ι)} {op : TreeOp ι} (h : FreshRun (ops ++ [op])) :
    FreshRun ops := by
  intro done op' rest heq
  exact h done op' (rest ++ [op]) (by rw [heq]; simp)

theorem afterOps_linked {ops : List (TreeOp ι)} (hfresh : FreshRun ops)
    (h : afterOps ops = some s) : Linked s := by
  induction ops using List.reverseRecOn generalizing s with
  | nil =>
      cases h
      exact linked_new
  | append_singleton ops op ih =>
      rw [afterOps_concat] at h
      obtain ⟨u, hu, hop⟩ := Option.bind_eq_some_iff.mp h
      exact TreeOp.perform_linked (ih hfresh.init hu) (hfresh ops op [] rfl u hu) hop

/-- An item in exactly one list has its owner as the parent, and an item in none has none. -/
def ParentsMatch (s : TreeItems ι) : Prop :=
  ∀ x, (∀ p, some x ∈ (s p).children → (∀ q, some x ∈ (s q).children → q = p) →
      (s x).parent = some p) ∧
    ((∀ p, some x ∉ (s p).children) → (s x).parent = none)

omit [DecidableEq ι] [Fintype ι] in
theorem Linked.parentsMatch (h : Linked s) : ParentsMatch s := by
  intro x
  refine ⟨fun p hp _ => (h.parent x p).mpr hp, fun hnone => ?_⟩
  cases hparent : (s x).parent with
  | none => rfl
  | some p => exact absurd ((h.parent x p).mp hparent) (hnone p)

/-- **Parent links.** In a run of fresh calls the links match the lists in every state. -/
theorem parentsMatch_of_freshRun {ops : List (TreeOp ι)} (hfresh : FreshRun ops) {done rest}
    (hops : ops = done ++ rest) {s : TreeItems ι} (h : afterOps done = some s) :
    ParentsMatch s := by
  have hdone : FreshRun done := by
    intro done' op rest' heq
    exact hfresh done' op (rest' ++ rest) (by rw [hops, heq]; simp)
  exact (afterOps_linked hdone h).parentsMatch

/-- An item is added, added again, and taken out twice: its parent is still the old one. -/
theorem added_twice_parent_stays :
    ∃ s, afterOps ([.mutateChildren 0 (.add (some 1)), .mutateChildren 0 (.add (some 1)),
        .mutateChildren 0 (.removeAt 0), .mutateChildren 0 (.removeAt 0)] :
          List (TreeOp (Fin 2))) = some s ∧ ¬ ParentsMatch s := by
  refine ⟨_, rfl, fun h => ?_⟩
  have hnone := (h 1).2 (by decide)
  revert hnone
  decide

/-- An item goes into a list and comes out of it again. -/
theorem parentsMatch_in_and_out :
    ∃ s, afterOps ([.mutateChildren 0 (.add (some 1)), .mutateChildren 0 .clear] :
      List (TreeOp (Fin 2))) = some s ∧ ParentsMatch s := by
  have hfresh : FreshRun ([.mutateChildren 0 (.add (some 1)), .mutateChildren 0 .clear] :
      List (TreeOp (Fin 2))) := by
    intro done op rest hops s hs
    rcases done with _ | ⟨first, done⟩
    · -- the first call, before which all lists are empty
      obtain ⟨rfl, -⟩ := List.cons.inj hops
      cases hs
      refine ⟨fun _ => ⟨by decide, fun x _ q hq => ?_⟩, fun a b hrange => by cases hrange⟩
      exact absurd hq List.not_mem_nil
    · rcases done with _ | ⟨second, done⟩
      · -- the second call, which puts nothing in
        obtain ⟨-, hops⟩ := List.cons.inj hops
        obtain ⟨rfl, -⟩ := List.cons.inj hops
        refine ⟨fun _ => ⟨by decide, fun x hx => ?_⟩, fun a b hrange => by cases hrange⟩
        exact absurd hx List.not_mem_nil
      · simp at hops
  exact ⟨_, rfl, parentsMatch_of_freshRun hfresh (List.append_nil _).symm rfl⟩

end TreeItems

end JavaFx.Control
