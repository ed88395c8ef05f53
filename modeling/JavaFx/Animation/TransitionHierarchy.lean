import JavaFx.Animation.TransitionChildren

/-!
# Hierarchies of transitions

As long as no transition is added to a second one while it still is a child of the first, its
`parent` link names the transition whose child it is, and `checkCycle` finds every cycle a change
would make. A transition with two parents has one link only: when it leaves either of them the
link is gone, and the next check walks past it.
-/

namespace JavaFx.Collections

variable {α : Type}

/-- The indexes do not reach past the end after `onProposedChange` has changed anything: what
is added has a place in the list, and a range that begins in the list ends in it. -/
def ListMutator.Positioned (l : List α) : ListMutator α → Prop
  | .addAt index _ => 0 ≤ index ∧ index ≤ l.length
  | .addAllAt index c => c = [] ∨ (0 ≤ index ∧ index ≤ l.length)
  | .removeRange fromIndex toIndex =>
      0 ≤ fromIndex → fromIndex < l.length → toIndex ≤ l.length
  | _ => True

instance (l : List α) (m : ListMutator α) [DecidableEq α] : Decidable (m.Positioned l) :=
  match m with
  | .addAt .. => inferInstanceAs (Decidable (_ ∧ _))
  | .addAllAt .. => inferInstanceAs (Decidable (_ ∨ _))
  | .removeRange fromIndex toIndex =>
      inferInstanceAs (Decidable (0 ≤ fromIndex → fromIndex < l.length → toIndex ≤ l.length))
  | .add _ | .addAll _ | .set .. | .setAll _ | .remove _ | .removeAt _ | .removeAll _
  | .retainAll _ | .clear => .isTrue trivial

end JavaFx.Collections

namespace JavaFx.Animation

open Collections UpForest

variable {τ ν : Type}

namespace Hierarchy

/-- `c` is one of the children of `t`. -/
def ChildOf (h : Hierarchy τ ν) (c t : τ) : Prop := some (.transition c) ∈ h.children t

instance [DecidableEq τ] [DecidableEq ν] (h : Hierarchy τ ν) (c t : τ) :
    Decidable (h.ChildOf c t) :=
  inferInstanceAs (Decidable (some (.transition c) ∈ h.children t))

/-- **What users see:** no transition is a direct or indirect child of itself, and the lists
hold no duplicates and no null. -/
structure Sound (h : Hierarchy τ ν) : Prop where
  acyclic : ∀ t, ¬ Relation.TransGen h.ChildOf t t
  nodup : ∀ t, (h.children t).Nodup
  nonnull : ∀ t, none ∉ h.children t

variable [DecidableEq τ] [DecidableEq ν]

/-- The links of the transitions are those of the lists, and `childrenSet` is up to date. -/
structure Linked (h : Hierarchy τ ν) : Prop where
  nodup : ∀ t, (h.children t).Nodup
  nonnull : ∀ t, none ∉ h.children t
  childrenSet_eq : ∀ t, h.childrenSet t = (h.children t).toFinset
  up_eq : ∀ c t, h.ChildOf c t → h.up c = some t
  acyclic : Acyclic h.up

/-- With such links the lists make no cycle. -/
theorem Linked.sound {h : Hierarchy τ ν} (hl : h.Linked) : h.Sound := by
  refine ⟨?_, hl.nodup, hl.nonnull⟩
  have hup : ∀ c t, Relation.TransGen h.ChildOf c t → ∃ p, h.up c = some p ∧ Above h.up p t := by
    intro c t hct
    induction hct with
    | single hchild => exact ⟨_, hl.up_eq _ _ hchild, Above.refl _ _⟩
    | tail _ hchild ih =>
        obtain ⟨p, hp, habove⟩ := ih
        exact ⟨p, hp, habove.trans (Above.single (hl.up_eq _ _ hchild))⟩
  intro t hcycle
  obtain ⟨p, hp, habove⟩ := hup t t hcycle
  exact hl.acyclic t p hp habove

/-! ## An accepted change -/

/-- `gone` has left the children of `this`, and `come` has joined them. -/
structure Changed (h : Hierarchy τ ν) (this : τ) (gone come : List (Option (Child τ ν)))
    (h' : Hierarchy τ ν) : Prop where
  kept : ∃ kept, (h.children this).Perm (kept ++ gone) ∧ (h'.children this).Perm (kept ++ come) ∧
    h.Added this come kept.toFinset (h'.childrenSet this)
  other : ∀ t, t ≠ this → h'.children t = h.children t ∧ h'.childrenSet t = h.childrenSet t
  parent : h'.parent = ((h.relink gone none).relink come (some this)).parent

/-- The link of a transition after the change. -/
theorem Changed.up_eq {h h' : Hierarchy τ ν} {this : τ} {gone come : List (Option (Child τ ν))}
    (hc : h.Changed this gone come h') (c : τ) :
    h'.up c = if some (.transition c) ∈ come then some this
      else if some (.transition c) ∈ gone then none else h.up c := by
  rw [up, hc.parent]
  rfl

/-- **A change makes no cycle of links.** -/
theorem Changed.acyclic {h h' : Hierarchy τ ν} {this : τ} {gone come : List (Option (Child τ ν))}
    (hc : h.Changed this gone come h') (hacyclic : Acyclic h.up) : Acyclic h'.up := by
  obtain ⟨kept, -, -, hadded⟩ := hc.kept
  have hold : ∀ x y, some (.transition x) ∉ come → h'.up x = some y → h.up x = some y := by
    intro x y hx hxy
    rw [hc.up_eq, if_neg hx] at hxy
    split at hxy
    · cases hxy
    · exact hxy
  -- the walk from `this` meets none of the new children, so it is an old one
  have hwalk : ∀ x, Above h'.up this x → Above h.up this x := by
    intro x hx
    induction hx with
    | refl => exact Above.refl _ _
    | tail _ hstep ih =>
        exact ih.trans (Above.single (hold _ _ (fun hmem => hadded.notAbove _ hmem ih) hstep))
  refine hacyclic.relinked (p := this) ?_ ?_
  · intro x y hxy hy
    refine hold x y (fun hmem => hy ?_) hxy
    rw [hc.up_eq, if_pos hmem, Option.some_inj] at hxy
    exact hxy.symm
  · intro n q hn hq hcycle
    have hqn : h.up n = some q := hold n q (fun hmem => hadded.notAbove n hmem (hwalk n hn)) hq
    have hpath : ∀ x, Above h'.up x n → Above h'.up this x → Above h.up x n := by
      intro x hx
      induction hx using Above.induct with
      | top => exact fun _ => Above.refl _ n
      | next x y hxy _ ih =>
          intro hthis
          have hx : some (.transition x) ∉ come := fun hmem => hadded.notAbove x hmem (hwalk x hthis)
          exact Above.head (hold x y hx hxy) (ih (hthis.trans (Above.single hxy)))
    exact hacyclic n q hqn (hpath q hcycle (hn.trans (Above.single hq)))

/-- None of the transitions to be added is a child of another transition. -/
def Exclusive (h : Hierarchy τ ν) (this : τ) (come : List (Option (Child τ ν))) : Prop :=
  ∀ c, some (.transition c) ∈ come → ∀ t, t ≠ this → ¬ h.ChildOf c t

instance [Fintype τ] (h : Hierarchy τ ν) (this : τ) (come : List (Option (Child τ ν))) :
    Decidable (h.Exclusive this come) :=
  inferInstanceAs (Decidable (∀ c, some (.transition c) ∈ come → ∀ t, t ≠ this → ¬ h.ChildOf c t))

/-- **An accepted change keeps the links** when the new children are exclusive. -/
theorem Linked.changed {h h' : Hierarchy τ ν} {this : τ} {gone come : List (Option (Child τ ν))}
    (hl : h.Linked) (hc : h.Changed this gone come h') (hexcl : h.Exclusive this come) :
    h'.Linked := by
  obtain ⟨kept, hold, hnew, hadded⟩ := hc.kept
  have hparts : kept.Nodup ∧ gone.Nodup ∧ kept.Disjoint gone :=
    List.nodup_append'.mp (hold.nodup_iff.mp (hl.nodup this))
  have hmemkept : ∀ x ∈ kept, x ∈ h.children this := fun x hx =>
    hold.mem_iff.mpr (List.mem_append_left _ hx)
  have hset : ∀ t, t ≠ this → h'.children t = h.children t := fun t ht => (hc.other t ht).1
  refine ⟨fun t => ?_, fun t => ?_, fun t => ?_, fun c t hchild => ?_, hc.acyclic hl.acyclic⟩
  · by_cases ht : t = this
    · subst ht
      refine hnew.nodup_iff.mpr (List.nodup_append'.mpr ⟨hparts.1, hadded.nodup, ?_⟩)
      exact fun x hx hx' => hadded.disjoint x hx' (List.mem_toFinset.mpr hx)
    · rw [hset t ht]
      exact hl.nodup t
  · by_cases ht : t = this
    · subst ht
      intro hmem
      rcases List.mem_append.mp (hnew.mem_iff.mp hmem) with hmem | hmem
      · exact hl.nonnull t (hmemkept _ hmem)
      · exact hadded.nonnull hmem
    · rw [hset t ht]
      exact hl.nonnull t
  · by_cases ht : t = this
    · subst ht
      rw [hadded.union, ← List.toFinset_append]
      exact (List.toFinset_eq_of_perm _ _ hnew).symm
    · rw [hset t ht, (hc.other t ht).2]
      exact hl.childrenSet_eq t
  · by_cases ht : t = this
    · subst ht
      rw [hc.up_eq]
      by_cases hcome : some (.transition c) ∈ come
      · rw [if_pos hcome]
      · have hkept : some (.transition c) ∈ kept :=
          (List.mem_append.mp (hnew.mem_iff.mp hchild)).resolve_right hcome
        rw [if_neg hcome, if_neg (fun hgone => hparts.2.2 hkept hgone)]
        exact hl.up_eq c t (hmemkept _ hkept)
    · have hchild' : h.ChildOf c t := by
        rw [ChildOf, ← hset t ht]
        exact hchild
      rw [hc.up_eq, if_neg (fun hcome => hexcl c hcome t ht hchild')]
      rw [if_neg]
      · exact hl.up_eq c t hchild'
      · intro hgone
        have hthis : h.ChildOf c this := hold.mem_iff.mpr (List.mem_append_right _ hgone)
        have hboth := (hl.up_eq c t hchild').symm.trans (hl.up_eq c this hthis)
        exact ht (Option.some.inj hboth)

/-! ## One operation -/

variable [Fintype τ]

/-- The operation does not go wrong: it is refused, or its indexes are good and no transition
is added that is a child of another one. -/
def Fair (h : Hierarchy τ ν) (this : τ) (op : ListMutator (Option (Child τ ν))) : Prop :=
  h.vetoes this op = true ∨ (op.Positioned (h.children this) ∧ h.Exclusive this op.come)

instance (h : Hierarchy τ ν) (this : τ) (op : ListMutator (Option (Child τ ν))) :
    Decidable (h.Fair this op) :=
  inferInstanceAs (Decidable (_ ∨ _))

omit [DecidableEq ν] [Fintype τ] in
theorem setChildrenSet_self (h : Hierarchy τ ν) (this : τ) :
    h.setChildrenSet this (h.childrenSet this) = h := by
  rw [setChildrenSet, Function.update_eq_self]

/-- A refused change is undone. -/
theorem Linked.vetoed {h : Hierarchy τ ν} (hl : h.Linked) {this : τ}
    {op : ListMutator (Option (Child τ ν))} (hv : h.vetoes this op = true) :
    ∃ e, h.mutate this op = .error (e, h) := by
  rw [vetoes] at hv
  split at hv
  · cases hv
  · next toBeAdded indexes hp =>
      split at hv
      · cases hv
      · next s hs =>
          split at hv
          · next e he =>
              refine ⟨e, ?_⟩
              rw [mutate, hp]
              simp only
              rw [onProposedChange, hs]
              simp only
              rw [he, ← hl.childrenSet_eq, setChildrenSet_self]
              rfl
          · cases hv

/-- An index that is not one of the list changes nothing. -/
theorem mutate_outside {h : Hierarchy τ ν} {this : τ} {op : ListMutator (Option (Child τ ν))}
    {toBeAdded : List (Option (Child τ ν))} {indexes rest : List ℤ} {idx : ℤ}
    (hp : op.proposal (h.children this) = some (toBeAdded, indexes))
    (hindexes : indexRanges indexes = idx :: rest)
    (hidx : ¬ (0 ≤ idx ∧ idx < (h.children this).length)) :
    h.mutate this op = .error (.indexOutOfBounds, h) := by
  rw [mutate, hp]
  simp only
  rw [onProposedChange, hindexes, eraseChildren_error rest hidx]
  simp only
  rw [setChildrenSet_self]
  rfl

/-- With good indexes that are not those of the list, the operation throws and changes
nothing. -/
theorem Linked.outside {h : Hierarchy τ ν} {this : τ} {op : ListMutator (Option (Child τ ν))}
    (hpos : op.Positioned (h.children this)) (hrange : ¬ op.InRange (h.children this)) :
    h.mutate this op = .error (.indexOutOfBounds, h) := by
  cases op with
  | addAt index e => exact absurd hpos hrange
  | addAllAt index c =>
      rcases hpos with rfl | hpos
      · have hthrow := ObservableListWrapper.mutate_error hrange
        rw [mutate]
        show (h.onProposedChange this [] [index, index] >>= fun h => h.changeList this _) = _
        rw [onProposedChange, indexRanges_self, eraseChildren]
        simp only
        rw [addChildren]
        simp only
        rw [setChildrenSet_self]
        show h.changeList this _ = _
        rw [changeList, hthrow]
      · exact absurd hpos hrange
  | set index e | removeAt index => exact mutate_outside rfl (indexRanges_single index) hrange
  | removeRange fromIndex toIndex =>
      have hne : ¬ toIndex ≤ fromIndex ∧ ¬ (0 ≤ fromIndex ∧ toIndex ≤ (h.children this).length) :=
        not_or.mp hrange
      obtain ⟨n, hn⟩ : ∃ n, (toIndex - fromIndex).toNat = n + 1 :=
        Nat.exists_eq_succ_of_ne_zero (by omega)
      have hidx : ¬ (0 ≤ fromIndex ∧ fromIndex < (h.children this).length) := fun hfrom =>
        hne.2 ⟨hfrom.1, hpos hfrom.1 hfrom.2⟩
      exact mutate_outside rfl (indexRanges_succ hn) hidx
  | _ => exact absurd trivial hrange

/-- The operation whose indexes are those of the list is refused or changes the children. -/
theorem Linked.inside {h : Hierarchy τ ν} (hl : h.Linked) {this : τ}
    {op : ListMutator (Option (Child τ ν))} (hrange : op.InRange (h.children this))
    (hop : ∀ o, op ≠ .remove o) (hv : h.vetoes this op ≠ true) :
    ∃ h', h.mutate this op = .ok h' ∧ h.Changed this (op.gone (h.children this)) op.come h' := by
  obtain ⟨l, fired, hmutate, hreported⟩ := ObservableListWrapper.mutate_reported hrange hop
  have hspec := proposal_spec hrange hop
  -- what the decorated list and `onChanged` do after the proposal
  have hchange : ∀ s, none ∉ op.come → ∃ h', (h.setChildrenSet this s).changeList this op = .ok h' ∧
      h'.children = Function.update h.children this l ∧
      h'.childrenSet = Function.update h.childrenSet this s ∧
      h'.parent = ((h.relink (op.gone (h.children this)) none).relink op.come (some this)).parent ∧
      ∃ kept, (h.children this).Perm (kept ++ op.gone (h.children this)) ∧
        l.Perm (kept ++ op.come) := by
    intro s hcome
    rw [changeList]
    rw [show (h.setChildrenSet this s).children this = h.children this from rfl, hmutate]
    cases hfired : fired with
    | none =>
        obtain ⟨rfl, hgone, hnocome⟩ := hreported.quiet hfired
        refine ⟨_, rfl, rfl, rfl, ?_, ?_⟩
        · rw [hgone, hnocome, relink_nil, relink_nil]
          rfl
        · refine ⟨h.children this, ?_, ?_⟩
          · rw [hgone, List.append_nil]
          · rw [hnocome, List.append_nil]
    | some subs =>
        have htold := hreported.told subs hfired
        obtain ⟨kept, hk, hk'⟩ := htold.kept
        have hgone : none ∉ op.gone (h.children this) := fun hmem =>
          hl.nonnull this (hk.mem_iff.mpr (List.mem_append_right _ hmem))
        have hself : ((h.setChildrenSet this s).setChildren this l).children this = l :=
          Function.update_self _ _ _
        refine ⟨_, onChanged_eq (hself.symm ▸ htold) hgone hcome, rfl, rfl, rfl, kept, hk, hk'⟩
  rw [mutate]
  rw [vetoes] at hv
  cases hp : op.proposal (h.children this) with
  | none =>
      rw [hp] at hspec
      obtain ⟨hgone, hcome⟩ := hspec
      obtain ⟨h', hok, hchildren, hset, hparent, kept, hk, hk'⟩ :=
        hchange (h.childrenSet this) (by rw [hcome]; exact List.not_mem_nil)
      rw [setChildrenSet_self] at hok
      rw [Function.update_eq_self] at hset
      refine ⟨h', hok, ⟨kept, hk, ?_, ?_⟩, fun t ht => ⟨?_, ?_⟩, hparent⟩
      · rw [hchildren, Function.update_self]
        exact hk'
      · have hkept : kept.toFinset = h.childrenSet this := by
          rw [hl.childrenSet_eq, List.toFinset_eq_of_perm _ _ hk, hgone, List.append_nil]
        rw [hset, hcome, hkept]
        refine ⟨List.nodup_nil, List.not_mem_nil, ?_, ?_, ?_⟩
        · exact fun x hx => absurd hx List.not_mem_nil
        · exact fun t ht => absurd ht List.not_mem_nil
        · rw [List.toFinset_nil, Finset.union_empty]
      · rw [hchildren, Function.update_of_ne ht]
      · rw [hset]
  | some p =>
      obtain ⟨toBeAdded, indexes⟩ := p
      rw [hp] at hspec hv
      obtain ⟨rfl, hgone⟩ := hspec
      simp only at hv ⊢
      rw [eraseChildren_ok hgone] at hv
      rw [onProposedChange, eraseChildren_ok hgone]
      simp only at hv ⊢
      cases hadd : h.addChildren this op.come
          (h.childrenSet this \ (op.gone (h.children this)).toFinset) with
      | error e =>
          rw [hadd] at hv
          exact absurd rfl hv
      | ok s =>
          have hadded := addChildren_ok hl.acyclic hadd
          obtain ⟨h', hok, hchildren, hset, hparent, kept, hk, hk'⟩ := hchange s hadded.nonnull
          have hkept : h.childrenSet this \ (op.gone (h.children this)).toFinset =
              kept.toFinset := by
            have hnodup := List.nodup_append'.mp (hk.nodup_iff.mp (hl.nodup this))
            rw [hl.childrenSet_eq]
            ext x
            rw [Finset.mem_sdiff, List.mem_toFinset, List.mem_toFinset, List.mem_toFinset,
              hk.mem_iff, List.mem_append]
            constructor
            · rintro ⟨hx, hgone⟩
              exact hx.resolve_right hgone
            · exact fun hx => ⟨Or.inl hx, fun hgone => hnodup.2.2 hx hgone⟩
          rw [hkept] at hadded
          refine ⟨h', hok, ⟨kept, hk, ?_, ?_⟩, fun t ht => ⟨?_, ?_⟩, hparent⟩
          · rw [hchildren, Function.update_self]
            exact hk'
          · rw [hset, Function.update_self]
            exact hadded
          · rw [hchildren, Function.update_of_ne ht]
          · rw [hset, Function.update_of_ne ht]

/-- `remove(Object)` is `remove(int)`, or does nothing. -/
theorem mutate_remove (h : Hierarchy τ ν) (this : τ) (o : Option (Child τ ν)) :
    h.mutate this (.remove o) =
      if indexOf (h.children this) o ≠ -1 then
        h.mutate this (.removeAt (indexOf (h.children this) o))
      else .ok h := by
  have hsame : ∀ s, (h.setChildrenSet this s).changeList this (.remove o) =
      if indexOf (h.children this) o ≠ -1 then
        (h.setChildrenSet this s).changeList this (.removeAt (indexOf (h.children this) o))
      else .ok (h.setChildrenSet this s) := by
    intro s
    have hlist : (h.setChildrenSet this s).children this = h.children this := rfl
    rw [changeList, hlist, ObservableListWrapper.mutate]
    split_ifs with hi
    · rfl
    · show Except.ok ((h.setChildrenSet this s).setChildren this (h.children this)) = _
      rw [setChildren, ← hlist, Function.update_eq_self]
  by_cases hi : indexOf (h.children this) o ≠ -1
  · rw [if_pos hi, mutate, mutate, ListMutator.proposal, if_pos hi, ListMutator.proposal]
    simp only
    rw [onProposedChange]
    split
    · rfl
    · next s hs =>
        rw [addChildren]
        show (h.setChildrenSet this s).changeList this _ = _
        rw [hsame, if_pos hi]
        rfl
  · have hnone := hsame (h.childrenSet this)
    rw [setChildrenSet_self, if_neg hi] at hnone
    rw [if_neg hi, mutate, ListMutator.proposal, if_neg hi]
    exact hnone

theorem Linked.mutate_of_ne {h : Hierarchy τ ν} (hl : h.Linked) {this : τ}
    {op : ListMutator (Option (Child τ ν))} (hop : ∀ o, op ≠ .remove o)
    (hfair : h.Fair this op) :
    (∃ e, h.mutate this op = .error (e, h)) ∨ ∃ h', h.mutate this op = .ok h' ∧ h'.Linked := by
  by_cases hv : h.vetoes this op = true
  · exact Or.inl (hl.vetoed hv)
  · obtain ⟨hpos, hexcl⟩ := hfair.resolve_left hv
    by_cases hrange : op.InRange (h.children this)
    · obtain ⟨h', hok, hchanged⟩ := hl.inside hrange hop hv
      exact Or.inr ⟨h', hok, hl.changed hchanged hexcl⟩
    · exact Or.inl ⟨_, outside hpos hrange⟩

/-- **One fair operation** keeps the links; when it throws, it changes nothing. -/
theorem Linked.mutate {h : Hierarchy τ ν} (hl : h.Linked) {this : τ}
    {op : ListMutator (Option (Child τ ν))} (hfair : h.Fair this op) :
    (∃ e, h.mutate this op = .error (e, h)) ∨ ∃ h', h.mutate this op = .ok h' ∧ h'.Linked := by
  by_cases hop : ∃ o, op = .remove o
  · obtain ⟨o, rfl⟩ := hop
    rw [mutate_remove]
    split
    · refine hl.mutate_of_ne (fun o' => ?_) (Or.inr ⟨trivial, ?_⟩)
      · exact fun heq => nomatch heq
      · exact fun c hc => absurd hc List.not_mem_nil
    · exact Or.inr ⟨h, rfl, hl⟩
  · push Not at hop
    exact hl.mutate_of_ne hop hfair

/-! ## Runs -/

/-- An operation on the children of one transition. -/
abbrev Op (τ ν : Type) := τ × ListMutator (Option (Child τ ν))

/-- The hierarchy after the operation, accepted or rejected. -/
def step (h : Hierarchy τ ν) (x : Op τ ν) : Hierarchy τ ν := (h.mutate x.1 x.2).state

/-- The hierarchy after the first `n` operations. -/
def after (xs : List (Op τ ν)) (n : ℕ) : Hierarchy τ ν := (xs.take n).foldl step {}

/-- The third transition becomes a child of the first two and leaves the second one, which
clears its link; the first one may then become its child. -/
def shared : List (Op (Fin 3) Empty) :=
  [(0, .add (some (.transition 2))), (1, .add (some (.transition 2))),
    (1, .remove (some (.transition 2))), (2, .add (some (.transition 0)))]

end Hierarchy

end JavaFx.Animation
