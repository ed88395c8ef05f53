import JavaFx.Control.TreeLinks

/-!
# What the count of a tree item should be

`trueCount` counts the rows of an expanded item from the lists and the flags alone. The cached
counts are right where the caches are clean: an event goes up the parent chain, an item that is
clean and expanded has clean children as far as they are expanded, and a flag that changes
without an event is the flag of a leaf or of an item that no clean item has looked at.
-/

namespace JavaFx.Control

open Collections UpForest

namespace TreeItems

variable {ι : Type} [DecidableEq ι] [Fintype ι] {s t : TreeItems ι} {p x y c : ι}

/-! ## The count -/

/-- What a child adds, given the counts of the items. -/
def childRows (s : TreeItems ι) (f : ι → ℤ) : Option ι → ℤ
  | none => 0
  | some c => if s.isExpanded c then f c else 1

/-- The count of an item from those of its children. -/
def countOver (s : TreeItems ι) (f : ι → ℤ) (x : ι) : ℤ :=
  if s.isLeaf x = false ∧ s.isExpanded x = true then
    1 + ((s x).children.map (s.childRows f)).sum
  else 1

def trueCountWithin (s : TreeItems ι) : ℕ → ι → ℤ
  | 0, _ => 1
  | fuel + 1, x => s.countOver (trueCountWithin s fuel) x

/-- The count of an item that every item of a tree has. -/
def trueCount (s : TreeItems ι) (x : ι) : ℤ := s.trueCountWithin (Fintype.card ι) x

/-- The children are linked to their item, and no item lies above itself. -/
structure Rooted (s : TreeItems ι) : Prop where
  links : ∀ x c, some c ∈ (s x).children → s.up c = some x
  acyclic : Acyclic s.up

omit [DecidableEq ι] [Fintype ι] in
theorem countOver_of_leaf (h : s.isLeaf x = true) (f : ι → ℤ) : s.countOver f x = 1 := by
  simp [countOver, h]

omit [DecidableEq ι] [Fintype ι] in
theorem countOver_congr {f g : ι → ℤ}
    (h : ∀ c, some c ∈ (s x).children → s.isExpanded c = true → f c = g c) :
    s.countOver f x = s.countOver g x := by
  have hmap : (s x).children.map (s.childRows f) = (s x).children.map (s.childRows g) := by
    refine List.map_congr_left fun o ho => ?_
    cases o with
    | none => rfl
    | some c =>
        by_cases hc : s.isExpanded c = true
        · simp [childRows, hc, h c ho hc]
        · simp [childRows, hc]
  rw [countOver, countOver, hmap]

omit [DecidableEq ι] in
theorem Rooted.height_lt (h : Rooted s) (hc : some c ∈ (s x).children) :
    height s.up c < height s.up x :=
  h.acyclic.height_lt (h.links x c hc)

omit [DecidableEq ι] in
theorem Rooted.trueCountWithin_eq (h : Rooted s) {m n : ℕ} (hm : height s.up x < m)
    (hn : height s.up x < n) : s.trueCountWithin m x = s.trueCountWithin n x := by
  induction m generalizing x n with
  | zero => omega
  | succ m ih =>
      cases n with
      | zero => omega
      | succ n =>
          rw [trueCountWithin, trueCountWithin]
          refine countOver_congr fun c hc _ => ?_
          have := h.height_lt hc
          exact ih (by omega) (by omega)

omit [DecidableEq ι] in
theorem Rooted.trueCount_eq (h : Rooted s) (x : ι) : s.trueCount x = s.countOver s.trueCount x := by
  have hx := height_lt_card s.up x
  obtain ⟨n, hn⟩ : ∃ n, Fintype.card ι = n + 1 := ⟨Fintype.card ι - 1, by omega⟩
  rw [trueCount, hn, trueCountWithin]
  refine countOver_congr fun c hc _ => ?_
  have := h.height_lt hc
  exact h.trueCountWithin_eq (by omega) (by omega)

omit [DecidableEq ι] in
/-- Induction from the children up. -/
theorem Rooted.induct (h : Rooted s) {motive : ι → Prop}
    (step : ∀ x, (∀ c, some c ∈ (s x).children → motive c) → motive x) (x : ι) : motive x := by
  induction hn : height s.up x using Nat.strong_induction_on generalizing x with
  | _ n ih =>
      subst hn
      exact step x fun c hc => ih _ (h.height_lt hc) c rfl

omit [DecidableEq ι] in
/-- **Counts that agree.** A set of items that look alike in two trees, and whose children that
count for more than one row are in the set again, have the same counts in both. -/
theorem Rooted.trueCount_congr (h : Rooted s) (h' : Rooted t) (same : ι → Prop)
    (hleaf : ∀ x, same x → t.isLeaf x = s.isLeaf x)
    (hexpanded : ∀ x, same x → s.isLeaf x = false → t.isExpanded x = s.isExpanded x)
    (hchildren : ∀ x, same x → s.isLeaf x = false → s.isExpanded x = true →
      (t x).children = (s x).children ∧ ∀ c, some c ∈ (s x).children →
        s.isLeaf c = true ∧ t.isLeaf c = true ∨
          t.isExpanded c = s.isExpanded c ∧ (s.isExpanded c = true → same c)) (x : ι)
    (hx : same x) : t.trueCount x = s.trueCount x := by
  induction x using h.induct with
  | _ x ih =>
      rw [h.trueCount_eq, h'.trueCount_eq]
      by_cases hbranch : s.isLeaf x = false ∧ s.isExpanded x = true
      · obtain ⟨hlist, hparts⟩ := hchildren x hx hbranch.1 hbranch.2
        have hbranch' : t.isLeaf x = false ∧ t.isExpanded x = true :=
          ⟨(hleaf x hx).trans hbranch.1, (hexpanded x hx hbranch.1).trans hbranch.2⟩
        rw [countOver, countOver, if_pos hbranch, if_pos hbranch', hlist]
        congr 2
        refine List.map_congr_left fun o ho => ?_
        cases o with
        | none => rfl
        | some c =>
            rcases hparts c ho with ⟨hs, ht⟩ | ⟨hsame, hin⟩
            · -- a leaf is one row, expanded or not
              have hone : s.trueCount c = 1 := by
                rw [h.trueCount_eq, countOver_of_leaf hs]
              have hone' : t.trueCount c = 1 := by
                rw [h'.trueCount_eq, countOver_of_leaf ht]
              simp [childRows, hone, hone']
            · by_cases hc : s.isExpanded c = true
              · simp [childRows, hsame, hc, ih c ho (hin hc)]
              · simp [childRows, hsame, hc]
      · have hbranch' : ¬ (t.isLeaf x = false ∧ t.isExpanded x = true) := by
          rintro ⟨hl, he⟩
          rw [hleaf x hx] at hl
          rw [hexpanded x hx hl] at he
          exact hbranch ⟨hl, he⟩
        rw [countOver, countOver, if_neg hbranch, if_neg hbranch']

/-! ## The invariant -/

/-- The expanded property has been read since it changed, or there is none. -/
def Valid (s : TreeItems ι) (x : ι) : Prop :=
  ∀ property, (s x).expanded = some property → property.valid = true

/-- The cached count is not marked as dirty. -/
def Clean (s : TreeItems ι) (x : ι) : Prop := (s x).expandedDescendentCountDirty = false

/-- What a clean item knows of its child. -/
def ChildSeen (s : TreeItems ι) (c : ι) : Prop :=
  s.isLeaf c = true ∨ s.Valid c ∧ (s.isExpanded c = true → s.Clean c)

/-- The clean items, except for some, have the right counts. -/
structure CountedBut (but : ι → Prop) (s : TreeItems ι) : Prop extends Rooted s where
  exact : ∀ x, s.Clean x → ¬ but x → (s x).expandedDescendentCount = s.trueCount x
  valid : ∀ x, s.Clean x → ¬ but x → s.isLeaf x = false → s.Valid x
  seen : ∀ x, s.Clean x → ¬ but x → s.isLeaf x = false → s.isExpanded x = true →
    ∀ c, some c ∈ (s x).children → s.ChildSeen c

/-- The clean items have the right counts. -/
abbrev Counted (s : TreeItems ι) : Prop := CountedBut (fun _ => False) s

omit [DecidableEq ι] in
/-- **A change at one item.** All items above it will be told; the others see the tree as it
was. -/
theorem Counted.changedAt (h : Counted s) (hroot : Rooted t)
    (hother : ∀ x, x ≠ p → (t x).children = (s x).children ∧ (t x).leaf = (s x).leaf ∧
      (t x).expanded = (s x).expanded ∧
      (t x).expandedDescendentCount = (s x).expandedDescendentCount ∧
      (t x).expandedDescendentCountDirty = (s x).expandedDescendentCountDirty) :
    CountedBut (Above t.up p) t := by
  have hne : ∀ x, ¬ Above t.up p x → x ≠ p := by
    rintro x hx rfl
    exact hx (Above.refl _ _)
  have hleaf : ∀ x, x ≠ p → t.isLeaf x = s.isLeaf x := fun x hx => (hother x hx).2.1
  have hexpanded : ∀ x, x ≠ p → t.isExpanded x = s.isExpanded x := by
    intro x hx
    rw [isExpanded, (hother x hx).2.2.1]
    rfl
  have hclean : ∀ x, x ≠ p → (t.Clean x ↔ s.Clean x) := by
    intro x hx
    rw [Clean, (hother x hx).2.2.2.2]
    rfl
  -- a child of an item that is not told is not told either
  have hchild : ∀ x c, ¬ Above t.up p x → some c ∈ (t x).children → ¬ Above t.up p c := by
    intro x c hx hc hpc
    exact hx (hpc.trans (Above.single (hroot.links x c hc)))
  have hcount : ∀ x, t.Clean x ∧ ¬ Above t.up p x → t.trueCount x = s.trueCount x := by
    refine h.toRooted.trueCount_congr hroot _ (fun x hx => hleaf x (hne x hx.2))
      (fun x hx _ => hexpanded x (hne x hx.2)) ?_
    rintro x ⟨hx, hfree⟩ hbranch hopen
    have hxne := hne x hfree
    refine ⟨(hother x hxne).1, fun c hc => ?_⟩
    have hc' : some c ∈ (t x).children := by rw [(hother x hxne).1]; exact hc
    have hcne := hne c (hchild x c hfree hc')
    rcases h.seen x ((hclean x hxne).mp hx) (by simp) hbranch hopen c hc with hl | ⟨-, hc''⟩
    · exact Or.inl ⟨hl, (hleaf c hcne).trans hl⟩
    · refine Or.inr ⟨hexpanded c hcne, fun he => ⟨?_, hchild x c hfree hc'⟩⟩
      exact (hclean c hcne).mpr (hc'' he)
  refine ⟨hroot, fun x hx hfree => ?_, fun x hx hfree hbranch => ?_,
    fun x hx hfree hbranch hopen c hc => ?_⟩
  · rw [hcount x ⟨hx, hfree⟩, (hother x (hne x hfree)).2.2.2.1]
    exact h.exact x ((hclean x (hne x hfree)).mp hx) (by simp)
  · have hxne := hne x hfree
    rw [Valid, (hother x hxne).2.2.1]
    exact h.valid x ((hclean x hxne).mp hx) (by simp) ((hleaf x hxne).symm.trans hbranch)
  · have hxne := hne x hfree
    have hcne := hne c (hchild x c hfree hc)
    rw [(hother x hxne).1] at hc
    rcases h.seen x ((hclean x hxne).mp hx) (by simp) ((hleaf x hxne).symm.trans hbranch)
      ((hexpanded x hxne).symm.trans hopen) c hc with hl | ⟨hv, hc''⟩
    · exact Or.inl ((hleaf c hcne).trans hl)
    · refine Or.inr ⟨?_, fun he => (hclean c hcne).mpr (hc'' ((hexpanded c hcne).symm.trans he))⟩
      rw [Valid, (hother c hcne).2.2.1]
      exact hv

/-- Two states with the same tree. -/
structure SameTree (s t : TreeItems ι) : Prop extends SameShape s t where
  isExpanded : ∀ x, t.isExpanded x = s.isExpanded x

omit [DecidableEq ι] [Fintype ι] in
theorem SameShape.rooted (h : SameShape s t) (hs : Rooted s) : Rooted t where
  links x c hc := by
    rw [h.children x] at hc
    rw [up, h.parent c]
    exact hs.links x c hc
  acyclic := by
    have : t.up = s.up := funext h.parent
    rw [this]
    exact hs.acyclic

omit [DecidableEq ι] in
theorem SameTree.trueCount (h : SameTree s t) (hs : Rooted s) (x : ι) :
    t.trueCount x = s.trueCount x := by
  refine hs.trueCount_congr (h.rooted hs) (fun _ => True) (fun x _ => h.leaf x)
    (fun x _ _ => h.isExpanded x) ?_ x trivial
  exact fun x _ _ _ => ⟨h.children x, fun c _ => Or.inr ⟨h.isExpanded c, fun _ => trivial⟩⟩

theorem sameTree_fireEvent (h : s.fireEvent p = some t) : SameTree s t where
  toSameShape := sameShape_fireEvent h
  isExpanded x := by
    rw [TreeItems.isExpanded, fireEvent_fields h x]
    rfl

/-- **The event** leaves nothing to except. -/
theorem CountedBut.fireEvent (h : CountedBut (Above s.up p) s) (ht : s.fireEvent p = some t) :
    Counted t := by
  obtain ⟨habove, hother, -⟩ := fireEvent_spec ht
  have hsame := sameTree_fireEvent ht
  have hfree : ∀ x, t.Clean x → ¬ Above s.up p x := by
    intro x hx hpx
    rw [Clean, habove x hpx] at hx
    cases hx
  have hclean : ∀ x, ¬ Above s.up p x → (t.Clean x ↔ s.Clean x) := by
    intro x hx
    rw [Clean, hother x hx]
    rfl
  refine ⟨hsame.rooted h.toRooted, fun x hx _ => ?_, fun x hx _ hbranch => ?_,
    fun x hx _ hbranch hopen c hc => ?_⟩
  · rw [hsame.trueCount h.toRooted, hother x (hfree x hx)]
    exact h.exact x ((hclean x (hfree x hx)).mp hx) (hfree x hx)
  · rw [Valid, hother x (hfree x hx)]
    exact h.valid x ((hclean x (hfree x hx)).mp hx) (hfree x hx) ((hsame.leaf x).symm.trans hbranch)
  · have hx' := hfree x hx
    rw [hsame.children x] at hc
    have hc' : ¬ Above s.up p c := fun hpc => hx' (hpc.trans (Above.single (h.links x c hc)))
    have hseen := h.seen x ((hclean x hx').mp hx) hx' ((hsame.leaf x).symm.trans hbranch)
      ((hsame.isExpanded x).symm.trans hopen) c hc
    rw [ChildSeen, isLeaf, Valid, isExpanded, hclean c hc', hother c hc']
    exact hseen

/-! ## The children lists -/

/-- A part of a change, after which the children are linked as the lists say. -/
theorem Counted.updateChildren {u : TreeItems ι} {c : ChildrenChange ι} (h : Counted s)
    (hother : ∀ x, x ≠ p → u x = s x) (hup : ∀ x, u.up x = s.up x)
    (hlinks : ∀ x d, some d ∈ (u x).children → (u.relinked p c).up d = some x)
    (ht : (u.relinked p c).fireEvent p = some t) : Counted t := by
  obtain ⟨-, -, hfree⟩ := fireEvent_spec ht
  have hnew : ∀ x y, (u.relinked p c).up x = some y → y ≠ p → s.up x = some y := by
    intro x y hxy hy
    rw [relinked_up] at hxy
    split at hxy
    · exact absurd (Option.some_inj.mp hxy).symm hy
    · split at hxy
      · cases hxy
      · rw [← hup x]
        exact hxy
  have hroot : Rooted (u.relinked p c) := ⟨hlinks, h.acyclic.relinked hnew hfree⟩
  refine CountedBut.fireEvent (h.changedAt hroot fun x hx => ?_) ht
  rw [relinked, hother x hx]
  exact ⟨rfl, if_neg hx, rfl, rfl, rfl⟩

/-- The leaf flags are those of the lists. -/
def LeafRight (s : TreeItems ι) : Prop := ∀ x, s.isLeaf x = (s x).children.isEmpty

/-- What a part of a change keeps: the counts, and the leaf flags except for that of the item,
which it sets. -/
theorem updateChildren_keeps {u : TreeItems ι} {c : ChildrenChange ι} (h : Counted s)
    (hother : ∀ x, x ≠ p → u x = s x) (hup : ∀ x, u.up x = s.up x)
    (hcount : ∀ x, (u x).parentLinkCount = 0) (hnew : NewTo u p c)
    (hlinks : ∀ x d, some d ∈ (u x).children → (u.relinked p c).up d = some x)
    (hleaf : ∀ x, x ≠ p → s.isLeaf x = (s x).children.isEmpty)
    (ht : TreeItems.updateChildren p u c = some t) : Counted t ∧ LeafRight t := by
  rw [updateChildren_eq hcount hnew] at ht
  refine ⟨h.updateChildren hother hup hlinks ht, fun x => ?_⟩
  have hfields := fireEvent_fields ht x
  rw [isLeaf, hfields]
  by_cases hx : x = p
  · subst hx
    simp [relinked]
  · simp only [relinked, if_neg hx, hother x hx]
    exact hleaf x hx

/-- Further parts that only take out. -/
theorem foldlM_updateChildren_keeps {changes : List (ChildrenChange ι)} (h : Counted s)
    (hleaf : LeafRight s) (hcount : ∀ x, (s x).parentLinkCount = 0)
    (hempty : ∀ c ∈ changes, c.added = [])
    (hgone : ∀ c ∈ changes, ∀ d, some d ∈ c.removed → ∀ x, some d ∉ (s x).children)
    (ht : changes.foldlM (TreeItems.updateChildren p) s = some t) : Counted t ∧ LeafRight t := by
  induction changes generalizing s with
  | nil =>
      cases ht
      exact ⟨h, hleaf⟩
  | cons c changes ih =>
      rw [List.foldlM_cons] at ht
      obtain ⟨u, hu, hrest⟩ := Option.bind_eq_some_iff.mp ht
      have hadded : c.added = [] := hempty c List.mem_cons_self
      have hnew : NewTo s p c := ⟨by simp [hadded], by simp [hadded]⟩
      have hlinks : ∀ x d, some d ∈ (s x).children → (s.relinked p c).up d = some x := by
        intro x d hd
        rw [relinked_up, hadded, if_neg (by simp), if_neg fun hmem =>
          hgone c List.mem_cons_self d hmem x hd]
        exact h.links x d hd
      obtain ⟨hcounted, hleaf'⟩ := updateChildren_keeps h (fun _ _ => rfl) (fun _ => rfl) hcount
        hnew hlinks (fun x _ => hleaf x) hu
      rw [updateChildren_eq hcount hnew] at hu
      have hfields := fireEvent_fields hu
      refine ih hcounted hleaf' (fun x => ?_) (fun d hd => hempty d (List.mem_cons_of_mem _ hd))
        (fun d hd e he x => ?_) hrest
      · rw [hfields x]
        exact hcount x
      · rw [hfields x]
        exact hgone d (List.mem_cons_of_mem _ hd) e he x

/-- **The listener of a children list.** It finds the list changed at one item, and leaves the
counts right. -/
theorem Counted.onChanged {u : TreeItems ι} {removed added : List (Option ι)}
    {changes : List (ChildrenChange ι)} (h : Counted s) (hleaf : LeafRight s)
    (hother : ∀ x, x ≠ p → u x = s x) (hup : ∀ x, u.up x = s.up x)
    (hcount : ∀ x, (u x).parentLinkCount = 0) (hparts : Parts removed added changes)
    (hnew : NewTo u p ⟨added, removed⟩)
    (hlinks : ∀ x d, some d ∈ (u x).children →
      (u.relinked p ⟨added, removed⟩).up d = some x)
    (hgone : ∀ d, some d ∈ removed → some d ∉ added → ∀ x, some d ∉ (u x).children)
    (ht : u.onChanged p changes = some t) : Counted t ∧ LeafRight t := by
  rw [TreeItems.onChanged] at ht
  have hother' : ∀ x, x ≠ p → itemListener p u x = s x := by
    intro x hx
    rw [itemListener, modify_of_ne _ _ hx]
    exact hother x hx
  have hdirty : ∀ x, itemListener p u x = { u x with
      expandedDescendentCountDirty := (itemListener p u x).expandedDescendentCountDirty } := by
    intro x
    by_cases hx : x = p
    · subst hx
      rw [itemListener, modify_self]
    · rw [itemListener, modify_of_ne _ _ hx]
  have hup' : ∀ x, (itemListener p u).up x = s.up x := by
    intro x
    rw [← hup x, up, hdirty x]
    rfl
  have hcount' : ∀ x, (itemListener p u x).parentLinkCount = 0 := by
    intro x
    rw [hdirty x]
    exact hcount x
  have hchildren : ∀ x, (itemListener p u x).children = (u x).children := by
    intro x
    rw [hdirty x]
  have hupdated : ∀ c v, NewTo (itemListener p u) p c →
      (∀ x d, some d ∈ (u x).children → ((itemListener p u).relinked p c).up d = some x) →
      TreeItems.updateChildren p (itemListener p u) c = some v →
      (Counted v ∧ LeafRight v) ∧ (∀ x, (v x).parentLinkCount = 0) ∧
        ∀ x, (v x).children = (u x).children := by
    intro c v hcnew hclinks hv
    have hkeeps := updateChildren_keeps h hother' hup' hcount' hcnew
      (fun x d hd => hclinks x d (by rw [← hchildren x]; exact hd)) (fun x _ => hleaf x) hv
    rw [updateChildren_eq hcount' hcnew] at hv
    have hfields := fireEvent_fields hv
    refine ⟨hkeeps, fun x => ?_, fun x => ?_⟩
    · rw [hfields x]
      exact hcount' x
    · rw [hfields x]
      exact hchildren x
  rcases hparts.shape with ⟨c, rfl⟩ | hempty
  · have hc : c = ⟨added, removed⟩ := by
      have hadded : c.added = added := by simpa using hparts.added_eq
      have hremoved : c.removed = removed := by simpa using hparts.removed_eq
      rw [← hadded, ← hremoved]
    subst hc
    simp only [List.foldlM_cons, List.foldlM_nil, bind_pure] at ht
    refine (hupdated _ t ⟨hnew.nodup, fun x hx => ?_⟩ (fun x d hd => ?_) ht).1
    · rw [hdirty x]
      exact hnew.unlinked x hx
    · rw [← hlinks x d hd, relinked_up, relinked_up, hup', hup]
  · have hnone : added = [] := by
      rw [← hparts.added_eq, List.flatMap_eq_nil_iff]
      exact hempty
    subst hnone
    have hkept : ∀ c ∈ changes, ∀ d, some d ∈ c.removed → ∀ x, some d ∉ (u x).children := by
      intro c hc d hd
      refine hgone d ?_ (by simp)
      rw [← hparts.removed_eq, List.mem_flatMap]
      exact ⟨c, hc, hd⟩
    cases changes with
    | nil => exact absurd rfl hparts.ne_nil
    | cons c changes =>
        rw [List.foldlM_cons] at ht
        obtain ⟨v, hv, hrest⟩ := Option.bind_eq_some_iff.mp ht
        have hadded : c.added = [] := hempty c List.mem_cons_self
        obtain ⟨⟨hcounted, hleaf'⟩, hzero, hlists⟩ := hupdated c v
          ⟨by simp [hadded], by simp [hadded]⟩ (fun x d hd => by
            have hstay : some d ∉ c.removed := fun hmem => hkept c List.mem_cons_self d hmem x hd
            have hold := hlinks x d hd
            rw [relinked_up, if_neg (by simp), if_neg fun hmem => hgone d hmem (by simp) x hd] at hold
            rw [relinked_up, hadded, if_neg (by simp), if_neg hstay, hup', ← hup]
            exact hold) hv
        refine foldlM_updateChildren_keeps hcounted hleaf' hzero
          (fun d hd => hempty d (List.mem_cons_of_mem _ hd)) (fun d hd e he x => ?_) hrest
        rw [hlists x]
        exact hkept d (List.mem_cons_of_mem _ hd) e he x

end TreeItems

end JavaFx.Control
