import JavaFx.Control.TreeCounts

/-!
# The expanded flag and the count queries

A flag that changes fires an event when it was valid and its item is no leaf; otherwise no clean
item has looked at it. A query walks down the expanded items and leaves their caches clean; while
it runs, the items above the one it has come to are excepted from the invariant.
-/

namespace JavaFx.Control

open Collections UpForest

namespace TreeItems

variable {ι : Type} [DecidableEq ι] [Fintype ι] {s t : TreeItems ι} {p x y c : ι}
  {but : ι → Prop}

/-! ## The expanded flag -/

omit [Fintype ι] in
theorem validate_isExpanded (s : TreeItems ι) (x y : ι) :
    (s.validate x).isExpanded y = s.isExpanded y := by
  by_cases hy : y = x
  · subst hy
    rw [isExpanded, validate, modify_self, isExpanded]
    cases (s y).expanded with
    | none => rfl
    | some property => rfl
  · rw [isExpanded, validate, modify_of_ne _ _ hy]
    rfl

omit [Fintype ι] in
theorem validate_clean (s : TreeItems ι) (x y : ι) : (s.validate x).Clean y ↔ s.Clean y := by
  by_cases hy : y = x
  · subst hy
    rw [Clean, validate, modify_self]
    rfl
  · rw [Clean, validate, modify_of_ne _ _ hy]
    rfl

omit [Fintype ι] in
theorem valid_validate (s : TreeItems ι) (x : ι) : (s.validate x).Valid x := by
  intro property hproperty
  rw [validate, modify_self] at hproperty
  obtain ⟨old, -, rfl⟩ := Option.map_eq_some_iff.mp hproperty
  rfl

omit [Fintype ι] in
theorem Valid.validate (h : s.Valid y) (x : ι) : (s.validate x).Valid y := by
  by_cases hy : y = x
  · subst hy
    exact valid_validate s y
  · rw [Valid, TreeItems.validate, modify_of_ne _ _ hy]
    exact h

omit [Fintype ι] in
theorem sameTree_validate (s : TreeItems ι) (x : ι) : SameTree s (s.validate x) where
  toSameShape := sameShape_validate s x
  isExpanded := validate_isExpanded s x

omit [DecidableEq ι] in
/-- What only grows: validity and cleanness, with the counts of the items that count. -/
theorem CountedBut.mono (h : CountedBut but s) (hsame : SameTree s t)
    (hvalid : ∀ x, s.Valid x → t.Valid x) (hclean : ∀ x, s.Clean x → t.Clean x)
    (hexact : ∀ x, t.Clean x → ¬ but x → (t x).expandedDescendentCount = s.trueCount x)
    (hnew : ∀ x, t.Clean x → ¬ but x → ¬ s.Clean x → s.isLeaf x = false →
      t.Valid x ∧ (s.isExpanded x = true → ∀ c, some c ∈ (s x).children → t.ChildSeen c)) :
    CountedBut but t := by
  refine ⟨hsame.rooted h.toRooted, fun x hx hb => ?_, fun x hx hb hbranch => ?_,
    fun x hx hb hbranch hopen c hc => ?_⟩
  · rw [hsame.trueCount h.toRooted]
    exact hexact x hx hb
  · have hbranch' : s.isLeaf x = false := (hsame.leaf x).symm.trans hbranch
    by_cases hx' : s.Clean x
    · exact hvalid x (h.valid x hx' hb hbranch')
    · exact (hnew x hx hb hx' hbranch').1
  · have hbranch' : s.isLeaf x = false := (hsame.leaf x).symm.trans hbranch
    have hopen' : s.isExpanded x = true := (hsame.isExpanded x).symm.trans hopen
    rw [hsame.children x] at hc
    by_cases hx' : s.Clean x
    · rcases h.seen x hx' hb hbranch' hopen' c hc with hl | ⟨hv, hc'⟩
      · exact Or.inl ((hsame.leaf c).trans hl)
      · exact Or.inr ⟨hvalid c hv, fun he => hclean c (hc' ((hsame.isExpanded c).symm.trans he))⟩
    · exact (hnew x hx hb hx' hbranch').2 hopen' c hc

theorem CountedBut.validate (h : CountedBut but s) (x : ι) : CountedBut but (s.validate x) := by
  refine h.mono (sameTree_validate s x) (fun y hy => hy.validate x)
    (fun y hy => (validate_clean s x y).mpr hy) (fun y hy hb => ?_) (fun y hy _ hnot => ?_)
  · have hcount : ((s.validate x) y).expandedDescendentCount = (s y).expandedDescendentCount := by
      by_cases hyx : y = x
      · subst hyx
        rw [TreeItems.validate, modify_self]
      · rw [TreeItems.validate, modify_of_ne _ _ hyx]
    rw [hcount]
    exact h.exact y ((validate_clean s x y).mp hy) hb
  · exact absurd ((validate_clean s x y).mp hy) hnot

/-- A flag that no clean item has looked at changes without an event. -/
theorem Counted.setSilently (h : Counted s) {property : ExpandedProperty}
    (hunseen : s.isLeaf x = true ∨ ¬ s.Valid x) :
    Counted (s.modify x fun item => { item with expanded := some property }) := by
  set t := s.modify x fun item => { item with expanded := some property } with ht
  have hother : ∀ y, y ≠ x → t y = s y := fun y hy => modify_of_ne _ _ hy
  have hshape : SameShape s t := sameShape_modify s x fun _ => ⟨rfl, rfl, rfl, rfl, rfl⟩
  have hroot : Rooted t := hshape.rooted h.toRooted
  have hclean : ∀ y, t.Clean y ↔ s.Clean y := by
    intro y
    by_cases hy : y = x
    · subst hy
      rw [Clean, ht, modify_self]
      rfl
    · rw [Clean, hother y hy]
      rfl
  have hexpanded : ∀ y, y ≠ x → t.isExpanded y = s.isExpanded y := by
    intro y hy
    rw [isExpanded, hother y hy]
    rfl
  have hleaf : ∀ y, t.isLeaf y = s.isLeaf y := hshape.leaf
  -- a branch that is clean, or the child of a clean one, is not the item
  have hne : ∀ y, s.Clean y → s.isLeaf y = false → y ≠ x := by
    rintro y hy hbranch rfl
    rcases hunseen with hl | hv
    · rw [hl] at hbranch
      cases hbranch
    · exact hv (h.valid y hy (by simp) hbranch)
  have hseen : ∀ y c, s.Clean y → s.isLeaf y = false → s.isExpanded y = true →
      some c ∈ (s y).children → s.isLeaf c = true ∨
        c ≠ x ∧ s.Valid c ∧ (s.isExpanded c = true → s.Clean c) := by
    intro y c hy hbranch hopen hc
    rcases h.seen y hy (by simp) hbranch hopen c hc with hl | ⟨hv, hc'⟩
    · exact Or.inl hl
    · by_cases hcx : c = x
      · subst hcx
        exact Or.inl (hunseen.resolve_right fun hnot => hnot hv)
      · exact Or.inr ⟨hcx, hv, hc'⟩
  have hcount : ∀ y, s.Clean y → t.trueCount y = s.trueCount y := by
    refine h.toRooted.trueCount_congr hroot _ (fun y _ => hleaf y)
      (fun y hy hbranch => hexpanded y (hne y hy hbranch)) ?_
    refine fun y hy hbranch hopen => ⟨hshape.children y, fun c hc => ?_⟩
    rcases hseen y c hy hbranch hopen hc with hl | ⟨hcx, -, hc'⟩
    · exact Or.inl ⟨hl, (hleaf c).trans hl⟩
    · exact Or.inr ⟨hexpanded c hcx, hc'⟩
  refine ⟨hroot, fun y hy _ => ?_, fun y hy _ hbranch => ?_,
    fun y hy _ hbranch hopen c hc => ?_⟩
  · have hy' := (hclean y).mp hy
    have hfield : (t y).expandedDescendentCount = (s y).expandedDescendentCount := by
      by_cases hyx : y = x
      · subst hyx
        rw [ht, modify_self]
      · rw [hother y hyx]
    rw [hfield, hcount y hy']
    exact h.exact y hy' (by simp)
  · have hy' := (hclean y).mp hy
    have hyx := hne y hy' ((hleaf y).symm.trans hbranch)
    rw [Valid, hother y hyx]
    exact h.valid y hy' (by simp) ((hleaf y).symm.trans hbranch)
  · have hy' := (hclean y).mp hy
    have hbranch' := (hleaf y).symm.trans hbranch
    have hyx := hne y hy' hbranch'
    rw [hshape.children y] at hc
    rcases hseen y c hy' hbranch' ((hexpanded y hyx).symm.trans hopen) hc with
      hl | ⟨hcx, hv, hc'⟩
    · exact Or.inl ((hleaf c).trans hl)
    · refine Or.inr ⟨?_, fun he => (hclean c).mpr (hc' ((hexpanded c hcx).symm.trans he))⟩
      rw [Valid, hother c hcx]
      exact hv

theorem Counted.setExpanded (h : Counted s) {value : Bool} (ht : s.setExpanded x value = some t) :
    Counted t := by
  unfold TreeItems.setExpanded at ht
  split at ht
  · cases ht
    exact h
  next hset =>
    simp only [] at ht
    split at ht
    next hsame =>
      -- the property is there already, with this value
      have hproperty : (s x).expanded = some ((s x).expanded.getD ⟨false, true⟩) := by
        cases hx : (s x).expanded with
        | none =>
            rw [hx] at hsame hset
            exact absurd ⟨hsame.symm, rfl⟩ hset
        | some property => rfl
      have hunchanged : (s.modify x fun item => { item with
          expanded := some ((s x).expanded.getD ⟨false, true⟩) }) = s := by
        rw [modify, ← hproperty]
        exact Function.update_eq_self x s
      cases ht
      rw [hunchanged]
      exact h
    next hdiffers =>
      split at ht
      next hvalid =>
        unfold expandedInvalidated at ht
        split at ht
        next hleaf =>
          cases ht
          refine h.setSilently (Or.inl ?_)
          rw [isLeaf, modify_self] at hleaf
          exact hleaf
        next hbranch =>
          set u := (s.modify x fun item => { item with expanded := some ⟨value, false⟩ }).validate x
            with hu
          have hother : ∀ y, y ≠ x → u y = s y := by
            intro y hy
            rw [hu, validate, modify_of_ne _ _ hy, modify_of_ne _ _ hy]
          have hset := sameShape_modify s x (f := fun item =>
            { item with expanded := some ⟨value, false⟩ }) fun _ => ⟨rfl, rfl, rfl, rfl, rfl⟩
          have hroot : Rooted u := (hset.trans (sameShape_validate _ x)).rooted h.toRooted
          refine CountedBut.fireEvent (h.changedAt hroot fun y hy => ?_) ht
          rw [hother y hy]
          exact ⟨rfl, rfl, rfl, rfl, rfl⟩
      next hinvalid =>
        cases ht
        refine h.setSilently (Or.inr fun hv => hinvalid ?_)
        cases hx : (s x).expanded with
        | none => rfl
        | some property => exact hv property hx

/-! ## Count queries -/

/-- Only the two counts of an item change. -/
def OnlyCounts (f : TreeItem ι → TreeItem ι) : Prop :=
  ∀ item, f item = { item with
    expandedDescendentCount := (f item).expandedDescendentCount
    previousExpandedDescendentCount := (f item).previousExpandedDescendentCount }

/-- What a query does on its way: it makes items below `x` valid and clean. -/
structure Progress (x : ι) (s t : TreeItems ι) : Prop where
  same : SameTree s t
  valid : ∀ y, s.Valid y → t.Valid y
  clean : ∀ y, s.Clean y → t.Clean y
  frame : ∀ y, ¬ Above s.up y x → t y = s y

omit [DecidableEq ι] [Fintype ι] in
theorem SameTree.up_eq (h : SameTree s t) : t.up = s.up := funext h.parent

omit [DecidableEq ι] [Fintype ι] in
theorem SameTree.trans {u : TreeItems ι} (h : SameTree s t) (h' : SameTree t u) : SameTree s u where
  toSameShape := h.toSameShape.trans h'.toSameShape
  isExpanded x := (h'.isExpanded x).trans (h.isExpanded x)

omit [DecidableEq ι] [Fintype ι] in
theorem Progress.refl (x : ι) (s : TreeItems ι) : Progress x s s :=
  ⟨⟨SameShape.refl s, fun _ => rfl⟩, fun _ h => h, fun _ h => h, fun _ _ => rfl⟩

omit [DecidableEq ι] [Fintype ι] in
theorem Progress.trans {u : TreeItems ι} (h : Progress x s t) (h' : Progress x t u) :
    Progress x s u where
  same := h.same.trans h'.same
  valid y hy := h'.valid y (h.valid y hy)
  clean y hy := h'.clean y (h.clean y hy)
  frame y hy := by
    rw [h'.frame y (by rw [h.same.up_eq]; exact hy), h.frame y hy]

omit [DecidableEq ι] [Fintype ι] in
/-- Below a child is below its parent. -/
theorem Progress.above (h : Progress c s t) (hc : s.up c = some x) : Progress x s t where
  same := h.same
  valid := h.valid
  clean := h.clean
  frame y hy := h.frame y fun hyc => hy (hyc.trans (Above.single hc))

omit [Fintype ι] in
theorem progress_counts (s : TreeItems ι) (x : ι) {f : TreeItem ι → TreeItem ι}
    (hf : OnlyCounts f) : Progress x s (s.modify x f) := by
  have hfield : ∀ y, s.modify x f y = { s y with
      expandedDescendentCount := (s.modify x f y).expandedDescendentCount
      previousExpandedDescendentCount := (s.modify x f y).previousExpandedDescendentCount } := by
    intro y
    by_cases hy : y = x
    · subst hy
      rw [modify_self]
      exact hf (s y)
    · rw [modify_of_ne _ _ hy]
  refine ⟨⟨?_, fun y => ?_⟩, fun y hy => ?_, fun y hy => ?_, fun y hy => ?_⟩
  · constructor
    all_goals
      intro y
      rw [hfield y]
  · rw [isExpanded, hfield y]
    rfl
  · rw [Valid, hfield y]
    exact hy
  · rw [Clean, hfield y]
    exact hy
  · exact modify_of_ne _ _ fun he => hy (he ▸ Above.refl _ _)

omit [Fintype ι] in
theorem progress_validate (s : TreeItems ι) (x : ι) : Progress x s (s.validate x) where
  same := sameTree_validate s x
  valid _ hy := hy.validate x
  clean y hy := (validate_clean s x y).mpr hy
  frame _ hy := modify_of_ne _ _ fun he => hy (he ▸ Above.refl _ _)

/-- The counts of an excepted item may be anything. -/
theorem CountedBut.counts (h : CountedBut but s) (hx : but x) {f : TreeItem ι → TreeItem ι}
    (hf : OnlyCounts f) : CountedBut but (s.modify x f) := by
  have hprogress := progress_counts s x hf
  have hclean : ∀ y, (s.modify x f).Clean y → s.Clean y := by
    intro y hy
    by_cases hyx : y = x
    · subst hyx
      rw [Clean, modify_self, hf (s y)] at hy
      exact hy
    · rw [Clean, modify_of_ne _ _ hyx] at hy
      exact hy
  refine h.mono hprogress.same hprogress.valid hprogress.clean (fun y hy hb => ?_)
    fun y hy _ hnot => absurd (hclean y hy) hnot
  have hyx : y ≠ x := fun he => hb (he ▸ hx)
  rw [modify_of_ne _ _ hyx]
  exact h.exact y (hclean y hy) hb

/-- An item is clean when its count has been found. -/
theorem CountedBut.settle (h : CountedBut (fun y => but y ∨ y = x) s)
    (hexact : (s x).expandedDescendentCount = s.trueCount x)
    (hvalid : s.isLeaf x = false → s.Valid x)
    (hseen : s.isLeaf x = false → s.isExpanded x = true →
      ∀ c, some c ∈ (s x).children → s.ChildSeen c) :
    CountedBut but (s.modify x fun item => { item with expandedDescendentCountDirty := false }) := by
  set t := s.modify x fun item => { item with expandedDescendentCountDirty := false } with ht
  have hother : ∀ y, y ≠ x → t y = s y := fun y hy => modify_of_ne _ _ hy
  have hself : t x = { s x with expandedDescendentCountDirty := false } := modify_self ..
  have hexpanded : ∀ y, (t y).expanded = (s y).expanded := by
    intro y
    by_cases hy : y = x
    · subst hy
      rw [hself]
    · rw [hother y hy]
  have hsame : SameTree s t := by
    refine ⟨sameShape_modify s x fun _ => ⟨rfl, rfl, rfl, rfl, rfl⟩, fun y => ?_⟩
    rw [isExpanded, hexpanded y]
    rfl
  have hvalid' : ∀ y, s.Valid y → t.Valid y := by
    intro y hy
    rw [Valid, hexpanded y]
    exact hy
  have hclean : ∀ y, s.Clean y → t.Clean y := by
    intro y hy
    by_cases hyx : y = x
    · subst hyx
      rw [Clean, hself]
    · rw [Clean, hother y hyx]
      exact hy
  have hchild : ∀ c, s.ChildSeen c → t.ChildSeen c := by
    rintro c (hl | ⟨hv, hc⟩)
    · exact Or.inl ((hsame.leaf c).trans hl)
    · exact Or.inr ⟨hvalid' c hv, fun he => hclean c (hc ((hsame.isExpanded c).symm.trans he))⟩
  refine ⟨hsame.rooted h.toRooted, fun y hy hb => ?_, fun y hy hb hbranch => ?_,
    fun y hy hb hbranch hopen c hc => ?_⟩
  · rw [hsame.trueCount h.toRooted]
    by_cases hyx : y = x
    · subst hyx
      rw [hself]
      exact hexact
    · rw [Clean, hother y hyx] at hy
      rw [hother y hyx]
      exact h.exact y hy (by simp [hb, hyx])
  · have hbranch' : s.isLeaf y = false := (hsame.leaf y).symm.trans hbranch
    refine hvalid' y ?_
    by_cases hyx : y = x
    · subst hyx
      exact hvalid hbranch'
    · rw [Clean, hother y hyx] at hy
      exact h.valid y hy (by simp [hb, hyx]) hbranch'
  · have hbranch' : s.isLeaf y = false := (hsame.leaf y).symm.trans hbranch
    have hopen' : s.isExpanded y = true := (hsame.isExpanded y).symm.trans hopen
    rw [hsame.children y] at hc
    refine hchild c ?_
    by_cases hyx : y = x
    · subst hyx
      exact hseen hbranch' hopen' c hc
    · rw [Clean, hother y hyx] at hy
      exact h.seen y hy (by simp [hb, hyx]) hbranch' hopen' c hc

/-- What a query of `x` is to do in a tree with these links, when the excepted items do not lie
below `x`. -/
def Answers (links : ι → Option ι) (count : ι → TreeItems ι → Option (ℤ × TreeItems ι)) (x : ι) :
    Prop :=
  ∀ (but : ι → Prop) (s : TreeItems ι), s.up = links → CountedBut but s →
    (∀ y, but y → ¬ Above s.up y x) → ∃ t, count x s = some (s.trueCount x, t) ∧ Progress x s t ∧ CountedBut but t ∧ t.Clean x

/-- One child of the loop. -/
theorem childCount_answers {count : ι → TreeItems ι → Option (ℤ × TreeItems ι)}
    (hcount : Answers s.up count c) (h : CountedBut but s) (hbut : ∀ y, but y → ¬ Above s.up y c) :
    ∃ t, childCount count c s = some (s.childRows s.trueCount (some c), t) ∧ Progress c s t ∧
      CountedBut but t ∧ t.Valid c ∧ (s.isExpanded c = true → t.Clean c) := by
  have hvalidated := progress_validate s c
  unfold childCount
  split
  next hopen =>
    obtain ⟨t, hrun, hprogress, hcounted, hclean⟩ := hcount but _ hvalidated.same.up_eq
      (h.validate c) (by rw [hvalidated.same.up_eq]; exact hbut)
    refine ⟨t, ?_, hvalidated.trans hprogress, hcounted, ?_, fun _ => hclean⟩
    · rw [hrun, hvalidated.same.trueCount h.toRooted, childRows, if_pos hopen]
    · exact hprogress.valid c (valid_validate s c)
  next hclosed =>
    refine ⟨_, ?_, hvalidated, h.validate c, valid_validate s c, fun hopen => absurd hopen hclosed⟩
    rw [childRows, if_neg hclosed]

/-- **The loop over the children** adds up what they count. -/
theorem addChildCounts_answers {count : ι → TreeItems ι → Option (ℤ × TreeItems ι)}
    {rest : List (Option ι)} (hcount : ∀ c, some c ∈ rest → Answers s.up count c)
    (h : CountedBut but s) (hx : but x) (hbut : ∀ y, but y → y = x ∨ ¬ Above s.up y x)
    (hrest : ∀ c, some c ∈ rest → s.up c = some x) :
    ∃ t, addChildCounts count x s rest = some t ∧ Progress x s t ∧ CountedBut but t ∧
      (t x).expandedDescendentCount =
        (s x).expandedDescendentCount + (rest.map (s.childRows s.trueCount)).sum ∧
      ∀ c, some c ∈ rest → t.Valid c ∧ (s.isExpanded c = true → t.Clean c) := by
  induction rest generalizing s with
  | nil => exact ⟨s, rfl, Progress.refl x s, h, by simp, by simp⟩
  | cons o rest ih =>
      cases o with
      | none =>
          obtain ⟨t, hrun, hprogress, hcounted, hsum, hseen⟩ := ih
            (fun c hc => hcount c (List.mem_cons_of_mem _ hc)) h hbut
            (fun c hc => hrest c (List.mem_cons_of_mem _ hc))
          refine ⟨t, hrun, hprogress, hcounted, ?_, fun c hc => hseen c (by simpa using hc)⟩
          rw [hsum, List.map_cons, List.sum_cons, childRows, Int.zero_add]
      | some c =>
          have hup := hrest c List.mem_cons_self
          -- no excepted item lies below the child, which lies below `x`
          have hfree : ∀ y, but y → ¬ Above s.up y c := by
            intro y hy hyc
            rcases hbut y hy with rfl | hnot
            · exact h.acyclic c y hup hyc
            · exact hnot (hyc.trans (Above.single hup))
          obtain ⟨u, hchild, hprogress, hcounted, hvalid, hclean⟩ :=
            childCount_answers (hcount c List.mem_cons_self) h hfree
          set v := u.modify x fun item => { item with expandedDescendentCount :=
            (s x).expandedDescendentCount + s.childRows s.trueCount (some c) }
          have hadd : Progress x u v := progress_counts u x fun _ => rfl
          have hsofar : Progress x s v := (hprogress.above hup).trans hadd
          obtain ⟨t, hrun, hprogress', hcounted', hsum, hseen⟩ := ih
            (fun c hc => by
              rw [hsofar.same.up_eq]
              exact hcount c (List.mem_cons_of_mem _ hc))
            (hcounted.counts hx fun _ => rfl : CountedBut but v)
            (fun y hy => by rw [hsofar.same.up_eq]; exact hbut y hy)
            (fun c hc => by
              rw [hsofar.same.up_eq]
              exact hrest c (List.mem_cons_of_mem _ hc))
          refine ⟨t, ?_, hsofar.trans hprogress', hcounted', ?_, ?_⟩
          · rw [addChildCounts, hchild]
            exact hrun
          · have hrows : v.childRows v.trueCount = s.childRows s.trueCount := by
              funext o
              cases o with
              | none => rfl
              | some d =>
                  rw [childRows, childRows, hsofar.same.isExpanded d,
                    hsofar.same.trueCount h.toRooted]
            rw [hsum, hrows, modify_self, List.map_cons, List.sum_cons]
            ring
          · intro d hd
            rcases List.mem_cons.mp hd with hd | hd
            · cases hd
              refine ⟨hprogress'.valid c (hadd.valid c hvalid), fun he => ?_⟩
              exact hprogress'.clean c (hadd.clean c (hclean he))
            · obtain ⟨hvalid', hclean'⟩ := hseen d hd
              refine ⟨hvalid', fun he => hclean' ?_⟩
              rw [hsofar.same.isExpanded d]
              exact he

/-- The count is found; validity and what is known of the children come with it. -/
theorem updateExpandedDescendentCount_answers
    {count : ι → TreeItems ι → Option (ℤ × TreeItems ι)}
    (hcount : ∀ c, some c ∈ (s x).children → Answers s.up count c)
    (h : CountedBut but s) (hx : but x) (hbut : ∀ y, but y → y = x ∨ ¬ Above s.up y x) :
    ∃ t, updateExpandedDescendentCount count x s = some t ∧ Progress x s t ∧ CountedBut but t ∧
      (t x).expandedDescendentCount = s.trueCount x ∧ (t.isLeaf x = false → t.Valid x) ∧
      (t.isLeaf x = false → t.isExpanded x = true →
        ∀ c, some c ∈ (t x).children → t.ChildSeen c) := by
  set u := s.modify x fun item => { item with
    previousExpandedDescendentCount := item.expandedDescendentCount
    expandedDescendentCount := 1 } with hu
  have hstart : Progress x s u := progress_counts s x fun _ => rfl
  have hcounted : CountedBut but u := h.counts hx fun _ => rfl
  have hone : (u x).expandedDescendentCount = 1 := by rw [hu, modify_self]
  have htrue : s.trueCount x = s.countOver s.trueCount x := h.toRooted.trueCount_eq x
  rw [updateExpandedDescendentCount]
  simp only [← hu]
  split
  next hleaf =>
    have hleaf' : s.isLeaf x = true := (hstart.same.leaf x).symm.trans hleaf
    refine ⟨u, rfl, hstart, hcounted, ?_, fun hbranch => ?_, fun hbranch => ?_⟩
    · rw [hone, htrue, countOver_of_leaf hleaf']
    · rw [hleaf] at hbranch
      cases hbranch
    · rw [hleaf] at hbranch
      cases hbranch
  next hbranch =>
    have hbranch' : s.isLeaf x = false :=
      (hstart.same.leaf x).symm.trans (Bool.eq_false_iff.mpr hbranch)
    have hread : Progress x s (u.validate x) := hstart.trans (progress_validate u x)
    have hvalid := valid_validate u x
    have hone' : ((u.validate x) x).expandedDescendentCount = 1 := by
      rw [validate, modify_self]
      exact hone
    split
    next hopen =>
      have hopen' : s.isExpanded x = true := (hstart.same.isExpanded x).symm.trans hopen
      have hchildren : ((u.validate x) x).children = (s x).children := hread.same.children x
      rw [hchildren]
      obtain ⟨t, hrun, hprogress, hcounted', hsum, hseen⟩ :=
        addChildCounts_answers (x := x) (s := u.validate x)
          (fun c hc => by rw [hread.same.up_eq]; exact hcount c hc) (hcounted.validate x) hx
          (fun y hy => by rw [hread.same.up_eq]; exact hbut y hy)
          (fun c hc => by rw [hread.same.up_eq]; exact h.links x c hc)
      have hall := hread.trans hprogress
      refine ⟨t, hrun, hall, hcounted', ?_, fun _ => hprogress.valid x hvalid,
        fun _ _ c hc => ?_⟩
      · have hrows : (u.validate x).childRows (u.validate x).trueCount =
            s.childRows s.trueCount := by
          funext o
          cases o with
          | none => rfl
          | some d =>
              rw [childRows, childRows, hread.same.isExpanded d, hread.same.trueCount h.toRooted]
        rw [hsum, hone', hrows, htrue, countOver, if_pos ⟨hbranch', hopen'⟩]
      · rw [hall.same.children x] at hc
        obtain ⟨hv, hc'⟩ := hseen c hc
        refine Or.inr ⟨hv, fun he => hc' ?_⟩
        rw [← hprogress.same.isExpanded c]
        exact he
    next hclosed =>
      have hclosed' : s.isExpanded x ≠ true := by
        rw [← hstart.same.isExpanded x]
        exact hclosed
      refine ⟨_, rfl, hread, hcounted.validate x, ?_, fun _ => hvalid, fun _ hopen => ?_⟩
      · rw [hone', htrue, countOver, if_neg fun hand => hclosed' hand.2]
      · rw [validate_isExpanded] at hopen
        exact absurd hopen hclosed

omit [Fintype ι] in
theorem progress_settle (s : TreeItems ι) (x : ι) :
    Progress x s (s.modify x fun item => { item with expandedDescendentCountDirty := false }) := by
  have hfield : ∀ y, ((s.modify x fun item =>
      { item with expandedDescendentCountDirty := false }) y).expanded = (s y).expanded := by
    intro y
    by_cases hy : y = x
    · subst hy
      rw [modify_self]
    · rw [modify_of_ne _ _ hy]
  refine ⟨⟨sameShape_modify s x fun _ => ⟨rfl, rfl, rfl, rfl, rfl⟩, fun y => ?_⟩,
    fun y hy => ?_, fun y hy => ?_, fun y hy => ?_⟩
  · rw [isExpanded, hfield y]
    rfl
  · rw [Valid, hfield y]
    exact hy
  · by_cases hyx : y = x
    · subst hyx
      rw [Clean, modify_self]
    · rw [Clean, modify_of_ne _ _ hyx]
      exact hy
  · exact modify_of_ne _ _ fun he => hy (he ▸ Above.refl _ _)

/-- **A query** returns the true count, with one more round than there are items below. -/
theorem countWithin_answers (reset : Bool) {fuel : ℕ} {links : ι → Option ι}
    (hfuel : height links x < fuel) : Answers links (countWithin fuel reset) x := by
  induction fuel generalizing x with
  | zero => omega
  | succ fuel ih =>
      intro but s hlinks h hbut
      rw [countWithin]
      split
      next hdirty =>
        -- `x` is excepted while its count is not complete
        have hexcept : CountedBut (fun y => but y ∨ y = x) s :=
          ⟨h.toRooted, fun y hy hb => h.exact y hy fun hb' => hb (Or.inl hb'),
            fun y hy hb => h.valid y hy fun hb' => hb (Or.inl hb'),
            fun y hy hb => h.seen y hy fun hb' => hb (Or.inl hb')⟩
        have hchild : ∀ c, some c ∈ (s x).children → Answers s.up (countWithin fuel reset) c := by
          intro c hc
          have hlower := h.toRooted.height_lt hc
          rw [hlinks] at hlower ⊢
          exact ih (by omega)
        obtain ⟨t, hrun, hprogress, hcounted, hexact, hvalid, hseen⟩ :=
          updateExpandedDescendentCount_answers hchild hexcept (Or.inr rfl)
            (fun y hy => hy.elim (fun hb => Or.inr (hbut y hb)) Or.inl)
        have hsettled := hcounted.settle
          (by rw [hexact, hprogress.same.trueCount h.toRooted]) hvalid hseen
        refine ⟨_, ?_, hprogress.trans (progress_settle t x), hsettled, ?_⟩
        · rw [hrun, Option.bind_eq_bind, Option.bind_some]
          simp only [modify_self, hexact]
          rfl
        · rw [Clean, modify_self]
      next hclean =>
        have hx : s.Clean x := by
          simp only [Bool.or_eq_true, not_or, Bool.not_eq_true] at hclean
          exact hclean.2
        refine ⟨s, ?_, Progress.refl x s, h, hx⟩
        rw [h.exact x hx fun hb => hbut x hb (Above.refl _ _)]
        rfl

theorem Counted.getExpandedDescendentCount (h : Counted s) (reset : Bool) (x : ι) :
    ∃ t, s.getExpandedDescendentCount reset x = some (s.trueCount x, t) ∧ Progress x s t ∧
      Counted t := by
  obtain ⟨t, hrun, hprogress, hcounted, -⟩ := countWithin_answers reset
    (height_lt_card s.up x) (fun _ => False) s rfl h (fun _ hb => hb.elim)
  exact ⟨t, hrun, hprogress, hcounted⟩

end TreeItems

end JavaFx.Control
