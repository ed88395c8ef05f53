import JavaFx.Control.TreeCountRuns

/-!
# `TreeUtil`

The rows of a tree view. `getItem` goes down from the root and takes the counts of the branches it
passes off the index; `getRow` climbs from an item and adds the counts of the siblings before it.
Both ask for counts and read flags as they go, so each hands the items on as it leaves them.

A call on a null child is `none`, and so is a walk that does not end.
-/

namespace JavaFx.Control

open Collections UpForest

namespace TreeUtil

variable {ι : Type} [DecidableEq ι] [Fintype ι]

def getExpandedDescendantCount (node : Option ι) (treeItemCountDirty : Bool) (s : TreeItems ι) :
    Option (ℤ × TreeItems ι) :=
  match node with
  | none => some (0, s)
  | some node =>
    if s.isLeaf node then some (1, s) else s.getExpandedDescendentCount treeItemCountDirty node

def updateExpandedItemCount (treeItem : Option ι) (treeItemCountDirty isShowRoot : Bool)
    (s : TreeItems ι) : Option (ℤ × TreeItems ι) :=
  match treeItem with
  | none => some (0, s)
  | some x =>
    if s.isExpanded x = false then some (1, s.validate x)
    else do
      let (count, s) ← getExpandedDescendantCount (some x) treeItemCountDirty (s.validate x)
      return (if isShowRoot then count else count - 1, s)

/-! ## From a row to an item -/

/-- The loop of `getItem` over the children, with the call for a child as an argument. -/
def searchChildren (getItem : ι → ℤ → TreeItems ι → Option (Option ι × TreeItems ι))
    (treeItemCountDirty : Bool) (idx : ℤ) (s : TreeItems ι) :
    List (Option ι) → Option (Option ι × TreeItems ι)
  | [] => some (none, s)
  | child :: rest =>
    if idx = 0 then some (child, s)
    else
      match child with
      | none => none
      | some c =>
        if s.isLeaf c then searchChildren getItem treeItemCountDirty (idx - 1) s rest
        else if s.isExpanded c = false then
          searchChildren getItem treeItemCountDirty (idx - 1) (s.validate c) rest
        else do
          let (expandedChildCount, s) ←
            getExpandedDescendantCount (some c) treeItemCountDirty (s.validate c)
          if expandedChildCount ≤ idx then
            searchChildren getItem treeItemCountDirty (idx - expandedChildCount) s rest
          else
            let (result, s) ← getItem c idx s
            match result with
            | some item => some (some item, s)
            | none => searchChildren getItem treeItemCountDirty (idx - 1) s rest

def getItemWithin (treeItemCountDirty : Bool) :
    ℕ → ι → ℤ → TreeItems ι → Option (Option ι × TreeItems ι)
  | 0, _, _, _ => none
  | fuel + 1, parent, itemIndex, s =>
    if itemIndex = 0 then some (some parent, s)
    else do
      let (count, s) ← getExpandedDescendantCount (some parent) treeItemCountDirty s
      if count ≤ itemIndex then some (none, s)
      else
        searchChildren (getItemWithin treeItemCountDirty fuel) treeItemCountDirty (itemIndex - 1) s
          (s parent).children

def getItem (parent : Option ι) (itemIndex : ℤ) (treeItemCountDirty : Bool) (s : TreeItems ι) :
    Option (Option ι × TreeItems ι) :=
  match parent with
  | none => some (none, s)
  | some parent => getItemWithin treeItemCountDirty (Fintype.card ι) parent itemIndex s

/-! ## From an item to a row -/

/-- What the siblings before an item say: the row, or the row with which `getRow` returns since
one of them is the root. -/
inductive SiblingRows where
  | counted (row : ℤ)
  | returned (row : ℤ)

/-- The loop of `getRow` over the siblings before an item, the nearest first. -/
def addSiblingRows (root : Option ι) (treeItemCountDirty isShowRoot : Bool) (row : ℤ)
    (s : TreeItems ι) : List (Option ι) → Option (SiblingRows × TreeItems ι)
  | [] => some (.counted row, s)
  | none :: rest => addSiblingRows root treeItemCountDirty isShowRoot row s rest
  | some sibling :: rest => do
    let (count, s) ← getExpandedDescendantCount (some sibling) treeItemCountDirty s
    if some sibling = root then
      return (.returned (if isShowRoot then row + count else -1), s)
    else addSiblingRows root treeItemCountDirty isShowRoot (row + count) s rest

local instance lawfulOption {ι : Type} [DecidableEq ι] : LawfulBEq (Option ι) := inferInstance

omit [Fintype ι] in
/-- The siblings at the positions `siblings.indexOf(i) - 1` down to `0`. -/
def siblingsBefore (i : ι) (siblings : List (Option ι)) : List (Option ι) :=
  if some i ∈ siblings then (siblings.takeWhile fun sibling => sibling ≠ some i).reverse else []

/-- The loop of `getRow` up the parent chain. -/
def climb (root : Option ι) (treeItemCountDirty isShowRoot : Bool) :
    ℕ → ι → Option ι → ℤ → TreeItems ι → Option (ℤ × TreeItems ι)
  | 0, _, _, _, _ => none
  | fuel + 1, i, p, row, s =>
    match p with
    | none => some (if row = 0 then -1 else if isShowRoot then row else row - 1, s)
    | some q =>
      if some i = root then some (if isShowRoot then row else row - 1, s)
      else do
        let (rows, s) ← addSiblingRows root treeItemCountDirty isShowRoot row s
          (siblingsBefore i (s q).children)
        match rows with
        | .returned row => return (row, s)
        | .counted row =>
          climb root treeItemCountDirty isShowRoot fuel q (s q).parent (row + 1) s

def getRow (item root : Option ι) (treeItemCountDirty isShowRoot : Bool) (s : TreeItems ι) :
    Option (ℤ × TreeItems ι) :=
  match item with
  | none => some (-1, s)
  | some item =>
    if isShowRoot = true ∧ some item = root then some (0, s)
    else climb root treeItemCountDirty isShowRoot (Fintype.card ι) item (s item).parent 0 s

end TreeUtil

/-! ## Cached counts that are right -/

namespace TreeItems

variable {ι : Type} [DecidableEq ι] [Fintype ι] {s t : TreeItems ι} {x y c : ι}
  {but : ι → Prop}

/-- The counts that are cached, except for those of some items, are the counts of the tree. -/
structure ExactBut (but : ι → Prop) (s : TreeItems ι) : Prop extends Rooted s where
  exact : ∀ x, s.Clean x → ¬ but x → (s x).expandedDescendentCount = s.trueCount x

/-- A forest in which every count that is cached is right. -/
abbrev Exact (s : TreeItems ι) : Prop := ExactBut (fun _ => False) s

omit [DecidableEq ι] in
theorem Counted.exactCounts (h : Counted s) : Exact s := ⟨h.toRooted, h.exact⟩

omit [DecidableEq ι] in
theorem ExactBut.of_same (h : ExactBut but s) (hsame : SameTree s t)
    (hclean : ∀ x, ¬ but x → t.Clean x → s.Clean x)
    (hcount : ∀ x, ¬ but x → (t x).expandedDescendentCount = (s x).expandedDescendentCount) :
    ExactBut but t := by
  refine ⟨hsame.rooted h.toRooted, fun x hx hb => ?_⟩
  rw [hsame.trueCount h.toRooted, hcount x hb]
  exact h.exact x (hclean x hb hx) hb

theorem ExactBut.validate (h : ExactBut but s) (x : ι) : ExactBut but (s.validate x) := by
  refine h.of_same (sameTree_validate s x) (fun y _ hy => (validate_clean s x y).mp hy)
    fun y _ => ?_
  by_cases hyx : y = x
  · subst hyx
    rw [TreeItems.validate, modify_self]
  · rw [TreeItems.validate, modify_of_ne _ _ hyx]

/-- The counts of an excepted item may be anything. -/
theorem ExactBut.counts (h : ExactBut but s) (hx : but x) {f : TreeItem ι → TreeItem ι}
    (hf : OnlyCounts f) : ExactBut but (s.modify x f) := by
  have hne : ∀ y, ¬ but y → y ≠ x := fun y hy he => hy (he ▸ hx)
  refine h.of_same (progress_counts s x hf).same (fun y hy hc => ?_) fun y hy => ?_
  · rw [Clean, modify_of_ne _ _ (hne y hy)] at hc
    exact hc
  · rw [modify_of_ne _ _ (hne y hy)]

/-- An item is no longer excepted when its count has been found. -/
theorem ExactBut.settle (h : ExactBut (fun y => but y ∨ y = x) s)
    (hexact : (s x).expandedDescendentCount = s.trueCount x) :
    ExactBut but (s.modify x fun item => { item with expandedDescendentCountDirty := false }) := by
  have hsame := (progress_settle s x).same
  refine ⟨hsame.rooted h.toRooted, fun y hy hb => ?_⟩
  rw [hsame.trueCount h.toRooted]
  by_cases hyx : y = x
  · subst hyx
    rw [modify_self]
    exact hexact
  · rw [Clean, modify_of_ne _ _ hyx] at hy
    rw [modify_of_ne _ _ hyx]
    exact h.exact y hy fun hor => hor.elim hb hyx

/-- A call of `getExpandedDescendentCount` that finds the count of the tree. It is asked while the
counts of some items, all of them higher up, are not complete. -/
def Finds (links : ι → Option ι) (count : ι → TreeItems ι → Option (ℤ × TreeItems ι))
    (x : ι) : Prop :=
  ∀ (but : ι → Prop) (s : TreeItems ι), s.up = links → ExactBut but s →
    (∀ y, but y → ¬ Above s.up y x) →
    ∃ t, count x s = some (s.trueCount x, t) ∧ SameTree s t ∧ ExactBut but t

theorem childCount_finds {count : ι → TreeItems ι → Option (ℤ × TreeItems ι)}
    (hcount : Finds s.up count c) (h : ExactBut but s) (hbut : ∀ y, but y → ¬ Above s.up y c) :
    ∃ t, childCount count c s = some (s.childRows s.trueCount (some c), t) ∧ SameTree s t ∧
      ExactBut but t := by
  have hread := sameTree_validate s c
  rw [childCount]
  by_cases hopen : s.isExpanded c = true
  · obtain ⟨t, hrun, hsame, ht⟩ := hcount but (s.validate c) hread.up_eq (h.validate c)
      (fun y hy => by rw [hread.up_eq]; exact hbut y hy)
    refine ⟨t, ?_, hread.trans hsame, ht⟩
    rw [if_pos hopen, hrun, hread.trueCount h.toRooted, childRows, if_pos hopen]
  · refine ⟨s.validate c, ?_, hread, h.validate c⟩
    rw [if_neg hopen, childRows, if_neg hopen]

/-- The loop adds what the children count to the count of the item. -/
theorem addChildCounts_finds {count : ι → TreeItems ι → Option (ℤ × TreeItems ι)}
    {cs : List (Option ι)} (hcount : ∀ c, some c ∈ cs → Finds s.up count c)
    (h : ExactBut but s) (hx : but x) (hbut : ∀ y, but y → ∀ c, some c ∈ cs → ¬ Above s.up y c) :
    ∃ t, addChildCounts count x s cs = some t ∧ SameTree s t ∧ ExactBut but t ∧
      (t x).expandedDescendentCount =
        (s x).expandedDescendentCount + (cs.map (s.childRows s.trueCount)).sum := by
  induction cs generalizing s with
  | nil => exact ⟨s, rfl, ⟨SameShape.refl s, fun _ => rfl⟩, h, by simp⟩
  | cons o cs ih =>
      have hcount' : ∀ c, some c ∈ cs → Finds s.up count c :=
        fun c hc => hcount c (List.mem_cons_of_mem _ hc)
      have hbut' : ∀ y, but y → ∀ c, some c ∈ cs → ¬ Above s.up y c :=
        fun y hy c hc => hbut y hy c (List.mem_cons_of_mem _ hc)
      cases o with
      | none =>
          obtain ⟨t, hrun, hsame, ht, hsum⟩ := ih hcount' h hbut'
          refine ⟨t, hrun, hsame, ht, ?_⟩
          rw [hsum, List.map_cons, List.sum_cons, childRows, zero_add]
      | some c =>
          obtain ⟨u, hchild, hfound, hu⟩ := childCount_finds (hcount c List.mem_cons_self) h
            fun y hy => hbut y hy c List.mem_cons_self
          set v := u.modify x fun item => { item with
            expandedDescendentCount := (s x).expandedDescendentCount +
              s.childRows s.trueCount (some c) } with hv
          have hcounts : OnlyCounts (fun item : TreeItem ι => { item with
              expandedDescendentCount := (s x).expandedDescendentCount +
                s.childRows s.trueCount (some c) }) := fun _ => rfl
          have hsv : SameTree s v := hfound.trans (progress_counts u x hcounts).same
          obtain ⟨t, hrun, hsame, ht, hsum⟩ := ih (s := v)
            (fun d hd => by rw [hsv.up_eq]; exact hcount' d hd) (hu.counts hx hcounts)
            (fun y hy d hd => by rw [hsv.up_eq]; exact hbut' y hy d hd)
          have hrows : v.childRows v.trueCount = s.childRows s.trueCount := by
            funext o
            cases o with
            | none => rfl
            | some d =>
                rw [childRows, childRows, hsv.isExpanded d, hsv.trueCount h.toRooted]
          refine ⟨t, ?_, hsv.trans hsame, ht, ?_⟩
          · rw [addChildCounts, hchild, Option.bind_eq_bind, Option.bind_some]
            exact hrun
          · rw [hsum, hrows, hv, modify_self, List.map_cons, List.sum_cons]
            ring

theorem updateExpandedDescendentCount_finds
    {count : ι → TreeItems ι → Option (ℤ × TreeItems ι)}
    (hcount : ∀ c, some c ∈ (s x).children → Finds s.up count c) (h : ExactBut but s) (hx : but x)
    (hbut : ∀ y, but y → y = x ∨ ¬ Above s.up y x) :
    ∃ t, updateExpandedDescendentCount count x s = some t ∧ SameTree s t ∧ ExactBut but t ∧
      (t x).expandedDescendentCount = s.trueCount x := by
  set u := s.modify x fun item => { item with
    previousExpandedDescendentCount := item.expandedDescendentCount
    expandedDescendentCount := 1 } with hu
  have hstart : SameTree s u := (progress_counts s x fun _ => rfl).same
  have hexact : ExactBut but u := h.counts hx fun _ => rfl
  have hone : (u x).expandedDescendentCount = 1 := by rw [hu, modify_self]
  have htrue : s.trueCount x = s.countOver s.trueCount x := h.toRooted.trueCount_eq x
  rw [updateExpandedDescendentCount]
  simp only [← hu]
  split
  next hleaf =>
    refine ⟨u, rfl, hstart, hexact, ?_⟩
    rw [hone, htrue, countOver_of_leaf ((hstart.leaf x).symm.trans hleaf)]
  next hbranch =>
    have hbranch' : s.isLeaf x = false :=
      (hstart.leaf x).symm.trans (Bool.eq_false_iff.mpr hbranch)
    have hread : SameTree s (u.validate x) := hstart.trans (sameTree_validate u x)
    have hone' : ((u.validate x) x).expandedDescendentCount = 1 := by
      rw [validate, modify_self]
      exact hone
    split
    next hopen =>
      have hopen' : s.isExpanded x = true := (hstart.isExpanded x).symm.trans hopen
      rw [hread.children x]
      -- the items that are not complete lie above the children too
      have habove : ∀ y, but y → ∀ c, some c ∈ (s x).children → ¬ Above s.up y c := by
        intro y hy c hc hyc
        have hlink := h.links x c hc
        rcases hbut y hy with rfl | hnot
        · exact h.acyclic c y hlink hyc
        · exact hnot (hyc.trans (Above.single hlink))
      obtain ⟨t, hrun, hsame, ht, hsum⟩ := addChildCounts_finds (x := x) (s := u.validate x)
        (fun c hc => by rw [hread.up_eq]; exact hcount c hc) (hexact.validate x) hx
        (fun y hy c hc => by rw [hread.up_eq]; exact habove y hy c hc)
      have hrows : (u.validate x).childRows (u.validate x).trueCount =
          s.childRows s.trueCount := by
        funext o
        cases o with
        | none => rfl
        | some d => rw [childRows, childRows, hread.isExpanded d, hread.trueCount h.toRooted]
      refine ⟨t, hrun, hread.trans hsame, ht, ?_⟩
      rw [hsum, hone', hrows, htrue, countOver, if_pos ⟨hbranch', hopen'⟩]
    next hclosed =>
      refine ⟨_, rfl, hread, hexact.validate x, ?_⟩
      rw [hone', htrue, countOver, if_neg fun hand => hclosed ((hstart.isExpanded x).trans hand.2)]

/-- **A query** finds the count of the tree, whatever has been cached. -/
theorem countWithin_finds (reset : Bool) {fuel : ℕ} {links : ι → Option ι}
    (hfuel : height links x < fuel) : Finds links (countWithin fuel reset) x := by
  induction fuel generalizing x with
  | zero => omega
  | succ fuel ih =>
      intro but s hlinks h hbut
      rw [countWithin]
      split
      next hdirty =>
        -- `x` is excepted while its count is not complete
        have hexcept : ExactBut (fun y => but y ∨ y = x) s :=
          ⟨h.toRooted, fun y hy hb => h.exact y hy fun hb' => hb (Or.inl hb')⟩
        have hchild : ∀ c, some c ∈ (s x).children → Finds s.up (countWithin fuel reset) c := by
          intro c hc
          have hlower := h.toRooted.height_lt hc
          rw [hlinks] at hlower ⊢
          exact ih (by omega)
        obtain ⟨t, hrun, hsame, ht, hexact⟩ := updateExpandedDescendentCount_finds hchild hexcept
          (Or.inr rfl) fun y hy => hy.elim (fun hb => Or.inr (hbut y hb)) Or.inl
        refine ⟨_, ?_, hsame.trans (progress_settle t x).same,
          ht.settle (by rw [hexact, hsame.trueCount h.toRooted])⟩
        rw [hrun, Option.bind_eq_bind, Option.bind_some]
        simp only [modify_self, hexact]
        rfl
      next hclean =>
        have hx : s.Clean x := by
          simp only [Bool.or_eq_true, not_or, Bool.not_eq_true] at hclean
          exact hclean.2
        refine ⟨s, ?_, ⟨SameShape.refl s, fun _ => rfl⟩, h⟩
        rw [h.exact x hx fun hb => hbut x hb (Above.refl _ _)]
        rfl

theorem Exact.getExpandedDescendantCount (h : Exact s) (treeItemCountDirty : Bool) (x : ι) :
    ∃ t, TreeUtil.getExpandedDescendantCount (some x) treeItemCountDirty s =
      some (s.trueCount x, t) ∧ SameTree s t ∧ Exact t := by
  rw [TreeUtil.getExpandedDescendantCount]
  split
  next hleaf =>
    refine ⟨s, ?_, ⟨SameShape.refl s, fun _ => rfl⟩, h⟩
    rw [h.toRooted.trueCount_eq, countOver_of_leaf hleaf]
  next =>
    exact countWithin_finds treeItemCountDirty (height_lt_card s.up x) _ s rfl h
      fun _ hb => hb.elim

end TreeItems

end JavaFx.Control
