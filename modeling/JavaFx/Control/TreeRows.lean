import JavaFx.Control.TreeUtil

/-!
# Rows and tree items

The rows of an item are the item and then, when it is an expanded branch, the rows of its
children, in the order of the list. `getItem` reads a row off this list, `getRow` finds the row
of an item in it, and the count of the items is its length.
-/

namespace JavaFx.Control

open Collections UpForest

namespace TreeItems

variable {ι : Type} [DecidableEq ι] [Fintype ι] {s t u : TreeItems ι} {x y c i p : ι}

/-! ## The rows -/

/-- The rows of a child, given those of the items. -/
def rowsOfChild (f : ι → List ι) : Option ι → List ι
  | none => []
  | some c => f c

/-- The rows of an item from those of its children. -/
def rowsOver (s : TreeItems ι) (f : ι → List ι) (x : ι) : List ι :=
  x :: if s.isLeaf x = false ∧ s.isExpanded x = true then
    (s x).children.flatMap (rowsOfChild f)
  else []

def rowsWithin (s : TreeItems ι) : ℕ → ι → List ι
  | 0, x => [x]
  | fuel + 1, x => s.rowsOver (rowsWithin s fuel) x

/-- The items that can be seen below an item, in preorder. -/
def rows (s : TreeItems ι) (x : ι) : List ι := s.rowsWithin (Fintype.card ι) x

/-- An item can be seen when all the items above it, up to the root, are expanded branches. -/
inductive Visible (s : TreeItems ι) (root : ι) : ι → Prop where
  | root : Visible s root root
  | child {p c : ι} (parent : Visible s root p) (branch : s.isLeaf p = false)
      (expanded : s.isExpanded p = true) (mem : some c ∈ (s p).children) : Visible s root c

omit [DecidableEq ι] [Fintype ι] in
theorem rowsOver_congr {f g : ι → List ι} (h : ∀ c, some c ∈ (s x).children → f c = g c) :
    s.rowsOver f x = s.rowsOver g x := by
  have hmap : (s x).children.flatMap (rowsOfChild f) = (s x).children.flatMap (rowsOfChild g) := by
    refine List.flatMap_congr fun o ho => ?_
    cases o with
    | none => rfl
    | some c => exact h c ho
  rw [rowsOver, rowsOver, hmap]

omit [DecidableEq ι] in
theorem Rooted.rowsWithin_eq (h : Rooted s) {m n : ℕ} (hm : height s.up x < m)
    (hn : height s.up x < n) : s.rowsWithin m x = s.rowsWithin n x := by
  induction m generalizing x n with
  | zero => omega
  | succ m ih =>
      cases n with
      | zero => omega
      | succ n =>
          rw [rowsWithin, rowsWithin]
          refine rowsOver_congr fun c hc => ?_
          have := h.height_lt hc
          exact ih (by omega) (by omega)

omit [DecidableEq ι] in
theorem Rooted.rows_eq (h : Rooted s) (x : ι) : s.rows x = s.rowsOver s.rows x := by
  have hx := height_lt_card s.up x
  obtain ⟨n, hn⟩ : ∃ n, Fintype.card ι = n + 1 := ⟨Fintype.card ι - 1, by omega⟩
  rw [rows, hn, rowsWithin]
  refine rowsOver_congr fun c hc => ?_
  have := h.height_lt hc
  exact h.rowsWithin_eq (by omega) (by omega)

omit [DecidableEq ι] in
/-- The rows of an expanded branch. -/
theorem Rooted.rows_open (h : Rooted s) (hbranch : s.isLeaf x = false)
    (hopen : s.isExpanded x = true) :
    s.rows x = x :: (s x).children.flatMap (rowsOfChild s.rows) := by
  rw [h.rows_eq, rowsOver, if_pos ⟨hbranch, hopen⟩]

omit [DecidableEq ι] in
/-- The one row of any other item. -/
theorem Rooted.rows_closed (h : Rooted s)
    (hclosed : ¬ (s.isLeaf x = false ∧ s.isExpanded x = true)) : s.rows x = [x] := by
  rw [h.rows_eq, rowsOver, if_neg hclosed]

omit [DecidableEq ι] in
theorem Rooted.rows_head (h : Rooted s) (x : ι) : ∃ below, s.rows x = x :: below := by
  rw [h.rows_eq, rowsOver]
  exact ⟨_, rfl⟩

omit [DecidableEq ι] in
theorem SameTree.rows_eq (h : SameTree s t) : t.rows = s.rows := by
  have hfuel : ∀ n x, t.rowsWithin n x = s.rowsWithin n x := by
    intro n
    induction n with
    | zero => exact fun x => rfl
    | succ n ih =>
        intro x
        have hx : t.rowsWithin n = s.rowsWithin n := funext ih
        rw [rowsWithin, rowsWithin, rowsOver, rowsOver, hx, h.children x, h.isExpanded x,
          isLeaf, h.leaf x]
        rfl
  exact funext fun x => hfuel _ x

omit [DecidableEq ι] in
/-- **The count** of an item is the number of its rows. -/
theorem Rooted.length_rows (h : Rooted s) (x : ι) : ((s.rows x).length : ℤ) = s.trueCount x := by
  induction x using h.induct with
  | _ x ih =>
      by_cases hbranch : s.isLeaf x = false ∧ s.isExpanded x = true
      · have hsum : ∀ cs : List (Option ι), (∀ c, some c ∈ cs → some c ∈ (s x).children) →
            ((cs.flatMap (rowsOfChild s.rows)).length : ℤ) =
              (cs.map (s.childRows s.trueCount)).sum := by
          intro cs hcs
          induction cs with
          | nil => rfl
          | cons o cs ihcs =>
              rw [List.flatMap_cons, List.length_append, List.map_cons, List.sum_cons,
                Nat.cast_add, ihcs fun c hc => hcs c (List.mem_cons_of_mem _ hc)]
              congr 1
              cases o with
              | none => rfl
              | some c =>
                  have hc := ih c (hcs c List.mem_cons_self)
                  rw [rowsOfChild, childRows]
                  split
                  · exact hc
                  next hclosed =>
                    rw [h.rows_closed fun hand => hclosed hand.2]
                    rfl
        rw [h.rows_open hbranch.1 hbranch.2, h.trueCount_eq, countOver, if_pos hbranch,
          List.length_cons, Nat.cast_add, hsum _ fun c hc => hc]
        ring
      · rw [h.rows_closed hbranch, h.trueCount_eq, countOver, if_neg hbranch]
        rfl

omit [DecidableEq ι] in
/-- **What can be seen** is what has a row. -/
theorem Rooted.mem_rows (h : Rooted s) : y ∈ s.rows x ↔ s.Visible x y := by
  constructor
  · intro hy
    induction x using h.induct with
    | _ x ih =>
        by_cases hbranch : s.isLeaf x = false ∧ s.isExpanded x = true
        · rw [h.rows_open hbranch.1 hbranch.2, List.mem_cons, List.mem_flatMap] at hy
          rcases hy with rfl | ⟨o, ho, hy⟩
          · exact .root
          · cases o with
            | none => cases hy
            | some c =>
                have hbelow : ∀ z, s.Visible c z → s.Visible x z := by
                  intro z hz
                  induction hz with
                  | root => exact .child .root hbranch.1 hbranch.2 ho
                  | child _ hb he hm hp => exact .child hp hb he hm
                exact hbelow y (ih c ho hy)
        · rw [h.rows_closed hbranch, List.mem_singleton] at hy
          rw [hy]
          exact .root
  · intro hy
    have hsub : ∀ z, s.Visible x z → ∃ before after, s.rows x = before ++ s.rows z ++ after := by
      intro z hz
      induction hz with
      | root => exact ⟨[], [], by simp⟩
      | @child p c _ hb he hm hp =>
          obtain ⟨before, after, hrows⟩ := hp
          obtain ⟨pre, post, hsplit⟩ := List.append_of_mem hm
          refine ⟨before ++ p :: pre.flatMap (rowsOfChild s.rows),
            post.flatMap (rowsOfChild s.rows) ++ after, ?_⟩
          rw [hrows, h.rows_open hb he, hsplit, List.flatMap_append, List.flatMap_cons]
          simp [rowsOfChild]
    obtain ⟨before, after, hrows⟩ := hsub y hy
    obtain ⟨below, hhead⟩ := h.rows_head y
    rw [hrows, hhead]
    simp

/-! ## Where a row comes from -/

omit [DecidableEq ι] [Fintype ι] in
/-- A position in the rows of some children lies in those of one of them. -/
theorem getElem?_flatMap_rows {f : ι → List ι} {cs : List (Option ι)} {k : ℕ}
    (h : (cs.flatMap (rowsOfChild f))[k]? = some i) :
    ∃ pre c post j, cs = pre ++ some c :: post ∧ (f c)[j]? = some i ∧
      k = (pre.flatMap (rowsOfChild f)).length + j := by
  induction cs generalizing k with
  | nil => simp at h
  | cons o cs ih =>
      rw [List.flatMap_cons] at h
      by_cases hk : k < (rowsOfChild f o).length
      · rw [List.getElem?_append_left hk] at h
        cases o with
        | none => simp [rowsOfChild] at hk
        | some c => exact ⟨[], c, cs, k, rfl, h, by simp⟩
      · rw [List.getElem?_append_right (not_lt.mp hk)] at h
        obtain ⟨pre, c, post, j, rfl, hj, hlength⟩ := ih h
        refine ⟨o :: pre, c, post, j, rfl, hj, ?_⟩
        rw [List.flatMap_cons, List.length_append]
        omega

omit [DecidableEq ι] in
/-- **The row of an item** other than the root is that of its parent, and one more, and the rows
of the siblings before it. -/
theorem Rooted.row_of_parent (h : Rooted s) {k : ℕ} (hk : (s.rows x)[k]? = some i) (hne : k ≠ 0) :
    ∃ p above pre post, (s.rows x)[above]? = some p ∧ s.isLeaf p = false ∧
      (s p).children = pre ++ some i :: post ∧
      k = above + 1 + (pre.flatMap (rowsOfChild s.rows)).length := by
  induction x using h.induct generalizing k with
  | _ x ih =>
      obtain ⟨k, rfl⟩ := Nat.exists_eq_succ_of_ne_zero hne
      by_cases hbranch : s.isLeaf x = false ∧ s.isExpanded x = true
      · rw [h.rows_open hbranch.1 hbranch.2, Nat.succ_eq_add_one, List.getElem?_cons_succ] at hk
        obtain ⟨pre, c, post, j, hsplit, hj, rfl⟩ := getElem?_flatMap_rows hk
        by_cases hj0 : j = 0
        · -- the child itself
          subst hj0
          obtain ⟨below, hhead⟩ := h.rows_head c
          rw [hhead, List.getElem?_cons_zero, Option.some_inj] at hj
          subst hj
          obtain ⟨below', hhead'⟩ := h.rows_head x
          exact ⟨x, 0, pre, post, by rw [hhead', List.getElem?_cons_zero], hbranch.1, hsplit,
            by omega⟩
        · have hc : some c ∈ (s x).children := by simp [hsplit]
          obtain ⟨p, above, pre', post', habove, hleaf, hsplit', hlength⟩ := ih c hc hj hj0
          refine ⟨p, (pre.flatMap (rowsOfChild s.rows)).length + above + 1, pre', post', ?_, hleaf,
            hsplit', by omega⟩
          rw [h.rows_open hbranch.1 hbranch.2, List.getElem?_cons_succ, hsplit,
            List.flatMap_append, List.getElem?_append_right (by omega), List.flatMap_cons,
            Nat.add_sub_cancel_left, rowsOfChild,
            List.getElem?_append_left (List.getElem?_eq_some_iff.mp habove).1]
          exact habove
      · rw [h.rows_closed hbranch] at hk
        simp at hk

omit [DecidableEq ι] in
theorem Rooted.above_of_row (h : Rooted s) {k : ℕ} (hk : (s.rows x)[k]? = some i) :
    Above s.up i x := by
  induction k using Nat.strong_induction_on generalizing i with
  | _ k ih =>
      by_cases hne : k = 0
      · subst hne
        obtain ⟨below, hhead⟩ := h.rows_head x
        rw [hhead, List.getElem?_cons_zero, Option.some_inj] at hk
        rw [hk]
        exact Above.refl _ _
      · obtain ⟨p, above, pre, post, habove, -, hsplit, hlength⟩ := h.row_of_parent hk hne
        have hlink : s.up i = some p := h.links p i (by simp [hsplit])
        exact Above.head hlink (ih above (by omega) habove)

end TreeItems

/-! ## From a row to an item -/

namespace TreeUtil

open TreeItems

variable {ι : Type} [DecidableEq ι] [Fintype ι] {s t : TreeItems ι} {x y c i p root : ι}

/-- A walk down from an item that reads its rows. -/
def Reads (rows : ι → List ι) (getItem : ι → ℤ → TreeItems ι → Option (Option ι × TreeItems ι))
    (s : TreeItems ι) (x : ι) : Prop :=
  ∀ t, SameTree s t → Exact t → ∀ k : ℕ,
    ∃ u, getItem x k t = some ((rows x)[k]?, u) ∧ SameTree s u ∧ Exact u

/-- The loop reads the rows of the children that are left. -/
theorem searchChildren_reads {getItem : ι → ℤ → TreeItems ι → Option (Option ι × TreeItems ι)}
    {dirty : Bool} {cs : List (Option ι)} (hcs : none ∉ cs)
    (hget : ∀ c, some c ∈ cs → Reads s.rows getItem s c) (hsame : SameTree s t) (ht : Exact t)
    (k : ℕ) :
    ∃ u, searchChildren getItem dirty k t cs =
      some ((cs.flatMap (rowsOfChild s.rows))[k]?, u) ∧ SameTree s u ∧ Exact u := by
  induction cs generalizing t k with
  | nil => exact ⟨t, by simp [searchChildren], hsame, ht⟩
  | cons o cs ih =>
      obtain ⟨c, rfl⟩ := Option.ne_none_iff_exists'.mp fun he => hcs (he ▸ List.mem_cons_self)
      have ih' := fun {t : TreeItems ι} => @ih t (fun hmem => hcs (List.mem_cons_of_mem _ hmem))
        fun d hd => hget d (List.mem_cons_of_mem _ hd)
      have hrows : t.rows = s.rows := hsame.rows_eq
      obtain ⟨below, hhead⟩ := ht.toRooted.rows_head c
      rw [hrows] at hhead
      rw [searchChildren, List.flatMap_cons, rowsOfChild]
      by_cases hk : k = 0
      · subst hk
        refine ⟨t, ?_, hsame, ht⟩
        rw [if_pos (by rfl), hhead]
        rfl
      · obtain ⟨k, rfl⟩ := Nat.exists_eq_succ_of_ne_zero hk
        have hpred : ((k.succ : ℕ) : ℤ) - 1 = (k : ℕ) := by push_cast; ring
        rw [if_neg (by exact_mod_cast hk)]
        simp only []
        -- a child that counts for one row is passed
        have hpass : ¬ (t.isLeaf c = false ∧ t.isExpanded c = true) → ∀ v, SameTree s v → Exact v →
            ∃ u, searchChildren getItem dirty ((k.succ : ℕ) - 1) v cs =
              some ((s.rows c ++ cs.flatMap (rowsOfChild s.rows))[k.succ]?, u) ∧
              SameTree s u ∧ Exact u := by
          intro hclosed v hsv hv
          rw [← hrows, ht.toRooted.rows_closed hclosed, hpred, List.singleton_append,
            Nat.succ_eq_add_one, List.getElem?_cons_succ, hrows]
          exact ih' hsv hv k
        have hread : SameTree s (t.validate c) := hsame.trans (sameTree_validate t c)
        split
        next hleaf => exact hpass (fun hand => by rw [hleaf] at hand; cases hand.1) t hsame ht
        next hbranch =>
          split
          next hclosed =>
            exact hpass (fun hand => by rw [hclosed] at hand; cases hand.2) _ hread (ht.validate c)
          next hopen =>
            obtain ⟨v, hcount, hsv, hv⟩ :=
              Exact.getExpandedDescendantCount (ht.validate c) dirty c
            have hlength : ((s.rows c).length : ℤ) = (t.validate c).trueCount c := by
              rw [← (ht.validate c).toRooted.length_rows, hread.rows_eq]
            rw [hcount, Option.bind_eq_bind, Option.bind_some]
            simp only [← hlength]
            by_cases hbeyond : (s.rows c).length ≤ k.succ
            · rw [if_pos (by exact_mod_cast hbeyond), ← Nat.cast_sub hbeyond,
                List.getElem?_append_right hbeyond]
              exact ih' (hread.trans hsv) hv _
            · rw [if_neg (by exact_mod_cast hbeyond)]
              obtain ⟨w, hitem, hsw, hw⟩ := hget c List.mem_cons_self v (hread.trans hsv) hv k.succ
              have hlt := not_le.mp hbeyond
              rw [hitem, Option.bind_eq_bind, Option.bind_some, List.getElem?_append_left hlt,
                List.getElem?_eq_getElem hlt]
              exact ⟨w, rfl, hsw, hw⟩

theorem getItemWithin_reads (dirty : Bool) (h : Rooted s)
    (hnull : ∀ x, none ∉ (s x).children) {fuel : ℕ} (hfuel : height s.up x < fuel) :
    Reads s.rows (getItemWithin dirty fuel) s x := by
  induction fuel generalizing x with
  | zero => omega
  | succ fuel ih =>
      intro t hsame ht k
      obtain ⟨below, hhead⟩ := h.rows_head x
      rw [getItemWithin]
      by_cases hk : k = 0
      · subst hk
        refine ⟨t, ?_, hsame, ht⟩
        rw [if_pos (by rfl), hhead]
        rfl
      · obtain ⟨k, rfl⟩ := Nat.exists_eq_succ_of_ne_zero hk
        have hpred : ((k.succ : ℕ) : ℤ) - 1 = (k : ℕ) := by push_cast; ring
        obtain ⟨v, hcount, hsv, hv⟩ := ht.getExpandedDescendantCount dirty x
        have hlength : ((s.rows x).length : ℤ) = t.trueCount x := by
          rw [← ht.toRooted.length_rows, hsame.rows_eq]
        have hsame' := hsame.trans hsv
        rw [if_neg (by exact_mod_cast hk), hcount, Option.bind_eq_bind, Option.bind_some]
        simp only [← hlength]
        by_cases hbeyond : (s.rows x).length ≤ k.succ
        · rw [if_pos (by exact_mod_cast hbeyond), List.getElem?_eq_none hbeyond]
          exact ⟨v, rfl, hsame', hv⟩
        · rw [if_neg (by exact_mod_cast hbeyond), hpred, hsame'.children x]
          have hbranch : s.isLeaf x = false ∧ s.isExpanded x = true := by
            by_contra hclosed
            rw [h.rows_closed hclosed] at hbeyond
            simp at hbeyond
          rw [h.rows_open hbranch.1 hbranch.2, Nat.succ_eq_add_one, List.getElem?_cons_succ]
          refine searchChildren_reads (hnull x) (fun c hc => ?_) hsame' hv k
          have hlower := h.height_lt hc
          exact ih (by omega)

/-! ## From an item to a row -/

/-- The siblings before an item that are not the root add their rows. -/
theorem addSiblingRows_counts (dirty isShowRoot : Bool) (row : ℤ) {cs : List (Option ι)}
    (hroot : some root ∉ cs) (hsame : SameTree s t) (ht : Exact t) :
    ∃ u, addSiblingRows (some root) dirty isShowRoot row t cs =
      some (.counted (row + (cs.flatMap (rowsOfChild s.rows)).length), u) ∧ SameTree s u ∧
        Exact u := by
  induction cs generalizing t row with
  | nil => exact ⟨t, by simp [addSiblingRows], hsame, ht⟩
  | cons o cs ih =>
      have ih' := fun {t : TreeItems ι} (row : ℤ) =>
        @ih t row fun hmem => hroot (List.mem_cons_of_mem _ hmem)
      rw [List.flatMap_cons, List.length_append]
      cases o with
      | none =>
          rw [addSiblingRows, rowsOfChild, List.length_nil, zero_add]
          exact ih' row hsame ht
      | some c =>
          obtain ⟨v, hcount, hsv, hv⟩ := ht.getExpandedDescendantCount dirty c
          have hlength : ((s.rows c).length : ℤ) = t.trueCount c := by
            rw [← ht.toRooted.length_rows, hsame.rows_eq]
          have hne : some c ≠ some root := fun he => hroot (he ▸ List.mem_cons_self)
          obtain ⟨u, hrest, hsu, hu⟩ := ih' (row + t.trueCount c) (hsame.trans hsv) hv
          refine ⟨u, ?_, hsu, hu⟩
          rw [addSiblingRows, hcount, Option.bind_eq_bind, Option.bind_some]
          simp only [if_neg hne]
          rw [hrest, rowsOfChild, ← hlength, Nat.cast_add, add_assoc]

omit [Fintype ι] in
theorem siblingsBefore_split {pre post : List (Option ι)} (h : some i ∉ pre) :
    siblingsBefore i (pre ++ some i :: post) = pre.reverse := by
  have htake : (pre ++ some i :: post).takeWhile (fun sibling => sibling ≠ some i) = pre := by
    rw [List.takeWhile_append_of_pos, List.takeWhile_cons_of_neg, List.append_nil]
    · simp
    · intro o ho
      rw [decide_eq_true_eq]
      rintro rfl
      exact h ho
  rw [siblingsBefore, if_pos (by simp), htake]

/-- **The climb** from an item adds its row to what has been counted. -/
theorem climb_counts (dirty isShowRoot : Bool) (h : Rooted s)
    (hnodup : ∀ x, (s x).children.Nodup) {fuel k : ℕ} (row : ℕ) (hfuel : depth s.up i < fuel)
    (hk : (s.rows root)[k]? = some i) (hrow : row ≠ 0 ∨ k ≠ 0 ∨ isShowRoot = false)
    (hsame : SameTree s t) (ht : Exact t) :
    ∃ u, climb (some root) dirty isShowRoot fuel i (t i).parent row t =
      some (if isShowRoot then (row + k : ℤ) else row + k - 1, u) ∧ SameTree s u ∧ Exact u := by
  induction fuel generalizing i k row t with
  | zero => omega
  | succ fuel ih =>
      have hup : (t i).parent = s.up i := hsame.parent i
      rw [hup]
      by_cases hzero : k = 0
      · -- the root
        subst hzero
        obtain ⟨below, hhead⟩ := h.rows_head root
        rw [hhead, List.getElem?_cons_zero, Option.some_inj] at hk
        subst hk
        refine ⟨t, ?_, hsame, ht⟩
        cases hroot : s.up root with
        | none =>
            rw [climb]
            simp only [Nat.cast_zero, add_zero, Nat.cast_eq_zero]
            by_cases hrow0 : row = 0
            · have hhidden : isShowRoot = false := by
                rcases hrow with hr | hr | hr
                · exact absurd hrow0 hr
                · exact absurd rfl hr
                · exact hr
              rw [if_pos hrow0, hrow0, hhidden]
              rfl
            · rw [if_neg hrow0]
        | some q =>
            rw [climb]
            simp only [if_true, Nat.cast_zero, add_zero]
      · obtain ⟨p, above, pre, post, habove, -, hsplit, rfl⟩ := h.row_of_parent hk hzero
        have hlink : s.up i = some p := h.links p i (by simp [hsplit])
        have hne : some i ≠ some root := by
          rintro hroot
          rw [Option.some_inj] at hroot
          subst hroot
          exact h.acyclic i p hlink (h.above_of_row habove)
        have hfirst : some i ∉ pre := by
          have hlist := hnodup p
          rw [hsplit] at hlist
          exact fun hmem => (List.nodup_append.mp hlist).2.2 _ hmem _ List.mem_cons_self rfl
        -- the root is no sibling, since it lies above the parent
        have hroot : some root ∉ pre.reverse := by
          intro hmem
          have hlink' : s.up root = some p := by
            refine h.links p root ?_
            rw [hsplit, List.mem_append]
            exact Or.inl (List.mem_reverse.mp hmem)
          exact h.acyclic root p hlink' (h.above_of_row habove)
        obtain ⟨v, hsiblings, hsv, hv⟩ := addSiblingRows_counts dirty isShowRoot row hroot
          hsame ht
        have hlength : (pre.reverse.flatMap (rowsOfChild s.rows)).length =
            (pre.flatMap (rowsOfChild s.rows)).length :=
          ((List.reverse_perm pre).flatMap_right _).length_eq
        have hlower := h.acyclic.depth_lt hlink
        obtain ⟨u, hrest, hsu, hu⟩ := ih (row + (pre.flatMap (rowsOfChild s.rows)).length + 1)
          (by omega) habove (Or.inl (by omega)) hsv hv
        refine ⟨u, ?_, hsu, hu⟩
        rw [hlink, climb]
        simp only [if_neg hne]
        rw [hsame.children p, hsplit, siblingsBefore_split hfirst, hsiblings, hlength,
          Option.bind_eq_bind, Option.bind_some]
        simp only []
        push_cast at hrest ⊢
        rw [hrest]
        split
        · congr 2
          ring
        · congr 2
          ring

/-! ## Both ways -/

/-- Items that stand in one place each, none of them null, with counts that are right as far as
they are cached. -/
structure Proper (s : TreeItems ι) : Prop where
  exact : Exact s
  nonNull : ∀ x, none ∉ (s x).children
  once : ∀ x, (s x).children.Nodup

omit [DecidableEq ι] in
theorem Proper.of_same (h : Proper s) (hsame : SameTree s t) (ht : Exact t) : Proper t where
  exact := ht
  nonNull x := by
    rw [hsame.children x]
    exact h.nonNull x
  once x := by
    rw [hsame.children x]
    exact h.once x

theorem Proper.getItem (h : Proper s) (root : ι) (dirty : Bool) (r : ℕ) :
    ∃ t, getItem (some root) r dirty s = some ((s.rows root)[r]?, t) ∧ SameTree s t ∧
      Proper t := by
  have hreads := getItemWithin_reads dirty h.exact.toRooted h.nonNull
    (height_lt_card s.up root)
  obtain ⟨t, hrun, hsame, ht⟩ := hreads s ⟨SameShape.refl s, fun _ => rfl⟩ h.exact r
  exact ⟨t, hrun, hsame, h.of_same hsame ht⟩

theorem Proper.getRow (h : Proper s) (dirty isShowRoot : Bool) {k : ℕ}
    (hk : (s.rows root)[k]? = some i) :
    ∃ t, getRow (some i) (some root) dirty isShowRoot s =
      some (if isShowRoot then (k : ℤ) else k - 1, t) ∧ SameTree s t ∧ Proper t := by
  have hself : SameTree s s := ⟨SameShape.refl s, fun _ => rfl⟩
  rw [TreeUtil.getRow]
  by_cases hroot : isShowRoot = true ∧ some i = some root
  · -- the root is asked for, and it can lie nowhere else in its rows
    obtain ⟨hshow, hi⟩ := hroot
    rw [Option.some_inj] at hi
    subst hi
    have hzero : k = 0 := by
      by_contra hne
      obtain ⟨p, above, pre, post, habove, -, hsplit, -⟩ := h.exact.toRooted.row_of_parent hk hne
      have hlink : s.up i = some p := h.exact.links p i (by simp [hsplit])
      exact h.exact.acyclic i p hlink (h.exact.toRooted.above_of_row habove)
    refine ⟨s, ?_, hself, h⟩
    rw [if_pos ⟨hshow, rfl⟩, if_pos hshow, hzero]
    rfl
  · rw [if_neg hroot]
    have hrow : k ≠ 0 ∨ isShowRoot = false := by
      by_cases hk0 : k = 0
      · right
        subst hk0
        obtain ⟨below, hhead⟩ := h.exact.toRooted.rows_head root
        rw [hhead, List.getElem?_cons_zero, Option.some_inj] at hk
        rw [hk] at hroot
        exact Bool.eq_false_iff.mpr fun hshow => hroot ⟨hshow, rfl⟩
      · exact Or.inl hk0
    obtain ⟨t, hrun, hsame, ht⟩ := climb_counts dirty isShowRoot h.exact.toRooted h.once 0
      (depth_lt_card s.up i) hk (Or.inr hrow) hself h.exact
    refine ⟨t, ?_, hsame, h.of_same hsame ht⟩
    rw [Nat.cast_zero, zero_add] at hrun
    exact hrun

theorem Proper.updateExpandedItemCount (h : Proper s) (hopen : s.isExpanded root = true)
    (dirty isShowRoot : Bool) :
    ∃ t, updateExpandedItemCount (some root) dirty isShowRoot s =
      some (if isShowRoot then ((s.rows root).length : ℤ) else (s.rows root).length - 1, t) ∧
        SameTree s t ∧ Proper t := by
  have hread := sameTree_validate s root
  obtain ⟨t, hcount, hsame, ht⟩ :=
    Exact.getExpandedDescendantCount (h.exact.validate root) dirty root
  refine ⟨t, ?_, hread.trans hsame, h.of_same (hread.trans hsame) ht⟩
  rw [TreeUtil.updateExpandedItemCount, if_neg (by simp [hopen]), hcount, Option.bind_eq_bind,
    Option.bind_some, hread.trueCount h.exact.toRooted, ← h.exact.toRooted.length_rows]
  rfl

/-- Items have one row each. -/
theorem Proper.nodup_rows (h : Proper s) (root : ι) : (s.rows root).Nodup := by
  rw [List.nodup_iff_getElem?_ne_getElem?]
  intro j k hjk hk heq
  rw [List.getElem?_eq_getElem hk] at heq
  obtain ⟨t, hrow, -⟩ := h.getRow false true heq
  obtain ⟨t', hrow', -⟩ := h.getRow false true (List.getElem?_eq_getElem hk)
  rw [hrow, Option.some_inj] at hrow'
  have hrows : (j : ℤ) = k := congrArg Prod.fst hrow'
  omega

/-- What a run leaves, when every item stands in one place at most and none is null. -/
theorem proper_of_onceRun {ops : List (TreeOp ι)} (honce : OnceRun ops) (hclosed : ClosedRun ops)
    (h : afterOps ops = some s) (hnull : ∀ x, none ∉ (s x).children) : Proper s := by
  obtain ⟨-, hcounted, -⟩ := afterOps_counted honce hclosed h
  refine ⟨hcounted.exactCounts, hnull, fun x => ?_⟩
  have hnodup := (honce ops [] (by simp) s h).1 x
  have hmap : (s x).children = ((s x).children.filterMap id).map some := by
    have hall : ∀ cs : List (Option ι), none ∉ cs → cs = (cs.filterMap id).map some := by
      intro cs hcs
      induction cs with
      | nil => rfl
      | cons o cs ih =>
          have htail := ih fun hmem => hcs (List.mem_cons_of_mem _ hmem)
          cases o with
          | none => exact absurd List.mem_cons_self hcs
          | some c => simpa using htail
    exact hall _ (hnull x)
  rw [hmap]
  exact hnodup.map (Option.some_injective _)

/-- **Rows and items are inverse.** The rows below an expanded root are the items that can be
seen, each once. `getItem` returns the item of a row and null beyond the last, `getRow` returns
the row of an item, one less when the root is hidden, and the count of the items is the number of
the rows. Whatever the caches hold, the tree stays as it is. -/
theorem getItem_getRow_inverse (h : Proper s) (root : ι) (hopen : s.isExpanded root = true) (dirty : Bool) :
    (s.rows root).Nodup ∧ (∀ item, item ∈ s.rows root ↔ s.Visible root item) ∧
      (∀ r : ℕ, ∃ t, getItem (some root) r dirty s = some ((s.rows root)[r]?, t) ∧
        SameTree s t ∧ Proper t) ∧
      (∀ isShowRoot item (k : ℕ), (s.rows root)[k]? = some item →
        ∃ t, getRow (some item) (some root) dirty isShowRoot s =
          some (if isShowRoot then (k : ℤ) else k - 1, t) ∧ SameTree s t ∧ Proper t) ∧
      ∀ isShowRoot, ∃ t, updateExpandedItemCount (some root) dirty isShowRoot s =
        some (if isShowRoot then ((s.rows root).length : ℤ) else (s.rows root).length - 1, t) ∧
          SameTree s t ∧ Proper t :=
  ⟨h.nodup_rows root, fun _ => h.exact.toRooted.mem_rows, h.getItem root dirty,
    fun isShowRoot _ _ hk => h.getRow dirty isShowRoot hk,
    h.updateExpandedItemCount hopen dirty⟩

/-- A root with two children, itself the child of another item: the second child has row 2. -/
theorem getRow_second_child :
    ∃ s t, afterOps ([.mutateChildren 3 (.add (some 0)), .mutateChildren 0 (.add (some 1)),
        .mutateChildren 0 (.add (some 2)), .setExpanded 0 true] : List (TreeOp (Fin 4))) = some s ∧
      s.rows 0 = [0, 1, 2] ∧
      getRow (some 2) (some 0) false true s = some (2, t) := by
  have honce : OnceRun ([.mutateChildren 3 (.add (some 0)), .mutateChildren 0 (.add (some 1)),
      .mutateChildren 0 (.add (some 2)), .setExpanded 0 true] : List (TreeOp (Fin 4))) :=
    onceRun_of_take (by decide)
  have hclosed : ClosedRun ([.mutateChildren 3 (.add (some 0)), .mutateChildren 0 (.add (some 1)),
      .mutateChildren 0 (.add (some 2)), .setExpanded 0 true] : List (TreeOp (Fin 4))) := by
    intro done op rest heq s _
    have hop : op ∈ ([.mutateChildren 3 (.add (some 0)), .mutateChildren 0 (.add (some 1)),
        .mutateChildren 0 (.add (some 2)), .setExpanded 0 true] : List (TreeOp (Fin 4))) := by
      rw [heq]
      simp
    simp only [List.mem_cons, List.not_mem_nil, or_false] at hop
    rcases hop with rfl | rfl | rfl | rfl
    · exact fun a b hrange => by cases hrange
    · exact fun a b hrange => by cases hrange
    · exact fun a b hrange => by cases hrange
    · trivial
  obtain ⟨-, -, -, hrow, -⟩ := getItem_getRow_inverse
    (proper_of_onceRun honce hclosed rfl (by decide)) 0 (by decide) false
  obtain ⟨t, ht, -⟩ := hrow true 2 2 (by decide)
  exact ⟨_, t, rfl, by decide, ht⟩

end TreeUtil

end JavaFx.Control
