import JavaFx.Control.MultipleSelectionModel

/-!
# What the selection model keeps

Several methods clear the bit set first and then may not find anything to select. They leave
the selected index behind; the condition `Sound` says for every method when it does not
happen, and it is exact.
-/

namespace JavaFx.Control

namespace MultipleSelectionModel

variable {α : Type} {setup : SelectionSetup α} {s : MultipleSelectionModel α}

/-! ## The fields after the small steps -/

@[simp] theorem setSelectedIndex_selectedIndex (index : ℤ) :
    (setSelectedIndex setup index s).selectedIndex = index := by
  unfold setSelectedIndex
  split
  next h => exact h.symm
  next => rfl

@[simp] theorem setSelectedIndex_selectedIndices (index : ℤ) :
    (setSelectedIndex setup index s).selectedIndices = s.selectedIndices := by
  unfold setSelectedIndex
  split <;> rfl

@[simp] theorem setSelectedIndex_makeAtomic (index : ℤ) :
    (setSelectedIndex setup index s).makeAtomic = s.makeAtomic := by
  unfold setSelectedIndex
  split <;> rfl

@[simp] theorem setSelectedIndex_fired (index : ℤ) :
    (setSelectedIndex setup index s).fired = s.fired := by
  unfold setSelectedIndex
  split <;> rfl

@[simp] theorem focus_selectedIndex (index : ℤ) :
    (focus setup index s).selectedIndex = s.selectedIndex := rfl

@[simp] theorem focus_selectedIndices (index : ℤ) :
    (focus setup index s).selectedIndices = s.selectedIndices := rfl

@[simp] theorem focus_makeAtomic (index : ℤ) :
    (focus setup index s).makeAtomic = s.makeAtomic := rfl

@[simp] theorem focus_fired (index : ℤ) : (focus setup index s).fired = s.fired := rfl

theorem isEmpty_iff : s.isEmpty = true ↔ s.selectedIndices = .empty := by
  rw [isEmpty, List.isEmpty_iff, Ascending.toList_eq_nil_iff]

theorem inRange_iff {index : ℤ} :
    inRange setup index = true ↔ 0 ≤ index ∧ index < getItemCount setup := by
  simp [inRange]

theorem isSelected_iff {index : ℤ} :
    s.isSelected index = true ↔ 0 ≤ index ∧ index.toNat ∈ s.selectedIndices := by
  simp [isSelected]

/-- The focus is on one of the items, or nowhere. -/
def FocusInRange (setup : SelectionSetup α) (s : MultipleSelectionModel α) : Prop :=
  -1 ≤ s.focusedIndex ∧ (s.focusedIndex < getItemCount setup ∨ s.focusedIndex = -1)

theorem focusInRange_focus (index : ℤ) : FocusInRange setup (focus setup index s) := by
  rw [FocusInRange, focus]
  simp only []
  split
  · omega
  · omega

/-! ## `clearSelection` and `select` -/

/-- What a method makes of the bit set, the selected index and the flag. -/
structure Becomes (setup : SelectionSetup α) (s' : MultipleSelectionModel α)
    (selectedIndices : Ascending) (selectedIndex : ℤ) (makeAtomic : Bool) : Prop where
  selectedIndices : s'.selectedIndices = selectedIndices
  selectedIndex : s'.selectedIndex = selectedIndex
  makeAtomic : s'.makeAtomic = makeAtomic
  focus : FocusInRange setup s'

variable {bits : Ascending} {index : ℤ} {atomic : Bool}

theorem Becomes.callObservers (h : Becomes setup s bits index atomic)
    (changes : List IndexChange) : Becomes setup (s.callObservers changes) bits index atomic :=
  ⟨h.selectedIndices, h.selectedIndex, h.makeAtomic, h.focus⟩

theorem Becomes.setSelectedItem (h : Becomes setup s bits index atomic) (item : Option α) :
    Becomes setup (s.setSelectedItem item) bits index atomic :=
  ⟨h.selectedIndices, h.selectedIndex, h.makeAtomic, h.focus⟩

theorem Becomes.setMakeAtomic (h : Becomes setup s bits index atomic) (flag : Bool) :
    Becomes setup (s.setMakeAtomic flag) bits index flag :=
  ⟨h.selectedIndices, h.selectedIndex, rfl, h.focus⟩

theorem Becomes.fireAdded (h : Becomes setup s bits index atomic) (row : ℤ) :
    Becomes setup (fireAdded setup row s) bits index atomic := by
  unfold MultipleSelectionModel.fireAdded
  split
  · exact h
  · exact h.callObservers _

theorem clearSelection_becomes (h : FocusInRange setup s) :
    Becomes setup (clearSelection setup s) .empty (if s.makeAtomic then s.selectedIndex else -1)
      s.makeAtomic := by
  unfold clearSelection
  by_cases hatomic : s.makeAtomic = true
  · simp only [hatomic, if_true]
    split
    next hempty => exact ⟨isEmpty_iff.mp hempty, rfl, hatomic, h⟩
    next =>
        simp only [quietClearSelection, hatomic, if_true]
        exact ⟨rfl, rfl, rfl, h⟩
  · simp only [hatomic, if_false, Bool.false_eq_true]
    split
    next hempty =>
        exact ⟨isEmpty_iff.mp hempty, by simp, by simp [hatomic], focusInRange_focus _⟩
    next =>
        have hclear : Becomes setup (MultipleSelectionModel.focus setup (-1)
            (setSelectedIndex setup (-1) s)).quietClearSelection .empty (-1) false :=
          ⟨rfl, setSelectedIndex_selectedIndex (-1),
            (setSelectedIndex_makeAtomic (-1)).trans (by simpa using hatomic),
            focusInRange_focus (s := setSelectedIndex setup (-1) s) (-1)⟩
        rw [if_neg (by rw [hclear.makeAtomic]; simp)]
        exact hclear.callObservers _

/-- The bit set after a row has been selected. -/
def bitsWith (setup : SelectionSetup α) (bits : Ascending) (row : ℤ) : Ascending :=
  if row.toNat ∈ bits then bits
  else if setup.selectionMode = .single then Ascending.empty.insert row.toNat
  else bits.insert row.toNat

theorem bitsWith_mem {row : ℤ} {i : ℕ} (h : i ∈ bitsWith setup bits row) :
    i = row.toNat ∨ i ∈ bits := by
  unfold bitsWith at h
  split at h
  · exact Or.inr h
  · split at h
    · rw [Ascending.mem_insert] at h
      exact h.imp_right fun h => absurd h (Ascending.not_mem_empty i)
    · exact Ascending.mem_insert.mp h

theorem mem_bitsWith (setup : SelectionSetup α) (bits : Ascending) (row : ℤ) :
    row.toNat ∈ bitsWith setup bits row := by
  unfold bitsWith
  split
  next h => exact h
  next => split <;> exact Ascending.mem_insert.mpr (Or.inl rfl)

variable [DecidableEq α]

theorem select_inRange {row : ℤ} (h : inRange setup row = true) :
    Becomes setup (select setup row s) (bitsWith setup s.selectedIndices row) row s.makeAtomic := by
  rw [inRange_iff] at h
  unfold select
  rw [if_neg (by omega), if_neg (by omega)]
  have hset : Becomes setup (MultipleSelectionModel.focus setup row (setSelectedIndex setup row
      (if row.toNat ∈ s.selectedIndices then s else
        (if setup.selectionMode = .single then s.quietClearSelection else s).setBit row)))
      (bitsWith setup s.selectedIndices row) row s.makeAtomic := by
    refine ⟨?_, by simp, ?_, focusInRange_focus _⟩
    · rw [focus_selectedIndices, setSelectedIndex_selectedIndices, bitsWith]
      split
      · rfl
      · split <;> rfl
    · rw [focus_makeAtomic, setSelectedIndex_makeAtomic]
      split
      · rfl
      · split <;> rfl
  simp only []
  split
  · exact (hset.fireAdded row).setSelectedItem _
  · exact hset.fireAdded row

theorem select_outOfRange {row : ℤ} (hrow : row ≠ -1) (h : inRange setup row = false) :
    select setup row s = s := by
  have hnot : ¬ (0 ≤ row ∧ row < getItemCount setup) := by
    rw [← inRange_iff, h]
    simp
  unfold select
  rw [if_neg hrow, if_pos (by omega)]

/-! ## The invariant -/

/-- The selected rows are items, one at most in the single mode, and the selected index is one
of them. -/
structure Valid (setup : SelectionSetup α) (s : MultipleSelectionModel α) : Prop where
  inRange : ∀ i ∈ s.selectedIndices, (i : ℤ) < getItemCount setup
  single : setup.selectionMode = .single → s.selectedIndices.toList.length ≤ 1
  selected : 0 ≤ s.selectedIndex → s.isSelected s.selectedIndex = true

/-- Between two calls. -/
structure Settled (setup : SelectionSetup α) (s : MultipleSelectionModel α) : Prop
    extends Valid setup s where
  focus : FocusInRange setup s
  makeAtomic : s.makeAtomic = false

omit [DecidableEq α] in
theorem Settled.of_becomes {s' : MultipleSelectionModel α}
    (h : Becomes setup s' bits index false)
    (hrange : ∀ i ∈ bits, (i : ℤ) < getItemCount setup)
    (hsingle : setup.selectionMode = .single → bits.toList.length ≤ 1)
    (hselected : 0 ≤ index → index.toNat ∈ bits) : Settled setup s' where
  inRange := by rw [h.selectedIndices]; exact hrange
  single := by rw [h.selectedIndices]; exact hsingle
  selected := by
    rw [isSelected_iff, h.selectedIndices, h.selectedIndex]
    exact fun hpos => ⟨hpos, hselected hpos⟩
  focus := h.focus
  makeAtomic := h.makeAtomic

/-- **Selecting an item** settles the model, whatever the selected index was. -/
theorem settled_select {row : ℤ} (hrow : MultipleSelectionModel.inRange setup row = true)
    (hrange : ∀ i ∈ s.selectedIndices, (i : ℤ) < getItemCount setup)
    (hsingle : setup.selectionMode = .single → s.selectedIndices.toList.length ≤ 1)
    (hatomic : s.makeAtomic = false) : Settled setup (select setup row s) := by
  have h := select_inRange (s := s) hrow
  rw [hatomic] at h
  rw [inRange_iff] at hrow
  refine Settled.of_becomes h ?_ ?_ fun _ => mem_bitsWith _ _ _
  · intro i hi
    rcases bitsWith_mem hi with rfl | hi
    · omega
    · exact hrange i hi
  · intro hmode
    unfold bitsWith
    split
    · exact hsingle hmode
    · exact le_refl 1

omit [DecidableEq α] in
theorem Settled.clearSelection (h : Settled setup s) :
    Settled setup (clearSelection setup s) := by
  have hbecomes := clearSelection_becomes h.focus
  rw [h.makeAtomic] at hbecomes
  refine Settled.of_becomes hbecomes (fun i hi => ?_) (fun _ => Nat.zero_le _) fun hpos => ?_
  · exact absurd hi (Ascending.not_mem_empty i)
  · simp at hpos

/-- Any row may be selected. -/
theorem Settled.select (h : Settled setup s) (row : ℤ) : Settled setup (select setup row s) := by
  by_cases hrow : row = -1
  · rw [hrow, MultipleSelectionModel.select, if_pos rfl]
    exact h.clearSelection
  · by_cases hin : MultipleSelectionModel.inRange setup row = true
    · exact settled_select hin h.inRange h.single h.makeAtomic
    · rw [select_outOfRange hrow (by simpa using hin)]
      exact h

/-! ## Methods that clear first -/

/-- Cleared, but with the selected index of before. -/
def Cleared (setup : SelectionSetup α) (s s' : MultipleSelectionModel α) : Prop :=
  Becomes setup s' .empty s.selectedIndex false

omit [DecidableEq α] in
theorem Settled.quietClearSelection (h : Settled setup s) :
    Cleared setup s s.quietClearSelection := ⟨rfl, rfl, h.makeAtomic, h.focus⟩

omit [DecidableEq α] in
theorem Cleared.settled {s' : MultipleSelectionModel α} (h : Cleared setup s s')
    (hindex : s.selectedIndex < 0) : Settled setup s' := by
  refine Settled.of_becomes h (fun i hi => ?_) (fun _ => Nat.zero_le _) fun hpos => by omega
  exact absurd hi (Ascending.not_mem_empty i)

omit [DecidableEq α] in
theorem Cleared.not_valid {s' : MultipleSelectionModel α} (h : Cleared setup s s')
    (hindex : 0 ≤ s.selectedIndex) : ¬ Valid setup s' := by
  intro hvalid
  have hselected := hvalid.selected (by rw [h.selectedIndex]; exact hindex)
  rw [isSelected_iff, h.selectedIndices] at hselected
  exact Ascending.not_mem_empty _ hselected.2

omit [DecidableEq α] in
/-- Without items there is no selection. -/
theorem Settled.selectedIndex_neg (h : Settled setup s) (hcount : getItemCount setup ≤ 0) :
    s.selectedIndex < 0 := by
  by_contra hpos
  obtain ⟨hpos, hmem⟩ := isSelected_iff.mp (h.selected (by omega))
  have := h.inRange _ hmem
  omega

theorem settled_select_clearIfSingle (h : Settled setup s) {row : ℤ}
    (hrow : MultipleSelectionModel.inRange setup row = true) :
    Settled setup (select setup row (clearIfSingle setup s)) := by
  unfold clearIfSingle
  split
  · refine settled_select hrow (fun i hi => ?_) (fun _ => Nat.zero_le _) h.makeAtomic
    exact absurd hi (Ascending.not_mem_empty i)
  · exact h.select row

omit [DecidableEq α] in
/-- Clearing an empty model, or none at all. -/
theorem settled_clearIfSingle (h : Settled setup s)
    (hindex : setup.selectionMode = .single → s.selectedIndex < 0) :
    Settled setup (clearIfSingle setup s) := by
  unfold clearIfSingle
  split
  next hmode => exact h.quietClearSelection.settled (hindex hmode)
  next => exact h

/-! ### `clearAndSelect` -/

theorem clearAndSelect_inRange (h : Settled setup s) {row : ℤ}
    (hrow : MultipleSelectionModel.inRange setup row = true) :
    Settled setup (clearAndSelect setup row s) := by
  unfold clearAndSelect
  split
  · exact h
  · have hclear := clearSelection_becomes (s := s.setMakeAtomic true) h.focus
    have hselect := select_inRange (s := clearSelection setup (s.setMakeAtomic true)) hrow
    rw [hclear.selectedIndices] at hselect
    rw [inRange_iff] at hrow
    refine Settled.of_becomes ((hselect.setMakeAtomic false).callObservers _) ?_ ?_
      fun _ => mem_bitsWith _ _ _
    · intro i hi
      rcases bitsWith_mem hi with rfl | hi
      · omega
      · exact absurd hi (Ascending.not_mem_empty i)
    · intro hmode
      rw [bitsWith, if_neg (Ascending.not_mem_empty _), if_pos hmode]
      exact le_refl 1

theorem clearAndSelect_outOfRange (h : Settled setup s) {row : ℤ}
    (hrow : MultipleSelectionModel.inRange setup row = false) :
    Cleared setup s (clearAndSelect setup row s) := by
  have hnot : ¬ (s.selectedIndices.toList.length = 1 ∧ s.isSelected row = true) := by
    rintro ⟨-, hselected⟩
    obtain ⟨hpos, hmem⟩ := isSelected_iff.mp hselected
    have := h.inRange _ hmem
    have hin : MultipleSelectionModel.inRange setup row = true :=
      inRange_iff.mpr ⟨hpos, by omega⟩
    rw [hrow] at hin
    cases hin
  unfold clearAndSelect
  rw [if_neg hnot]
  have hclear : Becomes setup (MultipleSelectionModel.clearSelection setup (s.setMakeAtomic true))
      .empty s.selectedIndex true :=
    clearSelection_becomes (s := s.setMakeAtomic true) h.focus
  have hselect : Becomes setup (MultipleSelectionModel.select setup row
      (MultipleSelectionModel.clearSelection setup (s.setMakeAtomic true))) .empty
      s.selectedIndex true := by
    by_cases hneg : row = -1
    · rw [hneg, MultipleSelectionModel.select, if_pos rfl]
      have hagain := clearSelection_becomes hclear.focus
      rw [hclear.makeAtomic, hclear.selectedIndex] at hagain
      exact hagain
    · rw [select_outOfRange hneg hrow]
      exact hclear
  exact (hselect.setMakeAtomic false).callObservers _

/-! ### `selectIndices` -/

/-- Setting the bit before the row is selected comes to the same. -/
theorem settled_setBit_select (h : Settled setup s) {row : ℤ}
    (hrow : MultipleSelectionModel.inRange setup row = true) :
    Settled setup (select setup row (s.quietClearSelection.setBit row)) := by
  have hbits : (s.quietClearSelection.setBit row).selectedIndices =
      Ascending.empty.insert row.toNat := rfl
  refine settled_select hrow (fun i hi => ?_) (fun _ => le_refl 1) h.makeAtomic
  rw [hbits, Ascending.mem_insert] at hi
  rw [inRange_iff] at hrow
  rcases hi with rfl | hi
  · omega
  · exact absurd hi (Ascending.not_mem_empty i)

theorem select_not_isEmpty {row : ℤ} (hrow : MultipleSelectionModel.inRange setup row = true) :
    (select setup row s).isEmpty = false := by
  by_contra hempty
  rw [Bool.not_eq_false, isEmpty_iff, (select_inRange hrow).selectedIndices] at hempty
  have := mem_bitsWith setup s.selectedIndices row
  rw [hempty] at this
  exact Ascending.not_mem_empty _ this

omit [DecidableEq α] in
theorem Settled.callObservers (h : Settled setup s) (changes : List IndexChange) :
    Settled setup (s.callObservers changes) :=
  ⟨⟨h.inRange, h.single, h.selected⟩, h.focus, h.makeAtomic⟩

theorem selectIndices_single (h : Settled setup s) (hmode : setup.selectionMode = .single)
    {row : ℤ} {rows : List ℤ}
    (hsome : (∃ r ∈ rows, MultipleSelectionModel.inRange setup r = true) ∨
      0 < row ∧ row < getItemCount setup) :
    Settled setup (selectIndices setup row (some rows) s) := by
  unfold selectIndices
  simp only [hmode, if_true]
  unfold selectLastOf
  cases hfind : rows.reverse.find? (MultipleSelectionModel.inRange setup) with
  | some index =>
      have hindex := List.find?_some hfind
      have hempty := select_not_isEmpty (s := s.quietClearSelection.setBit index) hindex
      simp only [hempty, Bool.false_eq_true, false_and, if_false]
      exact (settled_setBit_select h hindex).callObservers _
  | none =>
      have hrow : 0 < row ∧ row < getItemCount setup := by
        refine hsome.resolve_left ?_
        rintro ⟨r, hr, hin⟩
        exact List.find?_eq_none.mp hfind r (List.mem_reverse.mpr hr) hin
      have hempty : s.quietClearSelection.isEmpty = true := rfl
      simp only [hempty, true_and, if_pos hrow]
      exact (settled_setBit_select h (inRange_iff.mpr ⟨by omega, hrow.2⟩)).callObservers _

theorem selectIndices_single_none (h : Settled setup s) (hmode : setup.selectionMode = .single)
    {row : ℤ} {rows : List ℤ}
    (hnone : ∀ r ∈ rows, ¬ MultipleSelectionModel.inRange setup r = true)
    (hrow : ¬ (0 < row ∧ row < getItemCount setup)) :
    Cleared setup s (selectIndices setup row (some rows) s) := by
  unfold selectIndices
  simp only [hmode, if_true]
  unfold selectLastOf
  rw [List.find?_eq_none.mpr fun r hr => hnone r (List.mem_reverse.mp hr)]
  have hempty : s.quietClearSelection.isEmpty = true := rfl
  simp only [hempty, true_and, if_neg hrow]
  exact Becomes.callObservers h.quietClearSelection _

/-- What the walk over the rows keeps. -/
structure Walked (setup : SelectionSetup α) (s : MultipleSelectionModel α) (w : RowWalk α) :
    Prop where
  rest : w.model = { s with selectedIndices := w.model.selectedIndices }
  kept : ∀ i ∈ s.selectedIndices, i ∈ w.model.selectedIndices
  inRange : ∀ i ∈ w.model.selectedIndices, i ∈ s.selectedIndices ∨ (i : ℤ) < getItemCount setup
  last : w.lastIndex = -1 ∨ MultipleSelectionModel.inRange setup w.lastIndex = true ∧
    w.lastIndex.toNat ∈ w.model.selectedIndices

omit [DecidableEq α] in
theorem Walked.visit {w : RowWalk α} (h : Walked setup s w) (index : ℤ) :
    Walked setup s (w.visit setup index) := by
  unfold RowWalk.visit
  split
  next hin =>
    split
    next hmem => exact ⟨h.rest, h.kept, h.inRange, Or.inr ⟨hin, hmem⟩⟩
    next hmem =>
      refine ⟨?_, ?_, ?_, Or.inr ⟨hin, ?_⟩⟩
      · rw [h.rest]
        rfl
      · exact fun i hi => Ascending.mem_insert.mpr (Or.inr (h.kept i hi))
      · intro i hi
        rcases Ascending.mem_insert.mp hi with rfl | hi
        · rw [inRange_iff] at hin
          exact Or.inr (by omega)
        · exact h.inRange i hi
      · exact Ascending.mem_insert.mpr (Or.inl rfl)
  next => exact h

omit [DecidableEq α] in
theorem walked_foldl (rows : List ℤ) {w : RowWalk α} (h : Walked setup s w) :
    Walked setup s (rows.foldl (RowWalk.visit setup) w) := by
  induction rows generalizing w with
  | nil => exact h
  | cons row rows ih => exact ih (h.visit row)

theorem selectIndices_multiple (h : Settled setup s) (hmode : setup.selectionMode = .multiple)
    (row : ℤ) (rows : List ℤ) : Settled setup (selectIndices setup row (some rows) s) := by
  have hwalked := walked_foldl (row :: rows)
    (show Walked setup s ⟨s, [], -1⟩ from ⟨rfl, fun _ => id, fun _ => Or.inl, Or.inl rfl⟩)
  unfold selectIndices
  simp only [hmode, reduceCtorEq, if_false]
  generalize (row :: rows).foldl (RowWalk.visit setup) ⟨s, [], -1⟩ = w at hwalked
  refine Settled.callObservers ?_ _
  have hsingle : ∀ {l : ℕ}, setup.selectionMode = .single → l ≤ 1 := by
    intro l hsingle
    rw [hmode] at hsingle
    cases hsingle
  have hrange : ∀ i ∈ w.model.selectedIndices, (i : ℤ) < getItemCount setup := by
    intro i hi
    exact (hwalked.inRange i hi).elim (h.inRange i) id
  have hmodel : Becomes setup w.model w.model.selectedIndices s.selectedIndex false := by
    refine ⟨rfl, ?_, ?_, ?_⟩
    · rw [hwalked.rest]
    · rw [hwalked.rest]
      exact h.makeAtomic
    · rw [hwalked.rest]
      exact h.focus
  split
  next hlast =>
    obtain ⟨hin, hmem⟩ := hwalked.last.resolve_left hlast
    have hmoved : Becomes setup (MultipleSelectionModel.focus setup w.lastIndex
        (setSelectedIndex setup w.lastIndex w.model)) w.model.selectedIndices w.lastIndex false :=
      ⟨by simp, by simp, by simpa using hmodel.makeAtomic, focusInRange_focus _⟩
    exact Settled.of_becomes (hmoved.setSelectedItem _) hrange hsingle fun _ => hmem
  next hlast =>
    refine Settled.of_becomes hmodel hrange hsingle fun hpos => ?_
    exact hwalked.kept _ (isSelected_iff.mp (h.selected hpos)).2

/-! ### `selectAll` -/

omit [DecidableEq α] in
theorem Settled.selectAll (h : Settled setup s) : Settled setup (selectAll setup s) := by
  unfold MultipleSelectionModel.selectAll
  split
  · exact h
  next hmode =>
    simp only []
    split
    next hcount => exact h.quietClearSelection.settled (h.selectedIndex_neg hcount)
    next hcount =>
      have hbits : ∀ {index : ℤ}, MultipleSelectionModel.inRange setup index = true →
          Settled setup (MultipleSelectionModel.focus setup index (setSelectedIndex setup index
            (MultipleSelectionModel.callObservers [⟨0, getItemCount setup, []⟩]
              { s.quietClearSelection with
                selectedIndices := .below (getItemCount setup).toNat }))) := by
        intro index hindex
        rw [inRange_iff] at hindex
        refine Settled.of_becomes (show Becomes setup _ (.below (getItemCount setup).toNat) index
          false from ⟨by simp [MultipleSelectionModel.callObservers], by simp, ?_,
            focusInRange_focus _⟩) ?_ (fun hsingle => absurd hsingle hmode) ?_
        · simpa [MultipleSelectionModel.callObservers, MultipleSelectionModel.quietClearSelection]
            using h.makeAtomic
        · intro i hi
          rw [Ascending.mem_below] at hi
          omega
        · intro hpos
          rw [Ascending.mem_below]
          omega
      have hfocused : getFocusedIndex setup s = -1 ∨
          MultipleSelectionModel.inRange setup (getFocusedIndex setup s) = true := by
        obtain ⟨hlow, hhigh⟩ := h.focus
        unfold getFocusedIndex
        split
        · rw [inRange_iff]
          omega
        · exact Or.inl rfl
      change Settled setup (if getFocusedIndex setup s = -1 then _ else _)
      split
      · exact hbits (inRange_iff.mpr ⟨by omega, by omega⟩)
      next hne => exact hbits (hfocused.resolve_left hne)

end MultipleSelectionModel

end JavaFx.Control
