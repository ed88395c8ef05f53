import JavaFx.Control.SelectionRanges

/-!
# Which calls a listener can follow

Every call keeps the selected rows among the items, in both modes and with the mode changing
between the calls. In such a state a call in the multiple mode is replayable exactly when it is
`Faithful`.
-/

namespace JavaFx.Control

open MultipleSelectionModel

variable {α : Type} {setup : SelectionSetup α} {s : MultipleSelectionModel α}

/-! ## The rows stay among the items -/

theorem Bounded.of_becomes {bits : Ascending} {index : ℤ} (h : Becomes setup s bits index false)
    (hrange : ∀ i ∈ bits, (i : ℤ) < getItemCount setup) : Bounded setup s where
  inRange := by rw [h.selectedIndices]; exact hrange
  focus := h.focus
  makeAtomic := h.makeAtomic

theorem Bounded.callObservers (h : Bounded setup s) (changes : List IndexChange) :
    Bounded setup (s.callObservers changes) := ⟨h.inRange, h.focus, h.makeAtomic⟩

theorem Bounded.setSelectedItem (h : Bounded setup s) (item : Option α) :
    Bounded setup (s.setSelectedItem item) := ⟨h.inRange, h.focus, h.makeAtomic⟩

theorem Bounded.quietClearSelection (h : Bounded setup s) :
    Bounded setup s.quietClearSelection where
  inRange i hi := absurd hi (Ascending.not_mem_empty i)
  focus := h.focus
  makeAtomic := h.makeAtomic

theorem Bounded.clearIfSingle (h : Bounded setup s) : Bounded setup (clearIfSingle setup s) := by
  unfold MultipleSelectionModel.clearIfSingle
  split
  · exact h.quietClearSelection
  · exact h

theorem Bounded.setBit (h : Bounded setup s) {index : ℤ}
    (hin : MultipleSelectionModel.inRange setup index = true) :
    Bounded setup (s.setBit index) where
  inRange i hi := by
    rw [inRange_iff] at hin
    rcases Ascending.mem_insert.mp hi with rfl | hi
    · omega
    · exact h.inRange i hi
  focus := h.focus
  makeAtomic := h.makeAtomic

theorem Bounded.focusOn (h : Bounded setup s) (index : ℤ) :
    Bounded setup (MultipleSelectionModel.focus setup index s) :=
  ⟨h.inRange, focusInRange_focus index, h.makeAtomic⟩

theorem Bounded.setSelectedIndex (h : Bounded setup s) (index : ℤ) :
    Bounded setup (setSelectedIndex setup index s) := by
  unfold MultipleSelectionModel.setSelectedIndex
  split
  · exact h
  · exact ⟨h.inRange, h.focus, h.makeAtomic⟩

theorem Bounded.clearSelection (h : Bounded setup s) :
    Bounded setup (clearSelection setup s) := by
  have hbecomes := clearSelection_becomes h.focus
  rw [h.makeAtomic] at hbecomes
  exact Bounded.of_becomes hbecomes fun i hi => absurd hi (Ascending.not_mem_empty i)

variable [DecidableEq α]

theorem Bounded.select (h : Bounded setup s) (row : ℤ) : Bounded setup (select setup row s) := by
  by_cases hrow : row = -1
  · rw [hrow, MultipleSelectionModel.select, if_pos rfl]
    exact h.clearSelection
  · by_cases hin : MultipleSelectionModel.inRange setup row = true
    · have hbecomes := select_inRange (s := s) hin
      rw [h.makeAtomic] at hbecomes
      exact Bounded.of_becomes hbecomes (bitsWith_inRange hin h.inRange)
    · rw [select_outOfRange hrow (by simpa using hin)]
      exact h

theorem Bounded.clearAndSelect (h : Bounded setup s) (row : ℤ) :
    Bounded setup (clearAndSelect setup row s) := by
  unfold MultipleSelectionModel.clearAndSelect
  split
  · exact h
  · have hclear := clearSelection_becomes (s := s.setMakeAtomic true) h.focus
    refine Bounded.callObservers ?_ _
    -- the flag is the only thing that is not as it should be in between
    have hselect : Bounded setup ((MultipleSelectionModel.select setup row
        (MultipleSelectionModel.clearSelection setup (s.setMakeAtomic true))).setMakeAtomic
          false) := by
      by_cases hin : MultipleSelectionModel.inRange setup row = true
      · have hbecomes := select_inRange
          (s := MultipleSelectionModel.clearSelection setup (s.setMakeAtomic true)) hin
        refine Bounded.of_becomes (hbecomes.setMakeAtomic false) (bitsWith_inRange hin ?_)
        rw [hclear.selectedIndices]
        exact fun i hi => absurd hi (Ascending.not_mem_empty i)
      · have hcleared : Bounded setup ((MultipleSelectionModel.clearSelection setup
            (s.setMakeAtomic true)).setMakeAtomic false) :=
          Bounded.of_becomes (hclear.setMakeAtomic false)
            fun i hi => absurd hi (Ascending.not_mem_empty i)
        by_cases hrow : row = -1
        · rw [hrow, MultipleSelectionModel.select, if_pos rfl]
          exact Bounded.of_becomes ((clearSelection_becomes hclear.focus).setMakeAtomic false)
            fun i hi => absurd hi (Ascending.not_mem_empty i)
        · rw [select_outOfRange hrow (by simpa using hin)]
          exact hcleared
    exact hselect

theorem Bounded.selectFrom (h : Bounded setup s) (obj : Option α) (i : ℕ)
    (rest : List (Option α)) : Bounded setup (selectFrom setup obj s i rest) := by
  induction rest generalizing i with
  | nil => exact h.setSelectedItem obj
  | cons rowObj rest ih =>
      rw [MultipleSelectionModel.selectFrom]
      split
      · split
        · exact h
        · exact h.clearIfSingle.select i
      · exact ih (i + 1)

theorem Bounded.selectItem (h : Bounded setup s) (obj : Option α) :
    Bounded setup (selectItem setup obj s) := by
  unfold MultipleSelectionModel.selectItem
  split
  · exact h.clearSelection
  · exact h.selectFrom obj 0 setup.items

theorem Bounded.selectLastOf (h : Bounded setup s) (rows : List ℤ) :
    Bounded setup (selectLastOf setup rows s) := by
  unfold MultipleSelectionModel.selectLastOf
  split
  next index hfind => exact (h.setBit (List.find?_some hfind)).select index
  next => exact h

theorem Bounded.selectIndices (h : Bounded setup s) (row : ℤ) (rows : Option (List ℤ)) :
    Bounded setup (selectIndices setup row rows s) := by
  cases rows with
  | none => exact h.select row
  | some rows =>
      by_cases hmode : setup.selectionMode = .single
      · have hlast := h.quietClearSelection.selectLastOf rows
        simp only [MultipleSelectionModel.selectIndices, hmode, if_true]
        refine Bounded.callObservers ?_ _
        split
        next hrow =>
          exact (hlast.setBit (inRange_iff.mpr ⟨by omega, hrow.2.2⟩)).select row
        next => exact hlast
      · have hmultiple : setup.selectionMode = .multiple := by
          cases hm : setup.selectionMode with
          | single => exact absurd hm hmode
          | multiple => rfl
        obtain ⟨walked, hfocus, hatomic, -, hmem, -, heq⟩ :=
          selectIndices_walk hmultiple h.focus row rows
        rw [heq]
        refine Bounded.callObservers ⟨?_, hfocus, hatomic.trans h.makeAtomic⟩ _
        intro i hi
        rcases (hmem i).mp hi with hi | hi
        · exact h.inRange i hi
        · exact (inRange_iff.mp (freshRows_mem hi).1).2

omit [DecidableEq α] in
theorem Bounded.selectAll (h : Bounded setup s) : Bounded setup (selectAll setup s) := by
  unfold MultipleSelectionModel.selectAll
  split
  · exact h
  · simp only []
    split
    · exact h.quietClearSelection
    · have hall : Bounded setup (MultipleSelectionModel.callObservers
          [⟨0, getItemCount setup, []⟩]
          { s.quietClearSelection with selectedIndices := .below (getItemCount setup).toNat }) := by
        refine ⟨fun i hi => ?_, h.focus, h.makeAtomic⟩
        have := Ascending.mem_below.mp hi
        omega
      split
      · exact (hall.setSelectedIndex _).focusOn _
      · exact (hall.setSelectedIndex _).focusOn _

omit [DecidableEq α] in
theorem Bounded.clearSelectionAt (h : Bounded setup s) (index : ℤ) :
    Bounded setup (clearSelectionAt setup index s) := by
  by_cases hneg : index < 0
  · rw [MultipleSelectionModel.clearSelectionAt, if_pos hneg]
    exact h
  · obtain ⟨erased, hfocus, hatomic, -, hbits, heq⟩ := clearSelectionAt_eq h.focus hneg
    rw [heq]
    refine Bounded.callObservers ⟨?_, hfocus, hatomic.trans h.makeAtomic⟩ _
    intro i hi
    rw [hbits] at hi
    exact h.inRange i (Ascending.mem_erase.mp hi).1

theorem SelectionOp.perform_bounded (h : Bounded setup s) (op : SelectionOp α) :
    Bounded setup (op.perform setup s) := by
  cases op with
  | select row => exact h.select row
  | selectItem obj => exact h.selectItem obj
  | clearAndSelect row => exact h.clearAndSelect row
  | selectIndices row rows => exact h.selectIndices row rows
  | selectAll => exact h.selectAll
  | selectFirst =>
      unfold SelectionOp.perform MultipleSelectionModel.selectFirst
      simp only []
      split
      · exact h.clearIfSingle.select 0
      · exact h.clearIfSingle
  | selectLast =>
      unfold SelectionOp.perform MultipleSelectionModel.selectLast
      simp only []
      split
      · exact h.clearIfSingle.select _
      · exact h.clearIfSingle
  | selectNext =>
      unfold SelectionOp.perform MultipleSelectionModel.selectNext
      simp only []
      split
      · exact h.clearIfSingle.select 0
      · split
        · exact h.clearIfSingle.select _
        · exact h.clearIfSingle
  | selectPrevious =>
      unfold SelectionOp.perform MultipleSelectionModel.selectPrevious
      simp only []
      split
      · exact h.clearIfSingle.select _
      · split
        · exact h.clearIfSingle.select _
        · exact h.clearIfSingle
  | clearSelection => exact h.clearSelection
  | clearSelectionAt index => exact h.clearSelectionAt index
  | focus index => exact h.focusOn index

/-! ## The condition -/

/-- The calls whose changes turn the selected indices they find into those they leave. -/
def SelectionOp.Faithful (setup : SelectionSetup α) (s : MultipleSelectionModel α) :
    SelectionOp α → Prop
  | .select row => SelectFaithful setup s row
  | .selectItem _ => True
  | .clearAndSelect row => inRange setup row = true
  | .selectIndices row none => SelectFaithful setup s row
  | .selectIndices row (some rows) => RangeFaithful setup s (row :: rows)
  | .selectAll => s.selectedIndices = .empty
  | .selectFirst => 0 < getItemCount setup → SelectFaithful setup s 0
  | .selectLast =>
    0 < getItemCount setup ∧ s.selectedIndex < getItemCount setup - 1 →
      SelectFaithful setup s (getItemCount setup - 1)
  | .selectNext =>
    if getFocusedIndex setup s = -1 then SelectFaithful setup s 0
    else getFocusedIndex setup s ≠ getItemCount setup - 1 →
      SelectFaithful setup s (getFocusedIndex setup s + 1)
  | .selectPrevious =>
    if getFocusedIndex setup s = -1 then SelectFaithful setup s (getItemCount setup - 1)
    else 0 < getFocusedIndex setup s → SelectFaithful setup s (getFocusedIndex setup s - 1)
  | .clearSelection => ClearFaithful s
  | .clearSelectionAt index => index < 0
  | .focus _ => True

theorem SelectionOp.replayable_iff (hmode : setup.selectionMode = .multiple)
    (h : Bounded setup s) (op : SelectionOp α) : op.Replayable setup s ↔ op.Faithful setup s := by
  have hkeep : clearIfSingle setup s = s := by
    rw [clearIfSingle, if_neg (by simp [hmode])]
  -- a call that may select a row, or do nothing
  have hguard : ∀ (p : Prop) [Decidable p] (row : ℤ),
      Replays s (if p then MultipleSelectionModel.select setup row s else s) ↔
        (p → SelectFaithful setup s row) := by
    intro p _ row
    split
    next hp => simp only [hp, forall_const, select_replays_iff hmode h row]
    next hp => exact iff_of_true (replays_of_same rfl rfl) fun h => absurd h hp
  cases op with
  | select row => exact select_replays_iff hmode h row
  | selectItem obj => exact iff_of_true (selectItem_replays hmode h obj) trivial
  | clearAndSelect row => exact clearAndSelect_replays_iff h row
  | selectIndices row rows =>
      cases rows with
      | none => exact select_replays_iff hmode h row
      | some rows => exact selectIndices_replays_iff hmode h row rows
  | selectAll => exact selectAll_replays_iff hmode h
  | selectFirst =>
      unfold SelectionOp.Replayable SelectionOp.perform MultipleSelectionModel.selectFirst
      simp only [hkeep]
      exact hguard _ 0
  | selectLast =>
      unfold SelectionOp.Replayable SelectionOp.perform MultipleSelectionModel.selectLast
      simp only [hkeep]
      exact hguard _ _
  | selectNext =>
      unfold SelectionOp.Replayable SelectionOp.perform MultipleSelectionModel.selectNext
        SelectionOp.Faithful
      simp only [hkeep]
      split
      · exact select_replays_iff hmode h 0
      · exact hguard _ _
  | selectPrevious =>
      unfold SelectionOp.Replayable SelectionOp.perform MultipleSelectionModel.selectPrevious
        SelectionOp.Faithful
      simp only [hkeep]
      split
      · exact select_replays_iff hmode h _
      · exact hguard _ _
  | clearSelection => exact clearSelection_replays_iff h
  | clearSelectionAt index => exact clearSelectionAt_replays_iff h index
  | focus index => exact iff_of_true (replays_of_same rfl rfl) trivial

/-! ## Runs -/

/-- Calls one after the other, each in the mode that is set when it is made. -/
def afterCalls (items : List (Option α)) (hasFocusModel : Bool)
    (calls : List (SelectionMode × SelectionOp α)) : MultipleSelectionModel α :=
  calls.foldl (fun s call => call.2.perform ⟨call.1, items, hasFocusModel⟩ s) new

theorem afterCalls_bounded (items : List (Option α)) (hasFocusModel : Bool) (mode : SelectionMode)
    (calls : List (SelectionMode × SelectionOp α)) :
    Bounded ⟨mode, items, hasFocusModel⟩ (afterCalls items hasFocusModel calls) := by
  induction calls using List.reverseRecOn with
  | nil =>
      exact ⟨fun i hi => absurd hi (Ascending.not_mem_empty i), ⟨le_refl _, Or.inr rfl⟩, rfl⟩
  | append_singleton calls call ih =>
      rw [afterCalls, List.foldl_concat]
      -- the mode has no part in it
      have hcall : Bounded ⟨call.1, items, hasFocusModel⟩ (afterCalls items hasFocusModel calls) :=
        ⟨ih.inRange, ih.focus, ih.makeAtomic⟩
      have hnext := SelectionOp.perform_bounded hcall call.2
      exact ⟨hnext.inRange, hnext.focus, hnext.makeAtomic⟩

/-- **Replaying the selected indices.** After any calls, the changes of a call in the multiple
mode replay exactly when the call is faithful. -/
theorem replayable_iff_faithful (items : List (Option α)) (hasFocusModel : Bool)
    (calls : List (SelectionMode × SelectionOp α)) (op : SelectionOp α) :
    op.Replayable ⟨.multiple, items, hasFocusModel⟩ (afterCalls items hasFocusModel calls) ↔
      op.Faithful ⟨.multiple, items, hasFocusModel⟩ (afterCalls items hasFocusModel calls) :=
  SelectionOp.replayable_iff rfl (afterCalls_bounded items hasFocusModel .multiple calls) op

/-- Selecting a row twice reports it twice. -/
theorem select_again_not_replayable :
    ¬ (SelectionOp.select 0 : SelectionOp ℕ).Replayable ⟨.multiple, [some 0], true⟩
      (afterCalls [some 0] true [(.multiple, .select 0)]) := by
  decide

end JavaFx.Control
