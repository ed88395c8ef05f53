import JavaFx.Control.SelectionRuns

/-!
# Replaying the changes of the selected indices

A listener that keeps a copy of the selected indices takes out what a step removed, where it
starts, and puts in what now stands in its range. Row numbers in the place of positions, rows
reported as removed that were not, and ranges cut from the order of the call make the copy
differ; `Faithful` says for every call when it does not.
-/

namespace JavaFx.Control

open MultipleSelectionModel

/-! ## The listener -/

/-- One step on the copy. The step has to lie in both lists and to remove what is there. -/
def IndexChange.replay (c : IndexChange) (current copy : List ℤ) : Option (List ℤ) :=
  if 0 ≤ c.from_ ∧ c.from_ ≤ c.to_ ∧ c.to_ ≤ current.length ∧ c.from_ ≤ copy.length ∧
      c.removed <+: copy.drop c.from_.toNat then
    some (copy.take c.from_.toNat ++ ((current.take c.to_.toNat).drop c.from_.toNat ++
      copy.drop (c.from_.toNat + c.removed.length)))
  else none

/-- Selected rows as the entries of the list. -/
def rowEntries (rows : List ℕ) : List ℤ := rows.map fun row : ℕ => (row : ℤ)

def Notification.replay (n : Notification) (copy : List ℤ) : Option (List ℤ) :=
  n.changes.foldlM (fun copy c => c.replay (rowEntries n.list) copy) copy

/-- All that is fired during a call. -/
def replayAll (fired : List Notification) (copy : List ℤ) : Option (List ℤ) :=
  fired.foldlM (fun copy n => n.replay copy) copy

variable {α : Type} [DecidableEq α] {setup : SelectionSetup α} {s : MultipleSelectionModel α}

/-- What has been fired in between turns the selected indices of one state into those of the
other. -/
def Replays (s s' : MultipleSelectionModel α) : Prop :=
  replayAll (s'.fired.drop s.fired.length) (rowEntries s.selectedIndices.toList) =
    some (rowEntries s'.selectedIndices.toList)

instance (s s' : MultipleSelectionModel α) : Decidable (Replays s s') :=
  inferInstanceAs (Decidable (_ = _))

/-- The changes a call fires turn the selected indices before it into those after it. -/
def SelectionOp.Replayable (setup : SelectionSetup α) (s : MultipleSelectionModel α)
    (op : SelectionOp α) : Prop :=
  Replays s (op.perform setup s)

instance (op : SelectionOp α) : Decidable (op.Replayable setup s) :=
  inferInstanceAs (Decidable (Replays _ _))

/-! ## Lists of rows -/

@[simp] theorem rowEntries_length (rows : List ℕ) : (rowEntries rows).length = rows.length := by
  simp [rowEntries]

theorem rowEntries_append (l m : List ℕ) : rowEntries (l ++ m) = rowEntries l ++ rowEntries m := by
  simp [rowEntries]

theorem rowEntries_take (l : List ℕ) (n : ℕ) : rowEntries (l.take n) = (rowEntries l).take n := by
  simp [rowEntries]

theorem rowEntries_drop (l : List ℕ) (n : ℕ) : rowEntries (l.drop n) = (rowEntries l).drop n := by
  simp [rowEntries]

theorem rowEntries_injective {l m : List ℕ} (h : rowEntries l = rowEntries m) : l = m :=
  List.map_injective_iff.mpr (fun _ _ heq => Int.ofNat.inj heq) h

/-- Rows that are items, between two calls. -/
structure Bounded (setup : SelectionSetup α) (s : MultipleSelectionModel α) : Prop where
  inRange : ∀ i ∈ s.selectedIndices, (i : ℤ) < getItemCount setup
  focus : FocusInRange setup s
  makeAtomic : s.makeAtomic = false

omit [DecidableEq α] in
theorem length_le_itemCount {bits : Ascending}
    (h : ∀ i ∈ bits, (i : ℤ) < getItemCount setup) :
    (bits.toList.length : ℤ) ≤ getItemCount setup := by
  have hsub : bits.toList ⊆ List.range setup.items.length := by
    intro i hi
    have := h i hi
    rw [getItemCount] at this
    rw [List.mem_range]
    omega
  have := (List.subperm_of_subset bits.nodup hsub).length_le
  rw [List.length_range] at this
  rw [getItemCount]
  omega

omit [DecidableEq α] in
/-- The view over the bit set shows every row. -/
theorem entries_eq {bits : Ascending} (h : ∀ i ∈ bits, (i : ℤ) < getItemCount setup) :
    entries setup bits = rowEntries bits.toList := by
  have hlength := length_le_itemCount h
  refine List.ext_getElem (by simp [entries]) ?_
  intro i hi _
  have hi' : i < bits.toList.length := by simpa [entries] using hi
  have hentry : (entries setup bits)[i] = getFrom setup bits i := by simp [entries]
  rw [hentry, getFrom, if_neg (by omega)]
  simp [rowEntries, List.getElem?_eq_getElem hi']

omit [DecidableEq α] in
theorem indexOf_eq {pre post : List ℕ} {row : ℕ}
    (hbits : s.selectedIndices.toList = pre ++ row :: post)
    (h : ∀ i ∈ s.selectedIndices, (i : ℤ) < getItemCount setup) :
    indexOf setup s row = pre.length := by
  have hnot : row ∉ pre := by
    have hnodup := s.selectedIndices.nodup
    rw [hbits] at hnodup
    exact fun hmem => List.nodup_append.mp hnodup |>.2.2 row hmem row List.mem_cons_self rfl
  have hfind : (rowEntries (pre ++ row :: post)).findIdx? (· == (row : ℤ)) = some pre.length := by
    have hpre : (rowEntries pre).findIdx? (· == (row : ℤ)) = none := by
      rw [List.findIdx?_eq_none_iff]
      intro x hx
      obtain ⟨i, hi, rfl⟩ := List.mem_map.mp hx
      have : i ≠ row := fun heq => hnot (heq ▸ hi)
      rw [beq_eq_false_iff_ne]
      exact fun heq => this (by exact_mod_cast heq)
    rw [rowEntries_append, List.findIdx?_append, hpre]
    simp [rowEntries, List.findIdx?_cons]
  rw [indexOf, entries_eq h, hbits, hfind]

omit [DecidableEq α] in
theorem indexOf_of_not_mem {row : ℤ} (hrow : s.isSelected row = false)
    (h : ∀ i ∈ s.selectedIndices, (i : ℤ) < getItemCount setup) :
    indexOf setup s row = -1 := by
  have hfind : (rowEntries s.selectedIndices.toList).findIdx? (· == row) = none := by
    rw [List.findIdx?_eq_none_iff]
    intro x hx
    obtain ⟨i, hi, rfl⟩ := List.mem_map.mp hx
    by_contra heq
    have hsame : (i : ℤ) = row := by simpa using heq
    subst hsame
    have : s.isSelected (i : ℤ) = true := isSelected_iff.mpr ⟨by omega, by rw [Int.toNat_natCast]; exact hi⟩
    rw [hrow] at this
    cases this
  rw [indexOf, entries_eq h, hfind]

/-! ## Single steps -/

omit [DecidableEq α] in
theorem replays_of_fired {s s' : MultipleSelectionModel α} (changes : List IndexChange)
    (hfired : s'.fired = s.fired ++ [⟨changes, s'.selectedIndices.toList⟩]) :
    Replays s s' ↔
      changes.foldlM (fun copy c => c.replay (rowEntries s'.selectedIndices.toList) copy)
        (rowEntries s.selectedIndices.toList) = some (rowEntries s'.selectedIndices.toList) := by
  rw [Replays, hfired, List.drop_left]
  simp [replayAll, Notification.replay]

omit [DecidableEq α] in
/-- Nothing fired and nothing changed. -/
theorem replays_of_same {s s' : MultipleSelectionModel α} (hfired : s'.fired = s.fired)
    (hbits : s'.selectedIndices = s.selectedIndices) : Replays s s' := by
  rw [Replays, hfired, hbits, List.drop_length]
  rfl

/-- A step that only adds. -/
theorem replay_added {a b : ℕ} (rows copy : List ℕ) (hab : a ≤ b) (hb : b ≤ rows.length)
    (ha : a ≤ copy.length) :
    (⟨a, b, []⟩ : IndexChange).replay (rowEntries rows) (rowEntries copy) =
      some (rowEntries (copy.take a ++ ((rows.take b).drop a ++ copy.drop a))) := by
  rw [IndexChange.replay, if_pos]
  · simp only [Int.toNat_natCast, List.length_nil, Nat.add_zero, rowEntries_append,
      rowEntries_take, rowEntries_drop]
  · refine ⟨by simp, by simpa using hab, ?_, ?_, List.nil_prefix⟩
    · simpa using hb
    · simpa using ha

/-- What a step leaves, as a list that is as long as the numbers say. -/
theorem replay_eq_some {c : IndexChange} {current copy result : List ℤ}
    (h : c.replay current copy = some result) :
    0 ≤ c.from_ ∧ c.removed <+: copy.drop c.from_.toNat ∧
      result.length + c.removed.length = copy.length + (c.to_ - c.from_).toNat := by
  unfold IndexChange.replay at h
  split at h
  next hguard =>
    obtain ⟨hfrom, hto, hlength, hcopy, hremoved⟩ := hguard
    refine ⟨hfrom, hremoved, ?_⟩
    have hfit := hremoved.length_le
    rw [List.length_drop] at hfit
    cases h
    simp only [List.length_append, List.length_take, List.length_drop]
    omega
  next => cases h

/-! ## `clearSelection()` -/

/-- The list of the removed rows is right when the rows but the last are the first ones. -/
def ClearFaithful (s : MultipleSelectionModel α) : Prop :=
  s.selectedIndices.toList.dropLast = List.range (s.selectedIndices.toList.length - 1)

instance (s : MultipleSelectionModel α) : Decidable (ClearFaithful s) :=
  inferInstanceAs (Decidable (_ = _))

omit [DecidableEq α] in
theorem clearSelection_fired_of_atomic (h : s.makeAtomic = true) :
    (clearSelection setup s).fired = s.fired := by
  unfold clearSelection
  simp only [h, if_true]
  split
  · rfl
  · simp [quietClearSelection, h]

omit [DecidableEq α] in
theorem clearSelection_fired (h : s.makeAtomic = false) (hne : s.selectedIndices ≠ .empty) :
    (clearSelection setup s).fired =
      s.fired ++ [⟨[⟨0, 0, removedRows s.selectedIndices⟩], []⟩] := by
  unfold clearSelection
  have hnot : (focus setup (-1) (setSelectedIndex setup (-1) s)).isEmpty ≠ true := by
    rw [Ne, MultipleSelectionModel.isEmpty_iff, focus_selectedIndices, setSelectedIndex_selectedIndices]
    exact hne
  simp only [h, Bool.false_eq_true, if_false]
  rw [if_neg hnot]
  simp [quietClearSelection, callObservers, h, Ascending.empty]

omit [DecidableEq α] in
theorem clearSelection_fired_of_empty (h : s.selectedIndices = .empty) :
    (clearSelection setup s).fired = s.fired := by
  unfold clearSelection
  have hempty : s.isEmpty = true := MultipleSelectionModel.isEmpty_iff.mpr h
  have hempty' : (focus setup (-1) (setSelectedIndex setup (-1) s)).isEmpty = true := by
    rw [MultipleSelectionModel.isEmpty_iff, focus_selectedIndices, setSelectedIndex_selectedIndices]
    exact h
  by_cases hatomic : s.makeAtomic = true
  · simp [hatomic, hempty]
  · simp [hatomic, hempty']

/-- Rows in ascending order are at least their positions. -/
theorem le_getElem_ascending {l : List ℕ} (h : l.Pairwise (· < ·)) {i : ℕ} (hi : i < l.length) :
    i ≤ l[i] := by
  induction i with
  | zero => exact Nat.zero_le _
  | succ i ih =>
      have hstep : l[i] < l[i + 1] := List.pairwise_iff_getElem.mp h i (i + 1) _ hi (by omega)
      have := ih (by omega)
      omega

/-- The row `nextSetBit` finds from a position on is the one there when the row before it is
in front of that position. -/
theorem nextSetBit_eq_iff (bits : Ascending) {i : ℕ} (hi : i < bits.toList.length) :
    nextSetBit bits i = bits.toList[i] ↔ ∀ j, (hj : j < i) → bits.toList[j] < i := by
  have hfound : bits.toList.find? (i ≤ ·) = some bits.toList[i] ↔
      ∀ j, (hj : j < i) → bits.toList[j] < i := by
    rw [List.find?_eq_some_iff_getElem]
    constructor
    · rintro ⟨-, k, hk, hik, hbefore⟩ j hj
      have hki : k = i := (List.Nodup.getElem_inj_iff bits.nodup).mp hik
      subst hki
      simpa using hbefore j hj
    · intro hbefore
      refine ⟨by simpa using le_getElem_ascending bits.ascending hi, i, hi, rfl, ?_⟩
      intro j hj
      simpa using hbefore j hj
  rw [← hfound, nextSetBit]
  cases hfind : bits.toList.find? (i ≤ ·) with
  | none => simp
  | some row =>
      rw [Option.some_inj]
      exact Int.ofNat_inj

theorem removedRows_eq_iff (bits : Ascending) :
    removedRows bits = rowEntries bits.toList ↔
      bits.toList.dropLast = List.range (bits.toList.length - 1) := by
  have hrows : removedRows bits = rowEntries bits.toList ↔
      ∀ i, (hi : i < bits.toList.length) → nextSetBit bits i = bits.toList[i] := by
    rw [List.ext_getElem_iff]
    simp [removedRows, rowEntries]
  have hrange : bits.toList.dropLast = List.range (bits.toList.length - 1) ↔
      ∀ i, (hi : i < bits.toList.length - 1) → bits.toList[i] = i := by
    rw [List.ext_getElem_iff]
    simp
  rw [hrows, hrange]
  constructor
  · intro h i hi
    have hlt := (nextSetBit_eq_iff bits (i := i + 1) (by omega)).mp (h (i + 1) (by omega)) i
      (by omega)
    have hle := le_getElem_ascending bits.ascending (i := i) (by omega)
    omega
  · intro h i hi
    rw [nextSetBit_eq_iff bits hi]
    intro j hj
    rw [h j (by omega)]
    exact hj

omit [DecidableEq α] in
theorem clearSelection_replays_iff (h : Bounded setup s) :
    Replays s (clearSelection setup s) ↔ ClearFaithful s := by
  have hbits : (clearSelection setup s).selectedIndices = .empty :=
    (clearSelection_becomes h.focus).selectedIndices
  by_cases hempty : s.selectedIndices = .empty
  · refine iff_of_true (replays_of_same (clearSelection_fired_of_empty hempty) ?_) ?_
    · rw [hbits, hempty]
    · simp [ClearFaithful, hempty, Ascending.empty]
  · have hnil : Ascending.empty.toList = [] := rfl
    rw [replays_of_fired _ (by rw [hbits]; exact clearSelection_fired h.makeAtomic hempty), ClearFaithful, ← removedRows_eq_iff, hbits,
      hnil]
    have hlength : (removedRows s.selectedIndices).length = s.selectedIndices.toList.length := by
      simp [removedRows]
    simp only [List.foldlM_cons, List.foldlM_nil, bind_pure]
    constructor
    · intro hsome
      obtain ⟨-, hpre, -⟩ := replay_eq_some hsome
      refine List.IsPrefix.eq_of_length (by simpa using hpre) (by simp [hlength])
    · intro hremoved
      rw [IndexChange.replay, hremoved, if_pos ⟨le_refl _, le_refl _, by simp, by simp, by simp⟩]
      simp [rowEntries]

/-! ## `select(int)` -/

omit [DecidableEq α] in
theorem fireAdded_fired (h : s.makeAtomic = false) (row : ℤ) :
    (fireAdded setup row s).fired = s.fired ++
      [⟨[⟨indexOf setup s row, indexOf setup s row + 1, []⟩], s.selectedIndices.toList⟩] := by
  unfold fireAdded
  rw [if_neg (by simp [h])]
  rfl

omit [DecidableEq α] in
theorem indexOf_congr {s s' : MultipleSelectionModel α}
    (h : s'.selectedIndices = s.selectedIndices) (row : ℤ) :
    indexOf setup s' row = indexOf setup s row := by
  rw [indexOf, indexOf, h]

/-- The state of `select` when the row has been reported. -/
def selected (setup : SelectionSetup α) (row : ℤ) (s : MultipleSelectionModel α) :
    MultipleSelectionModel α :=
  focus setup row (setSelectedIndex setup row
    (if row.toNat ∈ s.selectedIndices then s else
      (if setup.selectionMode = .single then s.quietClearSelection else s).setBit row))

omit [DecidableEq α] in
theorem selected_spec (setup : SelectionSetup α) (row : ℤ) (s : MultipleSelectionModel α) :
    (selected setup row s).selectedIndices = bitsWith setup s.selectedIndices row ∧
      (selected setup row s).makeAtomic = s.makeAtomic ∧
      (selected setup row s).fired = s.fired := by
  unfold selected
  rw [focus_selectedIndices, setSelectedIndex_selectedIndices, focus_makeAtomic,
    setSelectedIndex_makeAtomic, focus_fired, setSelectedIndex_fired, bitsWith]
  by_cases hmem : row.toNat ∈ s.selectedIndices
  · simp [hmem]
  · by_cases hmode : setup.selectionMode = .single
    · simp [hmem, hmode, setBit, quietClearSelection]
    · simp [hmem, hmode, setBit]

theorem select_fired_eq {row : ℤ} (h : inRange setup row = true) :
    (select setup row s).fired = (fireAdded setup row (selected setup row s)).fired := by
  rw [inRange_iff] at h
  unfold select
  rw [if_neg (by omega), if_neg (by omega)]
  simp only []
  split
  · rfl
  · rfl

theorem select_fired {row : ℤ} (h : inRange setup row = true) (hatomic : s.makeAtomic = false) :
    (select setup row s).fired = s.fired ++
      [⟨[⟨indexOf setup (select setup row s) row, indexOf setup (select setup row s) row + 1, []⟩],
        (select setup row s).selectedIndices.toList⟩] := by
  obtain ⟨hbits, hatomic', hfired⟩ := selected_spec setup row s
  have hbits' : (select setup row s).selectedIndices = (selected setup row s).selectedIndices := by
    rw [(select_inRange h).selectedIndices, hbits]
  rw [select_fired_eq h, fireAdded_fired (hatomic'.trans hatomic), hfired, indexOf_congr hbits',
    hbits']

theorem select_fired_of_atomic {row : ℤ} (hatomic : s.makeAtomic = true) :
    (select setup row s).fired = s.fired := by
  by_cases hrow : row = -1
  · rw [hrow, select, if_pos rfl]
    exact clearSelection_fired_of_atomic hatomic
  · by_cases hin : inRange setup row = true
    · obtain ⟨-, hatomic', hfired⟩ := selected_spec setup row s
      rw [select_fired_eq hin, fireAdded, if_pos (hatomic'.trans hatomic), hfired]
    · rw [select_outOfRange hrow (by simpa using hin)]

/-- A row that is an item must not be selected already. -/
def SelectFaithful (setup : SelectionSetup α) (s : MultipleSelectionModel α) (row : ℤ) : Prop :=
  if row = -1 then ClearFaithful s
  else inRange setup row = true → s.isSelected row = false

instance (row : ℤ) : Decidable (SelectFaithful setup s row) := by
  unfold SelectFaithful
  infer_instance

/-- The list with a row put in its place. -/
theorem replay_inserted (pre post : List ℕ) (row : ℕ) :
    (⟨pre.length, pre.length + 1, []⟩ : IndexChange).replay (rowEntries (pre ++ row :: post))
        (rowEntries (pre ++ post)) = some (rowEntries (pre ++ row :: post)) := by
  have hcast : ((pre.length : ℤ) + 1) = ((pre.length + 1 : ℕ) : ℤ) := by push_cast; rfl
  have htake : (pre ++ row :: post).take (pre.length + 1) = pre ++ [row] := by
    rw [List.take_append, List.take_of_length_le (by omega)]
    simp
  rw [hcast, replay_added _ _ (by omega) (by simp) (by simp), htake, List.drop_left, List.take_left,
    List.drop_left]
  rfl

omit [DecidableEq α] in
theorem bitsWith_inRange {bits : Ascending} {row : ℤ} (hrow : inRange setup row = true)
    (h : ∀ i ∈ bits, (i : ℤ) < getItemCount setup) :
    ∀ i ∈ bitsWith setup bits row, (i : ℤ) < getItemCount setup := by
  rw [inRange_iff] at hrow
  intro i hi
  rcases bitsWith_mem hi with rfl | hi
  · omega
  · exact h i hi

theorem select_replays_iff (hmode : setup.selectionMode = .multiple) (h : Bounded setup s)
    (row : ℤ) : Replays s (select setup row s) ↔ SelectFaithful setup s row := by
  unfold SelectFaithful
  split
  next hrow =>
    rw [hrow, select, if_pos rfl]
    exact clearSelection_replays_iff h
  next hrow =>
    by_cases hin : inRange setup row = true
    · have hbits : (select setup row s).selectedIndices = bitsWith setup s.selectedIndices row :=
        (select_inRange hin).selectedIndices
      have hrange := bitsWith_inRange hin h.inRange
      have hnonneg := (inRange_iff.mp hin).1
      obtain ⟨i, rfl⟩ : ∃ i : ℕ, row = i := ⟨row.toNat, by omega⟩
      rw [replays_of_fired _ (select_fired hin h.makeAtomic)]
      simp only [List.foldlM_cons, List.foldlM_nil, bind_pure, hin, forall_const]
      by_cases hmem : i ∈ s.selectedIndices
      · -- the row comes twice
        have hsame : bitsWith setup s.selectedIndices i = s.selectedIndices := by
          rw [bitsWith, if_pos (by simpa using hmem)]
        have hselected : s.isSelected i = true :=
          isSelected_iff.mpr ⟨by omega, by simpa using hmem⟩
        rw [hbits, hsame, hselected]
        refine iff_of_false ?_ (by simp)
        intro hsome
        have := (replay_eq_some hsome).2.2
        simp only [List.length_nil] at this
        omega
      · have hinsert : bitsWith setup s.selectedIndices i = s.selectedIndices.insert i := by
          rw [bitsWith, if_neg (by simpa using hmem), if_neg (by simp [hmode])]
          simp
        have hselected : s.isSelected i = false := by
          rw [Bool.eq_false_iff, Ne, isSelected_iff]
          simpa using hmem
        have hindex : indexOf setup (select setup i s) i =
            (s.selectedIndices.toList.filter (· < i)).length :=
          indexOf_eq (by rw [hbits, hinsert]; rfl) (by rw [hbits]; exact hrange)
        have hsplit := Ascending.toList_split hmem
        refine iff_of_true ?_ hselected
        rw [hindex, hbits, hinsert]
        have hreplay := replay_inserted (s.selectedIndices.toList.filter (· < i))
          (s.selectedIndices.toList.filter (i < ·)) i
        rw [← hsplit] at hreplay
        exact hreplay
    · rw [select_outOfRange hrow (by simpa using hin)]
      exact iff_of_true (replays_of_same rfl rfl) fun hin' => absurd hin' hin

/-! ## The other calls with one change -/

/-- Outside the items nothing stays selected, and the row has no position. -/
theorem clearAndSelect_replays_iff (h : Bounded setup s) (row : ℤ) :
    Replays s (clearAndSelect setup row s) ↔ inRange setup row = true := by
  unfold clearAndSelect
  split
  next honly =>
    obtain ⟨-, hselected⟩ := honly
    obtain ⟨hpos, hmem⟩ := isSelected_iff.mp hselected
    have := h.inRange _ hmem
    exact iff_of_true (replays_of_same rfl rfl) (inRange_iff.mpr ⟨hpos, by omega⟩)
  next =>
    simp only []
    have hclear := clearSelection_becomes (s := s.setMakeAtomic true) h.focus
    have hfired : (clearSelection setup (s.setMakeAtomic true)).fired = s.fired :=
      clearSelection_fired_of_atomic (s := s.setMakeAtomic true) rfl
    generalize hcleared : clearSelection setup (s.setMakeAtomic true) = cleared at *
    have hatomic : cleared.makeAtomic = true := hclear.makeAtomic
    have hfired' : (select setup row cleared).fired = s.fired := by
      rw [select_fired_of_atomic hatomic, hfired]
    have hprevious : entries setup (s.setMakeAtomic true).selectedIndices =
        rowEntries s.selectedIndices.toList := entries_eq h.inRange
    rw [hprevious]
    by_cases hin : inRange setup row = true
    · -- one row at position 0, in the place of all rows of before
      have hnonneg := (inRange_iff.mp hin).1
      obtain ⟨i, rfl⟩ : ∃ i : ℕ, row = i := ⟨row.toNat, by omega⟩
      have hbits : ((select setup i cleared).setMakeAtomic false).selectedIndices.toList = [i] := by
        have : (select setup i cleared).selectedIndices.toList = [i] := by
          rw [(select_inRange hin).selectedIndices, hclear.selectedIndices, bitsWith]
          simp [Ascending.empty, Ascending.insert, ← Ascending.mem_toList]
        exact this
      have hindex : indexOf setup ((select setup i cleared).setMakeAtomic false) (i : ℤ) = 0 := by
        refine indexOf_eq (show _ = [] ++ i :: [] from hbits) ?_
        intro j hj
        rw [← Ascending.mem_toList, hbits, List.mem_singleton] at hj
        rw [hj]
        exact (inRange_iff.mp hin).2
      refine iff_of_true ?_ hin
      rw [replays_of_fired [⟨0, 1, rowEntries s.selectedIndices.toList⟩]]
      · simp only [callObservers, hbits, List.foldlM_cons, List.foldlM_nil, bind_pure]
        rw [IndexChange.replay, if_pos ⟨le_refl _, by simp, by simp, by simp, by simp⟩]
        simp [rowEntries]
      · simp only [hindex, callObservers]
        rw [show ((select setup i cleared).setMakeAtomic false).fired = s.fired from hfired']
        rfl
    · have hbits : (select setup row cleared).selectedIndices = .empty := by
        by_cases hrow : row = -1
        · rw [hrow, select, if_pos rfl]
          exact (clearSelection_becomes hclear.focus).selectedIndices
        · rw [select_outOfRange hrow (by simpa using hin)]
          exact hclear.selectedIndices
      have hindex : indexOf setup ((select setup row cleared).setMakeAtomic false) row = -1 := by
        refine indexOf_of_not_mem ?_ ?_
        · rw [Bool.eq_false_iff, Ne, isSelected_iff]
          rintro ⟨-, hmem⟩
          exact Ascending.not_mem_empty row.toNat (hbits ▸ hmem)
        · intro j hj
          exact absurd (hbits ▸ hj) (Ascending.not_mem_empty j)
      refine iff_of_false ?_ hin
      rw [replays_of_fired [⟨-1, -1 + 1, rowEntries s.selectedIndices.toList⟩]]
      · intro hsome
        simp only [List.foldlM_cons, List.foldlM_nil, bind_pure] at hsome
        exact absurd (replay_eq_some hsome).1 (by simp)
      · simp only [hindex, callObservers]
        rw [show ((select setup row cleared).setMakeAtomic false).fired = s.fired from hfired']

/-- The item is looked up first, and a row that is selected is left alone. -/
theorem selectFrom_replays (hmode : setup.selectionMode = .multiple) (h : Bounded setup s)
    (obj : Option α) {i : ℕ} {rest : List (Option α)}
    (hlength : i + rest.length = setup.items.length) :
    Replays s (selectFrom setup obj s i rest) := by
  induction rest generalizing i with
  | nil => exact replays_of_same rfl rfl
  | cons rowObj rest ih =>
      rw [selectFrom]
      split
      next =>
        split
        next => exact replays_of_same rfl rfl
        next hnot =>
          simp only [hmode, reduceCtorEq, if_false]
          rw [select_replays_iff hmode h, SelectFaithful, if_neg (by omega)]
          exact fun _ => by simpa using hnot
      next =>
        refine ih ?_
        rw [List.length_cons] at hlength
        omega

theorem selectItem_replays (hmode : setup.selectionMode = .multiple) (h : Bounded setup s)
    (obj : Option α) : Replays s (selectItem setup obj s) := by
  unfold selectItem
  rw [if_neg (by simp [hmode])]
  exact selectFrom_replays hmode h obj (by simp)

omit [DecidableEq α] in
/-- The bit is gone before anything is fired. -/
theorem clearSelectionAt_eq (h : FocusInRange setup s) {index : ℤ} (hpos : ¬ index < 0) :
    ∃ erased : MultipleSelectionModel α, FocusInRange setup erased ∧
      erased.makeAtomic = s.makeAtomic ∧ erased.fired = s.fired ∧
      erased.selectedIndices = s.selectedIndices.erase index.toNat ∧
      clearSelectionAt setup index s = erased.callObservers [⟨index, index + 1, [index]⟩] := by
  unfold clearSelectionAt
  rw [if_neg hpos]
  simp only []
  split
  next hempty =>
    have hempty' := MultipleSelectionModel.isEmpty_iff.mp (Bool.and_eq_true_iff.mp hempty).2
    have hbecomes := clearSelection_becomes (s := { s with
      selectedIndices := s.selectedIndices.erase index.toNat }) h
    refine ⟨_, hbecomes.focus, hbecomes.makeAtomic, ?_, ?_, rfl⟩
    · exact clearSelection_fired_of_empty hempty'
    · rw [hbecomes.selectedIndices]
      exact hempty'.symm
  next => exact ⟨{ s with selectedIndices := s.selectedIndices.erase index.toNat }, h, rfl, rfl,
      rfl, rfl⟩

omit [DecidableEq α] in
/-- A row number in the place of a position, and a row that is put back. -/
theorem clearSelectionAt_replays_iff (h : Bounded setup s) (index : ℤ) :
    Replays s (clearSelectionAt setup index s) ↔ index < 0 := by
  by_cases hneg : index < 0
  · refine iff_of_true (replays_of_same ?_ ?_) hneg
    · rw [clearSelectionAt, if_pos hneg]
    · rw [clearSelectionAt, if_pos hneg]
  · refine iff_of_false ?_ hneg
    obtain ⟨erased, -, -, hfired, hbits, heq⟩ := clearSelectionAt_eq h.focus hneg
    rw [heq, replays_of_fired [⟨index, index + 1, [index]⟩]]
    · simp only [callObservers, List.foldlM_cons, List.foldlM_nil, bind_pure]
      intro hsome
      obtain ⟨-, hpre, hlength⟩ := replay_eq_some hsome
      -- the row was selected, so one is missing, and the change puts as many in as it takes out
      have hmem : index ∈ rowEntries s.selectedIndices.toList :=
        List.mem_of_mem_drop (hpre.subset List.mem_cons_self)
      obtain ⟨i, hi, rfl⟩ := List.mem_map.mp hmem
      have hshorter : erased.selectedIndices.toList.length < s.selectedIndices.toList.length := by
        rw [hbits]
        refine List.length_filter_lt_length_iff_exists.mpr ⟨i, hi, ?_⟩
        simp
      simp only [rowEntries_length, List.length_cons, List.length_nil] at hlength
      omega
    · simp [callObservers, hfired]

omit [DecidableEq α] in
/-- All rows are reported as added: right when none was selected. -/
theorem selectAll_replays_iff (hmode : setup.selectionMode = .multiple) (h : Bounded setup s) :
    Replays s (selectAll setup s) ↔ s.selectedIndices = .empty := by
  have hcount : (0 : ℤ) ≤ getItemCount setup := by simp [getItemCount]
  unfold selectAll
  rw [if_neg (by simp [hmode])]
  simp only []
  split
  next hnone =>
    have hempty : s.selectedIndices = .empty := by
      rw [Ascending.eq_empty_iff]
      intro i hi
      have := h.inRange i hi
      omega
    exact iff_of_true (replays_of_same rfl hempty.symm) hempty
  next hsome =>
    set n := (getItemCount setup).toNat with hn
    set all : MultipleSelectionModel α := MultipleSelectionModel.callObservers
      [⟨0, getItemCount setup, []⟩] { s.quietClearSelection with selectedIndices := .below n }
      with hall
    have hdone : ∀ index, Replays s (focus setup index (setSelectedIndex setup index all)) ↔
        s.selectedIndices = .empty := by
      intro index
      have hbits : (focus setup index (setSelectedIndex setup index all)).selectedIndices =
          .below n := by simp [hall, callObservers]
      rw [replays_of_fired [⟨0, getItemCount setup, []⟩]]
      · have hto : getItemCount setup = (n : ℤ) := by omega
        have hreplay := replay_added (a := 0) (b := n) (List.range n)
          s.selectedIndices.toList (by omega) (by simp) (by omega)
        rw [hbits, hto]
        simp only [List.foldlM_cons, List.foldlM_nil, bind_pure, Ascending.below]
        rw [show (0 : ℤ) = ((0 : ℕ) : ℤ) from rfl, hreplay, Option.some_inj,
          ← Ascending.toList_eq_nil_iff]
        constructor
        · intro heq
          simpa using congrArg List.length (rowEntries_injective heq)
        · intro hnil
          simp [hnil]
      · rw [hbits]
        simp [hall, callObservers, quietClearSelection]
    split
    · exact hdone _
    · exact hdone _

end JavaFx.Control
