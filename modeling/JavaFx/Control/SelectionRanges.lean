import JavaFx.Control.SelectionReplay

/-!
# The change of `selectIndices`

`createRangeChange` counts positions in the list of the rows that became selected, in the order
of the call, and cuts that list where the rows are not consecutive. Its last step is lost unless
it is the first one, so the copy is right only when one step does it all and the new rows stand
before the old ones.
-/

namespace JavaFx.Control

open MultipleSelectionModel

/-! ## Runs of consecutive rows -/

theorem le_runEnd (v : ℤ) (rest : List ℤ) (pos : ℕ) : pos ≤ runEnd v rest pos := by
  induction rest generalizing v pos with
  | nil => exact le_refl _
  | cons e rest ih =>
      rw [runEnd]
      split
      · omega
      · have := ih e (pos + 1)
        omega

theorem runEnd_le (v : ℤ) (rest : List ℤ) (pos : ℕ) :
    runEnd v rest pos ≤ pos + rest.length := by
  induction rest generalizing v pos with
  | nil => exact le_refl _
  | cons e rest ih =>
      rw [runEnd, List.length_cons]
      split
      · omega
      · have := ih e (pos + 1)
        omega

/-- One step takes all rows when the rows but the last are consecutive. -/
theorem runEnd_eq_iff (v : ℤ) (rest : List ℤ) (pos : ℕ) :
    runEnd v rest pos = pos + rest.length ↔
      (v :: rest).dropLast.IsChain (fun a b => b = a + 1) := by
  induction rest generalizing v pos with
  | nil => simp [runEnd]
  | cons e rest ih =>
      rw [runEnd, List.length_cons]
      split
      next hgap =>
        cases rest with
        | nil => simp
        | cons x rest =>
            refine iff_of_false (by simp only [List.length_cons]; omega) ?_
            rw [List.dropLast_cons_cons, List.dropLast_cons_cons, List.isChain_cons_cons]
            rintro ⟨heq, -⟩
            omega
      next hstep =>
        have hstep' : e = v + 1 := by omega
        have hpos : pos + (rest.length + 1) = pos + 1 + rest.length := by omega
        rw [hpos, ih e (pos + 1), List.dropLast_cons_cons]
        cases rest with
        | nil => simp
        | cons x rest =>
            rw [List.dropLast_cons_cons, List.isChain_cons_cons]
            exact ⟨fun h => ⟨hstep', h⟩, fun h => h.2⟩

/-! ## The steps, replayed -/

variable {rows : List ℕ} (copy : List ℕ) {added : List ℤ}

/-- What a listener has when the steps took the first `p` rows of the list. -/
def replayedTo (rows copy : List ℕ) (p : ℕ) : List ℤ := rowEntries (rows.take p ++ copy)

theorem replay_step {p q : ℕ} (hpq : p ≤ q) (hq : q ≤ rows.length) :
    (⟨p, q, []⟩ : IndexChange).replay (rowEntries rows) (replayedTo rows copy p) =
      some (replayedTo rows copy q) := by
  have hlength : (rows.take p).length = p := by
    rw [List.length_take]
    omega
  rw [replayedTo, replay_added _ _ hpq hq (by rw [List.length_append, hlength]; omega)]
  have htake : (rows.take p ++ copy).take p = rows.take p := List.take_left' hlength
  have hdrop : (rows.take p ++ copy).drop p = copy := List.drop_left' hlength
  have hcut : rows.take p ++ (rows.take q).drop p = rows.take q := by
    have := List.take_append_drop p (rows.take q)
    rwa [List.take_take, min_eq_left hpq] at this
  rw [htake, hdrop, ← List.append_assoc, hcut, replayedTo]

/-- Behind the first step a step is only reported while rows are left, so the last is not. -/
theorem rangeSteps_replay (hadded : added.length ≤ rows.length) (fuel : ℕ) {p : ℕ}
    (hp : p < added.length) :
    ∃ q < added.length,
      (rangeSteps added fuel ⟨p, false⟩).foldlM (fun copy c => c.replay (rowEntries rows) copy)
        (replayedTo rows copy p) = some (replayedTo rows copy q) := by
  induction fuel generalizing p with
  | zero => exact ⟨p, hp, rfl⟩
  | succ fuel ih =>
      rw [rangeSteps]
      cases hdrop : added.drop p with
      | nil => exact ⟨p, hp, rfl⟩
      | cons v rest =>
          simp only [Bool.false_eq_true, false_or]
          split
          next hmore =>
            obtain ⟨q, hq, hrest⟩ := ih hmore
            have hle := le_runEnd v rest (p + 1)
            refine ⟨q, hq, ?_⟩
            rw [List.foldlM_cons, replay_step copy (by omega) (by omega)]
            exact hrest
          next => exact ⟨p, hp, rfl⟩

/-- **The range change, replayed.** It takes all rows when one step does, and too few
otherwise. -/
theorem createRangeChange_replay (hadded : added.length ≤ rows.length) :
    ∃ q ≤ added.length, (q = added.length ↔ added.dropLast.IsChain (fun a b => b = a + 1)) ∧
      (createRangeChange added).foldlM (fun copy c => c.replay (rowEntries rows) copy)
        (rowEntries copy) = some (replayedTo rows copy q) := by
  have hstart : rowEntries copy = replayedTo rows copy 0 := by simp [replayedTo]
  rw [hstart, createRangeChange]
  cases added with
  | nil => exact ⟨0, le_refl _, by simp, rfl⟩
  | cons v rest =>
      have hle := le_runEnd v rest 1
      have hend := runEnd_le v rest 1
      have hiff := runEnd_eq_iff v rest 1
      have hlength : (v :: rest).length = 1 + rest.length := by simp [Nat.add_comm]
      rw [rangeSteps]
      simp only [List.drop_zero, true_or, if_true, Nat.zero_add, List.foldlM_cons]
      have hfirst : (⟨(0 : ℕ), runEnd v rest 1, []⟩ : IndexChange).replay (rowEntries rows)
          (replayedTo rows copy 0) = some (replayedTo rows copy (runEnd v rest 1)) :=
        replay_step copy (by omega) (by omega)
      rw [show ((0 : ℕ) : ℤ) = 0 from rfl] at hfirst ⊢
      rw [hfirst, Option.bind_eq_bind, Option.bind_some]
      by_cases hall : runEnd v rest 1 = (v :: rest).length
      · refine ⟨runEnd v rest 1, by omega, ?_, ?_⟩
        · rw [← hiff, hlength]
        · -- nothing is left for a second step
          have hnil : (v :: rest).drop (runEnd v rest 1) = [] :=
            List.drop_eq_nil_of_le (by omega)
          cases hfuel : (v :: rest).length with
          | zero => rfl
          | succ fuel =>
              rw [rangeSteps]
              simp only [hnil]
              rfl
      · obtain ⟨q, hq, hrest⟩ := rangeSteps_replay copy hadded (v :: rest).length
          (p := runEnd v rest 1) (by omega)
        refine ⟨q, by omega, ?_, hrest⟩
        rw [← hiff, ← hlength]
        exact iff_of_false (by omega) hall

/-! ## The rows that become selected -/

variable {α : Type} [DecidableEq α] {setup : SelectionSetup α} {s : MultipleSelectionModel α}

/-- The rows of a call that are items and not selected, each once, in the order of the call. -/
def freshRows (setup : SelectionSetup α) (bits : Ascending) : List ℤ → List ℤ
  | [] => []
  | row :: rows =>
    if inRange setup row = true ∧ row.toNat ∉ bits then
      row :: freshRows setup (bits.insert row.toNat) rows
    else freshRows setup bits rows

/-- What the walk over the rows leaves: the bit set grows by the fresh rows. -/
structure Walked (setup : SelectionSetup α) (s : MultipleSelectionModel α) (rows : List ℤ)
    (w : RowWalk α) : Prop where
  mem : ∀ i : ℕ, i ∈ w.model.selectedIndices ↔
    i ∈ s.selectedIndices ∨ (i : ℤ) ∈ freshRows setup s.selectedIndices rows
  length : w.model.selectedIndices.toList.length =
    (freshRows setup s.selectedIndices rows).length + s.selectedIndices.toList.length
  fired : w.model.fired = s.fired
  focusedIndex : w.model.focusedIndex = s.focusedIndex
  makeAtomic : w.model.makeAtomic = s.makeAtomic

omit [DecidableEq α] in
theorem freshRows_mem {bits : Ascending} {rows : List ℤ} {row : ℤ}
    (h : row ∈ freshRows setup bits rows) : inRange setup row = true ∧ row.toNat ∉ bits := by
  induction rows generalizing bits with
  | nil => cases h
  | cons r rows ih =>
      rw [freshRows] at h
      split at h
      next hfresh =>
        rcases List.mem_cons.mp h with rfl | h
        · exact hfresh
        · obtain ⟨hin, hnot⟩ := ih h
          exact ⟨hin, fun hmem => hnot (Ascending.mem_insert.mpr (Or.inr hmem))⟩
      next => exact ih h

omit [DecidableEq α] in
/-- The walk collects the fresh rows. -/
theorem foldl_visit (setup : SelectionSetup α) (rows : List ℤ) (w : RowWalk α) :
    Walked setup w.model rows (rows.foldl (RowWalk.visit setup) w) ∧
      (rows.foldl (RowWalk.visit setup) w).actualSelectedRows =
        w.actualSelectedRows ++ freshRows setup w.model.selectedIndices rows := by
  induction rows generalizing w with
  | nil =>
      refine ⟨⟨fun i => by simp [freshRows], ?_, rfl, rfl, rfl⟩, by simp [freshRows]⟩
      simp [freshRows]
  | cons row rows ih =>
      rw [List.foldl_cons, freshRows]
      obtain ⟨hwalk, hrows⟩ := ih (RowWalk.visit setup w row)
      by_cases hin : inRange setup row = true
      · by_cases hmem : row.toNat ∈ w.model.selectedIndices
        · have hvisit : RowWalk.visit setup w row = { w with lastIndex := row } := by
            rw [RowWalk.visit, if_pos hin, if_pos hmem]
          rw [hvisit] at hwalk hrows ⊢
          have hold : freshRows setup w.model.selectedIndices (row :: rows) =
              freshRows setup w.model.selectedIndices rows := by
            rw [freshRows, if_neg fun h => h.2 hmem]
          rw [if_neg fun h => h.2 hmem]
          exact ⟨⟨by rw [hold]; exact hwalk.mem, by rw [hold]; exact hwalk.length, hwalk.fired,
            hwalk.focusedIndex, hwalk.makeAtomic⟩, hrows⟩
        · have hvisit : RowWalk.visit setup w row =
              ⟨w.model.setBit row, w.actualSelectedRows ++ [row], row⟩ := by
            rw [RowWalk.visit, if_pos hin, if_neg hmem]
          rw [hvisit] at hwalk hrows ⊢
          have hnew : freshRows setup w.model.selectedIndices (row :: rows) =
              row :: freshRows setup (w.model.selectedIndices.insert row.toNat) rows := by
            rw [freshRows, if_pos ⟨hin, hmem⟩]
          rw [if_pos ⟨hin, hmem⟩]
          refine ⟨⟨?_, ?_, hwalk.fired, hwalk.focusedIndex, hwalk.makeAtomic⟩, ?_⟩
          · intro i
            have hrow : (i : ℤ) = row ↔ i = row.toNat := by
              have := (inRange_iff.mp hin).1
              omega
            rw [hwalk.mem i, hnew, List.mem_cons, hrow]
            simp only [setBit, Ascending.mem_insert]
            tauto
          · have hbits : (w.model.setBit row).selectedIndices =
                w.model.selectedIndices.insert row.toNat := rfl
            rw [hwalk.length, hbits, Ascending.length_insert hmem, hnew, List.length_cons]
            omega
          · rw [hrows]
            simp [setBit]
      · have hvisit : RowWalk.visit setup w row = w := by rw [RowWalk.visit, if_neg hin]
        rw [hvisit] at hwalk hrows ⊢
        have hold : freshRows setup w.model.selectedIndices (row :: rows) =
            freshRows setup w.model.selectedIndices rows := by
          rw [freshRows, if_neg fun h => hin h.1]
        rw [if_neg fun h => hin h.1]
        exact ⟨⟨by rw [hold]; exact hwalk.mem, by rw [hold]; exact hwalk.length, hwalk.fired,
          hwalk.focusedIndex, hwalk.makeAtomic⟩, hrows⟩

/-! ## `selectIndices` -/

/-- The rows but the last are consecutive, and they are all before the selected ones. -/
def RangeFaithful (setup : SelectionSetup α) (s : MultipleSelectionModel α) (rows : List ℤ) :
    Prop :=
  (freshRows setup s.selectedIndices rows).dropLast.IsChain (fun a b => b = a + 1) ∧
    ∀ row ∈ freshRows setup s.selectedIndices rows, ∀ i ∈ s.selectedIndices, row < (i : ℤ)

/-- The multiple selection: a walk over the rows, and one change. -/
theorem selectIndices_walk (hmode : setup.selectionMode = .multiple)
    (h : FocusInRange setup s) (row : ℤ) (rows : List ℤ) :
    ∃ walked : MultipleSelectionModel α, FocusInRange setup walked ∧
      walked.makeAtomic = s.makeAtomic ∧ walked.fired = s.fired ∧
      (∀ i : ℕ, i ∈ walked.selectedIndices ↔ i ∈ s.selectedIndices ∨
        (i : ℤ) ∈ freshRows setup s.selectedIndices (row :: rows)) ∧
      walked.selectedIndices.toList.length =
        (freshRows setup s.selectedIndices (row :: rows)).length +
          s.selectedIndices.toList.length ∧
      selectIndices setup row (some rows) s = walked.callObservers
        (createRangeChange (freshRows setup s.selectedIndices (row :: rows))) := by
  obtain ⟨hwalk, hrows⟩ := foldl_visit setup (row :: rows) ⟨s, [], -1⟩
  rw [List.nil_append] at hrows
  have hfocus : FocusInRange setup
      ((row :: rows).foldl (RowWalk.visit setup) ⟨s, [], -1⟩).model := by
    rw [FocusInRange, hwalk.focusedIndex]
    exact h
  simp only [selectIndices, hmode, reduceCtorEq, if_false]
  generalize (row :: rows).foldl (RowWalk.visit setup) ⟨s, [], -1⟩ = w at *
  rw [← hrows]
  split
  · refine ⟨_, ?_, ?_, ?_, ?_, ?_, rfl⟩
    · exact focusInRange_focus (s := setSelectedIndex setup w.lastIndex w.model) _
    · exact (setSelectedIndex_makeAtomic w.lastIndex).trans hwalk.makeAtomic
    · exact (setSelectedIndex_fired w.lastIndex).trans hwalk.fired
    · intro i
      rw [hrows, ← hwalk.mem i]
      simp [setSelectedItem]
    · rw [hrows, ← hwalk.length]
      simp [setSelectedItem]
  · exact ⟨w.model, hfocus, hwalk.makeAtomic, hwalk.fired, by rw [hrows]; exact hwalk.mem,
      by rw [hrows]; exact hwalk.length, rfl⟩

theorem selectIndices_replays_iff (hmode : setup.selectionMode = .multiple) (h : Bounded setup s)
    (row : ℤ) (rows : List ℤ) :
    Replays s (selectIndices setup row (some rows) s) ↔ RangeFaithful setup s (row :: rows) := by
  obtain ⟨walked, -, -, hfired, hmem, hlength, heq⟩ := selectIndices_walk hmode h.focus row rows
  set fresh := freshRows setup s.selectedIndices (row :: rows) with hfresh
  have hobserved : (walked.callObservers (createRangeChange fresh)).selectedIndices =
      walked.selectedIndices := rfl
  rw [heq, replays_of_fired (createRangeChange fresh) (by simp [callObservers, hfired]), hobserved]
  obtain ⟨q, hle, hq, hreplay⟩ := createRangeChange_replay s.selectedIndices.toList
    (show fresh.length ≤ walked.selectedIndices.toList.length by omega)
  rw [hreplay, Option.some_inj, replayedTo]
  -- the copy is as long as the list only when all rows were taken
  have hcopy : walked.selectedIndices.toList.take q ++ s.selectedIndices.toList =
      walked.selectedIndices.toList ↔ q = fresh.length ∧
        walked.selectedIndices.toList.drop fresh.length = s.selectedIndices.toList := by
    constructor
    · intro hsame
      have hlen := congrArg List.length hsame
      rw [List.length_append, List.length_take] at hlen
      have hall : q = fresh.length := by omega
      refine ⟨hall, ?_⟩
      rw [← hall]
      conv_lhs => rw [← hsame]
      exact List.drop_left' (by rw [List.length_take]; omega)
    · rintro ⟨rfl, hdrop⟩
      rw [← hdrop]
      exact List.take_append_drop _ _
  have hbefore : (∀ i ∈ walked.selectedIndices, i ∉ s.selectedIndices →
      ∀ j ∈ s.selectedIndices, i < j) ↔ ∀ r ∈ fresh, ∀ i ∈ s.selectedIndices, r < (i : ℤ) := by
    constructor
    · intro hall r hr i hi
      obtain ⟨hin, hnot⟩ := freshRows_mem hr
      obtain ⟨j, rfl⟩ : ∃ j : ℕ, r = j := ⟨r.toNat, by have := (inRange_iff.mp hin).1; omega⟩
      have := hall j ((hmem j).mpr (Or.inr hr)) (by simpa using hnot) i hi
      omega
    · intro hall i hi hnot j hj
      have := hall i (((hmem i).mp hi).resolve_left hnot) j hj
      omega
  have hsub : ∀ i ∈ s.selectedIndices, i ∈ walked.selectedIndices :=
    fun i hi => (hmem i).mpr (Or.inl hi)
  rw [RangeFaithful, ← hfresh, ← hq, ← hbefore, ← Ascending.drop_eq_iff hsub hlength.symm, ← hcopy]
  exact ⟨rowEntries_injective, congrArg rowEntries⟩

end JavaFx.Control
