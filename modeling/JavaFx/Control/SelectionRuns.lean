import Mathlib.Data.List.Induction
import JavaFx.Control.SelectionInvariant

/-!
# Runs of a selection model

One call keeps the selection valid exactly when it is `Sound` in the state it finds; so does a
run when all its calls are.
-/

namespace JavaFx.Control

open MultipleSelectionModel

variable {α : Type} [DecidableEq α] {setup : SelectionSetup α} {s : MultipleSelectionModel α}

namespace SelectionOp

/-- The calls that find something to select when they have cleared the bit set, or leave the
bit of the selected index alone. -/
def Sound (setup : SelectionSetup α) (s : MultipleSelectionModel α) : SelectionOp α → Prop
  | .clearAndSelect row => inRange setup row = true ∨ s.selectedIndex < 0
  | .selectIndices row (some rows) =>
    setup.selectionMode = .multiple ∨ (∃ r ∈ rows, inRange setup r = true) ∨
      (0 < row ∧ row < getItemCount setup) ∨ s.selectedIndex < 0
  | .selectLast =>
    setup.selectionMode = .multiple ∨ getItemCount setup = 0 ∨
      s.selectedIndex < getItemCount setup - 1
  | .selectNext =>
    setup.selectionMode = .multiple ∨ getFocusedIndex setup s ≠ getItemCount setup - 1 ∨
      s.selectedIndices = .empty
  | .selectPrevious =>
    setup.selectionMode = .multiple ∨ getFocusedIndex setup s ≠ 0 ∨ s.selectedIndices = .empty
  | .clearSelectionAt index =>
    index < 0 ∨ index ≠ s.selectedIndex ∨ s.selectedIndices.toList = [index.toNat]
  | _ => True

/-- In the single mode `selectNext`, `selectPrevious` and `selectLast` do not lose the
selection. -/
def KeepsOne (setup : SelectionSetup α) (op : SelectionOp α) (s s' : MultipleSelectionModel α) :
    Prop :=
  match op with
  | .selectNext | .selectPrevious | .selectLast =>
    setup.selectionMode = .single → s.selectedIndices ≠ .empty → s'.selectedIndices ≠ .empty
  | _ => True

omit [DecidableEq α] in
theorem mode_eq (h : setup.selectionMode ≠ .multiple) : setup.selectionMode = .single := by
  cases hmode : setup.selectionMode with
  | single => rfl
  | multiple => exact absurd hmode h

theorem selectPrevious_loses (hsound : ¬ (SelectionOp.selectPrevious : SelectionOp α).Sound setup s) :
    ¬ (SelectionOp.selectPrevious : SelectionOp α).KeepsOne setup s
      (MultipleSelectionModel.selectPrevious setup s) := by
  simp only [Sound, not_or, not_not] at hsound
  obtain ⟨hmode, hfocus, hne⟩ := hsound
  intro hkeeps
  refine hkeeps (mode_eq hmode) hne ?_
  unfold MultipleSelectionModel.selectPrevious
  simp only [hfocus]
  rw [if_neg (by omega), if_neg (by omega), clearIfSingle, if_pos (mode_eq hmode)]
  rfl

omit [DecidableEq α] in
theorem selectedIndices_ne_empty (h : Settled setup s) (hindex : 0 ≤ s.selectedIndex) :
    s.selectedIndices ≠ .empty := by
  intro hempty
  have hselected := (isSelected_iff.mp (h.selected hindex)).2
  rw [hempty] at hselected
  exact Ascending.not_mem_empty _ hselected

omit [DecidableEq α] in
theorem selectedIndex_neg_of_empty (h : Settled setup s) (hempty : s.selectedIndices = .empty) :
    s.selectedIndex < 0 := by
  by_contra hpos
  exact selectedIndices_ne_empty h (by omega) hempty

omit [DecidableEq α] in
theorem selectedIndices_eq_empty (h : Settled setup s) (hcount : getItemCount setup ≤ 0) :
    s.selectedIndices = .empty := by
  rw [Ascending.eq_empty_iff]
  intro i hi
  have := h.inRange i hi
  omega

theorem select_ne_empty {row : ℤ} (hrow : inRange setup row = true) :
    (MultipleSelectionModel.select setup row s).selectedIndices ≠ .empty := by
  intro hempty
  have := select_not_isEmpty (s := s) hrow
  rw [isEmpty_iff.mpr hempty] at this
  cases this

/-! ## Calls that are sound -/

theorem selectItem_settled (h : Settled setup s) (obj : Option α) :
    Settled setup (MultipleSelectionModel.selectItem setup obj s) := by
  have hloop : ∀ (rest : List (Option α)) (i : ℕ),
      (i : ℤ) + rest.length = getItemCount setup →
      Settled setup (selectFrom setup obj s i rest) := by
    intro rest
    induction rest with
    | nil =>
        intro i _
        exact ⟨⟨h.inRange, h.single, h.selected⟩, h.focus, h.makeAtomic⟩
    | cons rowObj rest ih =>
        intro i hi
        rw [List.length_cons] at hi
        unfold selectFrom
        split
        · split
          · exact h
          · exact settled_select_clearIfSingle h (inRange_iff.mpr ⟨by omega, by omega⟩)
        · exact ih (i + 1) (by push_cast at hi ⊢; omega)
  unfold MultipleSelectionModel.selectItem
  split
  · exact h.clearSelection
  · exact hloop setup.items 0 (by simp [getItemCount])

theorem selectFirst_settled (h : Settled setup s) :
    Settled setup (MultipleSelectionModel.selectFirst setup s) := by
  unfold MultipleSelectionModel.selectFirst
  simp only []
  split
  next hcount => exact settled_select_clearIfSingle h (inRange_iff.mpr ⟨le_refl 0, hcount⟩)
  next hcount => exact settled_clearIfSingle h fun _ => h.selectedIndex_neg (by omega)

omit [DecidableEq α] in
theorem clearIfSingle_selectedIndex :
    (clearIfSingle setup s).selectedIndex = s.selectedIndex := by
  unfold clearIfSingle
  split <;> rfl

theorem selectLast_settled (h : Settled setup s)
    (hsound : (SelectionOp.selectLast : SelectionOp α).Sound setup s) :
    Settled setup (MultipleSelectionModel.selectLast setup s) ∧
      (SelectionOp.selectLast : SelectionOp α).KeepsOne setup s
        (MultipleSelectionModel.selectLast setup s) := by
  unfold MultipleSelectionModel.selectLast
  simp only [clearIfSingle_selectedIndex]
  split
  next hguard =>
    have hin : inRange setup (getItemCount setup - 1) = true :=
      inRange_iff.mpr ⟨by omega, by omega⟩
    exact ⟨settled_select_clearIfSingle h hin, fun _ _ => select_ne_empty hin⟩
  next hguard =>
    have hcount : (0 : ℤ) ≤ getItemCount setup := by simp [getItemCount]
    rcases hsound with hmode | hzero | hlt
    · have hclear : clearIfSingle setup s = s := by simp [clearIfSingle, hmode]
      rw [hclear]
      refine ⟨h, fun hsingle => ?_⟩
      rw [hmode] at hsingle
      cases hsingle
    · exact ⟨settled_clearIfSingle h fun _ => h.selectedIndex_neg (by omega),
        fun _ hne => absurd (selectedIndices_eq_empty h (by omega)) hne⟩
    · have hneg : s.selectedIndex < 0 := by
        by_contra hpos
        exact hguard ⟨by omega, hlt⟩
      exact ⟨settled_clearIfSingle h fun _ => hneg,
        fun _ hne => absurd (selectedIndices_eq_empty h (by omega)) hne⟩

omit [DecidableEq α] in
theorem getFocusedIndex_mem (h : Settled setup s) :
    getFocusedIndex setup s = -1 ∨ inRange setup (getFocusedIndex setup s) = true := by
  obtain ⟨hlow, hhigh⟩ := h.focus
  unfold getFocusedIndex
  split
  · rw [inRange_iff]
    omega
  · exact Or.inl rfl

omit [DecidableEq α] in
/-- At the end of the rows nothing is selected, and in the single mode all is cleared. -/
theorem clearIfSingle_keeps (h : Settled setup s)
    (hsound : setup.selectionMode = .multiple ∨ s.selectedIndices = .empty) :
    Settled setup (clearIfSingle setup s) ∧ (setup.selectionMode = .single →
      s.selectedIndices ≠ .empty → (clearIfSingle setup s).selectedIndices ≠ .empty) := by
  rcases hsound with hmode | hempty
  · have hclear : clearIfSingle setup s = s := by simp [clearIfSingle, hmode]
    rw [hclear]
    exact ⟨h, fun _ => id⟩
  · exact ⟨settled_clearIfSingle h fun _ => selectedIndex_neg_of_empty h hempty,
      fun _ hne => absurd hempty hne⟩

theorem selectPrevious_settled (h : Settled setup s)
    (hsound : (SelectionOp.selectPrevious : SelectionOp α).Sound setup s) :
    Settled setup (MultipleSelectionModel.selectPrevious setup s) ∧
      (SelectionOp.selectPrevious : SelectionOp α).KeepsOne setup s
        (MultipleSelectionModel.selectPrevious setup s) := by
  unfold MultipleSelectionModel.selectPrevious
  simp only []
  have hfocused := getFocusedIndex_mem h
  rw [inRange_iff] at hfocused
  split
  next hnone =>
    by_cases hcount : getItemCount setup ≤ 0
    · -- without items row -1 is asked for, which clears
      have hzero : getItemCount setup = 0 := by
        have : (0 : ℤ) ≤ getItemCount setup := by simp [getItemCount]
        omega
      have hsettled : Settled setup (clearIfSingle setup s) :=
        settled_clearIfSingle h fun _ => h.selectedIndex_neg hcount
      exact ⟨hsettled.select _, fun _ hne => absurd (selectedIndices_eq_empty h hcount) hne⟩
    · have hin : inRange setup (getItemCount setup - 1) = true :=
        inRange_iff.mpr ⟨by omega, by omega⟩
      exact ⟨settled_select_clearIfSingle h hin, fun _ _ => select_ne_empty hin⟩
  next hsome =>
    split
    next hpos =>
      have hin : inRange setup (getFocusedIndex setup s - 1) = true :=
        inRange_iff.mpr ⟨by omega, by omega⟩
      exact ⟨settled_select_clearIfSingle h hin, fun _ _ => select_ne_empty hin⟩
    next hzero =>
      refine clearIfSingle_keeps h (hsound.imp_right fun hfirst => hfirst.resolve_left ?_)
      omega

theorem selectNext_settled (h : Settled setup s)
    (hsound : (SelectionOp.selectNext : SelectionOp α).Sound setup s) :
    Settled setup (MultipleSelectionModel.selectNext setup s) ∧
      (SelectionOp.selectNext : SelectionOp α).KeepsOne setup s
        (MultipleSelectionModel.selectNext setup s) := by
  unfold MultipleSelectionModel.selectNext
  simp only []
  have hfocused := getFocusedIndex_mem h
  rw [inRange_iff] at hfocused
  split
  next hnone =>
    by_cases hcount : getItemCount setup ≤ 0
    · have hsettled : Settled setup (clearIfSingle setup s) :=
        settled_clearIfSingle h fun _ => h.selectedIndex_neg hcount
      exact ⟨hsettled.select _, fun _ hne => absurd (selectedIndices_eq_empty h hcount) hne⟩
    · have hin : inRange setup 0 = true := inRange_iff.mpr ⟨le_refl 0, by omega⟩
      exact ⟨settled_select_clearIfSingle h hin, fun _ _ => select_ne_empty hin⟩
  next hsome =>
    split
    next hne =>
      have hin : inRange setup (getFocusedIndex setup s + 1) = true :=
        inRange_iff.mpr ⟨by omega, by omega⟩
      exact ⟨settled_select_clearIfSingle h hin, fun _ _ => select_ne_empty hin⟩
    next heq =>
      refine clearIfSingle_keeps h (hsound.imp_right fun hlast => hlast.resolve_left ?_)
      omega

omit [DecidableEq α] in
/-- `clearSelection(int)` takes the selected index along only with the last row. -/
theorem clearSelectionAt_settled (h : Settled setup s) {index : ℤ}
    (hsound : (SelectionOp.clearSelectionAt index : SelectionOp α).Sound setup s) :
    Settled setup (MultipleSelectionModel.clearSelectionAt setup index s) := by
  unfold MultipleSelectionModel.clearSelectionAt
  split
  · exact h
  next hpos =>
    refine Settled.callObservers ?_ _
    split
    next hemptied =>
      have hbecomes : Becomes setup (MultipleSelectionModel.clearSelection setup { s with
          selectedIndices := s.selectedIndices.erase index.toNat }) .empty (-1) false := by
        have := clearSelection_becomes (s := { s with
          selectedIndices := s.selectedIndices.erase index.toNat }) h.focus
        simpa [h.makeAtomic] using this
      exact Settled.of_becomes hbecomes (fun i hi => absurd hi (Ascending.not_mem_empty i))
        (fun _ => Nat.zero_le _) fun hneg => by omega
    next hrest =>
      refine Settled.of_becomes (show Becomes setup _ _ s.selectedIndex false from
        ⟨rfl, rfl, h.makeAtomic, h.focus⟩) ?_ ?_ ?_
      · exact fun i hi => h.inRange i (Ascending.mem_erase.mp hi).1
      · exact fun hmode => (List.length_filter_le _ _).trans (h.single hmode)
      · intro hindex
        obtain ⟨-, hmem⟩ := isSelected_iff.mp (h.selected hindex)
        refine Ascending.mem_erase.mpr ⟨hmem, fun heq => ?_⟩
        rcases hsound with hneg | hne | hone
        · exact hpos hneg
        · exact hne (by omega)
        · -- then the last row is gone
          refine hrest ?_
          simp [MultipleSelectionModel.isEmpty, Ascending.erase, hone]

/-! ## Calls that are not -/

omit [DecidableEq α] in
theorem clearSelectionAt_not_valid (h : Settled setup s) {index : ℤ}
    (hsound : ¬ (SelectionOp.clearSelectionAt index : SelectionOp α).Sound setup s) :
    ¬ Valid setup (MultipleSelectionModel.clearSelectionAt setup index s) := by
  simp only [Sound, not_or, not_not] at hsound
  obtain ⟨hpos, heq, hmore⟩ := hsound
  intro hvalid
  unfold MultipleSelectionModel.clearSelectionAt at hvalid
  rw [if_neg hpos] at hvalid
  -- another row is left, so the selected index stays
  have hleft : (s.selectedIndices.erase index.toNat).toList ≠ [] := by
    intro hnil
    obtain ⟨-, hmem⟩ := isSelected_iff.mp (h.selected (by omega))
    rw [← heq] at hmem
    have hone : s.selectedIndices = Ascending.empty.insert index.toNat := by
      ext i
      rw [Ascending.mem_insert]
      constructor
      · intro hi
        by_contra hother
        push Not at hother
        have : i ∈ s.selectedIndices.erase index.toNat := Ascending.mem_erase.mpr ⟨hi, hother.1⟩
        rw [Ascending.toList_eq_nil_iff.mp hnil] at this
        exact Ascending.not_mem_empty _ this
      · rintro (rfl | hi)
        · exact hmem
        · exact absurd hi (Ascending.not_mem_empty i)
    exact hmore (by rw [hone]; rfl)
  have hstay : (!s.isEmpty && ({ s with
      selectedIndices := s.selectedIndices.erase index.toNat } :
        MultipleSelectionModel α).isEmpty) = false := by
    simp [MultipleSelectionModel.isEmpty, hleft]
  simp only [hstay, Bool.false_eq_true, if_false] at hvalid
  have hselected := hvalid.selected (show 0 ≤ s.selectedIndex by omega)
  rw [isSelected_iff] at hselected
  obtain ⟨-, hmem⟩ := hselected
  have hmem' : s.selectedIndex.toNat ∈ s.selectedIndices.erase index.toNat := hmem
  rw [heq, Ascending.mem_erase] at hmem'
  exact hmem'.2 rfl

theorem selectLast_not_valid (h : Settled setup s)
    (hsound : ¬ (SelectionOp.selectLast : SelectionOp α).Sound setup s) :
    ¬ Valid setup (MultipleSelectionModel.selectLast setup s) := by
  simp only [Sound, not_or] at hsound
  obtain ⟨hmode, hcount, hlast⟩ := hsound
  have hnonneg : (0 : ℤ) ≤ getItemCount setup := by simp [getItemCount]
  have hclear : clearIfSingle setup s = s.quietClearSelection := by
    rw [clearIfSingle, if_pos (mode_eq hmode)]
  unfold MultipleSelectionModel.selectLast
  simp only [clearIfSingle_selectedIndex]
  rw [if_neg (fun hguard => hlast hguard.2), hclear]
  exact h.quietClearSelection.not_valid (by omega)

theorem selectNext_loses (h : Settled setup s)
    (hsound : ¬ (SelectionOp.selectNext : SelectionOp α).Sound setup s) :
    ¬ (SelectionOp.selectNext : SelectionOp α).KeepsOne setup s
      (MultipleSelectionModel.selectNext setup s) := by
  simp only [Sound, not_or, not_not] at hsound
  obtain ⟨hmode, hfocus, hne⟩ := hsound
  intro hkeeps
  have hcount : ¬ getItemCount setup ≤ 0 := fun hcount => hne (selectedIndices_eq_empty h hcount)
  refine hkeeps (mode_eq hmode) hne ?_
  unfold MultipleSelectionModel.selectNext
  simp only [hfocus]
  rw [if_neg (by omega), if_neg (by simp), clearIfSingle, if_pos (mode_eq hmode)]
  rfl

/-! ## One call, and whole runs -/

/-- **One sound call.** -/
theorem perform_settled (h : Settled setup s) {op : SelectionOp α} (hsound : op.Sound setup s) :
    Settled setup (op.perform setup s) ∧ op.KeepsOne setup s (op.perform setup s) := by
  cases op with
  | select row => exact ⟨h.select row, trivial⟩
  | selectItem obj => exact ⟨selectItem_settled h obj, trivial⟩
  | clearAndSelect row =>
      refine ⟨?_, trivial⟩
      by_cases hrow : inRange setup row = true
      · exact clearAndSelect_inRange h hrow
      · exact (clearAndSelect_outOfRange h (by simpa using hrow)).settled
          (hsound.resolve_left hrow)
  | selectIndices row rows =>
      refine ⟨?_, trivial⟩
      cases rows with
      | none => exact h.select row
      | some rows =>
          by_cases hmode : setup.selectionMode = .multiple
          · exact selectIndices_multiple h hmode row rows
          · by_cases hsome : (∃ r ∈ rows, inRange setup r = true) ∨
                0 < row ∧ row < getItemCount setup
            · exact selectIndices_single h (mode_eq hmode) hsome
            · rw [not_or] at hsome
              refine (selectIndices_single_none h (mode_eq hmode) ?_ hsome.2).settled
                (((hsound.resolve_left hmode).resolve_left hsome.1).resolve_left hsome.2)
              exact fun r hr hin => hsome.1 ⟨r, hr, hin⟩
  | selectAll => exact ⟨h.selectAll, trivial⟩
  | selectFirst => exact ⟨selectFirst_settled h, trivial⟩
  | selectLast => exact selectLast_settled h hsound
  | selectNext => exact selectNext_settled h hsound
  | selectPrevious => exact selectPrevious_settled h hsound
  | clearSelection => exact ⟨h.clearSelection, trivial⟩
  | clearSelectionAt index => exact ⟨clearSelectionAt_settled h hsound, trivial⟩
  | focus index =>
      exact ⟨⟨⟨h.inRange, h.single, h.selected⟩, focusInRange_focus index, h.makeAtomic⟩, trivial⟩

/-- **One call that is not sound.** -/
theorem perform_not_sound (h : Settled setup s) {op : SelectionOp α}
    (hsound : ¬ op.Sound setup s) :
    ¬ (Valid setup (op.perform setup s) ∧ op.KeepsOne setup s (op.perform setup s)) := by
  rintro ⟨hvalid, hkeeps⟩
  cases op with
  | clearAndSelect row =>
      simp only [Sound, not_or] at hsound
      exact (clearAndSelect_outOfRange h (by simpa using hsound.1)).not_valid (by omega) hvalid
  | selectIndices row rows =>
      cases rows with
      | none => exact hsound trivial
      | some rows =>
          simp only [Sound, not_or] at hsound
          obtain ⟨hmode, hnone, hrow, hindex⟩ := hsound
          refine (selectIndices_single_none h (mode_eq hmode) ?_ hrow).not_valid (by omega) hvalid
          exact fun r hr hin => hnone ⟨r, hr, hin⟩
  | selectLast => exact selectLast_not_valid h hsound hvalid
  | selectNext => exact selectNext_loses h hsound hkeeps
  | selectPrevious => exact selectPrevious_loses hsound hkeeps
  | clearSelectionAt index => exact clearSelectionAt_not_valid h hsound hvalid
  | select | selectItem | selectAll | selectFirst | clearSelection | focus => exact hsound trivial

end SelectionOp

namespace MultipleSelectionModel

/-- The model after a sequence of calls. -/
def afterOps (setup : SelectionSetup α) (ops : List (SelectionOp α)) : MultipleSelectionModel α :=
  ops.foldl (SelectionOp.perform setup) new

theorem afterOps_concat (ops : List (SelectionOp α)) (op : SelectionOp α) :
    afterOps setup (ops ++ [op]) = op.perform setup (afterOps setup ops) :=
  List.foldl_concat _ _ _ _

omit [DecidableEq α] in
theorem new_settled : Settled setup (new : MultipleSelectionModel α) where
  inRange i hi := absurd hi (Ascending.not_mem_empty i)
  single _ := Nat.zero_le _
  selected h := absurd h (by simp [new])
  focus := ⟨le_refl _, Or.inr rfl⟩
  makeAtomic := rfl

/-- What is asked of a run: every state is valid, and in the single mode no `selectNext`,
`selectPrevious` or `selectLast` loses the selection. -/
def RunValid (setup : SelectionSetup α) (ops : List (SelectionOp α)) : Prop :=
  (∀ done rest, ops = done ++ rest → Valid setup (afterOps setup done)) ∧
    ∀ done op rest, ops = done ++ op :: rest →
      op.KeepsOne setup (afterOps setup done) (afterOps setup (done ++ [op]))

/-- **The selection invariant.** A run keeps the selection valid exactly when every call of it
is sound in the state it finds. -/
theorem runValid_iff (setup : SelectionSetup α) (ops : List (SelectionOp α)) :
    RunValid setup ops ↔
      ∀ done op rest, ops = done ++ op :: rest → op.Sound setup (afterOps setup done) := by
  constructor
  · rintro ⟨hvalid, hkeeps⟩
    -- a settled state and what the run shows of the call make the call sound
    have hsound : ∀ done op rest, ops = done ++ op :: rest → Settled setup (afterOps setup done) →
        op.Sound setup (afterOps setup done) := by
      intro done op rest hops hsettled
      by_contra hnot
      refine SelectionOp.perform_not_sound hsettled hnot ?_
      rw [← afterOps_concat]
      exact ⟨hvalid _ rest (by rw [hops]; simp), hkeeps done op rest hops⟩
    have hsettled : ∀ done rest, ops = done ++ rest → Settled setup (afterOps setup done) := by
      intro done
      induction done using List.reverseRecOn with
      | nil => exact fun _ _ => new_settled
      | append_singleton done op ih =>
          intro rest hops
          have hops' : ops = done ++ op :: rest := by rw [hops]; simp
          rw [afterOps_concat]
          exact (SelectionOp.perform_settled (ih _ hops')
            (hsound done op rest hops' (ih _ hops'))).1
    exact fun done op rest hops => hsound done op rest hops (hsettled done _ hops)
  · intro hsound
    have hsettled : ∀ done rest, ops = done ++ rest → Settled setup (afterOps setup done) := by
      intro done
      induction done using List.reverseRecOn with
      | nil => exact fun _ _ => new_settled
      | append_singleton done op ih =>
          intro rest hops
          have hops' : ops = done ++ op :: rest := by rw [hops]; simp
          rw [afterOps_concat]
          exact (SelectionOp.perform_settled (ih _ hops') (hsound done op rest hops')).1
    refine ⟨fun done rest hops => (hsettled done rest hops).toValid, ?_⟩
    intro done op rest hops
    rw [afterOps_concat]
    exact (SelectionOp.perform_settled (hsettled done _ hops) (hsound done op rest hops)).2

/-- Two items, one at a time: `selectLast` twice. The second call clears the row it should
select, and the selected index is still that row. -/
theorem selectLast_twice_not_valid :
    ¬ RunValid (⟨.single, [some 0, some 1], true⟩ : SelectionSetup ℕ)
      [.selectLast, .selectLast] := by
  rintro ⟨hvalid, -⟩
  have h := (hvalid [.selectLast, .selectLast] [] rfl).selected (by decide)
  revert h
  decide

end MultipleSelectionModel

end JavaFx.Control
