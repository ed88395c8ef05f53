import JavaFx.Binding.Registration

/-!
# Notifications under re-entrancy

`Generic` edits its arrays in place unless `locked`, and a notification clears
`locked` when it is over, also one that was fired from within another. From then
on the outer one reads an array that removals, and additions that trim it, edit
under its hands. `Notifying` is what holds as long as no edit reaches a slot that
some notification has yet to read.
-/

set_option linter.unusedSectionVars false

namespace JavaFx.Binding

open Runs

variable {I C V : Type} [BEq I] [BEq C] [BEq V]

/-- Every listener registered when the notification began was called, once and in
order; the change listeners if there is a change to report. -/
def Fire.Complete (fire : Fire I C) : Prop :=
  fire.called = fire.invalidations.map .inl ++
    if fire.changed then fire.changes.map .inr else []

namespace Locals

/-- The next slot of the invalidation array. -/
def nextInvalidation (locals : Locals) : ℕ :=
  match locals.loop with
  | .invalidation i => i
  | .change _ => locals.curInvalidation.size

/-- The next slot of the change array. -/
def nextChange (locals : Locals) : ℕ :=
  match locals.loop with
  | .invalidation _ => 0
  | .change i => i

/-- What has been called so far. -/
def Called (locals : Locals) (fire : Fire I C) : Prop :=
  match locals.loop with
  | .invalidation i => i ≤ fire.invalidations.length ∧ fire.changed = false ∧
      fire.called = (fire.invalidations.take i).map .inl
  | .change i => i ≤ fire.changes.length ∧ fire.changed = true ∧
      fire.called = fire.invalidations.map .inl ++ (fire.changes.take i).map .inr

end Locals

namespace World

variable {w w' : World I C V}

/-- A notification in the middle of its loops. -/
structure InLoop (w : World I C V) (locals : Locals) (fire : Fire I C) : Prop where
  invalidation : Listeners.Unread w.invalidationArrays locals.curInvalidation
    fire.invalidations locals.nextInvalidation
  change : Listeners.Unread w.changeArrays locals.curChange fire.changes
    locals.nextChange
  called : locals.Called fire

/-- The arrays of the helper are not shorter than what is still to be read. -/
structure FieldsWithin (w : World I C V) (locals : Locals) : Prop where
  invalidation : Listeners.Within w.invalidationField locals.curInvalidation
    locals.nextInvalidation
  change : Listeners.Within w.changeField locals.curChange locals.nextChange

def FrameValid (w : World I C V) : Frame I C → Prop
  | .single fire => fire.Complete
  | .generic locals fire => w.InLoop locals fire ∧ w.FieldsWithin locals

/-- **The invariant of notifications.** -/
structure Notifying (w : World I C V) : Prop where
  holds : ∃ xs ys, w.Holds xs ys
  frames : ∀ frame ∈ w.frames, w.FrameValid frame
  fires : ∀ fire ∈ w.fires, fire.Complete

/-! ## The loops -/

/-- What running a notification on leaves alone: it only writes `locked` and
`currentValue` of its `Generic`. -/
structure SameListeners (w w' : World I C V) : Prop where
  invalidationArrays : w'.invalidationArrays = w.invalidationArrays
  changeArrays : w'.changeArrays = w.changeArrays
  value : w'.value = w.value
  holds : ∀ xs ys, w.Holds xs ys → w'.Holds xs ys
  invalidationField : w'.invalidationField = w.invalidationField
  changeField : w'.changeField = w.changeField

theorem SameListeners.trans {w₁ w₂ w₃ : World I C V} (h : SameListeners w₁ w₂)
    (h' : SameListeners w₂ w₃) : SameListeners w₁ w₃ where
  invalidationArrays := h'.invalidationArrays.trans h.invalidationArrays
  changeArrays := h'.changeArrays.trans h.changeArrays
  value := h'.value.trans h.value
  holds := fun xs ys hw => h'.holds xs ys (h.holds xs ys hw)
  invalidationField := h'.invalidationField.trans h.invalidationField
  changeField := h'.changeField.trans h.changeField

theorem SameListeners.frameValid (h : SameListeners w w') {frame : Frame I C}
    (hframe : w.FrameValid frame) : w'.FrameValid frame := by
  cases frame with
  | single fire => exact hframe
  | generic locals fire =>
      obtain ⟨⟨hI, hC, hcalled⟩, ⟨hwI, hwC⟩⟩ := hframe
      refine ⟨⟨?_, ?_, hcalled⟩, ⟨?_, ?_⟩⟩
      · rw [h.invalidationArrays]
        exact hI
      · rw [h.changeArrays]
        exact hC
      · rw [h.invalidationField]
        exact hwI
      · rw [h.changeField]
        exact hwC

/-- Writing `locked` and `currentValue`. -/
theorem setGeneric_sameListeners {this : ℕ} {g : Generic V}
    (hI : g.invalidation = (w.generic this).invalidation)
    (hC : g.change = (w.generic this).change) :
    SameListeners w (w.setGeneric this g) := by
  have hgeneric : ∀ this', this' < w.generics.length →
      ((w.setGeneric this g).generic this').invalidation =
        (w.generic this').invalidation ∧
      ((w.setGeneric this g).generic this').change = (w.generic this').change := by
    intro this' hlt
    by_cases heq : this' = this
    · subst heq
      rw [generic_setGeneric hlt]
      exact ⟨hI, hC⟩
    · rw [generic_setGeneric_of_ne heq]
      exact ⟨rfl, rfl⟩
  have hout : ∀ this', ¬this' < w.generics.length →
      (w.setGeneric this g).generic this' = w.generic this' := by
    intro this' hge
    unfold generic setGeneric
    simp only [List.getD_eq_getElem?_getD]
    rw [List.getElem?_eq_none (by simpa using hge),
      List.getElem?_eq_none (by simpa using hge)]
  have hboth : ∀ this', ((w.setGeneric this g).generic this').invalidation =
        (w.generic this').invalidation ∧
      ((w.setGeneric this g).generic this').change = (w.generic this').change := by
    intro this'
    by_cases hlt : this' < w.generics.length
    · exact hgeneric this' hlt
    · rw [hout this' hlt]
      exact ⟨rfl, rfl⟩
  have hhelper : (w.setGeneric this g).helper = w.helper := rfl
  refine ⟨rfl, rfl, rfl, fun xs ys h => ?_, ?_, ?_⟩
  · unfold Holds at h ⊢
    rw [hhelper]
    cases hw : w.helper with
    | generic this' =>
        rw [hw] at h
        obtain ⟨hlt, hx, hy⟩ := h
        change this' < (w.generics.set this g).length ∧ _ ∧ _
        refine ⟨by rw [List.length_set]; exact hlt, ?_, ?_⟩
        · rw [(hboth this').1]
          exact hx
        · rw [(hboth this').2]
          exact hy
    | null => rw [hw] at h; exact h
    | singleInvalidation l => rw [hw] at h; exact h
    | singleChange l v => rw [hw] at h; exact h
  · unfold invalidationField
    rw [hhelper]
    cases w.helper with
    | generic this' => exact (hboth this').1
    | _ => rfl
  · unfold changeField
    rw [hhelper]
    cases w.helper with
    | generic this' => exact (hboth this').2
    | _ => rfl

/-- A notification runs on: it calls its next listener, or it is over. -/
def RunsOn (w w' : World I C V) : Prop :=
  SameListeners w w' ∧
    ((∃ locals fire, w'.frames = .generic locals fire :: w.frames ∧ w'.fires = w.fires ∧
        w'.InLoop locals fire ∧ w'.FieldsWithin locals) ∨
      ∃ fire, w'.frames = w.frames ∧ w'.fires = w.fires ++ [fire] ∧ fire.Complete)

theorem RunsOn.of_sameListeners {w₁ : World I C V} (h : RunsOn w₁ w')
    (hsame : SameListeners w w₁) (hframes : w₁.frames = w.frames)
    (hfires : w₁.fires = w.fires) : RunsOn w w' := by
  refine ⟨hsame.trans h.1, ?_⟩
  rw [← hframes, ← hfires]
  exact h.2

theorem unlock_sameListeners (w : World I C V) (this : ℕ) :
    SameListeners w (w.unlock this) := setGeneric_sameListeners rfl rfl

theorem finish_runsOn (w : World I C V) (this : ℕ) {fire : Fire I C}
    (h : fire.Complete) : RunsOn w ((w.unlock this).finish fire) := by
  have hsame := unlock_sameListeners w this
  exact ⟨⟨rfl, rfl, rfl, hsame.holds, hsame.invalidationField, hsame.changeField⟩,
    Or.inr ⟨fire, rfl, rfl, h⟩⟩

theorem push_sameListeners (w : World I C V) (frame : Frame I C) :
    SameListeners w (w.push frame) :=
  ⟨rfl, rfl, rfl, fun _ _ h => h, rfl, rfl⟩

/-- The loop over the change listeners, from slot `i` on. -/
theorem runChangeLoop_runsOn {locals : Locals} {fire : Fire I C} {i : ℕ}
    (hchange : Listeners.Unread w.changeArrays locals.curChange fire.changes i)
    (hwithin : Listeners.Within w.changeField locals.curChange i)
    (hinvalidation : locals.curInvalidation.size = fire.invalidations.length)
    (hi : i ≤ fire.changes.length) (hchanged : fire.changed = true)
    (hcalled : fire.called = fire.invalidations.map .inl ++
      (fire.changes.take i).map .inr) :
    ∃ w', w.runChangeLoop locals fire i = .ok w' ∧ RunsOn w w' := by
  unfold runChangeLoop
  rw [hchange.1]
  by_cases hlt : i < fire.changes.length
  · rw [if_pos hlt, hchange.deref (List.getElem?_eq_getElem hlt)]
    refine ⟨_, rfl, push_sameListeners w _, Or.inl ⟨_, _, rfl, rfl, ?_, ?_⟩⟩
    · refine ⟨⟨hinvalidation, ?_⟩, hchange.mono (Nat.le_succ i), hlt, hchanged, ?_⟩
      · intro j hj x hx
        have hjlt := (List.getElem?_eq_some_iff.mp hx).1
        have hj' : locals.curInvalidation.size ≤ j := hj
        simp only at hjlt
        omega
      · show fire.called ++ [Sum.inr fire.changes[i]] = fire.invalidations.map .inl ++
          (fire.changes.take (i + 1)).map .inr
        rw [hcalled, List.take_succ_eq_append_getElem hlt, List.map_append,
          List.append_assoc]
        rfl
    · refine ⟨fun r _ _ hsize => ?_, fun r ha hcur hsize => hwithin r ha hcur ?_⟩
      · exact absurd hsize (lt_irrefl _)
      · exact lt_of_le_of_lt (Nat.le_succ i) hsize
  · rw [if_neg hlt]
    refine ⟨_, rfl, finish_runsOn w _ ?_⟩
    rw [Fire.Complete, hchanged, if_pos rfl, hcalled, List.take_of_length_le (by omega)]

/-- **The loops.** From a state in which what is still to be read is intact, a
notification runs on without a `NullPointerException`. -/
theorem runLoops_runsOn {locals : Locals} {fire : Fire I C} (h : w.InLoop locals fire)
    (hwithin : w.FieldsWithin locals) :
    ∃ w', w.runLoops locals fire = .ok w' ∧ RunsOn w w' := by
  obtain ⟨this, curI, curC, loop⟩ := locals
  obtain ⟨hI, hC, hcalled⟩ := h
  obtain ⟨hwI, hwC⟩ := hwithin
  unfold runLoops
  cases loop with
  | change i => exact runChangeLoop_runsOn hC hwC hI.1 hcalled.1 hcalled.2.1 hcalled.2.2
  | invalidation i =>
      obtain ⟨hi, hchanged, hcalled⟩ := hcalled
      replace hI : Listeners.Unread w.invalidationArrays curI fire.invalidations i := hI
      simp only [hI.1]
      by_cases hlt : i < fire.invalidations.length
      · rw [if_pos hlt, hI.deref (List.getElem?_eq_getElem hlt)]
        refine ⟨_, rfl, push_sameListeners w _, Or.inl ⟨_, _, rfl, rfl, ?_, ?_⟩⟩
        · refine ⟨hI.mono (Nat.le_succ i), hC, hlt, hchanged, ?_⟩
          show fire.called ++ [Sum.inl fire.invalidations[i]] =
            (fire.invalidations.take (i + 1)).map .inl
          rw [hcalled, List.take_succ_eq_append_getElem hlt, List.map_append]
          rfl
        · exact ⟨fun r ha hcur hsize =>
            hwI r ha hcur (lt_of_le_of_lt (Nat.le_succ i) hsize), hwC⟩
      · rw [if_neg hlt]
        have hall : fire.called = fire.invalidations.map .inl := by
          rw [hcalled, List.take_of_length_le (by omega)]
        have hplain : fire.Complete := by
          rw [Fire.Complete, hchanged, if_neg Bool.false_ne_true, List.append_nil, hall]
        unfold startChangeLoop
        by_cases hsize : 0 < curC.size
        · simp only [if_pos hsize]
          set w₁ := w.setGeneric this { w.generic this with currentValue := w.value }
          have hsame : SameListeners w w₁ := setGeneric_sameListeners rfl rfl
          by_cases hvalue : valueChanged (w.generic this).currentValue w₁.value = true
          · rw [if_pos hvalue]
            obtain ⟨w', hrun, hon⟩ := @runChangeLoop_runsOn I C V _ _ _ w₁
              ⟨this, curI, curC, .invalidation i⟩ { fire with changed := true } 0
              (by rw [hsame.changeArrays]; exact hC)
              (by rw [hsame.changeField]; exact hwC) hI.1 (Nat.zero_le _) rfl
              (by simp [hall])
            exact ⟨w', hrun, hon.of_sameListeners hsame rfl rfl⟩
          · rw [if_neg hvalue]
            exact ⟨_, rfl, (finish_runsOn w₁ this hplain).of_sameListeners hsame rfl rfl⟩
        · rw [if_neg hsize]
          exact ⟨_, rfl, finish_runsOn w this hplain⟩

theorem RunsOn.notifying (h : RunsOn w w') (hw : w.Notifying) : w'.Notifying := by
  obtain ⟨hsame, hon⟩ := h
  obtain ⟨⟨xs, ys, hholds⟩, hframes, hfires⟩ := hw
  refine ⟨⟨xs, ys, hsame.holds xs ys hholds⟩, ?_, ?_⟩
  · intro frame hframe
    rcases hon with ⟨locals, fire, heq, -, hloop, hwithin⟩ | ⟨fire, heq, -, -⟩
    · rw [heq] at hframe
      rcases List.mem_cons.mp hframe with rfl | hframe
      · exact ⟨hloop, hwithin⟩
      · exact hsame.frameValid (hframes frame hframe)
    · rw [heq] at hframe
      exact hsame.frameValid (hframes frame hframe)
  · intro fire hfire
    rcases hon with ⟨-, -, -, heq, -, -⟩ | ⟨fire', -, heq, hcomplete⟩
    · rw [heq] at hfire
      exact hfires fire hfire
    · rw [heq] at hfire
      rcases List.mem_append.mp hfire with hfire | hfire
      · exact hfires fire hfire
      · rw [List.mem_singleton] at hfire
        exact hfire ▸ hcomplete

/-! ## Steps -/

theorem Notifying.of_sameListeners (hw : w.Notifying) (hsame : SameListeners w w')
    (hframes : w'.frames = w.frames) (hfires : w'.fires = w.fires) : w'.Notifying := by
  obtain ⟨⟨xs, ys, hholds⟩, hall, hover⟩ := hw
  refine ⟨⟨xs, ys, hsame.holds xs ys hholds⟩, ?_, ?_⟩
  · rw [hframes]
    exact fun frame hframe => hsame.frameValid (hall frame hframe)
  · rw [hfires]
    exact hover

theorem Notifying.push_single (hw : w.Notifying) {fire : Fire I C}
    (h : fire.Complete) : (w.push (.single fire)).Notifying := by
  refine ⟨hw.holds, fun frame hframe => ?_, hw.fires⟩
  rcases List.mem_cons.mp hframe with rfl | hframe
  · exact h
  · exact (push_sameListeners w _).frameValid (hw.frames frame hframe)

theorem Notifying.finish (hw : w.Notifying) {fire : Fire I C} (h : fire.Complete) :
    (w.finish fire).Notifying := by
  refine ⟨hw.holds, fun frame hframe => ?_, fun fire' hfire => ?_⟩
  · have hsame : SameListeners w (w.finish fire) :=
      ⟨rfl, rfl, rfl, fun _ _ h => h, rfl, rfl⟩
    exact hsame.frameValid (hw.frames frame hframe)
  · rcases List.mem_append.mp hfire with hfire | hfire
    · exact hw.fires fire' hfire
    · rw [List.mem_singleton] at hfire
      exact hfire ▸ h

theorem fireValueChangedEvent_notifying (hw : w.Notifying) :
    ∃ w', w.fireValueChangedEvent = .ok w' ∧ w'.Notifying := by
  obtain ⟨xs, ys, hholds⟩ := hw.holds
  obtain ⟨hlistX, hlistY⟩ := hholds.lists
  have hcase := hholds
  unfold Holds at hcase
  unfold fireValueChangedEvent
  rw [hlistX, hlistY]
  cases hhelper : w.helper with
  | null =>
      rw [hhelper] at hcase
      obtain ⟨rfl, rfl⟩ := hcase
      exact ⟨_, rfl, hw.finish rfl⟩
  | singleInvalidation l =>
      rw [hhelper] at hcase
      obtain ⟨rfl, rfl⟩ := hcase
      exact ⟨_, rfl, hw.push_single rfl⟩
  | singleChange l oldValue =>
      rw [hhelper] at hcase
      obtain ⟨rfl, rfl⟩ := hcase
      have hsame : SameListeners w { w with helper := .singleChange l w.value } := by
        refine ⟨rfl, rfl, rfl, fun xs ys h => ?_, ?_, ?_⟩
        · unfold Holds at h
          rw [hhelper] at h
          exact h
        · unfold invalidationField
          rw [hhelper]
        · unfold changeField
          rw [hhelper]
      have hw' := hw.of_sameListeners hsame rfl rfl
      simp only
      by_cases hvalue : valueChanged oldValue w.value = true
      · rw [if_pos hvalue]
        exact ⟨_, rfl, hw'.push_single rfl⟩
      · rw [if_neg hvalue]
        exact ⟨_, rfl, hw'.finish rfl⟩
  | generic this =>
      obtain ⟨hlt, hx, hy, -, -⟩ := hholds.of_generic hhelper
      obtain ⟨hfI, hfC, -, -⟩ := fields_of_generic hhelper
      have hsame : SameListeners w
          (w.setGeneric this { w.generic this with locked := true }) :=
        setGeneric_sameListeners rfl rfl
      obtain ⟨w', hrun, hon⟩ := @runLoops_runsOn I C V _ _ _
        (w.setGeneric this { w.generic this with locked := true })
        ⟨this, (w.generic this).invalidation, (w.generic this).change, .invalidation 0⟩
        ⟨xs, ys, false, []⟩ ⟨hx.unread, hy.unread, Nat.zero_le _, rfl, rfl⟩ (by
          constructor
          · rw [hsame.invalidationField, hfI]
            exact fun r _ _ _ => le_refl _
          · rw [hsame.changeField, hfC]
            exact fun r _ _ _ => le_refl _)
      exact ⟨w', hrun, hon.notifying (hw.of_sameListeners hsame rfl rfl)⟩

theorem proceed_notifying (hw : w.Notifying) :
    ∃ w', w.proceed = .ok w' ∧ w'.Notifying := by
  unfold proceed
  cases hframes : w.frames with
  | nil => exact ⟨w, rfl, hw⟩
  | cons frame frames =>
      have hframe : w.FrameValid frame :=
        hw.frames frame (by rw [hframes]; exact List.mem_cons_self)
      have hsame : SameListeners w { w with frames := frames } :=
        ⟨rfl, rfl, rfl, fun _ _ h => h, rfl, rfl⟩
      have hrest : ({ w with frames := frames } : World I C V).Notifying := by
        refine ⟨hw.holds, fun frame' hframe' => ?_, hw.fires⟩
        exact hsame.frameValid (hw.frames frame'
          (by rw [hframes]; exact List.mem_cons_of_mem _ hframe'))
      cases frame with
      | single fire => exact ⟨_, rfl, hrest.finish hframe⟩
      | generic locals fire =>
          obtain ⟨hloop, hwithin⟩ := hsame.frameValid hframe
          obtain ⟨w', hrun, hon⟩ := runLoops_runsOn hloop hwithin
          exact ⟨w', hrun, hon.notifying hrest⟩

/-- No slot that the notification has yet to read is changed by the action: the
edited array agrees there with the listeners it held. -/
def FrameSpared (w : World I C V) (a : Action I C V) : Frame I C → Prop
  | .single _ => True
  | .generic locals _ =>
      Listeners.Spares w.locked w.invalidationField w.fieldInvalidations
        (w.keptInvalidations a) locals.curInvalidation locals.nextInvalidation ∧
      Listeners.Spares w.locked w.changeField w.fieldChanges (w.keptChanges a)
        locals.curChange locals.nextChange

/-- The action spares every running notification. -/
def SparesUnread (w : World I C V) (a : Action I C V) : Prop :=
  ∀ frame ∈ w.frames, w.FrameSpared a frame

instance [DecidableEq I] [DecidableEq C] (w : World I C V) (a : Action I C V) :
    DecidablePred (w.FrameSpared a)
  | .single _ => .isTrue trivial
  | .generic _ _ => inferInstanceAs (Decidable (_ ∧ _))

instance [DecidableEq I] [DecidableEq C] (w : World I C V) (a : Action I C V) :
    Decidable (w.SparesUnread a) :=
  inferInstanceAs (Decidable (∀ frame ∈ w.frames, w.FrameSpared a frame))

/-- Adding or removing a listener. -/
theorem Registers.notifying {a : Action I C V} (hw : w.Notifying)
    (hspares : w.SparesUnread a)
    (hreg : w.Registers (w.keptInvalidations a) (w.keptChanges a) w')
    (hholds' : ∃ xs ys, w'.Holds xs ys) : w'.Notifying := by
  obtain ⟨⟨xs, ys, hholds⟩, hframes, hfires⟩ := hw
  obtain ⟨hI, hC⟩ := hholds.fields
  refine ⟨hholds', fun frame hframe => ?_, fun fire hfire => ?_⟩
  · rw [hreg.frames] at hframe
    cases frame with
    | single fire => exact hframes _ hframe
    | generic locals fire =>
        obtain ⟨⟨hunreadI, hunreadC, hcalled⟩, ⟨hwI, hwC⟩⟩ := hframes _ hframe
        obtain ⟨hsI, hsC⟩ := hspares _ hframe
        obtain ⟨hunreadI', hwI'⟩ := hunreadI.touch hwI hI hreg.invalidation hsI
        obtain ⟨hunreadC', hwC'⟩ := hunreadC.touch hwC hC hreg.change hsC
        exact ⟨⟨hunreadI', hunreadC', hcalled⟩, ⟨hwI', hwC'⟩⟩
  · rw [hreg.fires] at hfire
    exact hfires fire hfire

/-- **One action** keeps the invariant if it spares what is still to be read. -/
theorem step_notifying (hw : w.Notifying) {a : Action I C V}
    (hspares : w.SparesUnread a) : ∃ w', w.step a = .ok w' ∧ w'.Notifying := by
  obtain ⟨xs, ys, hholds⟩ := hw.holds
  unfold step
  cases a with
  | addInvalidation l collected =>
      obtain ⟨w', xs₀, hstep, -, hholds', hreg⟩ := addInvalidation_spec hholds l collected
      exact ⟨w', hstep, Registers.notifying hw hspares hreg ⟨_, _, hholds'⟩⟩
  | removeInvalidation l =>
      obtain ⟨w', hstep, hholds', hreg⟩ := removeInvalidation_spec hholds l
      exact ⟨w', hstep, Registers.notifying hw hspares hreg ⟨_, _, hholds'⟩⟩
  | addChange l collected =>
      obtain ⟨w', ys₀, hstep, -, hholds', hreg⟩ := addChange_spec hholds l collected
      exact ⟨w', hstep, Registers.notifying hw hspares hreg ⟨_, _, hholds'⟩⟩
  | removeChange l =>
      obtain ⟨w', hstep, hholds', hreg⟩ := removeChange_spec hholds l
      exact ⟨w', hstep, Registers.notifying hw hspares hreg ⟨_, _, hholds'⟩⟩
  | setValue value =>
      have hframes : ∀ frame ∈ w.frames,
          ({ w with value := value } : World I C V).FrameValid frame := by
        intro frame hframe
        have hvalid := hw.frames frame hframe
        cases frame with
        | single fire => exact hvalid
        | generic locals fire =>
            exact ⟨⟨hvalid.1.invalidation, hvalid.1.change, hvalid.1.called⟩,
              ⟨hvalid.2.invalidation, hvalid.2.change⟩⟩
      exact ⟨_, rfl, hw.holds, hframes, hw.fires⟩
  | fire => exact fireValueChangedEvent_notifying hw
  | proceed => exact proceed_notifying hw

end World

/-- **Notification snapshots.** Start with any helper and nothing running, and let
listeners do what they like: add and remove listeners, change the value, fire
again to any depth. If no edit changes a slot that a running notification has yet
to read, then no array slot is found `null`, and every notification calls the
listeners that were registered when it began, once each and in order. -/
theorem notifications_call_snapshot (w : World I C V) (xs : List I) (ys : List C)
    (hholds : w.Holds xs ys) (hidle : w.frames = []) (hnew : w.fires = [])
    (actions : List (Action I C V))
    (hspares : Along World.step World.SparesUnread w actions) :
    ∃ w', runAll World.step w actions = .ok w' ∧ ∀ fire ∈ w'.fires, fire.Complete := by
  have hinit : w.Notifying := by
    refine ⟨⟨xs, ys, hholds⟩, ?_, ?_⟩
    · rw [hidle]
      intro frame hframe
      cases hframe
    · rw [hnew]
      intro fire hfire
      cases hfire
  obtain ⟨w', hrun, hw'⟩ := runAll_invariant
    (fun w a hw hspares => World.step_notifying hw hspares) hinit hspares
  exact ⟨w', hrun, hw'.fires⟩

/-- A `Generic` with three change listeners. -/
def threeChangeListeners : World ℕ ℕ ℕ where
  changeArrays := [[some 1, some 2], [some 1, some 2, some 3, none]]
  generics := [{ change := ⟨some 1, 3⟩ }]
  helper := .generic 0
  value := none

/-- The second listener removes itself, the third changes the value again, which
notifies the two that are left, and then adds a listener. -/
def nestedAtTheEnd : List (Action ℕ ℕ ℕ) :=
  [.setValue (some 1), .fire, .proceed, .removeChange 2, .proceed, .setValue (some 2),
    .fire, .proceed, .proceed, .addChange 4 (fun _ => false), .proceed]

theorem notifications_call_snapshot_nested :
    threeChangeListeners.Holds [] [1, 2, 3] ∧
      ∃ w', runAll World.step threeChangeListeners nestedAtTheEnd = .ok w' ∧
        ∀ fire ∈ w'.fires, fire.Complete := by
  have hholds : threeChangeListeners.Holds [] [1, 2, 3] :=
    ⟨by decide, ⟨rfl, rfl⟩, rfl, _, rfl, [none], rfl⟩
  exact ⟨hholds, notifications_call_snapshot threeChangeListeners [] [1, 2, 3] hholds
    rfl rfl nestedAtTheEnd (by decide)⟩

/-- The first listener changes the value again, which notifies all three, and then
removes itself. -/
def removalAfterNested : List (Action ℕ ℕ ℕ) :=
  [.setValue (some 1), .fire, .setValue (some 2), .fire, .proceed, .proceed, .proceed,
    .removeChange 1]

/-- The nested notification has cleared `locked`, so the listeners move up in the
array that the outer one reads: it misses the second listener, and finds a `null`
or a listener that was added later. -/
theorem nested_notification_unlocks :
    threeChangeListeners.Holds [] [1, 2, 3] ∧
      runAll World.step threeChangeListeners
        (removalAfterNested ++ [.proceed, .proceed]) = .error .nullPointer ∧
      ∃ w', runAll World.step threeChangeListeners
          (removalAfterNested ++ [.addChange 4 (fun _ => false), .proceed, .proceed,
            .proceed]) = .ok w' ∧
        w'.fires.map (fun fire => (fire.changes, fire.called)) =
          [([1, 2, 3], [.inr 1, .inr 2, .inr 3]), ([1, 2, 3], [.inr 1, .inr 3, .inr 4])] ∧
        ¬∀ fire ∈ w'.fires, fire.Complete := by
  refine ⟨⟨by decide, ⟨rfl, rfl⟩, rfl, _, rfl, [none], rfl⟩, rfl, _, rfl, rfl, ?_⟩
  intro hall
  have houter := hall ⟨[], [1, 2, 3], true, [.inr 1, .inr 3, .inr 4]⟩
    (List.mem_cons_of_mem _ List.mem_cons_self)
  cases houter

end JavaFx.Binding
