import JavaFx.Concurrent.ScheduledService

/-!
# One delay at a time

As long as the reference to the timer task is the reference to the pending delay, no assertion
fails and at most one delay is pending. Two steps can part them: a `restart` while the reference
is set, and the runnable of an earlier delay that runs while another delay is pending.
-/

namespace JavaFx.Concurrent.ScheduledService

variable {s t : ScheduledService} {n m : ℕ} {r : Reading} {a : Action}

/-! ## The invariant -/

/-- The task has been handed over. -/
def Begun (s : ScheduledService) (n : ℕ) : Prop :=
  n ∈ s.executor ∨ (s.tasks n).background ≠ .idle ∨ (s.tasks n).queue ≠ []

structure Sound (s : ScheduledService) : Prop where
  assertions : s.assertionFailed = false
  /-- The pending delay is the one that is referred to. -/
  timers : s.timers = [] ∨ ∃ n, s.timers = [n] ∧ s.delayTask = some n
  waiting : ∀ n, s.delayTask = some n → s.task = some n ∧ s.state = .scheduled ∧ ¬ s.Begun n
  begun : ∀ n, s.task = some n → s.Begun n → s.freshStart = false
  ready : s.state = .ready → s.task = none
  busy : s.state = .scheduled ∨ s.state = .running → s.task ≠ none
  handed : ∀ n ∈ s.executor, n < s.created
  posted : ∀ n ∈ s.posted, n < s.created
  pending : ∀ n ∈ s.timers, n < s.created

theorem sound_new : Sound {} where
  assertions := rfl
  timers := Or.inl rfl
  waiting n hn := by cases hn
  begun n hn := by cases hn
  ready _ := rfl
  busy h := by rcases h with h | h <;> cases h
  handed n hn := absurd hn List.not_mem_nil
  posted n hn := absurd hn List.not_mem_nil
  pending n hn := absurd hn List.not_mem_nil

/-- Nothing is pending when nothing is referred to. -/
theorem Sound.no_timers (h : Sound s) (hnone : s.delayTask = none) : s.timers = [] := by
  rcases h.timers with hnil | ⟨n, -, hn⟩
  · exact hnil
  · rw [hnone] at hn
    cases hn

theorem Sound.not_waiting (h : Sound s) (hstate : s.state ≠ .scheduled) : s.delayTask = none := by
  by_contra hsome
  obtain ⟨n, hn⟩ := Option.ne_none_iff_exists'.mp hsome
  exact hstate (h.waiting n hn).2.1

/-- A task that has been handed over does not wait. -/
theorem Sound.not_waiting_of_begun (h : Sound s) (htask : s.task = some n) (hn : s.Begun n) :
    s.delayTask = none := by
  by_contra hsome
  obtain ⟨m, hm⟩ := Option.ne_none_iff_exists'.mp hsome
  obtain ⟨htask', -, hidle⟩ := h.waiting m hm
  rw [htask, Option.some_inj] at htask'
  subst htask'
  exact hidle hn

theorem check_of_true (s : ScheduledService) {b : Bool} (h : b = true) : s.check b = s := by
  rw [check, h]
  simp

/-! ## Starting and resetting -/

/-- The current task is let go of while none waits. -/
theorem Sound.without_task (h : Sound s) (hnone : s.delayTask = none) {value : State}
    (hscheduled : value ≠ .scheduled) (hrunning : value ≠ .running) :
    Sound { s with task := none, state := value } where
  assertions := h.assertions
  timers := Or.inl (h.no_timers hnone)
  waiting n hn := by
    have hn' : s.delayTask = some n := hn
    rw [hnone] at hn'
    cases hn'
  begun n hn := by cases hn
  ready _ := rfl
  busy hbusy := by
    rcases hbusy with hb | hb
    · exact absurd hb hscheduled
    · exact absurd hb hrunning
  handed := h.handed
  posted := h.posted
  pending := h.pending

theorem superReset_eq (ht : s.superReset = some t) : t = { s with task := none, state := .ready } := by
  rw [superReset] at ht
  split at ht
  · cases ht
  · exact (Option.some_inj.mp ht).symm

theorem Sound.superReset (h : Sound s) (hnone : s.delayTask = none)
    (ht : s.superReset = some t) : Sound t := by
  rw [superReset_eq ht]
  exact h.without_task hnone (by decide) (by decide)

theorem Sound.reset (h : Sound s) (ht : s.reset = some t) : Sound t := by
  rw [ScheduledService.reset] at ht
  obtain ⟨u, hu, rfl⟩ := Option.map_eq_some_iff.mp ht
  have hstate : s.state ≠ .scheduled := by
    intro hscheduled
    rw [ScheduledService.superReset, if_pos (Or.inl hscheduled)] at hu
    cases hu
  have hu' := h.superReset (h.not_waiting hstate) hu
  have htask : u.task = none := by rw [superReset_eq hu]
  exact { hu' with
    begun := fun n hn => by
      have hn' : u.task = some n := hn
      rw [htask] at hn'
      cases hn' }

/-- **A start.** No delay is pending, so the assertion of the branch that is taken holds. -/
theorem Sound.start (h : Sound s) (ht : s.start r = some t) : Sound t := by
  rw [ScheduledService.start] at ht
  split at ht
  · cases ht
  next hready =>
    rw [not_not] at hready
    have hnone : s.delayTask = none := h.not_waiting (by rw [hready]; decide)
    have hnil := h.no_timers hnone
    rw [Option.some_inj] at ht
    subst ht
    set u : ScheduledService := { s.setTask s.created { state := .scheduled, running := true } with
      created := s.created + 1, task := some s.created, state := .scheduled } with hu
    have hnot : ¬ u.Begun s.created := by
      rintro (hmem | hback | hqueue)
      · exact lt_irrefl _ (h.handed _ hmem)
      · exact hback (by simp [hu, setTask])
      · exact hqueue (by simp [hu, setTask])
    have hlater : ∀ n, n < s.created → n < u.created := fun n hn => Nat.lt_succ_of_lt hn
    have hsound : Sound u := by
      refine ⟨h.assertions, Or.inl hnil, fun n hn => ?_, fun n hn hbegun => ?_, fun hr => ?_,
        fun _ hn => ?_, fun n hn => hlater n (h.handed n hn), fun n hn => hlater n (h.posted n hn),
        fun n hn => hlater n (h.pending n hn)⟩
      · have hn' : s.delayTask = some n := hn
        rw [hnone] at hn'
        cases hn'
      · cases hn
        exact absurd hbegun hnot
      · cases hr
      · cases hn
    have hunone : u.delayTask = none := hnone
    have hnow : Sound (u.executeTaskNow s.created) := by
      refine ⟨hsound.assertions, hsound.timers, fun n hn => ?_, fun _ _ _ => rfl, hsound.ready,
        hsound.busy, fun n hn => ?_, hsound.posted, hsound.pending⟩
      · have hn' : u.delayTask = some n := hn
        rw [hunone] at hn'
        cases hn'
      · rcases List.mem_append.mp hn with hmem | hmem
        · exact hsound.handed n hmem
        · rw [List.mem_singleton.mp hmem]
          exact Nat.lt_succ_self _
    have hdelay : Sound (u.schedule s.created) := by
      refine ⟨hsound.assertions, Or.inr ⟨s.created, ?_, rfl⟩, fun n hn => ?_, hsound.begun,
        hsound.ready, hsound.busy, hsound.handed, hsound.posted, fun n hn => ?_⟩
      · change s.timers ++ [s.created] = [s.created]
        rw [hnil, List.nil_append]
      · cases hn
        exact ⟨rfl, rfl, hnot⟩
      · rcases List.mem_append.mp hn with hmem | hmem
        · exact hsound.pending n hmem
        · rw [List.mem_singleton.mp hmem]
          exact Nat.lt_succ_self _
    have hcheck : u.check (u.delayTask = none) = u := check_of_true u (by simp [hunone])
    change Sound (u.executeTask r s.created)
    rw [executeTask, hcheck]
    split
    · simp only []
      split
      · exact hnow
      · exact hdelay
    · split
      · exact hdelay
      · exact hnow

/-! ## States of tasks -/

/-- Only states have changed. -/
structure Restated (s t : ScheduledService) : Prop where
  frame : t = { s with tasks := t.tasks, state := t.state }
  background : ∀ m, (t.tasks m).background = (s.tasks m).background
  queue : ∀ m, (t.tasks m).queue = (s.tasks m).queue

theorem Restated.refl (s : ScheduledService) : Restated s s := ⟨rfl, fun _ => rfl, fun _ => rfl⟩

theorem Restated.trans {u : ScheduledService} (h : Restated s t) (h' : Restated t u) :
    Restated s u := by
  refine ⟨?_, fun m => (h'.background m).trans (h.background m),
    fun m => (h'.queue m).trans (h.queue m)⟩
  rw [h'.frame, h.frame]

theorem Restated.begun_iff (h : Restated s t) (m : ℕ) : t.Begun m ↔ s.Begun m := by
  have hexecutor : t.executor = s.executor := by rw [h.frame]
  rw [Begun, Begun, hexecutor, h.background m, h.queue m]

@[simp] theorem setTask_self (s : ScheduledService) (n : ℕ) (task : Task) :
    (s.setTask n task).tasks n = task := Function.update_self ..

theorem setTask_of_ne (s : ScheduledService) (task : Task) (h : m ≠ n) :
    (s.setTask n task).tasks m = s.tasks m := Function.update_of_ne h ..

theorem restated_setTask {task : Task} (hbackground : task.background = (s.tasks n).background)
    (hqueue : task.queue = (s.tasks n).queue) : Restated s (s.setTask n task) := by
  refine ⟨rfl, fun m => ?_, fun m => ?_⟩
  · by_cases hm : m = n
    · subst hm
      rw [setTask_self, hbackground]
    · rw [setTask_of_ne _ _ hm]
  · by_cases hm : m = n
    · subst hm
      rw [setTask_self, hqueue]
    · rw [setTask_of_ne _ _ hm]

theorem restated_setState (s : ScheduledService) (n : ℕ) (value : State) :
    Restated s (s.setState n value) ∧
      ((s.setState n value).state = s.state ∨
        s.task = some n ∧ (s.setState n value).state = value) := by
  rw [setState]
  split
  · exact ⟨Restated.refl s, Or.inl rfl⟩
  · have hset : Restated s (s.setTask n { s.tasks n with
        state := value, running := value = .scheduled || value = .running }) :=
      restated_setTask rfl rfl
    simp only []
    split
    next htask => exact ⟨⟨rfl, hset.background, hset.queue⟩, Or.inr ⟨htask, rfl⟩⟩
    next => exact ⟨hset, Or.inl rfl⟩

theorem restated_cancelTask (s : ScheduledService) (n : ℕ) :
    Restated s (s.cancelTask n) ∧
      ((s.cancelTask n).state = s.state ∨ (s.cancelTask n).state = .cancelled) := by
  rw [cancelTask]
  split
  · have hset : Restated s (s.setTask n { s.tasks n with future := .cancelled }) :=
      restated_setTask rfl rfl
    obtain ⟨hrest, hstate⟩ :=
      restated_setState (s.setTask n { s.tasks n with future := .cancelled }) n .cancelled
    exact ⟨hset.trans hrest, hstate.imp id fun h => h.2⟩
  · exact ⟨Restated.refl s, Or.inl rfl⟩

/-- A change of states keeps the invariant when none waits or the state is the same. -/
theorem Sound.restated (h : Sound s) (hrest : Restated s t)
    (hstate : t.state = s.state ∨
      s.delayTask = none ∧ s.task ≠ none ∧ t.state ≠ .ready) : Sound t := by
  have hframe := hrest.frame
  have hassert : t.assertionFailed = s.assertionFailed := by rw [hframe]
  have htimers : t.timers = s.timers := by rw [hframe]
  have hdelay : t.delayTask = s.delayTask := by rw [hframe]
  have htask : t.task = s.task := by rw [hframe]
  have hfresh : t.freshStart = s.freshStart := by rw [hframe]
  have hexecutor : t.executor = s.executor := by rw [hframe]
  have hposted : t.posted = s.posted := by rw [hframe]
  have hcreated : t.created = s.created := by rw [hframe]
  refine ⟨hassert.trans h.assertions, ?_, fun n hn => ?_, fun n hn hbegun => ?_, fun hr => ?_,
    fun hbusy => ?_, ?_, ?_, ?_⟩
  · rw [htimers, hdelay]
    exact h.timers
  · rw [hdelay] at hn
    rcases hstate with hsame | ⟨hnone, -⟩
    · rw [htask, hsame, hrest.begun_iff]
      exact h.waiting n hn
    · rw [hnone] at hn
      cases hn
  · rw [htask] at hn
    rw [hfresh]
    exact h.begun n hn ((hrest.begun_iff n).mp hbegun)
  · rw [htask]
    rcases hstate with hsame | ⟨-, -, hnot⟩
    · exact h.ready (hsame.symm.trans hr)
    · exact absurd hr hnot
  · rw [htask]
    rcases hstate with hsame | ⟨-, hsome, -⟩
    · rw [hsame] at hbusy
      exact h.busy hbusy
    · exact hsome
  · rw [hexecutor, hcreated]
    exact h.handed
  · rw [hposted, hcreated]
    exact h.posted
  · rw [htimers, hcreated]
    exact h.pending

/-! ## Cancelling and restarting -/

theorem restated_superCancel (s : ScheduledService) :
    Restated s s.superCancel ∧
      (s.superCancel.state = s.state ∨ s.superCancel.state = .cancelled) := by
  rw [superCancel]
  cases htask : s.task with
  | none =>
      simp only []
      split
      · exact ⟨Restated.refl s, Or.inl rfl⟩
      · refine ⟨⟨?_, fun _ => rfl, fun _ => rfl⟩, Or.inr rfl⟩
        rw [htask]
  | some n => exact restated_cancelTask s n

/-- A cancel takes the delay back. -/
theorem Sound.cancel_eq (h : Sound s) :
    s.cancel = { s.superCancel with stop := true, timers := [], delayTask := none } := by
  have hframe := (restated_superCancel s).1.frame
  have htimers : s.superCancel.timers = s.timers := by rw [hframe]
  have hdelay : s.superCancel.delayTask = s.delayTask := by rw [hframe]
  simp only [ScheduledService.cancel, htimers, hdelay]
  cases hd : s.delayTask with
  | none =>
      have hnil := h.no_timers hd
      simp only [hnil]
  | some d =>
      rcases h.timers with hnil | ⟨n, hone, hn⟩
      · simp only [hnil, List.erase_nil]
      · rw [hd, Option.some_inj] at hn
        subst hn
        simp only [hone, List.erase_cons_head]

/-- **A cancel** leaves no delay. -/
theorem Sound.cancel (h : Sound s) : Sound s.cancel := by
  obtain ⟨hrest, hstate⟩ := restated_superCancel s
  have htask : s.superCancel.task = s.task := by rw [hrest.frame]
  have hfresh : s.superCancel.freshStart = s.freshStart := by rw [hrest.frame]
  have hexecutor : s.superCancel.executor = s.executor := by rw [hrest.frame]
  have hposted : s.superCancel.posted = s.posted := by rw [hrest.frame]
  have hcreated : s.superCancel.created = s.created := by rw [hrest.frame]
  have hassert : s.superCancel.assertionFailed = s.assertionFailed := by rw [hrest.frame]
  rw [h.cancel_eq]
  refine ⟨hassert.trans h.assertions, Or.inl rfl, nofun,
    fun n hn hbegun => ?_, fun hr => ?_, fun hbusy => ?_, ?_, ?_,
    fun n hn => absurd hn List.not_mem_nil⟩
  · exact hfresh.trans (h.begun n (htask.symm.trans hn) ((hrest.begun_iff n).mp hbegun))
  · refine htask.trans (h.ready ?_)
    rcases hstate with hsame | hcancelled
    · exact hsame.symm.trans hr
    · exact absurd (hcancelled.symm.trans hr) (by decide)
  · rcases hstate with hsame | hcancelled
    · change s.superCancel.task ≠ none
      rw [htask]
      exact h.busy (by rw [← hsame]; exact hbusy)
    · have hbusy' : s.superCancel.state = .scheduled ∨ s.superCancel.state = .running := hbusy
      rw [hcancelled] at hbusy'
      rcases hbusy' with hb | hb
      · cases hb
      · cases hb
  · change ∀ n ∈ s.superCancel.executor, n < s.superCancel.created
    rw [hexecutor, hcreated]
    exact h.handed
  · change ∀ n ∈ s.superCancel.posted, n < s.superCancel.created
    rw [hposted, hcreated]
    exact h.posted

/-- **A restart** that finds no reference to a delay. -/
theorem Sound.restart (h : Sound s) (hnone : s.delayTask = none) (ht : s.restart r = some t) :
    Sound t := by
  rw [ScheduledService.restart] at ht
  cases htask : s.task with
  | none =>
      rw [htask] at ht
      obtain ⟨u, hu, hstart⟩ := Option.bind_eq_some_iff.mp ht
      exact (h.reset hu).start hstart
  | some n =>
      rw [htask] at ht
      obtain ⟨u, hu, hstart⟩ := Option.bind_eq_some_iff.mp ht
      obtain ⟨hrest, hstate⟩ := restated_cancelTask s n
      have hdelay : (s.cancelTask n).delayTask = none := by
        rw [hrest.frame]
        exact hnone
      have hsound : Sound (s.cancelTask n) := by
        refine h.restated hrest (hstate.imp id fun hcancelled => ⟨hnone, ?_, ?_⟩)
        · rw [htask]
          simp
        · rw [hcancelled]
          decide
      exact ((hsound.without_task hdelay (by decide) (by decide)).reset hu).start hstart

/-! ## The other threads -/

theorem Sound.fire (h : Sound s) (ht : s.fire n = some t) : Sound t := by
  rw [ScheduledService.fire] at ht
  split at ht
  next hmem =>
    cases ht
    have hnil : s.timers.erase n = [] := by
      rcases h.timers with hnil | ⟨m, hone, -⟩
      · rw [hnil, List.erase_nil]
      · rw [hone, List.mem_singleton] at hmem
        rw [hone, hmem, List.erase_cons_head]
    refine ⟨h.assertions, Or.inl hnil, h.waiting, h.begun, h.ready, h.busy, h.handed,
      fun m hm => ?_, fun m hm => h.pending m (List.mem_of_mem_erase hm)⟩
    rcases List.mem_append.mp hm with hm | hm
    · exact h.posted m hm
    · rw [List.mem_singleton.mp hm]
      exact h.pending n hmem
  next => cases ht

/-- **The runnable of a delay**, with no other delay pending. -/
theorem Sound.runPosted (h : Sound s) (hnil : s.timers = []) (ht : s.runPosted = some t) :
    Sound t := by
  rw [ScheduledService.runPosted] at ht
  cases hposted : s.posted with
  | nil =>
      rw [hposted] at ht
      cases ht
  | cons n rest =>
      rw [hposted] at ht
      cases ht
      refine ⟨h.assertions, Or.inl hnil, nofun, fun _ _ _ => rfl, h.ready, h.busy,
        fun m hm => ?_, fun m hm => h.posted m (by rw [hposted]; exact List.mem_cons_of_mem n hm),
        h.pending⟩
      rcases List.mem_append.mp hm with hm | hm
      · exact h.handed m hm
      · rw [List.mem_singleton.mp hm]
        exact h.posted n (by rw [hposted]; exact List.mem_cons_self)

/-- A background thread that has nothing to do does nothing. -/
theorem step_of_idle {t : Task} (hidle : t.background = .idle) {a : Task.Action}
    (ha : a = .callReturns ∨ a = .callThrows ∨ a = .isCancelled ∨ a = .backgroundRunLater ∨
      a = .finish) : t.step a = t := by
  rcases ha with rfl | rfl | rfl | rfl | rfl
  · simp [Task.step, hidle]
  · simp [Task.step, hidle]
  · simp [Task.step, hidle]
  · simp [Task.step, hidle]
  · simp [Task.step, hidle]

/-- A thread that goes on with a task touches only what has been handed over. -/
theorem Sound.of_begun (h : Sound s) (hframe : t = { s with tasks := t.tasks, executor := t.executor })
    (hbegun : ∀ m, t.Begun m → s.Begun m) (hexecutor : ∀ m ∈ t.executor, m ∈ s.executor) :
    Sound t := by
  rw [hframe] at hbegun ⊢
  refine ⟨h.assertions, h.timers, fun m hm => ?_, fun m hm hb => h.begun m hm (hbegun m hb),
    h.ready, h.busy, fun m hm => h.handed m (hexecutor m hm), h.posted, h.pending⟩
  obtain ⟨htask, hstate, hnot⟩ := h.waiting m hm
  exact ⟨htask, hstate, fun hb => hnot (hbegun m hb)⟩

theorem begun_of_setTask {task : Task} (hn : s.Begun n) (hm : (s.setTask n task).Begun m) :
    s.Begun m := by
  by_cases hne : m = n
  · rw [hne]
    exact hn
  · rw [Begun, setTask_of_ne _ _ hne] at hm
    exact hm

theorem Sound.setTask (h : Sound s) {task : Task} (hn : s.Begun n) : Sound (s.setTask n task) :=
  h.of_begun rfl (fun _ hm => begun_of_setTask hn hm) fun _ hm => hm

theorem Sound.background {a : Task.Action} (h : Sound s) (ht : s.background n a = some t) :
    Sound t := by
  have hgoes : ∀ a : Task.Action, (a = .callReturns ∨ a = .callThrows ∨ a = .isCancelled ∨
      a = .backgroundRunLater ∨ a = .finish) → Sound (s.setTask n ((s.tasks n).step a)) := by
    intro a ha
    by_cases hidle : (s.tasks n).background = .idle
    · rw [step_of_idle hidle ha]
      have hsame : s.setTask n (s.tasks n) = s := by
        rw [ScheduledService.setTask, Function.update_eq_self]
      rw [hsame]
      exact h
    · exact h.setTask (Or.inr (Or.inl hidle))
  cases a with
  | run =>
      rw [ScheduledService.background] at ht
      split at ht
      next hmem =>
        cases ht
        refine h.of_begun rfl (fun m hm => ?_) fun m hm => List.mem_of_mem_erase hm
        have hn : s.Begun n := Or.inl hmem
        have hm' : (s.setTask n ((s.tasks n).step .run)).Begun m :=
          hm.imp List.mem_of_mem_erase id
        exact begun_of_setTask hn hm'
      next => cases ht
  | callReturns | callThrows | isCancelled | backgroundRunLater | finish =>
      cases ht
      exact hgoes _ (by simp)
  | cancelOnFxThread => cases ht
  | cancelElsewhere => cases ht
  | cancellerRunLater => cases ht
  | runNext => cases ht
  | continue_ => cases ht

/-! ## Completions -/

/-- A success lets go of the task and starts the next, or ends as cancelled. -/
theorem Sound.succeeded (h : Sound s) (hnone : s.delayTask = none) (hfresh : s.freshStart = false)
    (ht : s.succeeded r = some t) : Sound t := by
  rw [ScheduledService.succeeded] at ht
  obtain ⟨u, hu, hrest⟩ := Option.bind_eq_some_iff.mp ht
  have hsound := h.superReset hnone hu
  have hdelay : u.delayTask = none := by
    rw [superReset_eq hu]
    exact hnone
  have htask : u.task = none := by rw [superReset_eq hu]
  have hcheck : u.check (u.freshStart = false) = u := by
    refine check_of_true u ?_
    rw [superReset_eq hu]
    simp [hfresh]
  simp only [hcheck] at hrest
  split at hrest
  · cases hrest
    have hcancelled := hsound.without_task hdelay (show State.cancelled ≠ .scheduled by decide)
      (show State.cancelled ≠ .running by decide)
    rw [cancelFromReadyState]
    rw [← htask] at hcancelled
    exact hcancelled
  · exact hsound.start hrest

/-- A failure finds no reference to a delay. -/
theorem Sound.failed (h : Sound s) (hnone : s.delayTask = none) (hfresh : s.freshStart = false)
    (ht : s.failed r = some t) : Sound t := by
  have hcheck : s.check (s.delayTask = none) = s := check_of_true s (by simp [hnone])
  rw [ScheduledService.failed] at ht
  simp only [hcheck] at ht
  set v : ScheduledService := { s with currentFailureCount := s.currentFailureCount + 1 } with hv
  have hsound : Sound v := { h with }
  split at ht
  · obtain ⟨u, hu, hstart⟩ := Option.bind_eq_some_iff.mp ht
    have hreset := hsound.superReset hnone hu
    have hcheck' : u.check (u.freshStart = false) = u := by
      refine check_of_true u ?_
      rw [superReset_eq hu]
      simp [hv, hfresh]
    rw [hcheck'] at hstart
    exact hreset.start hstart
  · rw [← Option.some_inj.mp ht]
    exact hsound

/-- A state that a task enters after it has been handed over, if it is the current one. -/
theorem Sound.enterState (h : Sound s)
    (hcurrent : s.task = some n → s.delayTask = none ∧ s.freshStart = false) {value : State}
    (hvalue : value ≠ .ready) (ht : s.enterState r n value = some t) : Sound t := by
  obtain ⟨hrest, hstate⟩ := restated_setState s n value
  have hsound : Sound (s.setState n value) := by
    refine h.restated hrest (hstate.imp id fun ⟨htask, heq⟩ =>
      ⟨(hcurrent htask).1, by rw [htask]; simp, by rw [heq]; exact hvalue⟩)
  rw [ScheduledService.enterState] at ht
  split at ht
  · cases ht
    exact hsound
  next hchanged =>
    obtain ⟨htask, -⟩ := hstate.resolve_left hchanged
    obtain ⟨hnone, hfresh⟩ := hcurrent htask
    have hdelay : (s.setState n value).delayTask = none := by
      rw [hrest.frame]
      exact hnone
    have hold : (s.setState n value).freshStart = false := by
      rw [hrest.frame]
      exact hfresh
    rw [stateChanged] at ht
    split at ht
    · exact hsound.succeeded hdelay hold ht
    · exact hsound.failed hdelay hold ht
    · cases ht
      exact hsound

/-- `SCHEDULED` and `RUNNING` have no consequence. -/
theorem enterState_quiet {value : State} (hvalue : value = .scheduled ∨ value = .running) :
    s.enterState r n value = some (s.setState n value) := by
  obtain ⟨-, hstate⟩ := restated_setState s n value
  rw [ScheduledService.enterState]
  split
  · rfl
  next hchanged =>
    obtain ⟨-, heq⟩ := hstate.resolve_left hchanged
    rw [stateChanged, heq]
    rcases hvalue with rfl | rfl
    · rfl
    · rfl

theorem Sound.deliver (h : Sound s) (ht : s.deliver r n = some t) : Sound t := by
  rw [ScheduledService.deliver] at ht
  cases hqueue : (s.tasks n).queue with
  | nil =>
      rw [hqueue] at ht
      cases ht
  | cons runnable queue =>
      rw [hqueue] at ht
      have hn : s.Begun n := Or.inr (Or.inr (by rw [hqueue]; exact List.cons_ne_nil _ _))
      set u := s.setTask n { s.tasks n with queue := queue } with hu
      have hsound : Sound u := h.setTask hn
      have hcurrent : u.task = some n → u.delayTask = none ∧ u.freshStart = false :=
        fun htask => ⟨h.not_waiting_of_begun htask hn, h.begun n htask hn⟩
      cases runnable with
      | start =>
          simp only [values, List.foldlM_cons, List.foldlM_nil, bind_pure,
            enterState_quiet (Or.inl rfl), Option.bind_eq_bind, Option.bind_some] at ht
          obtain ⟨hrest, -⟩ := restated_setState u n .scheduled
          have hscheduled : Sound (u.setState n .scheduled) :=
            hsound.enterState hcurrent (by decide) (enterState_quiet (r := r) (Or.inl rfl))
          refine hscheduled.enterState (fun htask => ?_) (by decide) ht
          rw [hrest.frame] at htask ⊢
          exact hcurrent htask
      | succeed | fail | cancel =>
          simp only [values, List.foldlM_cons, List.foldlM_nil, bind_pure] at ht
          exact hsound.enterState hcurrent (by decide) ht

/-! ## Whole runs -/

/-- No assertion has failed, and at most one delay is pending. -/
def AssertionsHold (s : ScheduledService) : Prop :=
  s.assertionFailed = false ∧ s.timers.length ≤ 1

instance (s : ScheduledService) : Decidable s.AssertionsHold := inferInstanceAs (Decidable (_ ∧ _))

/-- A restart finds no reference to a delay, and the runnable of a delay no other delay that is
pending. -/
def Guarded (s : ScheduledService) : Action → Prop
  | .restart _ => s.delayTask = none
  | .runPosted => s.timers = []
  | _ => True

/-- **One step.** -/
theorem Sound.step (h : Sound s) (hguarded : s.Guarded a) (ht : s.step a = some t) : Sound t := by
  cases a with
  | start r => exact h.start ht
  | cancel =>
      cases ht
      exact h.cancel
  | restart r => exact h.restart hguarded ht
  | reset => exact h.reset ht
  | fire n => exact h.fire ht
  | runPosted => exact h.runPosted hguarded ht
  | background n a => exact h.background ht
  | deliver r n => exact h.deliver ht

theorem Sound.assertionsHold (h : Sound s) : s.AssertionsHold := by
  refine ⟨h.assertions, ?_⟩
  rcases h.timers with hnil | ⟨n, hone, -⟩
  · simp [hnil]
  · simp [hone]

instance (s : ScheduledService) : (a : Action) → Decidable (s.Guarded a)
  | .restart _ => inferInstanceAs (Decidable (s.delayTask = none))
  | .runPosted => inferInstanceAs (Decidable (s.timers = []))
  | .start _ | .cancel | .reset | .fire _ | .background _ _ | .deliver _ _ => .isTrue trivial

/-- Every step of a run is guarded, as far as the steps can be taken. -/
def GuardedFrom (s : ScheduledService) : List Action → Prop
  | [] => True
  | a :: rest => s.Guarded a ∧ ∀ t ∈ s.step a, t.GuardedFrom rest

instance decidableGuardedFrom : (s : ScheduledService) → (actions : List Action) →
    Decidable (s.GuardedFrom actions)
  | _, [] => .isTrue trivial
  | s, a :: rest =>
    have : DecidablePred fun t : ScheduledService => t.GuardedFrom rest :=
      fun t => decidableGuardedFrom t rest
    inferInstanceAs (Decidable (s.Guarded a ∧ ∀ t ∈ s.step a, t.GuardedFrom rest))

theorem GuardedFrom.take {done rest : List Action} (h : s.GuardedFrom (done ++ rest)) :
    s.GuardedFrom done := by
  induction done generalizing s with
  | nil => trivial
  | cons a done ih => exact ⟨h.1, fun t ht => ih (h.2 t ht)⟩

/-- **A run** whose steps are guarded. -/
theorem Sound.run {actions : List Action} (h : Sound s) (hguarded : s.GuardedFrom actions)
    (ht : actions.foldlM ScheduledService.step s = some t) : Sound t := by
  induction actions generalizing s with
  | nil =>
      cases ht
      exact h
  | cons a rest ih =>
      obtain ⟨u, hu, hrest⟩ := Option.bind_eq_some_iff.mp ht
      exact ih (h.step hguarded.1 hu) (hguarded.2 u hu) hrest

/-! ## Steps that are not guarded -/

/-- The service with a task that has just been created. -/
def withNewTask (s : ScheduledService) : ScheduledService :=
  { s.setTask s.created { state := .scheduled, running := true } with
    created := s.created + 1, task := some s.created, state := .scheduled }

theorem start_eq (hready : s.state = .ready) :
    s.start r = some (s.withNewTask.executeTask r s.created) := if_neg (not_not.mpr hready)

/-- The service as a `restart` resets it. -/
def letGo (s : ScheduledService) : ScheduledService :=
  match s.task with
  | some n => { s.cancelTask n with task := none, state := .cancelled }
  | none => s

theorem restart_eq : s.restart r = s.letGo.reset.bind fun s => s.start r := rfl

theorem letGo_keeps (s : ScheduledService) :
    s.letGo.delayTask = s.delayTask ∧ s.letGo.timers = s.timers := by
  rw [letGo]
  split
  next n _ =>
    have hframe := (restated_cancelTask s n).1.frame
    constructor
    · change (s.cancelTask n).delayTask = s.delayTask
      rw [hframe]
    · change (s.cancelTask n).timers = s.timers
      rw [hframe]
  next => exact ⟨rfl, rfl⟩

theorem reset_eq (ht : s.reset = some t) :
    t = { s with task := none, state := .ready, stop := false, currentFailureCount := 0,
                 freshStart := true } := by
  rw [ScheduledService.reset] at ht
  obtain ⟨u, hu, rfl⟩ := Option.map_eq_some_iff.mp ht
  rw [superReset_eq hu]

/-- A restart that finds a reference fails the assertion of the first start. -/
theorem restart_fails (h : s.delayTask ≠ none) (ht : s.restart r = some t) :
    t.assertionFailed = true := by
  rw [restart_eq] at ht
  obtain ⟨u, hu, hstart⟩ := Option.bind_eq_some_iff.mp ht
  have hreset := reset_eq hu
  have hready : u.state = .ready := by rw [hreset]
  have hfresh : u.withNewTask.freshStart = true := by
    rw [hreset]
    rfl
  have hdelay : u.withNewTask.delayTask = s.delayTask := by
    rw [hreset]
    exact s.letGo_keeps.1
  have hfails : (u.withNewTask.check (u.withNewTask.delayTask = none)).assertionFailed = true := by
    simp [check, hdelay, h]
  rw [start_eq hready, Option.some_inj, executeTask, if_pos hfresh] at hstart
  rw [← hstart]
  simp only []
  split
  · exact hfails
  · exact hfails

/-- A `restart` is not refused, and adds a delay. -/
theorem restart_adds (hbusy : s.state = .scheduled ∨ s.state = .running → s.task ≠ none)
    (hdelay : r.delay ≠ 0) : ∃ t n, s.restart r = some t ∧ t.timers = s.timers ++ [n] := by
  have hidle : ¬(s.letGo.state = .scheduled ∨ s.letGo.state = .running) := by
    rw [letGo]
    split
    next => simp
    next htask => exact fun hb => hbusy hb htask
  obtain ⟨u, hu⟩ : ∃ u, s.letGo.reset = some u := by
    rw [ScheduledService.reset, ScheduledService.superReset, if_neg hidle]
    exact ⟨_, rfl⟩
  have hreset := reset_eq hu
  have hready : u.state = .ready := by rw [hreset]
  have hfresh : u.withNewTask.freshStart = true := by
    rw [hreset]
    rfl
  refine ⟨_, u.created, by rw [restart_eq, hu, Option.bind_some, start_eq hready], ?_⟩
  rw [executeTask, if_pos hfresh]
  simp only [if_neg hdelay]
  change u.timers ++ [u.created] = s.timers ++ [u.created]
  have htimers : u.timers = s.letGo.timers := by rw [hreset]
  rw [htimers, s.letGo_keeps.2]

/-- After the runnable of another delay the pending one is not referred to, and a restart adds a
second. -/
theorem runPosted_parts (h : Sound s) (hpending : s.timers ≠ []) (ht : s.runPosted = some t)
    (hdelay : r.delay ≠ 0) : ∃ u, t.restart r = some u ∧ 1 < u.timers.length := by
  have hkeeps : t.state = s.state ∧ t.task = s.task ∧ t.timers = s.timers := by
    rw [ScheduledService.runPosted] at ht
    split at ht
    · cases ht
    · cases ht
      exact ⟨rfl, rfl, rfl⟩
  obtain ⟨hstate, htask, htimers⟩ := hkeeps
  obtain ⟨u, n, hu, hadds⟩ := restart_adds (s := t) (by rw [hstate, htask]; exact h.busy) hdelay
  refine ⟨u, hu, ?_⟩
  rw [hadds, htimers, List.length_append]
  have hpos := List.length_pos_iff.mpr hpending
  simp only [List.length_singleton]
  omega

/-- **The assertions hold while every step is guarded.** After the first step that is not guarded
one has failed, or the next `restart` with a delay makes a second delay pending. -/
theorem assertions_hold_while_guarded (actions : List Action)
    (hguarded : GuardedFrom {} actions) :
    (∀ done rest, actions = done ++ rest → ∀ s, afterSteps done = some s → s.AssertionsHold) ∧
    ∀ s a t, afterSteps actions = some s → s.step a = some t → ¬ s.Guarded a →
      ¬ t.AssertionsHold ∨
        ∀ r : Reading, r.delay ≠ 0 → ∃ u, t.restart r = some u ∧ ¬ u.AssertionsHold := by
  refine ⟨fun done rest heq s hs => ?_, fun s a t hs ht hnot => ?_⟩
  · rw [heq] at hguarded
    exact (sound_new.run hguarded.take hs).assertionsHold
  · have hsound := sound_new.run hguarded hs
    cases a with
    | restart r =>
        have hfails := restart_fails hnot ht
        exact Or.inl fun hholds => by simp [hholds.1] at hfails
    | runPosted =>
        refine Or.inr fun r hdelay => ?_
        obtain ⟨u, hu, hmore⟩ := runPosted_parts hsound hnot ht hdelay
        exact ⟨u, hu, fun hholds => absurd hholds.2 (by omega)⟩
    | start r => exact absurd trivial hnot
    | cancel => exact absurd trivial hnot
    | reset => exact absurd trivial hnot
    | fire n => exact absurd trivial hnot
    | background n a => exact absurd trivial hnot
    | deliver r n => exact absurd trivial hnot

/-- A delay of five seconds before the first task and between two tasks. -/
def everyFive : Reading :=
  { delay := 5, waits := true, restartOnFailure := true, maximumFailureCount := 3 }

/-- A run over two iterations, of which the second is cancelled while its task waits. -/
def twoIterations : List Action :=
  [.start everyFive, .fire 0, .runPosted, .background 0 .run, .background 0 .callReturns,
    .background 0 .isCancelled, .background 0 .backgroundRunLater, .background 0 .finish,
    .deliver everyFive 0, .deliver everyFive 0, .cancel, .reset, .start everyFive]

theorem two_iterations_hold :
    (∃ s, afterSteps twoIterations = some s ∧ s.timers = [2] ∧ s.delayTask = some 2) ∧
    (∀ done rest, twoIterations = done ++ rest → ∀ s, afterSteps done = some s → s.AssertionsHold) := by
  refine ⟨⟨_, rfl, ?_⟩, (assertions_hold_while_guarded twoIterations (by decide)).1⟩
  decide

/-- A service that is restarted before its first delay is over. -/
theorem restart_before_delay : ∃ s, afterSteps [.start everyFive, .restart everyFive] = some s ∧
    s.assertionFailed = true ∧ s.timers = [0, 1] := by
  refine ⟨_, rfl, ?_⟩
  decide

end JavaFx.Concurrent.ScheduledService
