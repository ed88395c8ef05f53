import JavaFx.Concurrent.TaskProtocol

/-!
# Every task ends

A listener can disturb the protocol of a task, but it cannot keep the task from its end: whatever
the interleaving, once the background thread is done and nothing is under way on the FX thread,
the task is in a terminal state. So no task stays `SCHEDULED` or `RUNNING`.
-/

namespace JavaFx.Concurrent.Task

variable {t t' : Task}

/-- The state is going to be set. -/
def Coming (t : Task) (s : State) : Prop :=
  .setState s ∈ t.instrs ∨ (∃ r ∈ t.queue, .setState s ∈ r.run) ∨
    (t.canceller = true ∧ s = .cancelled)

/-- The task is in a terminal state or is going to be set to one. -/
def Ends (t : Task) : Prop :=
  t.state.isTerminal = true ∨ ∃ s, s.isTerminal = true ∧ t.Coming s

theorem Ends.mono (h : t.Ends) (hstate : t'.state = t.state)
    (hcoming : ∀ s, t.Coming s → t'.Coming s) : t'.Ends := by
  rcases h with h | ⟨s, hs, h⟩
  · exact .inl (hstate ▸ h)
  · exact .inr ⟨s, hs, hcoming s h⟩

/-- **What every step keeps**, whether it is disturbed or not. -/
structure Ending (t : Task) : Prop where
  ordered : t.Ordered
  ends : t.background = .finishing ∨ t.background = .finished ∨ t.future ≠ .new → t.Ends

theorem ending_init : Ending {} := by
  refine ⟨⟨[], 0, rfl, le_refl _, rfl, .inr rfl⟩, ?_⟩
  rintro (h | h | h)
  · cases h
  · cases h
  · exact absurd rfl h

/-! ## The background thread and the canceller -/

theorem coming_runLater {r : Runnable} {s : State} (h : t.Coming s) : (t.runLater r).Coming s :=
  h.imp_right fun h => h.imp_left fun ⟨r, hr, hs⟩ => ⟨r, List.mem_append_left _ hr, hs⟩

theorem coming_posted {r : Runnable} {s : State} (hs : .setState s ∈ r.run) :
    (t.runLater r).Coming s :=
  .inr (.inl ⟨r, List.mem_append_right _ (List.mem_singleton_self r), hs⟩)

/-- The background thread goes on without posting anything. -/
theorem Ending.goesOn (h : t.Ending) {b : Background}
    (hposted : ∀ posted, Posted t.background posted → Posted b posted)
    (hb : b = .finishing ∨ b = .finished → t.future ≠ .new) :
    Ending { t with background := b } where
  ordered := h.ordered.moves hposted rfl rfl
  ends hend := by
    refine h.ends (.inr (.inr ?_))
    rcases hend with hend | hend | hend
    · exact hb (.inl hend)
    · exact hb (.inr hend)
    · exact hend

theorem Ending.run (h : t.Ending) : (t.step .run).Ending := by
  rw [step]
  split
  · next hidle =>
      have hnothing : ∀ posted, Posted t.background posted → posted = [] := by
        intro posted hposted
        rw [hidle] at hposted
        exact hposted
      split
      · next hnew =>
          refine ⟨h.ordered.posts [.scheduled, .running] (fun posted hposted => ?_)
            (planned_runLater _ _) rfl, ?_⟩
          · rw [hnothing posted hposted]
            rfl
          · rintro (hend | hend | hend)
            · cases hend
            · cases hend
            · exact absurd hnew hend
      · next hold =>
          exact h.goesOn (fun posted hposted => .inl (hnothing posted hposted)) fun _ => hold
  · exact h

theorem Ending.posts (h : t.Ending) {r : Runnable} {s : State}
    (hback : Posted t.background = Posted .calling) (hrun : r.run = [.setState s])
    (hs : s = .succeeded ∨ s = .failed) :
    ({ t with background := .finishing }.runLater r).Ending where
  ordered := by
    refine h.ordered.posts [s] (fun posted hposted => ?_) ?_ rfl
    · rw [hback] at hposted
      rw [show posted = [.scheduled, .running] from hposted]
      exact .inr ⟨s, hs, rfl⟩
    · rw [planned_runLater, hrun]
      rcases hs with rfl | rfl
      · rfl
      · rfl
  ends _ := by
    refine .inr ⟨s, ?_, coming_posted (by rw [hrun]; exact List.mem_singleton_self _)⟩
    rcases hs with rfl | rfl
    · rfl
    · rfl

theorem Ending.finish (h : t.Ending) : (t.step .finish).Ending := by
  rw [step]
  split
  · next hfinishing =>
      refine ⟨h.ordered.moves (fun posted hposted => ?_) rfl rfl,
        fun _ => (h.ends (.inl hfinishing)).mono rfl fun _ h => h⟩
      rw [hfinishing] at hposted
      exact .inr hposted
  · exact h

theorem Ending.cancelOnFxThread (h : t.Ending) : (t.step .cancelOnFxThread).Ending := by
  rw [step]
  split
  · exact ⟨h.ordered.moves (fun _ hposted => hposted) rfl rfl,
      fun _ => .inr ⟨.cancelled, rfl, .inl List.mem_cons_self⟩⟩
  · exact h

theorem Ending.cancelElsewhere (h : t.Ending) : (t.step .cancelElsewhere).Ending := by
  rw [step]
  split
  · exact ⟨h.ordered.moves (fun _ hposted => hposted) rfl rfl,
      fun _ => .inr ⟨.cancelled, rfl, .inr (.inr ⟨rfl, rfl⟩)⟩⟩
  · exact h

/-- What is to be set is only passed on. -/
theorem Ending.passes (h : t.Ending) (hback : t'.background = t.background)
    (hfuture : t'.future = t.future) (hstate : t'.state = t.state)
    (hplanned : t'.planned = t.planned) (hcoming : ∀ s, t.Coming s → t'.Coming s) : t'.Ending where
  ordered := h.ordered.moves (fun _ hposted => hback ▸ hposted) hplanned hstate
  ends hend := by
    rw [hback, hfuture] at hend
    exact (h.ends hend).mono hstate hcoming

theorem Ending.cancellerRunLater (h : t.Ending) : (t.step .cancellerRunLater).Ending := by
  rw [step]
  split
  · refine h.passes rfl rfl rfl ?_ fun s hs => ?_
    · rw [planned_runLater]
      exact List.append_nil _
    · rcases hs with hs | ⟨r, hr, hs⟩ | ⟨-, rfl⟩
      · exact .inl hs
      · exact .inr (.inl ⟨r, List.mem_append_left _ hr, hs⟩)
      · exact coming_posted (List.mem_singleton_self _)
  · exact h

/-! ## The FX thread -/

theorem Ending.runNext (h : t.Ending) : (t.step .runNext).Ending := by
  rw [step]
  split
  · next r queue hinstrs hqueue =>
      refine h.passes rfl rfl rfl ?_ fun s hs => ?_
      · rw [planned, planned, hinstrs, hqueue]
        rfl
      · rw [Coming, hinstrs, hqueue] at hs
        rcases hs with hs | ⟨r', hr, hs⟩ | hs
        · cases hs
        · rcases List.mem_cons.mp hr with rfl | hr
          · exact .inl hs
          · exact .inr (.inl ⟨r', hr, hs⟩)
        · exact .inr (.inr hs)
  · exact h

theorem coming_pop {i : Instr} {instrs : List Instr} (hinstrs : t.instrs = i :: instrs) {s : State}
    (h : t.Coming s) : i = .setState s ∨ Coming { t with instrs := instrs } s := by
  rw [Coming, hinstrs, List.mem_cons] at h
  rcases h with (h | h) | h
  · exact .inl h.symm
  · exact .inr (.inl h)
  · exact .inr (.inr h)

/-- An instruction that sets nothing. -/
theorem Ending.pops (h : t.Ending) {i : Instr} {instrs : List Instr}
    (hinstrs : t.instrs = i :: instrs) (hplans : plans i = []) (hi : ∀ s, i ≠ .setState s) :
    Ending { t with instrs := instrs } := by
  have hplanned := planned_cons t hinstrs
  rw [hplans, List.nil_append] at hplanned
  exact h.passes rfl rfl rfl hplanned.symm fun s hs => (coming_pop hinstrs hs).resolve_left (hi s)

theorem Ending.setState (h : t.Ending) {v : State} {instrs : List Instr}
    (hinstrs : t.instrs = .setState v :: instrs) :
    (setState v { t with instrs := instrs }).Ending := by
  have hplanned := planned_cons t hinstrs
  rw [plans] at hplanned
  rw [Task.setState]
  by_cases hstate : t.state = .cancelled
  · rw [if_neg (not_not_intro hstate)]
    refine ⟨?_, fun _ => .inl (by rw [hstate]; rfl)⟩
    by_cases hv : v = .cancelled
    · rw [if_pos hv, List.nil_append] at hplanned
      exact h.ordered.moves (fun _ hposted => hposted) hplanned.symm rfl
    · rw [if_neg hv] at hplanned
      exact h.ordered.advance hplanned rfl (.inl hstate)
  · rw [if_pos hstate]
    by_cases hv : v = .cancelled
    · rw [if_pos hv, List.nil_append] at hplanned
      obtain ⟨posted, k, hposted, hk, hdrop, -⟩ := h.ordered
      exact ⟨⟨posted, k, hposted, hk, hplanned ▸ hdrop, .inl hv⟩, fun _ => .inl (by rw [hv]; rfl)⟩
    · rw [if_neg hv] at hplanned
      refine ⟨h.ordered.advance hplanned rfl (.inr rfl), fun hend => ?_⟩
      -- nothing else than `CANCELLED` is set over a terminal state
      have hopen := (h.ordered.next hplanned hstate).1
      rcases h.ends hend with hterminal | ⟨s, hs, hcoming⟩
      · rw [hopen] at hterminal
        cases hterminal
      · rcases coming_pop hinstrs hcoming with hset | hcoming
        · cases hset
          exact .inl hs
        · refine .inr ⟨s, hs, hcoming.imp_left fun hmem => ?_⟩
          exact List.mem_cons_of_mem _ (List.mem_cons_of_mem _ hmem)

theorem Ending.continue_ (h : t.Ending) : (t.step .continue_).Ending := by
  rw [step]
  cases hinstrs : t.instrs with
  | nil => exact h
  | cons i instrs =>
      cases i with
      | setState v => exact h.setState hinstrs
      | setRunning v =>
          exact (h.pops hinstrs rfl (fun _ hi => by cases hi)).passes rfl rfl rfl rfl fun _ h => h
      | fireEvent v =>
          change (fireEvent { t with instrs := instrs }).Ending
          rw [fireEvent]
          split
          · exact h.pops hinstrs rfl fun _ hi => by cases hi
          · exact (h.pops hinstrs rfl (fun _ hi => by cases hi)).passes rfl rfl rfl rfl fun _ h => h

/-! ## Whole interleavings -/

theorem Ending.step (h : t.Ending) (a : Action) : (t.step a).Ending := by
  have hgoesOn : ∀ {b b' : Background}, t.background = b → Posted b = Posted b' →
      ¬(b' = .finishing ∨ b' = .finished) → Ending { t with background := b' } := by
    intro b b' hback hposted hb'
    refine h.goesOn (fun posted hp => ?_) fun hend => absurd hend hb'
    rwa [← hposted, ← hback]
  cases a with
  | run => exact h.run
  | callReturns =>
      rw [Task.step]
      split
      · next hback => exact hgoesOn hback rfl (by decide)
      · exact h
  | callThrows =>
      rw [Task.step]
      split
      · next hback => exact hgoesOn hback rfl (by decide)
      · exact h
  | isCancelled =>
      rw [Task.step]
      split
      · next hback =>
          split
          · exact hgoesOn hback rfl (by decide)
          · next hfuture =>
              split
              · exact hgoesOn hback rfl (by decide)
              · refine h.goesOn (fun posted hposted => ?_) fun _ => ?_
                · rw [hback] at hposted
                  exact .inl hposted
                · rw [not_not.mp hfuture]
                  decide
      · exact h
  | backgroundRunLater =>
      rw [Task.step]
      split
      · next hback => exact h.posts (by rw [hback]; rfl) rfl (.inl rfl)
      · next hback => exact h.posts (by rw [hback]; rfl) rfl (.inr rfl)
      · exact h
  | finish => exact h.finish
  | cancelOnFxThread => exact h.cancelOnFxThread
  | cancelElsewhere => exact h.cancelElsewhere
  | cancellerRunLater => exact h.cancellerRunLater
  | runNext => exact h.runNext
  | continue_ => exact h.continue_

/-- **Every task ends.** In every interleaving, disturbed or not, a task that has been run to its
end or cancelled is in a terminal state as soon as nothing is under way. -/
theorem terminal_of_quiet (actions : List Action)
    (hend : (actions.foldl Task.step {}).background = .finished ∨
      (actions.foldl Task.step {}).future = .cancelled)
    (hquiet : (actions.foldl Task.step {}).Quiet) :
    (actions.foldl Task.step {}).state.isTerminal = true := by
  have h : (actions.foldl Task.step {}).Ending := by
    clear hend hquiet
    induction actions using List.reverseRecOn with
    | nil => exact ending_init
    | append_singleton actions a ih =>
        rw [List.foldl_concat]
        exact ih.step a
  have hends : (actions.foldl Task.step {}).Ends := by
    refine h.ends (.inr (hend.imp_right fun hcancelled => ?_))
    rw [hcancelled]
    decide
  rcases hends with hterminal | ⟨s, -, hs⟩
  · exact hterminal
  · rw [Coming, hquiet.instrs, hquiet.queue, hquiet.canceller] at hs
    rcases hs with hs | ⟨r, hr, -⟩ | ⟨hs, -⟩
    · cases hs
    · cases hr
    · cases hs

/-- A listener cancels the task when it is told of the success. -/
theorem terminal_of_quiet_disturbed :
    (([.run, .callReturns, .isCancelled, .backgroundRunLater, .runNext, .continue_, .continue_,
      .continue_, .continue_, .continue_, .continue_, .runNext, .continue_, .cancelOnFxThread,
      .continue_, .continue_, .continue_, .continue_, .continue_, .finish] :
        List Action).foldl Task.step {}).state.isTerminal = true :=
  terminal_of_quiet _ (.inl rfl) ⟨rfl, rfl, rfl⟩

end JavaFx.Concurrent.Task
