import JavaFx.Lib.Runs
import Mathlib.Data.List.Count

/-!
# Coalesced updates of a `Task`

`updateMessage`, `updateTitle`, `updateValue` and `updateProgress` put what they are given into
an `AtomicReference` and post a runnable if the reference was null before; the runnable takes the
content out again and sets the property. A null that has been put there looks like nothing posted,
so the next call posts a second runnable, and the last of several runnables finds null.
-/

namespace JavaFx.Concurrent

open Runs

/-- The four references of a task. -/
inductive Channel where
  | message
  | title
  | value
  | progress
deriving DecidableEq

/-- `ProgressUpdate`, with numbers of type `D`. -/
structure ProgressUpdate (D : Type) where
  workDone : D
  totalWork : D

/-- What the references hold, for a task with values of type `V`. -/
abbrev Channel.Content (V D : Type) : Channel → Type
  | message => String
  | title => String
  | value => V
  | progress => ProgressUpdate D

variable {V D : Type}

/-- The references, the properties (null is `none`), the runnables in the queue of the FX thread,
each for its channel, and the channel for which the background thread is about to post one. -/
structure Updates (V D : Type) where
  update : ∀ c : Channel, Option (c.Content V D) := fun _ => none
  property : ∀ c : Channel, Option (c.Content V D)
  queue : List Channel := []
  posting : Option Channel := none

namespace Updates

def setUpdate (s : Updates V D) (c : Channel) (x : Option (c.Content V D)) : Updates V D :=
  { s with update := Function.update s.update c x }

def setProperty (s : Updates V D) (c : Channel) (x : Option (c.Content V D)) : Updates V D :=
  { s with property := Function.update s.property c x }

/-- The method that all four are: on the FX thread the property is set; elsewhere
`if (update.getAndSet(x) == null) runLater(..)`, up to the call of `runLater`. -/
def call (isFxApplicationThread : Bool) (c : Channel) (x : Option (c.Content V D))
    (s : Updates V D) : Updates V D :=
  if isFxApplicationThread then s.setProperty c x
  else
    match s.update c with
    | none => { s.setUpdate c x with posting := some c }
    | some _ => s.setUpdate c x

def updateMessage (isFxApplicationThread : Bool) (message : Option String) :
    Updates V D → Updates V D :=
  call isFxApplicationThread .message message

def updateTitle (isFxApplicationThread : Bool) (title : Option String) :
    Updates V D → Updates V D :=
  call isFxApplicationThread .title title

def updateValue (isFxApplicationThread : Bool) (value : Option V) : Updates V D → Updates V D :=
  call isFxApplicationThread .value value

/-- `updateProgress(workDone, max)` with the numbers adjusted; the reference gets an object. -/
def updateProgress (isFxApplicationThread : Bool) (workDone max : D) :
    Updates V D → Updates V D :=
  call isFxApplicationThread .progress (some ⟨workDone, max⟩)

/-- The runnable: `property.set(update.getAndSet(null))`. -/
def runnable (c : Channel) (s : Updates V D) : Updates V D :=
  (s.setProperty c (s.update c)).setUpdate c none

/-- What the two threads do next. -/
inductive Action (V D : Type) where
  /-- A call by the background thread. -/
  | background (c : Channel) (x : Option (c.Content V D))
  /-- The background thread posts the runnable. -/
  | runLater
  /-- A call on the FX thread. -/
  | onFxThread (c : Channel) (x : Option (c.Content V D))
  /-- The FX thread runs the first runnable of its queue. -/
  | runNext

/-- One step of an interleaving; there is none where the background thread is not done with its
last call, or the queue is empty. -/
def step (s : Updates V D) : Action V D → Except Unit (Updates V D)
  | .background c x => if s.posting = none then .ok (s.call false c x) else .error ()
  | .runLater =>
      match s.posting with
      | some c => .ok { s with queue := s.queue ++ [c], posting := none }
      | none => .error ()
  | .onFxThread c x => .ok (s.call true c x)
  | .runNext =>
      match s.queue with
      | c :: queue => .ok ({ s with queue := queue }.runnable c)
      | [] => .error ()

/-- A call for the channel, by whichever thread. -/
def Action.calls (c : Channel) : Action V D → Bool
  | .background d _ => d = c
  | .onFxThread d _ => d = c
  | .runLater => false
  | .runNext => false

/-- The runnables of a channel that are posted or about to be. -/
def pending (s : Updates V D) (c : Channel) : ℕ :=
  s.queue.count c + if s.posting = some c then 1 else 0

/-- The queue has been drained. -/
def Drained (s : Updates V D) : Prop := s.queue = [] ∧ s.posting = none

/-! ## What one step does to a channel -/

/-- What a step can do to the reference, the property and the pending runnables of a channel. -/
inductive Moves (s s' : Updates V D) (c : Channel) : Prop where
  | idle (update : s'.update c = s.update c) (property : s'.property c = s.property c)
      (pending : s'.pending c = s.pending c)
  | takes (update : s'.update c = none) (property : s'.property c = s.update c)
      (pending : s.pending c = s'.pending c + 1)

/-- A step that is no call for the channel leaves it alone, or is one of its runnables. -/
theorem step_moves {s s' : Updates V D} {a : Action V D} {c : Channel}
    (hstep : s.step a = .ok s') (hcall : a.calls c = false) : Moves s s' c := by
  cases a with
  | background d x =>
      have hne : d ≠ c := of_decide_eq_false hcall
      rw [step] at hstep
      split at hstep
      · next hposting =>
          cases hstep
          rw [call, if_neg Bool.false_ne_true]
          cases hd : s.update d with
          | none =>
              refine .idle (Function.update_of_ne hne.symm _ _) rfl ?_
              simp only [pending, setUpdate, hposting, Option.some.injEq, hne, reduceCtorEq]
          | some y => exact .idle (Function.update_of_ne hne.symm _ _) rfl rfl
      · cases hstep
  | runLater =>
      rw [step] at hstep
      split at hstep
      · next d hposting =>
          cases hstep
          refine .idle rfl rfl ?_
          simp only [pending, hposting, List.count_append, List.count_singleton, beq_iff_eq,
            Option.some.injEq, reduceCtorEq, if_false, Nat.add_zero]
      · cases hstep
  | onFxThread d x =>
      have hne : d ≠ c := of_decide_eq_false hcall
      cases hstep
      rw [call, if_pos rfl]
      exact .idle rfl (Function.update_of_ne hne.symm _ _) rfl
  | runNext =>
      rw [step] at hstep
      split at hstep
      · next d queue hqueue =>
          cases hstep
          have hafter : ({ s with queue := queue }.runnable d).pending c =
              queue.count c + if s.posting = some c then 1 else 0 := rfl
          by_cases hd : d = c
          · subst hd
            refine .takes (Function.update_self ..) (Function.update_self ..) ?_
            rw [hafter, pending, hqueue, List.count_cons_self]
            omega
          · refine .idle (Function.update_of_ne (Ne.symm hd) _ _)
              (Function.update_of_ne (Ne.symm hd) _ _) ?_
            rw [hafter, pending, hqueue, List.count_cons_of_ne hd]
      · cases hstep

/-- A call by the background thread fills the reference and sees to a runnable. -/
theorem background_moves {s s' : Updates V D} {c : Channel} {x : Option (c.Content V D)}
    (hstep : s.step (.background c x) = .ok s') : s'.update c = x ∧
      s'.pending c = s.pending c + if s.update c = none then 1 else 0 := by
  rw [step] at hstep
  split at hstep
  · next hposting =>
      cases hstep
      rw [call, if_neg Bool.false_ne_true]
      cases hc : s.update c with
      | none =>
          refine ⟨Function.update_self .., ?_⟩
          simp [pending, setUpdate, hposting]
      | some y =>
          exact ⟨Function.update_self .., (Nat.add_zero _).symm⟩
  · cases hstep

/-! ## Runs -/

/-- A reference that is not null has a runnable that will see to it. -/
def Attended (s : Updates V D) : Prop := ∀ c, s.update c ≠ none → 1 ≤ s.pending c

theorem attended_step {s s' : Updates V D} {a : Action V D} (h : s.Attended)
    (hstep : s.step a = .ok s') : s'.Attended := by
  intro c hc
  by_cases hcall : a.calls c = true
  · cases a with
    | background d x =>
        obtain rfl : d = c := of_decide_eq_true hcall
        obtain ⟨-, hpending⟩ := background_moves hstep
        rw [hpending]
        split
        · omega
        · next hsome => exact h d hsome
    | onFxThread d x =>
        cases hstep
        exact h c hc
    | runLater => cases hcall
    | runNext => cases hcall
  · cases step_moves hstep (Bool.eq_false_iff.mpr hcall) with
    | idle hupdate _ hpending =>
        rw [hpending]
        exact h c (hupdate ▸ hc)
    | takes hupdate => exact absurd hupdate hc

theorem attended_run {s s' : Updates V D} {actions : List (Action V D)} (h : s.Attended)
    (hrun : runAll step s actions = .ok s') : s'.Attended := by
  induction actions generalizing s with
  | nil =>
      cases hrun
      exact h
  | cons a actions ih =>
      rw [runAll] at hrun
      cases hstep : s.step a with
      | error e =>
          rw [hstep] at hrun
          cases hrun
      | ok t =>
          rw [hstep] at hrun
          exact ih (attended_step h hstep) hrun

/-- A property of the channel that survives `Moves` survives a run without calls for it. -/
theorem run_of_moves {c : Channel} {I : Updates V D → Prop}
    (hmoves : ∀ s s', I s → Moves s s' c → I s') {s s' : Updates V D}
    {actions : List (Action V D)} (hcalls : ∀ a ∈ actions, a.calls c = false) (h : I s)
    (hrun : runAll step s actions = .ok s') : I s' := by
  induction actions generalizing s with
  | nil =>
      cases hrun
      exact h
  | cons a actions ih =>
      rw [runAll] at hrun
      cases hstep : s.step a with
      | error e =>
          rw [hstep] at hrun
          cases hrun
      | ok t =>
          rw [hstep] at hrun
          refine ih (fun b hb => hcalls b (List.mem_cons_of_mem _ hb)) ?_ hrun
          exact hmoves s t h (step_moves hstep (hcalls a (List.mem_cons_self ..)))

/-- What becomes of a value `x` behind which `n` runnables are pending: the first of them sets
the property to it, the others set it to null. -/
inductive Follows (c : Channel) (x : Option (c.Content V D)) (n : ℕ) (s : Updates V D) : Prop where
  | waiting (update : s.update c = x) (pending : s.pending c = n)
  | shown (update : s.update c = none) (property : s.property c = x)
      (pending : s.pending c + 1 = n)
  | lost (update : s.update c = none) (property : s.property c = none)
      (pending : s.pending c + 1 < n)

theorem follows_moves {c : Channel} {x : Option (c.Content V D)} {n : ℕ} {s s' : Updates V D}
    (h : Follows c x n s) (hmoves : Moves s s' c) : Follows c x n s' := by
  cases hmoves with
  | idle hupdate hproperty hpending =>
      cases h with
      | waiting u p => exact .waiting (hupdate.trans u) (hpending.trans p)
      | shown u q p => exact .shown (hupdate.trans u) (hproperty.trans q) (by omega)
      | lost u q p => exact .lost (hupdate.trans u) (hproperty.trans q) (by omega)
  | takes hupdate hproperty hpending =>
      cases h with
      | waiting u p => exact .shown hupdate (hproperty.trans u) (by omega)
      | shown u q p | lost u q p => exact .lost hupdate (hproperty.trans u) (by omega)

/-- What has become of the last value when the queue has been drained, by the number of runnables
that its call has left pending. -/
theorem follows_last {s t : Updates V D} {c : Channel} {x : Option (c.Content V D)}
    {after : List (Action V D)} (hattended : s.Attended)
    (hrun : runAll step s (.background c x :: after) = .ok t)
    (hlast : ∀ a ∈ after, a.calls c = false) (hdrained : t.Drained) :
    ∃ n, n = s.pending c + (if s.update c = none then 1 else 0) ∧ 1 ≤ n ∧
      (t.property c = x ∧ n = 1 ∨ t.property c = none ∧ 1 < n) := by
  rw [runAll] at hrun
  cases hstep : s.step (.background c x) with
  | error e =>
      rw [hstep] at hrun
      cases hrun
  | ok s' =>
      rw [hstep] at hrun
      obtain ⟨hupdate, hpending⟩ := background_moves hstep
      have hfollows : Follows c x (s'.pending c) t :=
        run_of_moves (fun _ _ => follows_moves) hlast (.waiting hupdate rfl) hrun
      have hzero : t.pending c = 0 := by
        rw [pending, hdrained.1, hdrained.2]
        rfl
      have hpos : 1 ≤ s'.pending c := by
        rw [hpending]
        split
        · omega
        · next hsome => exact hattended c hsome
      refine ⟨s'.pending c, hpending, hpos, ?_⟩
      cases hfollows with
      | waiting _ p => omega
      | shown _ q p => exact .inl ⟨q, by omega⟩
      | lost _ q p => exact .inr ⟨q, by omega⟩

/-- **When the last value is shown.** In every interleaving, once the queue has been drained the
property has the value of the last call of the background thread if and only if the value is null,
or the call left exactly one runnable pending: there was none and the reference was null, or one
and it was not. -/
theorem last_value_iff {s t : Updates V D} {c : Channel} {x : Option (c.Content V D)}
    {initial : ∀ c : Channel, Option (c.Content V D)} {before after : List (Action V D)}
    (hbefore : runAll step { property := initial } before = .ok s)
    (hrun : runAll step s (.background c x :: after) = .ok t)
    (hlast : ∀ a ∈ after, a.calls c = false) (hdrained : t.Drained) :
    t.property c = x ↔ x = none ∨ (s.update c = none ∧ s.pending c = 0) ∨
      (s.update c ≠ none ∧ s.pending c = 1) := by
  have hattended : s.Attended := attended_run (fun c hc => absurd rfl hc) hbefore
  obtain ⟨n, hn, hpos, hresult⟩ := follows_last hattended hrun hlast hdrained
  have hone : n = 1 ↔ (s.update c = none ∧ s.pending c = 0) ∨
      (s.update c ≠ none ∧ s.pending c = 1) := by
    rw [hn]
    by_cases hnone : s.update c = none
    · simp [hnone]
    · simp [hnone]
  rw [← hone]
  rcases hresult with ⟨hproperty, hn1⟩ | ⟨hproperty, hn1⟩
  · exact iff_of_true hproperty (.inr hn1)
  · rw [hproperty]
    constructor
    · exact fun h => .inl h.symm
    · rintro (rfl | h)
      · rfl
      · omega

/-! ### Null in between -/

/-- Nothing has been posted yet. -/
def fresh : Updates String ℕ where
  property _ := none

theorem last_value_iff_single : ∃ t, runAll step fresh
    [.background .value (some "a"), .runLater, .runNext] = .ok t ∧
      t.property .value = some "a" := by
  have hbefore : runAll step { property := fun _ => none } [] = .ok fresh := rfl
  have hrun : runAll step fresh (.background .value (some "a") :: [.runLater, .runNext]) =
    .ok _ := rfl
  refine ⟨_, hrun, (last_value_iff hbefore hrun ?_ ⟨rfl, rfl⟩).mpr ?_⟩
  · intro a ha
    rcases List.mem_cons.mp ha with rfl | ha
    · rfl
    · rw [List.mem_singleton.mp ha]
      rfl
  · exact .inr (.inl ⟨rfl, rfl⟩)

/-- The value null and then `"a"`, with no drain in between: null is left. -/
theorem value_lost_behind_null : ∃ t, runAll step fresh
    [.background .value none, .runLater, .background .value (some "a"), .runLater, .runNext,
      .runNext] = .ok t ∧ t.Drained ∧ t.property .value ≠ some "a" := by
  refine ⟨_, rfl, ⟨rfl, rfl⟩, ?_⟩
  exact fun h => nomatch h

end Updates

end JavaFx.Concurrent
