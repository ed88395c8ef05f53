import JavaFx.Lib.Runs
import Mathlib.Data.List.Count

/-!
# The states of a `Task`

A task is a `FutureTask` with a state of its own, which only the FX thread changes. The background
thread and a canceller post runnables that call `setState`; `setState` does nothing once the state
is `CANCELLED`, and nothing else guards it.

A step is one action of one party. The FX thread works off a stack of instructions, so that a
listener or an event handler can call `cancel` in the middle of a `setState`.
-/

namespace JavaFx.Concurrent

inductive State where
  | ready
  | scheduled
  | running
  | succeeded
  | cancelled
  | failed
deriving DecidableEq

def State.isTerminal : State → Bool
  | succeeded => true
  | cancelled => true
  | failed => true
  | ready => false
  | scheduled => false
  | running => false

/-- The state of the `FutureTask`. -/
inductive Future where
  | new
  | cancelled
  | done
deriving DecidableEq

/-- Where the background thread is. -/
inductive Background where
  | idle
  /-- in the call of `task.call()` -/
  | calling
  /-- before `isCancelled()` -/
  | returned
  /-- about to post the result -/
  | succeeding
  /-- in the `catch` block, about to post the exception -/
  | failing
  /-- about to leave `TaskCallable.call()` -/
  | finishing
  | finished
deriving DecidableEq

/-- The runnables that are posted, by the state they are to set. The first one sets two. -/
inductive Runnable where
  | start
  | succeed
  | fail
  | cancel
deriving DecidableEq

/-- What the FX thread has yet to do. Between two instructions it runs listeners, handlers or the
protected methods (`scheduled()`, `running()` and so on). -/
inductive Instr where
  | setState (value : State)
  /-- The rest of `setState(value)` from `setRunning` on. -/
  | setRunning (value : State)
  /-- `switch (state.get())` -/
  | fireEvent (value : State)
deriving DecidableEq

/-- What can be seen of a task. -/
inductive Event where
  | entered (s : State)
  | fired (s : State)
deriving DecidableEq

structure Task where
  state : State := .ready
  running : Bool := false
  started : Bool := false
  future : Future := .new
  background : Background := .idle
  /-- A thread other than the FX thread is between `super.cancel` and `runLater`. -/
  canceller : Bool := false
  instrs : List Instr := []
  queue : List Runnable := []
  log : List Event := []

/-- The calls in a runnable. -/
def Runnable.run : Runnable → List Instr
  | start => [.setState .scheduled, .setState .running]
  | succeed => [.setState .succeeded]
  | fail => [.setState .failed]
  | cancel => [.setState .cancelled]

namespace Task

def runLater (t : Task) (r : Runnable) : Task := { t with queue := t.queue ++ [r] }

/-- `super.cancel(mayInterruptIfRunning)` has an effect before the future is done only. -/
def cancels (t : Task) : Bool := t.future = .new

/-- `checkThread()` on a thread other than the FX thread throws. -/
def checkThreadThrows (t : Task) : Bool := t.started

/-- `setState(value)` up to `this.state.set(value)`. -/
def setState (value : State) (t : Task) : Task :=
  if t.state ≠ .cancelled then
    { t with
      state := value
      instrs := .setRunning value :: .fireEvent value :: t.instrs
      log := t.log ++ [.entered value] }
  else t

/-- `fireEvent(..)` for the state that `state.get()` returns; no event belongs to `READY`. -/
def fireEvent (t : Task) : Task :=
  match t.state with
  | .ready => t
  | s => { t with log := t.log ++ [.fired s] }

/-- The next instruction of the FX thread. -/
def execute : Instr → Task → Task
  | .setState value, t => t.setState value
  | .setRunning value, t => { t with running := value = .scheduled || value = .running }
  | .fireEvent _, t => t.fireEvent

inductive Action where
  /-- The background thread calls `run()` of the `FutureTask`. -/
  | run
  | callReturns
  | callThrows
  | isCancelled
  | backgroundRunLater
  /-- `set(result)` or `setException(e)` of the `FutureTask`. -/
  | finish
  | cancelOnFxThread
  | cancelElsewhere
  | cancellerRunLater
  /-- The FX thread takes a runnable from its queue. -/
  | runNext
  | continue_
deriving DecidableEq

/-- One step; a party that cannot take it stays where it is. -/
def step (t : Task) : Action → Task
  | .run =>
      if t.background = .idle then
        if t.future = .new then
          { t with started := true, background := .calling }.runLater .start
        else { t with background := .finished }
      else t
  | .callReturns => if t.background = .calling then { t with background := .returned } else t
  | .callThrows => if t.background = .calling then { t with background := .failing } else t
  | .isCancelled =>
      if t.background = .returned then
        if t.future ≠ .cancelled then { t with background := .succeeding }
        -- `return task.getValue()`, which checks the thread
        else if t.checkThreadThrows then { t with background := .failing }
        else { t with background := .finishing }
      else t
  | .backgroundRunLater =>
      match t.background with
      | .succeeding => { t with background := .finishing }.runLater .succeed
      | .failing => { t with background := .finishing }.runLater .fail
      | _ => t
  | .finish =>
      if t.background = .finishing then
        { t with
          background := .finished
          future := if t.future = .new then .done else t.future }
      else t
  | .cancelOnFxThread =>
      if t.cancels then
        { t with future := .cancelled, instrs := .setState .cancelled :: t.instrs }
      else t
  | .cancelElsewhere =>
      if t.cancels then { t with future := .cancelled, canceller := true } else t
  | .cancellerRunLater =>
      if t.canceller then { t with canceller := false }.runLater .cancel else t
  | .runNext =>
      match t.instrs, t.queue with
      | [], r :: queue => { t with queue := queue, instrs := r.run }
      | _, _ => t
  | .continue_ =>
      match t.instrs with
      | i :: instrs => { t with instrs := instrs }.execute i
      | [] => t

/-! ## The protocol -/

/-- No `setState` is under way or to come. -/
structure Quiet (t : Task) : Prop where
  instrs : t.instrs = []
  queue : t.queue = []
  canceller : t.canceller = false

/-- A terminal state is entered at most once and last, and only its own event comes after it;
`RUNNING` comes after `SCHEDULED`; and a task that has been cancelled ends as `CANCELLED`. -/
structure Protocol (t : Task) : Prop where
  settled : ∀ before s after, t.log = before ++ .entered s :: after → s.isTerminal = true →
    after = [] ∨ after = [.fired s]
  scheduledFirst : ∀ before after, t.log = before ++ .entered .running :: after →
    .entered .scheduled ∈ before
  cancelled : t.future = .cancelled → t.Quiet → t.state = .cancelled

/-- The step does not set a state over `SUCCEEDED` or `FAILED`, and no state has been set in a
listener between the state and the event of a `setState`. -/
def Undisturbed (t : Task) : Action → Prop
  | .continue_ =>
      match t.instrs with
      | .setState .cancelled :: _ => t.state ≠ .succeeded ∧ t.state ≠ .failed
      | .fireEvent value :: _ => t.state = value
      | _ => True
  | _ => True

end Task

end JavaFx.Concurrent
