import JavaFx.Concurrent.Task

/-!
# `ScheduledService`

A service starts one task after the other. Between two of them, and before the first, it may wait:
a task of the timer thread posts a runnable to the FX thread when the delay is over, and only this
runnable hands the task over. The reference to the task of the timer is set when a delay is
scheduled and cleared by the runnable and by `cancel`; `restart` and `reset` leave it alone.

What the methods read from the clock and from the properties is an argument of the call. A call
that throws an `IllegalStateException` is `none`. An assertion that fails is remembered, and the
method goes on as it does with assertions off.
-/

namespace JavaFx.Concurrent

/-- What a call reads of the delay, the clock and the properties for failures. -/
structure Reading where
  /-- `(long) normalize(getDelay())` -/
  delay : ℕ
  /-- `runPeriod < cumulative` -/
  waits : Bool
  restartOnFailure : Bool
  maximumFailureCount : ℤ

/-- The tasks are numbered as they are created. The timer task of a delay has the number of the
task that waits for it. -/
structure ScheduledService where
  tasks : ℕ → Task := fun _ => {}
  created : ℕ := 0
  /-- What has been handed to the executor and not been taken up. -/
  executor : List ℕ := []
  state : State := .ready
  /-- The current task; the state is bound to that of the task. -/
  task : Option ℕ := none
  currentFailureCount : ℤ := 0
  freshStart : Bool := true
  delayTask : Option ℕ := none
  stop : Bool := false
  /-- The delays of the timer thread that are pending. -/
  timers : List ℕ := []
  /-- The runnables that timer tasks have posted to the FX thread. -/
  posted : List ℕ := []
  assertionFailed : Bool := false

namespace ScheduledService

def setTask (n : ℕ) (t : Task) (s : ScheduledService) : ScheduledService :=
  { s with tasks := Function.update s.tasks n t }

/-- `assert condition` -/
def check (condition : Bool) (s : ScheduledService) : ScheduledService :=
  { s with assertionFailed := s.assertionFailed || !condition }

/-! ## Executing a task -/

def executeTaskNow (n : ℕ) (s : ScheduledService) : ScheduledService :=
  { s with freshStart := false, executor := s.executor ++ [n] }

/-- `schedule(delayTask = createTimerTask(task), delay)` -/
def schedule (n : ℕ) (s : ScheduledService) : ScheduledService :=
  { s with delayTask := some n, timers := s.timers ++ [n] }

def executeTask (r : Reading) (n : ℕ) (s : ScheduledService) : ScheduledService :=
  if s.freshStart then
    let s := s.check (s.delayTask = none)
    if r.delay = 0 then s.executeTaskNow n else s.schedule n
  else if r.waits then (s.check (s.delayTask = none)).schedule n
  else s.executeTaskNow n

/-! ## The calls -/

def start (r : Reading) (s : ScheduledService) : Option ScheduledService :=
  if s.state ≠ .ready then none
  else
    let n := s.created
    let s := { s.setTask n { state := .scheduled, running := true } with
      created := n + 1, task := some n, state := .scheduled }
    some (s.executeTask r n)

/-- `Service.reset` -/
def superReset (s : ScheduledService) : Option ScheduledService :=
  if s.state = .scheduled ∨ s.state = .running then none
  else some { s with task := none, state := .ready }

def reset (s : ScheduledService) : Option ScheduledService :=
  s.superReset.map fun s => { s with stop := false, currentFailureCount := 0, freshStart := true }

/-- `setState(value)` of a task, which the service's state follows when it is bound to it. -/
def setState (n : ℕ) (value : State) (s : ScheduledService) : ScheduledService :=
  if (s.tasks n).state = .cancelled then s
  else
    let s := s.setTask n { s.tasks n with
      state := value, running := value = .scheduled || value = .running }
    if s.task = some n then { s with state := value } else s

/-- `Task.cancel` on the FX thread. -/
def cancelTask (n : ℕ) (s : ScheduledService) : ScheduledService :=
  if (s.tasks n).cancels then
    (s.setTask n { s.tasks n with future := .cancelled }).setState n .cancelled
  else s

/-- `Service.cancel` -/
def superCancel (s : ScheduledService) : ScheduledService :=
  match s.task with
  | none =>
    if s.state = .cancelled ∨ s.state = .succeeded then s else { s with state := .cancelled }
  | some n => s.cancelTask n

def cancel (s : ScheduledService) : ScheduledService :=
  let s := { s.superCancel with stop := true }
  match s.delayTask with
  | some d => { s with timers := s.timers.erase d, delayTask := none }
  | none => s

def restart (r : Reading) (s : ScheduledService) : Option ScheduledService := do
  let s := match s.task with
    | some n => { s.cancelTask n with task := none, state := .cancelled }
    | none => s
  let s ← s.reset
  s.start r

/-- The state goes over `SCHEDULED`. -/
def cancelFromReadyState (s : ScheduledService) : ScheduledService := { s with state := .cancelled }

/-! ## What follows a change of the state -/

def succeeded (r : Reading) (s : ScheduledService) : Option ScheduledService := do
  let wasCancelled := s.stop
  let s ← s.superReset
  let s := s.check (s.freshStart = false)
  if wasCancelled then return s.cancelFromReadyState else s.start r

def failed (r : Reading) (s : ScheduledService) : Option ScheduledService := do
  let s := s.check (s.delayTask = none)
  let s := { s with currentFailureCount := s.currentFailureCount + 1 }
  if r.restartOnFailure = true ∧ s.currentFailureCount < r.maximumFailureCount then
    let s ← s.superReset
    (s.check (s.freshStart = false)).start r
  else return s

/-- The listener of the service's state. -/
def stateChanged (r : Reading) (s : ScheduledService) : Option ScheduledService :=
  match s.state with
  | .succeeded => s.succeeded r
  | .failed => s.failed r
  | _ => some s

/-- `setState(value)` of a task, and the listener if the service's state has changed. -/
def enterState (r : Reading) (n : ℕ) (s : ScheduledService) (value : State) :
    Option ScheduledService :=
  if (s.setState n value).state = s.state then some (s.setState n value)
  else (s.setState n value).stateChanged r

/-! ## Steps -/

/-- The states that a runnable of a task sets. -/
def values : Runnable → List State
  | .start => [.scheduled, .running]
  | .succeed => [.succeeded]
  | .fail => [.failed]
  | .cancel => [.cancelled]

inductive Action where
  | start (r : Reading)
  | cancel
  | restart (r : Reading)
  | reset
  /-- The delay of a task is over: the timer thread posts its runnable. -/
  | fire (n : ℕ)
  /-- The FX thread runs the next runnable of the timer thread. -/
  | runPosted
  /-- A thread of the executor takes a task up, or goes on with it. -/
  | background (n : ℕ) (a : Task.Action)
  /-- The FX thread runs the next runnable of a task. -/
  | deliver (r : Reading) (n : ℕ)

def fire (n : ℕ) (s : ScheduledService) : Option ScheduledService :=
  if n ∈ s.timers then some { s with timers := s.timers.erase n, posted := s.posted ++ [n] }
  else none

def runPosted (s : ScheduledService) : Option ScheduledService :=
  match s.posted with
  | [] => none
  | n :: posted => some { { s with posted := posted }.executeTaskNow n with delayTask := none }

/-- The actions of the background thread. -/
def background (n : ℕ) (a : Task.Action) (s : ScheduledService) : Option ScheduledService :=
  match a with
  | .run =>
    if n ∈ s.executor then
      some { s.setTask n ((s.tasks n).step .run) with executor := s.executor.erase n }
    else none
  | .callReturns | .callThrows | .isCancelled | .backgroundRunLater | .finish =>
    some (s.setTask n ((s.tasks n).step a))
  | _ => none

def deliver (r : Reading) (n : ℕ) (s : ScheduledService) : Option ScheduledService :=
  match (s.tasks n).queue with
  | [] => none
  | runnable :: queue =>
    (values runnable).foldlM (enterState r n) (s.setTask n { s.tasks n with queue := queue })

def step (s : ScheduledService) : Action → Option ScheduledService
  | .start r => s.start r
  | .cancel => some s.cancel
  | .restart r => s.restart r
  | .reset => s.reset
  | .fire n => s.fire n
  | .runPosted => s.runPosted
  | .background n a => s.background n a
  | .deliver r n => s.deliver r n

/-- The service after some steps, all of which could be taken. -/
def afterSteps (actions : List Action) : Option ScheduledService := actions.foldlM step {}

end ScheduledService

end JavaFx.Concurrent
