import JavaFx.Binding.ListenerArray
import JavaFx.Lib.Runs

/-!
# `ExpressionHelper`

The helper of an observable is `null`, one of two objects for a single listener,
or a `Generic`. An operation may replace it, and a `Generic` that was replaced
lives on while it notifies, so `Generic` objects are kept in a store too.

A notification calls listeners, and a listener may do anything with the same
observable before it returns: add and remove listeners, change the value, fire
again. The model is a machine. The notifications that are running form a stack of
`Frame`s, each in the middle of a call; an `Action` is either something the
listener called last does, or its return (`proceed`), upon which its notification
runs on to its next call or to its end. Whatever listeners do is a list of
actions.
-/

namespace JavaFx.Binding

variable {I C V : Type}

/-- The fields of a `Generic`. -/
structure Generic (V : Type) where
  invalidation : Listeners := {}
  change : Listeners := {}
  locked : Bool := false
  currentValue : Option V := none

inductive Helper (I C V : Type) where
  | null
  | singleInvalidation (listener : I)
  | singleChange (listener : C) (currentValue : Option V)
  | generic (this : ℕ)

/-- A record of one `fireValueChangedEvent()`: the listeners registered when it
began, whether it has a change to report, and the listeners it has called. -/
structure Fire (I C : Type) where
  invalidations : List I
  changes : List C
  changed : Bool := false
  called : List (I ⊕ C) := []

/-- The loops of `Generic.fireValueChangedEvent()`, with the next slot. -/
inductive Loop where
  | invalidation (i : ℕ)
  | change (i : ℕ)
deriving DecidableEq, Repr

/-- The local variables of `Generic.fireValueChangedEvent()`. -/
structure Locals where
  this : ℕ
  curInvalidation : Listeners
  curChange : Listeners
  loop : Loop

/-- A running notification. That of a single listener has nothing left to do. -/
inductive Frame (I C : Type) where
  | single (fire : Fire I C)
  | generic (locals : Locals) (fire : Fire I C)

structure World (I C V : Type) where
  invalidationArrays : Arrays I := []
  changeArrays : Arrays C := []
  generics : List (Generic V) := []
  helper : Helper I C V := .null
  /-- what `observable.getValue()` returns -/
  value : Option V
  frames : List (Frame I C) := []
  /-- the notifications that are over -/
  fires : List (Fire I C) := []

namespace World

/-! ## Objects -/

def generic (w : World I C V) (this : ℕ) : Generic V := w.generics.getD this {}

def setGeneric (w : World I C V) (this : ℕ) (g : Generic V) : World I C V :=
  { w with generics := w.generics.set this g }

/-- New arrays of listeners. -/
def allocate (w : World I C V) (invalidation : Arrays I) (change : Arrays C) :
    World I C V :=
  { w with
    invalidationArrays := w.invalidationArrays ++ invalidation
    changeArrays := w.changeArrays ++ change }

/-- `new Generic(…)`, which becomes the helper. -/
def newGeneric (w : World I C V) (g : Generic V) : World I C V :=
  { w with generics := w.generics ++ [g], helper := .generic w.generics.length }

/-- The listeners in the first `size` slots. -/
def listenersIn {L : Type} (heap : Arrays L) (a : Listeners) : List L :=
  match a.array with
  | none => []
  | some r => ((heap.at_ r).take a.size).filterMap id

/-- The invalidation listeners that are registered. -/
def invalidations (w : World I C V) : List I :=
  match w.helper with
  | .null | .singleChange _ _ => []
  | .singleInvalidation l => [l]
  | .generic this => listenersIn w.invalidationArrays (w.generic this).invalidation

/-- The change listeners that are registered. -/
def changes (w : World I C V) : List C :=
  match w.helper with
  | .null | .singleInvalidation _ => []
  | .singleChange l _ => [l]
  | .generic this => listenersIn w.changeArrays (w.generic this).change

/-! ## `addListener` -/

/-- `Generic.addListener(InvalidationListener)` -/
def addToInvalidation (w : World I C V) (this : ℕ) (listener : I)
    (collected : I → Bool) : Except Exn (World I C V) := do
  let g := w.generic this
  let (heap, a) ← g.invalidation.add g.locked collected w.invalidationArrays listener
  return { w with invalidationArrays := heap }.setGeneric this { g with invalidation := a }

/-- `Generic.addListener(ChangeListener)` -/
def addToChange (w : World I C V) (this : ℕ) (listener : C)
    (collected : C → Bool) : Except Exn (World I C V) := do
  let g := w.generic this
  let (heap, a) ← g.change.add g.locked collected w.changeArrays listener
  let currentValue := if a.size = 1 then w.value else g.currentValue
  return { w with changeArrays := heap }.setGeneric this
    { g with change := a, currentValue := currentValue }

/-- `addListener(helper, observable, InvalidationListener)` -/
def addInvalidation (w : World I C V) (listener : I) (collected : I → Bool) :
    Except Exn (World I C V) :=
  match w.helper with
  | .null => .ok { w with helper := .singleInvalidation listener }
  | .singleInvalidation l =>
      .ok ((w.allocate [[some l, some listener]] []).newGeneric
        { invalidation := ⟨some w.invalidationArrays.length, 2⟩ })
  | .singleChange l _ =>
      .ok ((w.allocate [[some listener]] [[some l]]).newGeneric
        { invalidation := ⟨some w.invalidationArrays.length, 1⟩
          change := ⟨some w.changeArrays.length, 1⟩
          currentValue := w.value })
  | .generic this => w.addToInvalidation this listener collected

/-- `addListener(helper, observable, ChangeListener)` -/
def addChange (w : World I C V) (listener : C) (collected : C → Bool) :
    Except Exn (World I C V) :=
  match w.helper with
  | .null => .ok { w with helper := .singleChange listener w.value }
  | .singleInvalidation l =>
      .ok ((w.allocate [[some l]] [[some listener]]).newGeneric
        { invalidation := ⟨some w.invalidationArrays.length, 1⟩
          change := ⟨some w.changeArrays.length, 1⟩
          currentValue := w.value })
  | .singleChange l _ =>
      .ok ((w.allocate [] [[some l, some listener]]).newGeneric
        { change := ⟨some w.changeArrays.length, 2⟩
          currentValue := w.value })
  | .generic this => w.addToChange this listener collected

/-! ## `removeListener` -/

/-- The branches of `Generic.removeListener(InvalidationListener)` for the listener
at `index`. -/
def removeInvalidationAt (w : World I C V) (this r index : ℕ) :
    Except Exn (World I C V) :=
  let g := w.generic this
  if g.invalidation.size = 1 then
    if g.change.size = 1 then do
      let l ← g.change.deref w.changeArrays 0
      return { w with helper := .singleChange l w.value }
    else .ok (w.setGeneric this { g with invalidation := {} })
  else if g.invalidation.size = 2 ∧ g.change.size = 0 then do
    let l ← g.invalidation.deref w.invalidationArrays (1 - index)
    return { w with helper := .singleInvalidation l }
  else do
    let (heap, a) ← Listeners.removeAt g.locked w.invalidationArrays r
      g.invalidation.size index
    return { w with invalidationArrays := heap }.setGeneric this
      { g with invalidation := a }

/-- The branches of `Generic.removeListener(ChangeListener)` for the listener at
`index`. -/
def removeChangeAt (w : World I C V) (this r index : ℕ) : Except Exn (World I C V) :=
  let g := w.generic this
  if g.change.size = 1 then
    if g.invalidation.size = 1 then do
      let l ← g.invalidation.deref w.invalidationArrays 0
      return { w with helper := .singleInvalidation l }
    else .ok (w.setGeneric this { g with change := {} })
  else if g.change.size = 2 ∧ g.invalidation.size = 0 then do
    let l ← g.change.deref w.changeArrays (1 - index)
    return { w with helper := .singleChange l w.value }
  else do
    let (heap, a) ← Listeners.removeAt g.locked w.changeArrays r g.change.size index
    return { w with changeArrays := heap }.setGeneric this { g with change := a }

variable [BEq I] [BEq C]

/-- `Generic.removeListener(InvalidationListener)` -/
def removeFromInvalidation (w : World I C V) (this : ℕ) (listener : I) :
    Except Exn (World I C V) :=
  let a := (w.generic this).invalidation
  match a.array with
  | none => .ok w
  | some r => do
      match ← Listeners.indexOf listener a.size 0 (w.invalidationArrays.at_ r) with
      | none => return w
      | some index => w.removeInvalidationAt this r index

/-- `Generic.removeListener(ChangeListener)` -/
def removeFromChange (w : World I C V) (this : ℕ) (listener : C) :
    Except Exn (World I C V) :=
  let a := (w.generic this).change
  match a.array with
  | none => .ok w
  | some r => do
      match ← Listeners.indexOf listener a.size 0 (w.changeArrays.at_ r) with
      | none => return w
      | some index => w.removeChangeAt this r index

/-- `removeListener(helper, InvalidationListener)` -/
def removeInvalidation (w : World I C V) (listener : I) : Except Exn (World I C V) :=
  match w.helper with
  | .null | .singleChange _ _ => .ok w
  | .singleInvalidation l =>
      .ok (if listener == l then { w with helper := .null } else w)
  | .generic this => w.removeFromInvalidation this listener

/-- `removeListener(helper, ChangeListener)` -/
def removeChange (w : World I C V) (listener : C) : Except Exn (World I C V) :=
  match w.helper with
  | .null | .singleInvalidation _ => .ok w
  | .singleChange l _ =>
      .ok (if listener == l then { w with helper := .null } else w)
  | .generic this => w.removeFromChange this listener

/-! ## `fireValueChangedEvent` -/

variable [BEq V]

/-- `(currentValue == null)? (oldValue != null) : !currentValue.equals(oldValue)` -/
def valueChanged (oldValue currentValue : Option V) : Bool :=
  match currentValue, oldValue with
  | none, oldValue => oldValue.isSome
  | some _, none => true
  | some c, some o => !(c == o)

/-- A notification calls a listener. -/
def push (w : World I C V) (frame : Frame I C) : World I C V :=
  { w with frames := frame :: w.frames }

/-- A notification is over. -/
def finish (w : World I C V) (fire : Fire I C) : World I C V :=
  { w with fires := w.fires ++ [fire] }

/-- The `finally` block. -/
def unlock (w : World I C V) (this : ℕ) : World I C V :=
  w.setGeneric this { w.generic this with locked := false }

/-- `for (int i = 0; i < curChangeSize; i++) curChangeList[i].changed(…)`, from slot
`i` up to the next call. -/
def runChangeLoop (w : World I C V) (locals : Locals) (fire : Fire I C) (i : ℕ) :
    Except Exn (World I C V) :=
  if i < locals.curChange.size then do
    let l ← locals.curChange.deref w.changeArrays i
    return w.push (.generic { locals with loop := .change (i + 1) }
      { fire with called := fire.called ++ [.inr l] })
  else .ok ((w.unlock locals.this).finish fire)

/-- From the end of the first loop up to the next call. -/
def startChangeLoop (w : World I C V) (locals : Locals) (fire : Fire I C) :
    Except Exn (World I C V) :=
  if 0 < locals.curChange.size then
    let g := w.generic locals.this
    let w := w.setGeneric locals.this { g with currentValue := w.value }
    if valueChanged g.currentValue w.value then
      w.runChangeLoop locals { fire with changed := true } 0
    else .ok ((w.unlock locals.this).finish fire)
  else .ok ((w.unlock locals.this).finish fire)

/-- From where the loops stand up to the next call. -/
def runLoops (w : World I C V) (locals : Locals) (fire : Fire I C) :
    Except Exn (World I C V) :=
  match locals.loop with
  | .invalidation i =>
      if i < locals.curInvalidation.size then do
        let l ← locals.curInvalidation.deref w.invalidationArrays i
        return w.push (.generic { locals with loop := .invalidation (i + 1) }
          { fire with called := fire.called ++ [.inl l] })
      else w.startChangeLoop locals fire
  | .change i => w.runChangeLoop locals fire i

/-- `fireValueChangedEvent(helper)`, up to its first call. Without a helper it is
over at once. -/
def fireValueChangedEvent (w : World I C V) : Except Exn (World I C V) :=
  let fire : Fire I C := ⟨w.invalidations, w.changes, false, []⟩
  match w.helper with
  | .null => .ok (w.finish fire)
  | .singleInvalidation l =>
      .ok (w.push (.single { fire with called := [.inl l] }))
  | .singleChange l oldValue =>
      let w := { w with helper := .singleChange l w.value }
      if valueChanged oldValue w.value then
        .ok (w.push (.single { fire with changed := true, called := [.inr l] }))
      else .ok (w.finish fire)
  | .generic this =>
      let g := w.generic this
      (w.setGeneric this { g with locked := true }).runLoops
        ⟨this, g.invalidation, g.change, .invalidation 0⟩ fire

/-- The listener that was called last returns. -/
def proceed (w : World I C V) : Except Exn (World I C V) :=
  match w.frames with
  | [] => .ok w
  | .single fire :: frames => .ok ({ w with frames := frames }.finish fire)
  | .generic locals fire :: frames => { w with frames := frames }.runLoops locals fire

end World

/-- What a listener does, or code outside any notification. The oracle of an `add`
says which weak listeners have been collected by then. -/
inductive Action (I C V : Type) where
  | addInvalidation (listener : I) (collected : I → Bool)
  | removeInvalidation (listener : I)
  | addChange (listener : C) (collected : C → Bool)
  | removeChange (listener : C)
  | setValue (value : Option V)
  | fire
  | proceed

variable [BEq I] [BEq C] [BEq V]

def World.step (w : World I C V) : Action I C V → Except Exn (World I C V)
  | .addInvalidation l collected => w.addInvalidation l collected
  | .removeInvalidation l => w.removeInvalidation l
  | .addChange l collected => w.addChange l collected
  | .removeChange l => w.removeChange l
  | .setValue value => .ok { w with value := value }
  | .fire => w.fireValueChangedEvent
  | .proceed => w.proceed

end JavaFx.Binding
