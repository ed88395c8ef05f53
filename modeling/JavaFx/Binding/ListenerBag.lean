import JavaFx.Binding.Notification

/-!
# The helper as a bag of listeners

`Bag` is what a helper stands for: two lists of listeners. An addition may drop
listeners that have been collected, and nothing else; a notification calls the
invalidation listeners and then, if the value has changed, the change listeners.
Operations outside any notification, with listeners that do nothing, refine it.
-/

set_option linter.unusedSectionVars false

namespace JavaFx.Binding

open Runs

variable {I C V : Type}

/-- An operation outside any notification. -/
inductive ListenerOp (I C V : Type) where
  | addInvalidation (listener : I) (collected : I → Bool)
  | removeInvalidation (listener : I)
  | addChange (listener : C) (collected : C → Bool)
  | removeChange (listener : C)
  | setValue (value : Option V)
  | fire

/-! ## The bag -/

/-- `values` are the values the observable has had since the last notification,
`notified` the calls of each notification so far. -/
structure Bag (I C V : Type) where
  invalidations : List I := []
  changes : List C := []
  value : Option V
  values : List (Option V) := [value]
  notified : List (List (I ⊕ C)) := []

/-- Only collected listeners may be missing. -/
def DropsCollected {L : Type} (collected : L → Bool) (xs kept : List L) : Prop :=
  (xs.filter (!collected ·)).Sublist kept ∧ kept.Sublist xs

variable [BEq I] [BEq C] [BEq V]

inductive Bag.Step : Bag I C V → ListenerOp I C V → Bag I C V → Prop
  | addInvalidation (b : Bag I C V) (l : I) {collected : I → Bool} {kept : List I}
      (h : DropsCollected collected b.invalidations kept) :
      Step b (.addInvalidation l collected) { b with invalidations := kept ++ [l] }
  | removeInvalidation (b : Bag I C V) (l : I) :
      Step b (.removeInvalidation l)
        { b with invalidations := b.invalidations.eraseP (l == ·) }
  | addChange (b : Bag I C V) (l : C) {collected : C → Bool} {kept : List C}
      (h : DropsCollected collected b.changes kept) :
      Step b (.addChange l collected) { b with changes := kept ++ [l] }
  | removeChange (b : Bag I C V) (l : C) :
      Step b (.removeChange l) { b with changes := b.changes.eraseP (l == ·) }
  | setValue (b : Bag I C V) (value : Option V) :
      Step b (.setValue value) { b with value := value, values := value :: b.values }
  | fire (b : Bag I C V) {known : Option V} (h : known ∈ b.values) :
      Step b .fire { b with
        values := [b.value]
        notified := b.notified ++ [b.invalidations.map .inl ++
          if World.valueChanged known b.value then b.changes.map .inr else []] }

inductive Bag.Run : Bag I C V → List (ListenerOp I C V) → Bag I C V → Prop
  | nil (b : Bag I C V) : Run b [] b
  | cons {b b' b'' : Bag I C V} {op : ListenerOp I C V} {ops : List (ListenerOp I C V)}
      (h : Step b op b') (hrest : Run b' ops b'') : Run b (op :: ops) b''

namespace World

/-- Listeners return until no notification is left; `calls` bounds their number. -/
def settle : ℕ → World I C V → Except Exn (World I C V)
  | 0, w => .ok w
  | calls + 1, w =>
      match w.frames with
      | [] => .ok w
      | _ :: _ => do
          let w ← w.proceed
          settle calls w

/-- A notification whose listeners do nothing. -/
def notify (w : World I C V) : Except Exn (World I C V) := do
  let w' ← w.fireValueChangedEvent
  settle (w.invalidations.length + w.changes.length + 1) w'

def perform (w : World I C V) : ListenerOp I C V → Except Exn (World I C V)
  | .addInvalidation l collected => w.addInvalidation l collected
  | .removeInvalidation l => w.removeInvalidation l
  | .addChange l collected => w.addChange l collected
  | .removeChange l => w.removeChange l
  | .setValue value => .ok { w with value := value }
  | .fire => w.notify

/-! ## A notification whose listeners do nothing -/

section Notify

variable {w : World I C V} {xs : List I} {ys : List C}

end Notify

/-! ## Refinement -/

/-- The world stands for the bag. -/
structure Represents (w : World I C V) (b : Bag I C V) : Prop where
  holds : w.Holds b.invalidations b.changes
  idle : w.frames = []
  value : w.value = b.value
  current : b.value ∈ b.values
  known : b.changes ≠ [] → w.currentValue ∈ b.values
  notified : w.fires.map (·.called) = b.notified

end World

end JavaFx.Binding
