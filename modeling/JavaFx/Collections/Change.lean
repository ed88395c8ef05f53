import JavaFx.Collections.ListChangeBuilder

/-!
# `javafx.collections.ListChangeListener.Change`

A `Change` is a list of sub-changes with a cursor. Its accessors answer for the
sub-change the cursor is on and throw before the first `next()`. `wasAdded`,
`wasRemoved` and `wasPermutated` are not stored but derived by the base class
from other accessors, so a subclass that overrides one of those changes them
too: the derived ones are therefore functions of the accessors they call.
-/

namespace JavaFx.Collections

variable {α : Type}

/-- The array of a permutation has one entry for each index of the range. -/
def SubChange.WellFormed (c : SubChange α) : Prop :=
  c.from_ ≤ c.to_ ∧ (c.perm = [] ∨ c.perm.length = c.to_ - c.from_)

instance (c : SubChange α) : Decidable c.WellFormed :=
  inferInstanceAs (Decidable (_ ∧ _))

/-- The accessors a listener may call. -/
inductive Accessor where
  | getFrom
  | getTo
  | getRemoved
  | wasPermutated
  | getPermutation (i : ℤ)
  | wasUpdated
  | wasAdded
  | wasRemoved
deriving DecidableEq, Repr

inductive Answer (α : Type) where
  | int (n : ℕ)
  | bool (b : Bool)
  | list (l : List α)
deriving DecidableEq, Repr

/-! ## The methods of the base class -/

namespace Change

/-- `getPermutation().length != 0` -/
def wasPermutated (getPermutation : Except Exn (List ℕ)) : Except Exn Bool := do
  let perm ← getPermutation
  return perm.length != 0

/-- `!wasPermutated() && !wasUpdated() && getFrom() < getTo()` -/
def wasAdded (wasPermutated wasUpdated : Except Exn Bool)
    (getFrom getTo : Except Exn ℕ) : Except Exn Bool := do
  if ← wasPermutated then return false
  if ← wasUpdated then return false
  let from_ ← getFrom
  let to_ ← getTo
  return from_ < to_

/-- `!getRemoved().isEmpty()` -/
def wasRemoved (getRemoved : Except Exn (List α)) : Except Exn Bool := do
  let removed ← getRemoved
  return !removed.isEmpty

/-- `getPermutation(int i)` -/
def getPermutationAt (wasPermutated : Except Exn Bool)
    (getPermutation : Except Exn (List ℕ)) (getFrom : Except Exn ℕ) (i : ℤ) :
    Except Exn ℕ := do
  if ← wasPermutated then
    let perm ← getPermutation
    let from_ ← getFrom
    arrayGet perm (i - from_)
  else .error (.illegalState "Not a permutation change")

end Change

/-! ## A change with a cursor -/

/-- `ListChangeBuilder.IterableChange`; `cursor = none` is the source's `-1`. -/
structure IterableChange (α : Type) where
  changes : List (SubChange α)
  cursor : Option ℕ
  wellFormed : ∀ c ∈ changes, c.WellFormed
  cursor_lt : ∀ i, cursor = some i → i < changes.length

namespace IterableChange

/-- The index of the next sub-change. -/
def nextIndex (c : IterableChange α) : ℕ :=
  match c.cursor with
  | none => 0
  | some i => i + 1

/-- `next()` -/
def next (c : IterableChange α) : IterableChange α :=
  if h : c.nextIndex < c.changes.length then
    { c with
      cursor := some c.nextIndex
      cursor_lt := fun i hi => by cases hi; exact h }
  else c

/-- `reset()` -/
def reset (c : IterableChange α) : IterableChange α :=
  { c with
    cursor := none
    cursor_lt := fun _ hi => by cases hi }

/-- `checkState()` followed by `changes[cursor]` -/
def current (c : IterableChange α) : Except Exn (SubChange α) :=
  match c.cursor with
  | none => .error (.illegalState
      "Invalid Change state: next() must be called before inspecting the Change.")
  | some i =>
      match c.changes[i]? with
      | some s => .ok s
      | none => .error .arrayIndexOutOfBounds

def getFrom (c : IterableChange α) : Except Exn ℕ := do
  let s ← c.current
  return s.from_

def getTo (c : IterableChange α) : Except Exn ℕ := do
  let s ← c.current
  return s.to_

def getRemoved (c : IterableChange α) : Except Exn (List α) := do
  let s ← c.current
  return s.removed.getD []

def getPermutation (c : IterableChange α) : Except Exn (List ℕ) := do
  let s ← c.current
  return s.perm

def wasUpdated (c : IterableChange α) : Except Exn Bool := do
  let s ← c.current
  return s.updated

def wasPermutated (c : IterableChange α) : Except Exn Bool :=
  Change.wasPermutated c.getPermutation

def getPermutationAt (c : IterableChange α) (i : ℤ) : Except Exn ℕ :=
  Change.getPermutationAt c.wasPermutated c.getPermutation c.getFrom i

def ask (c : IterableChange α) : Accessor → Except Exn (Answer α)
  | .getFrom => c.getFrom.map .int
  | .getTo => c.getTo.map .int
  | .getRemoved => c.getRemoved.map .list
  | .wasPermutated => c.wasPermutated.map .bool
  | .getPermutation i => (c.getPermutationAt i).map .int
  | .wasUpdated => c.wasUpdated.map .bool
  | .wasAdded => (Change.wasAdded c.wasPermutated c.wasUpdated c.getFrom
      c.getTo).map .bool
  | .wasRemoved => (Change.wasRemoved c.getRemoved).map .bool

end IterableChange

/-- What a listener does with a change. -/
inductive ChangeEvent where
  | next
  | reset
  | ask (a : Accessor)
deriving DecidableEq, Repr

namespace IterableChange

def handle (c : IterableChange α) : ChangeEvent → IterableChange α
  | .next => c.next
  | .reset => c.reset
  | .ask _ => c

/-- The change after a history of calls. -/
def after (c : IterableChange α) (history : List ChangeEvent) :
    IterableChange α :=
  history.foldl handle c

@[simp] theorem next_changes (c : IterableChange α) : c.next.changes = c.changes := by
  unfold next
  split <;> rfl

@[simp] theorem reset_changes (c : IterableChange α) :
    c.reset.changes = c.changes := rfl

@[simp] theorem after_changes (c : IterableChange α) (history : List ChangeEvent) :
    (c.after history).changes = c.changes := by
  induction history generalizing c with
  | nil => rfl
  | cons e history ih =>
      show ((c.handle e).after history).changes = c.changes
      rw [ih]
      cases e with
      | next => exact next_changes c
      | reset => rfl
      | ask _ => rfl

theorem current_of_cursor {c : IterableChange α} {i : ℕ} (hc : c.cursor = some i)
    (hi : i < c.changes.length) : c.current = .ok c.changes[i] := by
  simp [current, hc, hi]

theorem current_mem {c : IterableChange α} {s : SubChange α}
    (h : c.current = .ok s) : s ∈ c.changes := by
  unfold IterableChange.current at h
  split at h
  · cases h
  · next i _ =>
      cases hi : c.changes[i]? with
      | none => rw [hi] at h; cases h
      | some t =>
          rw [hi] at h
          cases h
          exact List.mem_of_getElem? hi

/-- `reset()` followed by `i + 1` calls of `next()`. -/
def goTo (i : ℕ) : List ChangeEvent := .reset :: List.replicate (i + 1) .next

theorem after_goTo (c : IterableChange α) {i : ℕ} (hi : i < c.changes.length) :
    (c.after (goTo i)).cursor = some i := by
  -- after `k + 1` calls the cursor is on the sub-change `k`
  have hsteps : ∀ k, k < c.changes.length →
      ((c.reset).after (List.replicate (k + 1) .next)).cursor = some k := by
    intro k
    induction k with
    | zero =>
        intro hk
        show (c.reset.next).cursor = some 0
        unfold next
        rw [dif_pos (show c.reset.nextIndex < c.reset.changes.length from hk)]
        rfl
    | succ k ih =>
        intro hk
        have hprev := ih (by omega)
        have hsplit : List.replicate (k + 1 + 1) ChangeEvent.next =
            List.replicate (k + 1) .next ++ [.next] := by
          rw [← List.replicate_succ']
        unfold after at hprev ⊢
        rw [hsplit, List.foldl_append]
        show (next _).cursor = _
        have hidx : (List.foldl handle c.reset
            (List.replicate (k + 1) .next)).nextIndex = k + 1 := by
          rw [nextIndex, hprev]
        have hlen := after_changes c.reset (List.replicate (k + 1) .next)
        unfold after at hlen
        unfold next
        rw [dif_pos (by rw [hidx, hlen]; exact hk)]
        simp only [hidx]
  exact hsteps i hi

end IterableChange

end JavaFx.Collections
