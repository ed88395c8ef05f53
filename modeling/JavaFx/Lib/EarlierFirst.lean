import Mathlib.Data.Nat.Init

/-!
# Functions on objects that refer to earlier ones

Objects are numbered in the order of their creation, and an object that never changes refers to
earlier ones only. A function on such objects that looks at an object and calls itself for what the
object refers to is `fixAt step`; `fixAt_eq` is its equation.
-/

namespace EarlierFirst

variable {α : Type*}

def iterate (step : (ℕ → α) → ℕ → α) (bottom : α) : ℕ → ℕ → α
  | 0, _ => bottom
  | fuel + 1, n => step (iterate step bottom fuel) n

/-- The function that a step defines; the depth of the calls is at most the number of objects. -/
def fixAt (step : (ℕ → α) → ℕ → α) (bottom : α) (n : ℕ) : α := iterate step bottom (n + 1) n

/-- The step at an object depends on calls for earlier objects only. -/
def Earlier (step : (ℕ → α) → ℕ → α) : Prop :=
  ∀ n f g, (∀ m < n, f m = g m) → step f n = step g n

variable {step : (ℕ → α) → ℕ → α} {bottom bottom' : α}

/-- More fuel than there are objects makes no difference. -/
theorem iterate_eq (h : Earlier step) {n fuel fuel' : ℕ} (hfuel : n < fuel) (hfuel' : n < fuel') :
    iterate step bottom fuel n = iterate step bottom' fuel' n := by
  induction n using Nat.strong_induction_on generalizing fuel fuel' with
  | _ n ih =>
      cases fuel with
      | zero => exact absurd hfuel (Nat.not_lt_zero n)
      | succ fuel =>
          cases fuel' with
          | zero => exact absurd hfuel' (Nat.not_lt_zero n)
          | succ fuel' =>
              apply h
              intro m hm
              exact ih m hm (Nat.lt_of_lt_of_le hm (Nat.le_of_lt_succ hfuel))
                (Nat.lt_of_lt_of_le hm (Nat.le_of_lt_succ hfuel'))

/-- **The equation** of the function. -/
theorem fixAt_eq (h : Earlier step) (n : ℕ) :
    fixAt step bottom n = step (fixAt step bottom) n := by
  apply h
  intro m hm
  exact iterate_eq h hm (Nat.lt_succ_self m)

/-- What the calls would answer without fuel makes no difference. -/
theorem fixAt_bottom (h : Earlier step) (n : ℕ) : fixAt step bottom n = fixAt step bottom' n :=
  iterate_eq h (Nat.lt_succ_self n) (Nat.lt_succ_self n)

end EarlierFirst
