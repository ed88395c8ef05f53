import Mathlib.Data.Int.Order.Basic
import Mathlib.Tactic

/-!
# The type `int`

An `int` is an integer; where a sum may leave the range, `toInt` says what is left of it.
-/

namespace JavaFx

/-- `Integer.MAX_VALUE` -/
def maxInt : ℤ := 2147483647

/-- What an `int` holds of an integer. -/
def toInt (x : ℤ) : ℤ := (x + 2147483648) % 4294967296 - 2147483648

theorem toInt_of_mem {x : ℤ} (h : -2147483648 ≤ x) (h' : x ≤ maxInt) : toInt x = x := by
  unfold toInt maxInt at *
  omega

theorem toInt_of_nonneg {x : ℤ} (h : 0 ≤ x) (h' : x ≤ maxInt) : toInt x = x :=
  toInt_of_mem (by omega) h'

end JavaFx
