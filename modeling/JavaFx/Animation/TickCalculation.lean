import Mathlib.Data.Int.Order.Basic
import Mathlib.Data.Nat.Log
import Mathlib.Tactic

/-!
# Ticks

Ticks are `long`s. `TickCalculation` adds and subtracts them with saturation; elsewhere they are
multiplied as `long`s, which wraps around, or with a rate, which goes through `double`. Rates are
1 and -1 here, so the only rounding is that of the `long` to a `double`.
-/

namespace JavaFx.Animation

/-- `Long.MAX_VALUE` -/
def maxLong : ℤ := 9223372036854775807

/-- `Long.MIN_VALUE` -/
def minLong : ℤ := -9223372036854775808

/-- What a `long` holds of an integer. -/
def toLong (x : ℤ) : ℤ :=
  (x + 9223372036854775808) % 18446744073709551616 - 9223372036854775808

/-- `(double) n` for a `long`: the nearest integer of 53 binary digits, the even one of two. -/
def toDouble (n : ℤ) : ℤ :=
  let unit := 2 ^ (n.natAbs.log2 - 52)
  let q := n.natAbs / unit
  let r := n.natAbs % unit
  let m := if unit < 2 * r ∨ (unit = 2 * r ∧ q % 2 = 1) then q + 1 else q
  n.sign * ((m * unit : ℕ) : ℤ)

/-- `Math.round(currentTick * rate)` -/
def roundTicks (currentTick rate : ℤ) : ℤ :=
  max minLong (min (toDouble currentTick * rate) maxLong)

namespace TickCalculation

end TickCalculation

/-- `ClipEnvelope.checkBounds(value, max)` -/
def checkBounds (value max_ : ℤ) : ℤ := max 0 (min value max_)

/-- A positive result of `checkBounds` is the value or the bound. -/
theorem checkBounds_cases {value bound t : ℤ} (h : checkBounds value bound = t) (ht : 0 < t) :
    (value = t ∧ t < bound) ∨ (bound = t ∧ t ≤ value) := by
  unfold checkBounds at h
  omega

/-! ## Where nothing is lost -/

theorem toLong_of_mem {x : ℤ} (h : minLong ≤ x) (h' : x ≤ maxLong) : toLong x = x := by
  unfold toLong minLong maxLong at *
  omega

theorem toLong_of_nonneg {x : ℤ} (h : 0 ≤ x) (h' : x ≤ maxLong) : toLong x = x :=
  toLong_of_mem (le_trans (by decide) h) h'

/-- The natural numbers that are `long`s. -/
theorem natCast_le_maxLong {n : ℕ} (h : n < 2 ^ 63) : (n : ℤ) ≤ maxLong := by
  unfold maxLong
  omega

theorem toDouble_of_lt {n : ℤ} (h : n.natAbs < 2 ^ 53) : toDouble n = n := by
  have hlog : n.natAbs.log2 - 52 = 0 := by
    by_cases hn : n.natAbs = 0
    · rw [hn]
      rfl
    · have hle : n.natAbs.log2 < 53 := (Nat.log2_lt hn).mpr h
      omega
  simp only [toDouble, hlog, pow_zero, Nat.div_one, Nat.mod_one, Nat.mul_zero]
  rw [if_neg (by omega), Nat.mul_one]
  exact Int.sign_mul_natAbs n

theorem toDouble_nonneg {n : ℤ} (h : 0 ≤ n) : 0 ≤ toDouble n := by
  unfold toDouble
  exact mul_nonneg (Int.sign_nonneg_iff.mpr h) (Int.natCast_nonneg _)

/-- What a pulse comes to at rate 1. -/
theorem roundTicks_one {t : ℤ} (h : 0 ≤ t) :
    roundTicks t 1 = min (toDouble t) maxLong := by
  have hnonneg := toDouble_nonneg h
  have hmin : (minLong : ℤ) ≤ min (toDouble t) maxLong := by
    unfold minLong maxLong
    omega
  rw [roundTicks, mul_one, max_eq_right hmin]

namespace TickCalculation

end TickCalculation

end JavaFx.Animation
