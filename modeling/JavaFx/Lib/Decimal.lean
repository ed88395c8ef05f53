import Mathlib.Data.Nat.Digits.Lemmas
import Mathlib.Tactic

/-!
# Decimal digits

The digits of a number as they are written, the first one at the left. Reading them from the left
gives the number back, and none but zero begins with a zero.
-/

namespace Decimal

/-- The digits of a number, as it is written. -/
def digits (n : ℕ) : List ℕ := if n = 0 then [0] else (Nat.digits 10 n).reverse

/-- The number that digits are the text of, `n` being to the left of them. -/
def read (n : ℕ) (ds : List ℕ) : ℕ := ds.foldl (fun n d => n * 10 + d) n

theorem digits_lt {n d : ℕ} (h : d ∈ digits n) : d < 10 := by
  unfold digits at h
  split_ifs at h with hn
  · rw [List.mem_singleton.mp h]
    decide
  · exact Nat.digits_lt_base (by decide) (List.mem_reverse.mp h)

theorem digits_ne_nil (n : ℕ) : digits n ≠ [] := by
  unfold digits
  split_ifs with hn
  · exact List.cons_ne_nil _ _
  · exact List.reverse_ne_nil_iff.mpr (Nat.digits_ne_nil_iff_ne_zero.mpr hn)

/-- **Reading the digits** gives the number. -/
theorem read_digits (n : ℕ) : read 0 (digits n) = n := by
  unfold digits
  split_ifs with hn
  · rw [hn]
    rfl
  · have hfold := Nat.ofDigits_eq_foldr (10 : ℕ) (Nat.digits 10 n)
    rw [Nat.ofDigits_digits] at hfold
    rw [read, List.foldl_reverse]
    refine Eq.trans ?_ hfold.symm
    congr 1
    funext d m
    simp only [Nat.cast_id]
    ring

end Decimal
