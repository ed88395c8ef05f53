import Mathlib.Data.List.Nodup
import Mathlib.Logic.Function.Basic

/-!
# Differences of maps

A difference lists keys with what is at the key afterwards. It turns one map into another when it
has each key at most once, tells of each of its keys what the other map has there, and has every
key at which the maps differ.
-/

namespace MapDiff

variable {K W : Type*} [DecidableEq K]

/-- Writes what the difference tells, one key after the other. -/
def applyTo (f : K → W) (diff : List (K × W)) : K → W :=
  diff.foldl (fun f entry => Function.update f entry.1 entry.2) f

variable {f g : K → W} {diff : List (K × W)}

theorem applyTo_cons (entry : K × W) :
    applyTo f (entry :: diff) = applyTo (Function.update f entry.1 entry.2) diff := rfl

/-- Keys that the difference leaves out stay. -/
theorem applyTo_of_notMem {k : K} (h : k ∉ diff.map Prod.fst) : applyTo f diff k = f k := by
  induction diff generalizing f with
  | nil => rfl
  | cons entry diff ih =>
      rw [List.map_cons, List.mem_cons, not_or] at h
      rw [applyTo_cons, ih h.2, Function.update_of_ne h.1]

theorem applyTo_of_mem (hnodup : (diff.map Prod.fst).Nodup) {k : K} {w : W} (h : (k, w) ∈ diff) :
    applyTo f diff k = w := by
  induction diff generalizing f with
  | nil => cases h
  | cons entry diff ih =>
      rw [List.map_cons, List.nodup_cons] at hnodup
      rcases List.mem_cons.mp h with rfl | h
      · rw [applyTo_cons, applyTo_of_notMem hnodup.1, Function.update_self]
      · exact ih hnodup.2 h

/-- **A sound difference that covers every key** leads from one map to the other. -/
theorem applyTo_eq (hnodup : (diff.map Prod.fst).Nodup) (hsound : ∀ e ∈ diff, e.2 = g e.1)
    (hcovers : ∀ k, f k ≠ g k → k ∈ diff.map Prod.fst) : applyTo f diff = g := by
  ext k
  by_cases hk : k ∈ diff.map Prod.fst
  · obtain ⟨entry, hentry, rfl⟩ := List.mem_map.mp hk
    rw [applyTo_of_mem hnodup hentry, hsound entry hentry]
  · rw [applyTo_of_notMem hk]
    by_contra hne
    exact hk (hcovers k hne)

end MapDiff
