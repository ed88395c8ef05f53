import Mathlib.Data.Sum.Basic
import Mathlib.Data.Nat.Init

/-!
# Loops that exit

A loop makes rounds. A round goes on with another state, or exits with a result. `iterate` makes
up to `n` rounds and is `none` when the loop has not exited by then, or when a round itself does
not end. `iterate_spec` is the rule for a loop with an invariant and a variant.
-/

namespace Rounds

variable {σ ρ : Type*}

def iterate (round : σ → Option (σ ⊕ ρ)) : ℕ → σ → Option ρ
  | 0, _ => none
  | n + 1, s =>
    match round s with
    | none => none
    | some (.inl t) => iterate round n t
    | some (.inr r) => some r

/-- What one round does: it keeps the invariant and lowers the variant, or it exits as it should. -/
def Keeps (Inv : σ → Prop) (variant : σ → ℕ) (Exit : ρ → Prop) (s : σ) : Option (σ ⊕ ρ) → Prop
  | none => False
  | some (.inl t) => Inv t ∧ variant t < variant s
  | some (.inr r) => Exit r

/-- **The rule.** More rounds than the variant says are enough. -/
theorem iterate_spec {round : σ → Option (σ ⊕ ρ)} {Inv : σ → Prop} {variant : σ → ℕ}
    {Exit : ρ → Prop} (hround : ∀ s, Inv s → Keeps Inv variant Exit s (round s)) {n : ℕ} {s : σ}
    (hs : Inv s) (hn : variant s < n) : ∃ r, iterate round n s = some r ∧ Exit r := by
  induction n generalizing s with
  | zero => exact absurd hn (Nat.not_lt_zero _)
  | succ n ih =>
      have hkeeps := hround s hs
      rw [iterate]
      cases heq : round s with
      | none =>
          rw [heq] at hkeeps
          exact hkeeps.elim
      | some next =>
          rw [heq] at hkeeps
          cases next with
          | inl t => exact ih hkeeps.1 (Nat.lt_of_lt_of_le hkeeps.2 (Nat.le_of_lt_succ hn))
          | inr r => exact ⟨r, rfl, hkeeps⟩

end Rounds
