import Mathlib.Data.List.Basic

/-!
# Purging

Several parties call operations of one system. A party is not disturbed if its results are those
it gets when the calls of all others are left out. It is enough to say what the party sees: a
relation between the system with the others and the system without them that its own calls keep,
with the same results, and that the calls of the others keep on one side.
-/

namespace Purging

variable {ι : Type*} {Op : Type*} {Res : Type*} {σ : Type*}

/-- The results of some calls, each with the party that called. -/
def results (step : σ → ι → Op → Res × σ) : σ → List (ι × Op) → List (ι × Res)
  | _, [] => []
  | s, (i, op) :: ops => (i, (step s i op).1) :: results step (step s i op).2 ops

/-- The system after some calls. -/
def after (step : σ → ι → Op → Res × σ) : σ → List (ι × Op) → σ
  | s, [] => s
  | s, (i, op) :: ops => after step (step s i op).2 ops

/-- Every call is allowed in the state in which it is made. -/
def AllAllowed (step : σ → ι → Op → Res × σ) (allowed : σ → ι → Op → Prop) (s : σ)
    (ops : List (ι × Op)) : Prop :=
  ∀ pre i op post, ops = pre ++ (i, op) :: post → allowed (after step s pre) i op

variable {step : σ → ι → Op → Res × σ} {allowed : σ → ι → Op → Prop}

theorem AllAllowed.nil (s : σ) : AllAllowed step allowed s [] := by
  intro pre i op post hops
  cases pre <;> cases hops

theorem AllAllowed.cons {s : σ} {i : ι} {op : Op} {ops : List (ι × Op)} (hop : allowed s i op)
    (hops : AllAllowed step allowed (step s i op).2 ops) :
    AllAllowed step allowed s ((i, op) :: ops) := by
  intro pre j op' post heq
  cases pre with
  | nil =>
      cases heq
      exact hop
  | cons call pre =>
      cases heq
      exact hops pre j op' post rfl

theorem AllAllowed.head {s : σ} {i : ι} {op : Op} {ops : List (ι × Op)}
    (h : AllAllowed step allowed s ((i, op) :: ops)) : allowed s i op :=
  h [] i op ops rfl

theorem AllAllowed.tail {s : σ} {i : ι} {op : Op} {ops : List (ι × Op)}
    (h : AllAllowed step allowed s ((i, op) :: ops)) :
    AllAllowed step allowed (step s i op).2 ops := by
  intro pre j op' post hops
  exact h ((i, op) :: pre) j op' post (by rw [hops]; rfl)

/-- **A party gets what it gets alone**, if its own calls keep what it sees, with the same results,
and those of the others keep it too. -/
theorem results_filter [DecidableEq ι] {i : ι} {sees : σ → σ → Prop}
    (own : ∀ s t op, sees s t → allowed s i op →
      (step s i op).1 = (step t i op).1 ∧ sees (step s i op).2 (step t i op).2)
    (other : ∀ s t j op, sees s t → j ≠ i → allowed s j op → sees (step s j op).2 t)
    {s t : σ} {ops : List (ι × Op)} (hsees : sees s t) (hops : AllAllowed step allowed s ops) :
    (results step s ops).filter (fun r => r.1 = i) =
      results step t (ops.filter fun call => call.1 = i) := by
  induction ops generalizing s t with
  | nil => rfl
  | cons call ops ih =>
      obtain ⟨j, op⟩ := call
      by_cases hj : j = i
      · subst hj
        obtain ⟨hresult, hsees'⟩ := own s t op hsees hops.head
        rw [List.filter_cons_of_pos (by simp)]
        simp only [results, decide_true, List.filter_cons_of_pos, hresult]
        rw [ih hsees' hops.tail]
      · rw [List.filter_cons_of_neg (by simpa using hj)]
        simp only [results]
        rw [List.filter_cons_of_neg (by simpa using hj)]
        exact ih (other s t j op hsees hj hops.head) hops.tail

end Purging
