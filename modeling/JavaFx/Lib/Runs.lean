import Mathlib.Data.List.Basic
import Mathlib.Tactic

/-!
# Runs of a step function that may fail

`runAll step s as` performs the actions `as` one after the other and stops at
the first failure. `Along step P s as` says that `P` holds before every action
that the run performs. An invariant that one step keeps, and that makes the
step succeed, therefore makes the whole run succeed (`runAll_invariant`).
-/

namespace Runs

variable {σ a ε : Type}

def runAll (step : σ → a → Except ε σ) : σ → List a → Except ε σ
  | s, [] => .ok s
  | s, x :: xs =>
      match step s x with
      | .ok s' => runAll step s' xs
      | .error e => .error e

def Along (step : σ → a → Except ε σ) (P : σ → a → Prop) : σ → List a → Prop
  | _, [] => True
  | s, x :: xs => P s x ∧
      match step s x with
      | .ok s' => Along step P s' xs
      | .error _ => True

instance Along.decidable (step : σ → a → Except ε σ) (P : σ → a → Prop)
    [∀ s x, Decidable (P s x)] :
    ∀ s xs, Decidable (Along step P s xs)
  | _, [] => .isTrue trivial
  | s, x :: xs =>
      match h : step s x with
      | .ok s' =>
          have := Along.decidable step P s' xs
          decidable_of_iff (P s x ∧ Along step P s' xs) (by rw [Along, h])
      | .error _ => decidable_of_iff (P s x) (by rw [Along, h, and_true])

variable {step : σ → a → Except ε σ} {P Q : σ → a → Prop}

theorem runAll_cons_ok {s s' : σ} {x : a} (xs : List a) (h : step s x = .ok s') :
    runAll step s (x :: xs) = runAll step s' xs := by
  rw [runAll, h]

theorem Along.head {s : σ} {x : a} {xs : List a}
    (h : Along step P s (x :: xs)) : P s x := h.1

theorem Along.tail {s s' : σ} {x : a} {xs : List a}
    (h : Along step P s (x :: xs)) (hs : step s x = .ok s') :
    Along step P s' xs := by
  have := h.2
  rw [hs] at this
  exact this

theorem Along.imp {s : σ} {xs : List a} (h : Along step P s xs)
    (himp : ∀ s x, P s x → Q s x) : Along step Q s xs := by
  induction xs generalizing s with
  | nil => trivial
  | cons x xs ih =>
      refine ⟨himp s x h.head, ?_⟩
      cases hs : step s x with
      | ok t => exact ih (h.tail hs)
      | error e => trivial

theorem Along.and {s : σ} {xs : List a} (hP : Along step P s xs)
    (hQ : Along step Q s xs) : Along step (fun s x => P s x ∧ Q s x) s xs := by
  induction xs generalizing s with
  | nil => trivial
  | cons x xs ih =>
      refine ⟨⟨hP.head, hQ.head⟩, ?_⟩
      cases hs : step s x with
      | ok t => exact ih (hP.tail hs) (hQ.tail hs)
      | error e => trivial

theorem along_of_forall {R : a → Prop} {xs : List a} (h : ∀ x ∈ xs, R x) :
    ∀ s : σ, Along step (fun _ x => R x) s xs := by
  induction xs with
  | nil => intro s; trivial
  | cons x xs ih =>
      intro s
      refine ⟨h x List.mem_cons_self, ?_⟩
      cases step s x with
      | ok t => exact ih (fun y hy => h y (List.mem_cons_of_mem _ hy)) t
      | error e => trivial

theorem Along.append_left {s : σ} {xs ys : List a}
    (h : Along step P s (xs ++ ys)) : Along step P s xs := by
  induction xs generalizing s with
  | nil => trivial
  | cons x xs ih =>
      refine ⟨h.1, ?_⟩
      cases hs : step s x with
      | ok t => exact ih (Along.tail h hs)
      | error e => trivial

theorem Along.append_right {s t : σ} {xs ys : List a}
    (h : Along step P s (xs ++ ys)) (hrun : runAll step s xs = .ok t) :
    Along step P t ys := by
  induction xs generalizing s with
  | nil => cases hrun; exact h
  | cons x xs ih =>
      rw [runAll] at hrun
      cases hs : step s x with
      | ok r => rw [hs] at hrun; exact ih (Along.tail h hs) hrun
      | error e => rw [hs] at hrun; cases hrun

theorem runAll_append {s s' : σ} {xs : List a} (ys : List a)
    (h : runAll step s xs = .ok s') :
    runAll step s (xs ++ ys) = runAll step s' ys := by
  induction xs generalizing s with
  | nil =>
      cases h
      rfl
  | cons x xs ih =>
      rw [runAll] at h
      rw [List.cons_append, runAll]
      cases hs : step s x with
      | ok t =>
          rw [hs] at h
          exact ih h
      | error e =>
          rw [hs] at h
          cases h

theorem runAll_append_error {s : σ} {e : ε} {xs : List a} (ys : List a)
    (h : runAll step s xs = .error e) : runAll step s (xs ++ ys) = .error e := by
  induction xs generalizing s with
  | nil => cases h
  | cons x xs ih =>
      rw [runAll] at h
      rw [List.cons_append, runAll]
      cases hs : step s x with
      | ok t =>
          rw [hs] at h
          exact ih h
      | error e' =>
          rw [hs] at h
          exact h

theorem runAll_singleton (s : σ) (x : a) : runAll step s [x] = step s x := by
  rw [runAll]
  cases step s x <;> rfl

/-- **The run rule.** `Inv` together with `P` makes a step succeed and is kept
by it; then every run along which `P` holds succeeds and ends in `Inv`. -/
theorem runAll_invariant {Inv : σ → Prop}
    (hstep : ∀ s x, Inv s → P s x → ∃ s', step s x = .ok s' ∧ Inv s')
    {s : σ} {xs : List a} (hs : Inv s) (h : Along step P s xs) :
    ∃ s', runAll step s xs = .ok s' ∧ Inv s' := by
  induction xs generalizing s with
  | nil => exact ⟨s, rfl, hs⟩
  | cons x xs ih =>
      obtain ⟨t, ht, hinv⟩ := hstep s x hs h.head
      obtain ⟨s', hrun, hs'⟩ := ih hinv (h.tail ht)
      exact ⟨s', by rw [runAll_cons_ok xs ht, hrun], hs'⟩

/-- A property that one step keeps exactly when `P` holds before it is kept along
a run exactly when `P` holds all along. `W` is what every step keeps. -/
theorem prefixes_iff_along {W G : σ → Prop} {V : a → Prop}
    (hstep : ∀ s x, W s → G s → V x →
      ∃ s', step s x = .ok s' ∧ W s' ∧ (G s' ↔ P s x))
    {s : σ} {xs : List a} (hW : W s) (hG : G s) (hV : ∀ x ∈ xs, V x) :
    (∀ pre, pre <+: xs → ∃ s', runAll step s pre = .ok s' ∧ G s') ↔
      Along step P s xs := by
  induction xs generalizing s with
  | nil =>
      refine iff_of_true (fun pre hpre => ?_) trivial
      rw [List.prefix_nil.mp hpre]
      exact ⟨s, rfl, hG⟩
  | cons x xs ih =>
      obtain ⟨s', hs', hW', hiff⟩ := hstep s x hW hG (hV x List.mem_cons_self)
      have hV' : ∀ y ∈ xs, V y := fun y hy => hV y (List.mem_cons_of_mem _ hy)
      constructor
      · intro hall
        obtain ⟨t, ht, hGt⟩ := hall [x] (List.prefix_append [x] xs)
        rw [runAll_singleton, hs'] at ht
        cases ht
        refine ⟨hiff.mp hGt, ?_⟩
        rw [hs']
        refine (ih hW' hGt hV').mp fun pre hpre => ?_
        obtain ⟨u, hu, hGu⟩ := hall (x :: pre) (List.cons_prefix_cons.mpr ⟨rfl, hpre⟩)
        rw [runAll_cons_ok pre hs'] at hu
        exact ⟨u, hu, hGu⟩
      · intro halong pre hpre
        cases pre with
        | nil => exact ⟨s, rfl, hG⟩
        | cons y pre =>
            obtain ⟨rfl, hpre'⟩ := List.cons_prefix_cons.mp hpre
            rw [runAll_cons_ok pre hs']
            exact (ih hW' (hiff.mpr halong.head) hV').mpr (halong.tail hs') pre hpre'

/-! ## Steps that cannot fail -/

section Total

variable {move : σ → a → σ} {Inv G : σ → Prop} {D : σ → a → Prop}

theorem foldl_take_succ (move : σ → a → σ) (s : σ) {xs : List a} {n : ℕ} {x : a}
    (hx : xs[n]? = some x) :
    (xs.take (n + 1)).foldl move s = move ((xs.take n).foldl move s) x := by
  rw [List.take_add_one, hx, Option.toList_some, List.foldl_append]
  rfl

/-- An invariant that the steps with `D` keep holds as long as all steps have been such. -/
theorem takes_invariant (hstep : ∀ s x, Inv s → D s x → Inv (move s x)) {s : σ} (hs : Inv s)
    {xs : List a} : ∀ n, (∀ m x, m < n → xs[m]? = some x → D ((xs.take m).foldl move s) x) →
      Inv ((xs.take n).foldl move s) := by
  intro n
  induction n with
  | zero => exact fun _ => hs
  | succ n ih =>
      intro hD
      have hn := ih fun m x hm hx => hD m x (by omega) hx
      cases hx : xs[n]? with
      | none =>
          rw [List.take_add_one, hx, Option.toList_none, List.append_nil]
          exact hn
      | some x =>
          rw [foldl_take_succ move s hx]
          exact hstep _ x hn (hD n x (Nat.lt_succ_self n) hx)

/-- A property that one step keeps exactly when `D` holds before it, given an invariant that the
steps with `D` keep, holds all along a run exactly when `D` holds before every step. -/
theorem takes_iff (hgood : ∀ s x, Inv s → G s → D s x → Inv (move s x) ∧ G (move s x))
    (hbad : ∀ s x, Inv s → G s → ¬ D s x → ¬ G (move s x)) {s : σ} (hs : Inv s) (hG : G s)
    (xs : List a) : (∀ n, G ((xs.take n).foldl move s)) ↔
      ∀ n x, xs[n]? = some x → D ((xs.take n).foldl move s) x := by
  have hinv : ∀ n, (∀ m x, m < n → xs[m]? = some x → D ((xs.take m).foldl move s) x) →
      Inv ((xs.take n).foldl move s) ∧ G ((xs.take n).foldl move s) :=
    takes_invariant (fun s x (h : Inv s ∧ G s) => hgood s x h.1 h.2) ⟨hs, hG⟩
  constructor
  · intro hall n
    induction n using Nat.strong_induction_on with
    | _ n ih =>
        intro x hx
        by_contra hD
        obtain ⟨hn, hGn⟩ := hinv n fun m y hm hy => ih m hm y hy
        refine hbad _ x hn hGn hD ?_
        rw [← foldl_take_succ move s hx]
        exact hall (n + 1)
  · intro hD n
    exact (hinv n fun m x _ hx => hD m x hx).2

end Total

end Runs
