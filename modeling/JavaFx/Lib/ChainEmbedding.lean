import Mathlib.Data.List.Basic
import Mathlib.Tactic

/-!
# Embedding a pattern in a chain

A pattern has the places `k, k - 1, …, 0`; it is laid over a chain with the place `k` on the
first element and every further place on a later one, on the very next one if the edge is
direct. `Embeds` says that there is such a placement, and the lemmas take it apart at the
first element.

A search that places one after the other, and tries the elements for a place in their order,
looks at the pairs `Tried` before it has found its first placement.
-/

namespace ChainEmbedding

variable {α : Type} {P : ℕ → α → Prop} {direct : ℕ → Bool} {k : ℕ} {a : α} {l : List α}

/-- A placement of the places `k, …, 0`. -/
structure Embedding (P : ℕ → α → Prop) (direct : ℕ → Bool) (k : ℕ) (l : List α)
    (pos : ℕ → ℕ) : Prop where
  start : pos k = 0
  fits : ∀ i ≤ k, ∃ a, l[pos i]? = some a ∧ P i a
  respects : ∀ i < k, if direct i = true then pos i = pos (i + 1) + 1 else pos (i + 1) < pos i

/-- The pattern can be placed. -/
def Embeds (P : ℕ → α → Prop) (direct : ℕ → Bool) (k : ℕ) (l : List α) : Prop :=
  ∃ pos, Embedding P direct k l pos

theorem Embedding.lt {pos : ℕ → ℕ} (h : Embedding P direct k l pos) {i : ℕ} (hi : i < k) :
    pos (i + 1) < pos i := by
  have hstep := h.respects i hi
  split at hstep
  · rw [hstep]
    exact Nat.lt_succ_self _
  · exact hstep

/-- Later places stand on later elements. -/
theorem Embedding.le {pos : ℕ → ℕ} (h : Embedding P direct k l pos) {i j : ℕ} (hij : i ≤ j)
    (hj : j ≤ k) : pos j ≤ pos i := by
  induction j, hij using Nat.le_induction with
  | base => exact le_refl _
  | succ j hij ih => exact (h.lt (Nat.lt_of_succ_le hj)).le.trans (ih (Nat.le_of_succ_le hj))

/-- Only what fits a place of the pattern counts. -/
theorem embeds_congr {Q : ℕ → α → Prop} (h : ∀ i ≤ k, ∀ a, P i a ↔ Q i a) :
    Embeds P direct k l ↔ Embeds Q direct k l := by
  have hfits : ∀ {P Q : ℕ → α → Prop} {pos}, (∀ i ≤ k, ∀ a, P i a → Q i a) →
      Embedding P direct k l pos → Embedding Q direct k l pos := by
    intro P Q pos hPQ he
    refine ⟨he.start, fun i hi => ?_, he.respects⟩
    obtain ⟨a, ha, hP⟩ := he.fits i hi
    exact ⟨a, ha, hPQ i hi a hP⟩
  constructor
  · rintro ⟨pos, he⟩
    exact ⟨pos, hfits (fun i hi a => (h i hi a).mp) he⟩
  · rintro ⟨pos, he⟩
    exact ⟨pos, hfits (fun i hi a => (h i hi a).mpr) he⟩

theorem not_embeds_nil : ¬ Embeds P direct k [] := by
  rintro ⟨pos, h⟩
  obtain ⟨a, ha, -⟩ := h.fits k (le_refl k)
  simp at ha

theorem Embeds.head (h : Embeds P direct k (a :: l)) : P k a := by
  obtain ⟨pos, h⟩ := h
  obtain ⟨b, hb, hP⟩ := h.fits k (le_refl k)
  rw [h.start] at hb
  cases hb
  exact hP

theorem embedding_zero (h : P 0 a) : Embedding P direct 0 (a :: l) fun _ => 0 := by
  refine ⟨rfl, fun i hi => ?_, fun i hi => absurd hi (Nat.not_lt_zero i)⟩
  rw [Nat.le_zero.mp hi]
  exact ⟨a, rfl, h⟩

theorem embeds_zero : Embeds P direct 0 (a :: l) ↔ P 0 a :=
  ⟨Embeds.head, fun h => ⟨_, embedding_zero h⟩⟩

/-- Put one more place in front, `n` elements before the others. -/
def extend (k n : ℕ) (pos : ℕ → ℕ) (i : ℕ) : ℕ := if i = k + 1 then 0 else pos i + n + 1

theorem Embedding.extend {pos : ℕ → ℕ} {n : ℕ} (h : Embedding P direct k (l.drop n) pos)
    (ha : P (k + 1) a) (hn : direct k = true → n = 0) :
    Embedding P direct (k + 1) (a :: l) (extend k n pos) := by
  have hold : ∀ i ≤ k, ChainEmbedding.extend k n pos i = pos i + n + 1 := fun i hi =>
    if_neg (by omega)
  refine ⟨if_pos rfl, fun i hi => ?_, fun i hi => ?_⟩
  · rcases Nat.le_succ_iff.mp hi with hi | rfl
    · obtain ⟨b, hb, hP⟩ := h.fits i hi
      rw [List.getElem?_drop] at hb
      refine ⟨b, ?_, hP⟩
      rw [hold i hi, List.getElem?_cons_succ, Nat.add_comm]
      exact hb
    · rw [ChainEmbedding.extend, if_pos rfl]
      exact ⟨a, rfl, ha⟩
  · rcases Nat.lt_succ_iff_lt_or_eq.mp hi with hi | rfl
    · have hstep := h.respects i hi
      rw [hold i hi.le, hold (i + 1) hi]
      by_cases hd : direct i = true
      · rw [if_pos hd] at hstep ⊢
        omega
      · rw [if_neg hd] at hstep ⊢
        omega
    · have hzero : ChainEmbedding.extend i n pos (i + 1) = 0 := if_pos rfl
      rw [hold i (le_refl i), hzero, h.start]
      split
      · next hd => rw [hn hd]
      · omega

/-- The places after the first one. -/
theorem Embedding.tail {pos : ℕ → ℕ} (h : Embedding P direct (k + 1) (a :: l) pos) :
    Embedding P direct k (l.drop (pos k - 1)) fun i => pos i - pos k := by
  have hpos : 0 < pos k := by
    have := h.lt (Nat.lt_succ_self k)
    omega
  have hge : ∀ i ≤ k, pos k ≤ pos i := fun i hi => h.le hi (Nat.le_succ k)
  refine ⟨Nat.sub_self _, fun i hi => ?_, fun i hi => ?_⟩
  · obtain ⟨b, hb, hP⟩ := h.fits i (Nat.le_succ_of_le hi)
    refine ⟨b, ?_, hP⟩
    have hsum : pos i = (pos k - 1 + (pos i - pos k)) + 1 := by
      have := hge i hi
      omega
    rw [hsum, List.getElem?_cons_succ] at hb
    rw [List.getElem?_drop]
    exact hb
  · have hstep := h.respects i (Nat.lt_succ_of_lt hi)
    have hi' := hge i hi.le
    have hi'' := hge (i + 1) hi
    split at hstep
    · next hd =>
        rw [if_pos hd]
        omega
    · next hd =>
        rw [if_neg hd]
        omega

/-- **One place more**, on the first element. -/
theorem embeds_succ : Embeds P direct (k + 1) (a :: l) ↔ P (k + 1) a ∧
    if direct k = true then Embeds P direct k l else ∃ n, Embeds P direct k (l.drop n) := by
  constructor
  · intro h
    refine ⟨h.head, ?_⟩
    obtain ⟨pos, h⟩ := h
    split
    · next hd =>
        have hstep := h.respects k (Nat.lt_succ_self k)
        rw [if_pos hd, h.start] at hstep
        have htail := h.tail
        rw [hstep] at htail
        exact ⟨_, htail⟩
    · exact ⟨pos k - 1, _, h.tail⟩
  · rintro ⟨ha, h⟩
    split at h
    · obtain ⟨pos, hpos⟩ := h
      exact ⟨_, Embedding.extend (n := 0) hpos ha fun _ => rfl⟩
    · next hd =>
        obtain ⟨n, pos, hpos⟩ := h
        exact ⟨_, hpos.extend ha fun h => absurd h hd⟩

/-- Elements that the first place does not fit can be passed over. -/
theorem embeds_drop_iff {test : α → Bool} (h : ∀ a, P k a → test a = true) :
    (∃ n, Embeds P direct k (l.drop n)) ↔
      ∃ n, Embeds P direct k ((l.dropWhile fun a => !test a).drop n) := by
  induction l with
  | nil => rfl
  | cons a l ih =>
      by_cases ha : test a = true
      · rw [List.dropWhile_cons_of_neg (by rw [ha]; exact Bool.false_ne_true)]
      · rw [List.dropWhile_cons_of_pos (by simpa using ha), ← ih]
        constructor
        · rintro ⟨n, hn⟩
          cases n with
          | zero => exact absurd (h a hn.head) ha
          | succ n => exact ⟨n, hn⟩
        · rintro ⟨n, hn⟩
          exact ⟨n + 1, hn⟩

/-! ## What a search tries -/

/-- The search from place `k` on the first element tries the place `j` on the element at
`r`, and it fits: for an edge that is not direct it goes on until the rest can be placed. -/
inductive Tried (P : ℕ → α → Prop) (direct : ℕ → Bool) : ℕ → List α → ℕ → ℕ → Prop
  | here {k : ℕ} {a : α} {l : List α} (ha : P k a) : Tried P direct k (a :: l) k 0
  | direct {k : ℕ} {a : α} {l : List α} {j r : ℕ} (ha : P (k + 1) a) (hd : direct k = true)
      (h : Tried P direct k l j r) : Tried P direct (k + 1) (a :: l) j (r + 1)
  | further {k : ℕ} {a : α} {l : List α} {j r n : ℕ} (ha : P (k + 1) a)
      (hd : ¬ direct k = true) (hnone : ∀ m < n, ¬ Embeds P direct k (l.drop m))
      (h : Tried P direct k (l.drop n) j r) : Tried P direct (k + 1) (a :: l) j (r + n + 1)

theorem not_tried_nil {j r : ℕ} : ¬ Tried P direct k [] j r := fun h => nomatch h

theorem tried_zero {j r : ℕ} : Tried P direct 0 (a :: l) j r ↔ P 0 a ∧ j = 0 ∧ r = 0 := by
  constructor
  · rintro ⟨ha⟩
    exact ⟨ha, rfl, rfl⟩
  · rintro ⟨ha, rfl, rfl⟩
    exact .here ha

/-- What is tried from the first element on. -/
theorem tried_succ {j r : ℕ} : Tried P direct (k + 1) (a :: l) j r ↔ P (k + 1) a ∧
    (j = k + 1 ∧ r = 0 ∨
      if direct k = true then ∃ r', r = r' + 1 ∧ Tried P direct k l j r'
      else ∃ n r', r = r' + n + 1 ∧ (∀ m < n, ¬ Embeds P direct k (l.drop m)) ∧
        Tried P direct k (l.drop n) j r') := by
  constructor
  · intro h
    cases h with
    | here ha => exact ⟨ha, Or.inl ⟨rfl, rfl⟩⟩
    | direct ha hd h =>
        rw [if_pos hd]
        exact ⟨ha, Or.inr ⟨_, rfl, h⟩⟩
    | further ha hd hnone h =>
        rw [if_neg hd]
        exact ⟨ha, Or.inr ⟨_, _, rfl, hnone, h⟩⟩
  · rintro ⟨ha, ⟨rfl, rfl⟩ | h⟩
    · exact .here ha
    · split at h
      · next hd =>
          obtain ⟨r', rfl, h⟩ := h
          exact .direct ha hd h
      · next hd =>
          obtain ⟨n, r', rfl, hnone, h⟩ := h
          exact .further ha hd hnone h

end ChainEmbedding
