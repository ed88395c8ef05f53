import Mathlib.Data.List.Basic
import Mathlib.Data.List.GetD
import Mathlib.Data.List.Nodup
import Mathlib.Data.List.Range
import Mathlib.Tactic

/-!
# Sets of numbers as words

A list of words of `w` bits stands for the set of the positions of its one bits. Past
its end there are only zeros, so lists of different lengths may stand for one set.
-/

namespace WordSet

variable {w : ℕ}

/-- The word at a position. -/
def word (ws : List (BitVec w)) (n : ℕ) : BitVec w := ws.getD n 0#w

/-- The number is in the set. -/
def mem (ws : List (BitVec w)) (i : ℕ) : Bool := (word ws (i / w)).getLsbD (i % w)

/-- The numbers in the words `f 0, …, f (len - 1)`, in order. -/
def members (f : ℕ → BitVec w) (len : ℕ) : List ℕ :=
  (List.range len).flatMap fun n =>
    ((List.range w).filter fun b => (f n).getLsbD b).map fun b => n * w + b

theorem word_of_ge {ws : List (BitVec w)} {n : ℕ} (h : ws.length ≤ n) : word ws n = 0#w := by
  rw [word, List.getD_eq_default _ _ h]

theorem word_of_lt {ws : List (BitVec w)} {n : ℕ} (h : n < ws.length) : word ws n = ws[n] := by
  rw [word, List.getD_eq_getElem _ _ h]

theorem word_ofFn (f : ℕ → BitVec w) (len n : ℕ) :
    word ((List.range len).map f) n = if n < len then f n else 0#w := by
  by_cases h : n < len
  · rw [if_pos h, word_of_lt (by rw [List.length_map, List.length_range]; exact h),
      List.getElem_map, List.getElem_range]
  · rw [if_neg h, word_of_ge (by rw [List.length_map, List.length_range]; exact not_lt.mp h)]

theorem mem_mul_add {ws : List (BitVec w)} {n b : ℕ} (hb : b < w) :
    mem ws (n * w + b) = (word ws n).getLsbD b := by
  have hw : 0 < w := Nat.zero_lt_of_lt hb
  rw [mem, Nat.mul_comm, Nat.mul_add_div hw, Nat.div_eq_of_lt hb, Nat.add_zero,
    Nat.mul_add_mod, Nat.mod_eq_of_lt hb]

theorem lt_length_of_mem {ws : List (BitVec w)} {i : ℕ} (h : mem ws i = true) :
    i / w < ws.length := by
  by_contra hge
  rw [mem, word_of_ge (not_lt.mp hge)] at h
  simp at h

/-- Two sets are the same if their words are. -/
theorem mem_eq_iff {a b : List (BitVec w)} :
    (∀ i, mem a i = mem b i) ↔ ∀ n, word a n = word b n := by
  constructor
  · intro h n
    apply BitVec.eq_of_getLsbD_eq
    intro k hk
    rw [← mem_mul_add hk, ← mem_mul_add hk, h]
  · intro h i
    rw [mem, mem, h]

theorem mem_subset_iff {a b : List (BitVec w)} :
    (∀ i, mem b i = true → mem a i = true) ↔ ∀ n, word a n &&& word b n = word b n := by
  constructor
  · intro h n
    apply BitVec.eq_of_getLsbD_eq
    intro k hk
    rw [BitVec.getLsbD_and]
    have hk' := h (n * w + k)
    rw [mem_mul_add hk, mem_mul_add hk] at hk'
    cases hb : (word b n).getLsbD k with
    | false => exact Bool.and_false _
    | true => rw [hk' hb, Bool.and_true]
  · intro h i hi
    rw [mem] at hi ⊢
    rw [← h (i / w), BitVec.getLsbD_and, Bool.and_eq_true] at hi
    exact hi.1

/-- A word that is not zero has a number in it. -/
theorem exists_mem_of_word_ne {ws : List (BitVec w)} {n : ℕ} (h : word ws n ≠ 0#w) :
    ∃ b < w, mem ws (n * w + b) = true := by
  by_contra hnone
  apply h
  apply BitVec.eq_of_getLsbD_eq
  intro b hb
  rw [BitVec.getLsbD_zero, ← mem_mul_add hb]
  by_contra hne
  exact hnone ⟨b, hb, Bool.eq_true_of_not_eq_false hne⟩

theorem eq_of_word_eq {a b : List (BitVec w)} (hlen : a.length = b.length)
    (h : ∀ n, word a n = word b n) : a = b := by
  apply List.ext_getElem hlen
  intro n ha hb
  rw [← word_of_lt ha, ← word_of_lt hb, h]

theorem mem_members {f : ℕ → BitVec w} {len i : ℕ} (hw : 0 < w) :
    i ∈ members f len ↔ i / w < len ∧ (f (i / w)).getLsbD (i % w) = true := by
  simp only [members, List.mem_flatMap, List.mem_range, List.mem_map, List.mem_filter]
  constructor
  · rintro ⟨n, hn, b, ⟨hb, hbit⟩, rfl⟩
    rw [Nat.mul_comm, Nat.mul_add_div hw, Nat.div_eq_of_lt hb, Nat.add_zero,
      Nat.mul_add_mod, Nat.mod_eq_of_lt hb]
    exact ⟨hn, hbit⟩
  · rintro ⟨hn, hbit⟩
    exact ⟨i / w, hn, i % w, ⟨Nat.mod_lt _ hw, hbit⟩, Nat.div_add_mod' i w⟩

/-- The numbers are listed once each. -/
theorem nodup_members (f : ℕ → BitVec w) (len : ℕ) : (members f len).Nodup := by
  apply List.nodup_flatMap.mpr
  constructor
  · intro n _
    apply (List.nodup_range.filter _).map
    exact fun _ _ h => Nat.add_left_cancel h
  · apply List.nodup_range.imp
    intro n m hne
    rw [Function.onFun, List.disjoint_left]
    intro i hi hj
    obtain ⟨b, hb, rfl⟩ := List.mem_map.mp hi
    obtain ⟨c, hc, heq⟩ := List.mem_map.mp hj
    have hb' : b < w := List.mem_range.mp (List.mem_filter.mp hb).1
    have hc' : c < w := List.mem_range.mp (List.mem_filter.mp hc).1
    apply hne
    have hdiv := congrArg (· / w) heq
    simp only [Nat.mul_comm _ w, Nat.mul_add_div (Nat.zero_lt_of_lt hb'),
      Nat.div_eq_of_lt hb', Nat.div_eq_of_lt hc', Nat.add_zero] at hdiv
    exact hdiv.symm

/-! ## One bit -/

theorem getLsbD_one_shiftLeft {b j : ℕ} (hj : j < w) :
    (1#w <<< b).getLsbD j = decide (j = b) := by
  rw [BitVec.getLsbD_shiftLeft, BitVec.getLsbD_one]
  by_cases h : j = b
  · subst h
    simp [hj, Nat.zero_lt_of_lt hj]
  · by_cases hlt : j < b
    · simp [hlt, h]
    · have hne : ¬ j - b = 0 := by omega
      simp [hne, h]

/-- Testing a bit with a mask. -/
theorem mask_and_eq_iff {x : BitVec w} {b : ℕ} (hb : b < w) :
    (1#w <<< b) &&& x = 1#w <<< b ↔ x.getLsbD b = true := by
  constructor
  · intro h
    have hbit := congrArg (fun y => y.getLsbD b) h
    simp only [BitVec.getLsbD_and, getLsbD_one_shiftLeft hb, decide_true, Bool.true_and] at hbit
    exact hbit
  · intro h
    apply BitVec.eq_of_getLsbD_eq
    intro j hj
    rw [BitVec.getLsbD_and, getLsbD_one_shiftLeft hj]
    by_cases hjb : j = b
    · subst hjb
      rw [h, Bool.and_true]
    · rw [decide_eq_false hjb, Bool.false_and]

theorem or_mask_eq_iff {x : BitVec w} {b : ℕ} (hb : b < w) :
    x ||| (1#w <<< b) = x ↔ x.getLsbD b = true := by
  constructor
  · intro h
    rw [← h, BitVec.getLsbD_or, getLsbD_one_shiftLeft hb, decide_eq_true rfl,
      Bool.or_true]
  · intro h
    apply BitVec.eq_of_getLsbD_eq
    intro j hj
    rw [BitVec.getLsbD_or, getLsbD_one_shiftLeft hj]
    by_cases hjb : j = b
    · subst hjb
      rw [h, Bool.true_or]
    · rw [decide_eq_false hjb, Bool.or_false]

theorem and_not_mask_eq_iff {x : BitVec w} {b : ℕ} (hb : b < w) :
    x &&& ~~~(1#w <<< b) = x ↔ x.getLsbD b = false := by
  constructor
  · intro h
    rw [← h, BitVec.getLsbD_and, BitVec.getLsbD_not, getLsbD_one_shiftLeft hb,
      decide_eq_true rfl, Bool.not_true, Bool.and_false, Bool.and_false]
  · intro h
    apply BitVec.eq_of_getLsbD_eq
    intro j hj
    rw [BitVec.getLsbD_and, BitVec.getLsbD_not, getLsbD_one_shiftLeft hj]
    by_cases hjb : j = b
    · subst hjb
      rw [h, Bool.false_and]
    · rw [decide_eq_false hjb, decide_eq_true hj, Bool.not_false, Bool.and_true, Bool.and_true]

end WordSet
