import JavaFx.Css.BitSet

/-!
# When a `BitSet` is a set

The mutators are the operations of sets exactly when the spare words of the arrays do not
come into it (`mutator_does_iff`), and the comparisons depend on the elements only exactly
when the arrays of sets that are to be the same have the same length (`compares_iff`).
Sets made by `add` alone have no spare words.
-/

namespace JavaFx.Css

open Indexed WordSet

variable {T : Type} [Indexed T]

/-- The mutators; the argument of a bulk operation is a set of the same class. -/
inductive Mutator (T : Type) where
  | add (t : T)
  | remove (t : T)
  | addAll (c : BitSet T)
  | removeAll (c : BitSet T)
  | retainAll (c : BitSet T)
  | clear

/-- What a mutator is to do to a set. -/
def Mutator.apply (E : Set T) : Mutator T → Set T
  | add t => insert t E
  | remove t => E \ {t}
  | addAll c => E ∪ c.elements
  | removeAll c => E \ c.elements
  | retainAll c => E ∩ c.elements
  | clear => ∅

/-- The lengths of the arrays do not come into it. -/
def Mutator.Fits (s : BitSet T) : Mutator T → Prop
  | addAll c => ¬ (s.bits.length < c.bits.length ∧ c.elements ⊆ s.elements)
  | removeAll c => ¬ ((s.elements ∩ c.elements).Nonempty ∧
      ∃ t ∈ s.elements, c.bits.length ≤ getIndex t / 64)
  | retainAll c => ¬ (c.bits.length < s.bits.length ∧ s.elements ⊆ c.elements)
  | _ => True

namespace BitSet

variable {s a b : BitSet T}

def mutate (s : BitSet T) : Mutator T → Outcome T
  | .add t => s.add (some t)
  | .remove t => s.remove (some t)
  | .addAll c => s.addAll (some c)
  | .removeAll c => s.removeAll (some c)
  | .retainAll c => s.retainAll (some c)
  | .clear => s.clear

/-- The sets that histories of the mutators make. -/
inductive Reached : BitSet T → Prop
  | empty (hasListeners : Bool) : Reached { hasListeners := hasListeners }
  | add {s : BitSet T} (h : Reached s) (t : T) : Reached (s.add (some t)).set
  | remove {s : BitSet T} (h : Reached s) (t : T) : Reached (s.remove (some t)).set
  | addAll {s c : BitSet T} (h : Reached s) (hc : Reached c) : Reached (s.addAll (some c)).set
  | removeAll {s c : BitSet T} (h : Reached s) (hc : Reached c) :
      Reached (s.removeAll (some c)).set
  | retainAll {s c : BitSet T} (h : Reached s) (hc : Reached c) :
      Reached (s.retainAll (some c)).set
  | clear {s : BitSet T} (h : Reached s) : Reached s.clear.set

/-! ## Mutators -/

/-- **A mutator is the operation of sets** (in the elements it leaves, in what it returns and
in what it tells the listeners) if and only if the lengths of the arrays do not come into
it: `addAll` does not get a longer array without a new element, `retainAll` does not shorten
the array without losing an element, and `removeAll` does not remove something from a set
that has elements in words which the other array does not have. -/
theorem mutator_does_iff (s : BitSet T) (m : Mutator T) :
    s.Does (s.mutate m) (m.apply s.elements) ↔ m.Fits s := by
  cases m with
  | add t => exact iff_of_true (add_does s t) trivial
  | remove t => exact iff_of_true (remove_does s t) trivial
  | addAll c => exact addAll_does_iff
  | removeAll c => exact removeAll_does_iff
  | retainAll c => exact retainAll_does_iff
  | clear => exact iff_of_true (clear_does s) trivial

/-- The sets with the elements 0 and 70, and 0. -/
def zeroSeventy : BitSet ℕ := ((({} : BitSet ℕ).add (some 0)).set.add (some 70)).set

def zero : BitSet ℕ := (({} : BitSet ℕ).add (some 0)).set

/-- Removing `{0}` from `{0, 70}` leaves nothing: 70 is lost. -/
theorem removeAll_loses_element : zeroSeventy.Reached ∧ zero.Reached ∧
    (zeroSeventy.mutate (.removeAll zero)).set = {} ∧
    ¬ zeroSeventy.Does (zeroSeventy.mutate (.removeAll zero))
      (Mutator.apply zeroSeventy.elements (.removeAll zero)) := by
  have hset : (zeroSeventy.mutate (.removeAll zero)).set = {} := by decide +kernel
  refine ⟨((Reached.empty false).add 0).add 70, (Reached.empty false).add 0, hset, ?_⟩
  intro hdoes
  have hkept : 70 ∈ zeroSeventy.elements \ zero.elements :=
    ⟨show zeroSeventy.contains (some 70) = true by decide +kernel,
      fun h => absurd (show zero.contains (some 70) = true from h) (by decide +kernel)⟩
  have hmem : 70 ∈ (zeroSeventy.mutate (.removeAll zero)).set.elements := by
    rw [hdoes.elements]
    exact hkept
  rw [hset] at hmem
  exact absurd (show ({} : BitSet ℕ).contains (some 70) = true from hmem) (by decide +kernel)

/-! ## Comparisons -/

theorem equals_iff {T : Type} {a b : BitSet T} :
    a.equals (some b) = true ↔ a.bits = b.bits := by
  rw [equals]
  split
  · next hne => exact iff_of_false Bool.false_ne_true fun h => hne (by rw [h])
  · next heq =>
      rw [List.all_eq_true]
      constructor
      · intro h
        apply eq_of_word_eq (not_not.mp heq)
        intro n
        by_cases hn : n < a.bits.length
        · exact of_decide_eq_true (h n (List.mem_range.mpr hn))
        · rw [word_of_ge (not_lt.mp hn), word_of_ge (by rw [← not_not.mp heq]; exact not_lt.mp hn)]
      · intro h n _
        rw [h]
        exact decide_eq_true rfl

theorem containsAll_iff : a.containsAll (some b) = true ↔
    b.bits.length ≤ a.bits.length ∧ b.elements ⊆ a.elements := by
  have hall : ((List.range b.bits.length).all fun n =>
      decide (word a.bits n &&& word b.bits n = word b.bits n)) = true ↔
      b.elements ⊆ a.elements := by
    rw [List.all_eq_true, elements_subset_iff]
    constructor
    · intro h n
      by_cases hn : n < b.bits.length
      · exact of_decide_eq_true (h n (List.mem_range.mpr hn))
      · rw [word_of_ge (not_lt.mp hn), BitVec.and_zero]
    · exact fun h n _ => decide_eq_true (h n)
  rw [containsAll]
  split
  · next hnil =>
      refine iff_of_true rfl ⟨by rw [hnil.2]; exact Nat.zero_le _, ?_⟩
      intro t ht
      have := lt_length_of_mem (mem_elements.mp ht)
      rw [hnil.2] at this
      exact absurd this (Nat.not_lt_zero _)
  · split
    · next hlt => exact iff_of_false Bool.false_ne_true fun h => absurd h.1 (not_le.mpr hlt)
    · next hge => rw [hall, and_iff_right (not_lt.mp hge)]

theorem elements_eq_iff_bits (hlen : a.bits.length = b.bits.length) :
    a.elements = b.elements ↔ a.bits = b.bits := by
  rw [elements_eq_iff]
  constructor
  · exact eq_of_word_eq hlen
  · exact fun h n => by rw [h]

/-- The comparisons of two sets depend on their elements only. -/
structure Compares (a b : BitSet T) : Prop where
  equals : a.equals (some b) = true ↔ a.elements = b.elements
  hashCode : a.elements = b.elements → a.hashCode = b.hashCode
  containsAll : a.containsAll (some b) = true ↔ b.elements ⊆ a.elements

/-- **The comparisons depend on the elements only** if and only if the array of the first
set is not the shorter one although it has all elements of the second, and not the longer
one although the sets are the same. -/
theorem compares_iff (a b : BitSet T) : a.Compares b ↔
    ¬ (b.elements ⊆ a.elements ∧ a.bits.length < b.bits.length) ∧
      ¬ (a.elements = b.elements ∧ b.bits.length < a.bits.length) := by
  constructor
  · intro h
    constructor
    · rintro ⟨hsub, hlt⟩
      have hle := (containsAll_iff.mp (h.containsAll.mpr hsub)).1
      exact absurd hle (not_le.mpr hlt)
    · rintro ⟨heq, hlt⟩
      have hbits := equals_iff.mp (h.equals.mpr heq)
      rw [hbits] at hlt
      exact lt_irrefl _ hlt
  · rintro ⟨hshort, hlong⟩
    have hbits : a.elements = b.elements → a.bits = b.bits := by
      intro heq
      apply (elements_eq_iff_bits ?_).mp heq
      apply le_antisymm
      · by_contra hlt
        exact hlong ⟨heq, not_le.mp hlt⟩
      · by_contra hlt
        exact hshort ⟨heq.ge, not_le.mp hlt⟩
    refine ⟨?_, ?_, ?_⟩
    · rw [equals_iff]
      exact ⟨fun h => (elements_eq_iff_bits (by rw [h])).mpr h, hbits⟩
    · intro heq
      rw [BitSet.hashCode, BitSet.hashCode, hbits heq]
    · rw [containsAll_iff, and_iff_right_iff_imp]
      intro hsub
      by_contra hlt
      exact hshort ⟨hsub, not_le.mp hlt⟩

/-- Removing 70 from `{0, 70}` leaves a set that is not equal to `{0}`. -/
theorem spare_word_compared : zero.Reached ∧ (zeroSeventy.remove (some 70)).set.Reached ∧
    zero.elements = (zeroSeventy.remove (some 70)).set.elements ∧
    zero.equals (some (zeroSeventy.remove (some 70)).set) = false ∧
    zero.hashCode ≠ (zeroSeventy.remove (some 70)).set.hashCode ∧
    zero.containsAll (some (zeroSeventy.remove (some 70)).set) = false := by
  refine ⟨(Reached.empty false).add 0, (((Reached.empty false).add 0).add 70).remove 70, ?_,
    by decide +kernel, by decide +kernel, by decide +kernel⟩
  have hseventy : zeroSeventy.elements = insert 70 zero.elements := add_elements zero 70
  rw [(remove_does zeroSeventy 70).elements, hseventy]
  ext t
  rw [Set.mem_sdiff, Set.mem_insert_iff, Set.mem_singleton_iff]
  constructor
  · intro ht
    refine ⟨Or.inr ht, ?_⟩
    rintro rfl
    exact absurd (show zero.contains (some 70) = true from ht) (by decide +kernel)
  · rintro ⟨rfl | ht, hne⟩
    · exact absurd rfl hne
    · exact ht

/-! ## Sets made by `add` -/

/-- The array has no spare words. -/
def Trim (s : BitSet T) : Prop := ∀ n, s.bits.length = n + 1 → word s.bits n ≠ 0#64

theorem Trim.length_le (h : b.Trim) (hsub : b.elements ⊆ a.elements) :
    b.bits.length ≤ a.bits.length := by
  cases hlen : b.bits.length with
  | zero => exact Nat.zero_le _
  | succ n =>
      by_contra hlt
      apply h n hlen
      rw [← elements_subset_iff.mp hsub n, word_of_ge (by omega), BitVec.zero_and]

/-- Asking for the elements of a set without spare words. -/
theorem Trim.containsAll_iff (h : b.Trim) :
    a.containsAll (some b) = true ↔ b.elements ⊆ a.elements := by
  rw [BitSet.containsAll_iff, and_iff_right_iff_imp]
  exact h.length_le

theorem Trim.bits_eq (ha : a.Trim) (hb : b.Trim) (h : a.elements = b.elements) :
    a.bits = b.bits :=
  (elements_eq_iff_bits (le_antisymm (ha.length_le h.le) (hb.length_le h.ge))).mp h

theorem Trim.add (h : s.Trim) (t : T) : (s.add (some t)).set.Trim := by
  intro n hlen hzero
  change ((grow s.bits (getIndex t / 64)).set (getIndex t / 64) _).length = n + 1 at hlen
  change word ((grow s.bits (getIndex t / 64)).set (getIndex t / 64) _) n = 0#64 at hzero
  rw [List.length_set] at hlen
  rw [word_set (lt_length_grow _ _), word_grow, word_grow] at hzero
  have hmod : getIndex t % 64 < 64 := Nat.mod_lt _ (by decide)
  split at hzero
  · have hbit := congrArg (fun x => x.getLsbD (getIndex t % 64)) hzero
    simp only [BitVec.getLsbD_or, getLsbD_one_shiftLeft hmod, decide_true, Bool.or_true,
      BitVec.getLsbD_zero] at hbit
    cases hbit
  · next hne =>
      -- another word is the last one, so the array has not grown
      unfold grow at hlen
      split at hlen
      · rw [List.length_append, List.length_replicate] at hlen
        omega
      · exact h n hlen hzero

/-- The set of some elements, as constructors make it. -/
def ofList (ts : List T) : BitSet T := ts.foldl (fun s t => (s.add (some t)).set) {}

theorem foldl_add (ts : List T) : ∀ {s : BitSet T}, s.Trim →
    (ts.foldl (fun s t => (s.add (some t)).set) s).Trim ∧
      (ts.foldl (fun s t => (s.add (some t)).set) s).elements = s.elements ∪ {t | t ∈ ts} := by
  induction ts with
  | nil =>
      intro s h
      refine ⟨h, ?_⟩
      ext t
      simp
  | cons t ts ih =>
      intro s h
      obtain ⟨htrim, helements⟩ := ih (h.add t)
      refine ⟨htrim, ?_⟩
      rw [List.foldl_cons, helements, add_elements]
      ext u
      simp only [Set.mem_union, Set.mem_insert_iff, Set.mem_ofPred_eq, List.mem_cons]
      tauto

theorem trim_ofList (ts : List T) : (ofList ts).Trim :=
  (foldl_add ts (s := {}) fun _ h => nomatch h).1

theorem mem_ofList {ts : List T} {t : T} : t ∈ (ofList ts).elements ↔ t ∈ ts := by
  rw [ofList, (foldl_add ts (s := {}) fun _ h => nomatch h).2, Set.mem_union, Set.mem_ofPred_eq,
    or_iff_right_iff_imp]
  intro h
  exact absurd (lt_length_of_mem (mem_elements.mp h)) (Nat.not_lt_zero _)

end BitSet

end JavaFx.Css
