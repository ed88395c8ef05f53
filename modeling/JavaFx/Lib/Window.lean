import JavaFx.Lib.Splice

/-!
# Windows of arrays

Loops over a range of an array keep what is outside it. `Stands` says what the range shows,
`SameOutside` that the rest is as it was.
-/

namespace Window

open Splice

variable {α : Type*} {a b c : List α} {lo n : ℕ} {xs ys : List α}

/-- `ys` is in the array from position `lo` on. -/
def Stands (a : List α) (lo : ℕ) (ys : List α) : Prop :=
  ∀ k y, ys[k]? = some y → a[lo + k]? = some y

/-- Nothing but the `n` entries from `lo` on has changed. -/
structure SameOutside (lo n : ℕ) (a b : List α) : Prop where
  length : b.length = a.length
  outside : ∀ t, t < lo ∨ lo + n ≤ t → b[t]? = a[t]?

/-! ## What stands in a window -/

theorem Stands.get (h : Stands a lo (xs ++ x :: ys)) {j : ℕ} (hj : lo + xs.length = j) :
    a[j]? = some x := by
  subst hj
  apply h
  rw [List.getElem?_append_right (le_refl _), Nat.sub_self, List.getElem?_cons_zero]

theorem stands_append :
    Stands a lo (xs ++ ys) ↔ Stands a lo xs ∧ Stands a (lo + xs.length) ys := by
  constructor
  · intro h
    constructor
    · intro k y hy
      apply h
      rw [List.getElem?_append_left (List.getElem?_eq_some_iff.mp hy).1, hy]
    · intro k y hy
      rw [Nat.add_assoc]
      apply h
      rw [List.getElem?_append_right (Nat.le_add_right _ _), Nat.add_sub_cancel_left, hy]
  · rintro ⟨hx, hy⟩ k z hz
    by_cases hk : k < xs.length
    · rw [List.getElem?_append_left hk] at hz
      exact hx k z hz
    · rw [List.getElem?_append_right (not_lt.mp hk)] at hz
      have := hy _ z hz
      rwa [Nat.add_assoc, Nat.add_sub_cancel' (not_lt.mp hk)] at this

theorem Stands.head (h : Stands a lo (x :: ys)) : a[lo]? = some x := h 0 x rfl

theorem Stands.tail (h : Stands a lo (x :: ys)) : Stands a (lo + 1) ys := by
  intro k y hy
  rw [Nat.add_right_comm]
  exact h (k + 1) y hy

/-- A list that is in the array fits into it. -/
theorem Stands.le_length (h : Stands a lo xs) (hne : xs ≠ []) : lo + xs.length ≤ a.length := by
  have hpos := List.length_pos_iff.mpr hne
  have hlast := h (xs.length - 1) _ (List.getElem?_eq_getElem (by omega))
  have := (List.getElem?_eq_some_iff.mp hlast).1
  omega

/-- A window is a slice. -/
theorem Stands.slice_eq (h : Stands a lo xs) (hn : xs.length = n) (hle : lo + n ≤ a.length) :
    slice lo (lo + n) a = xs := by
  subst hn
  apply List.ext_getElem?
  intro k
  by_cases hk : k < xs.length
  · rw [getElem?_slice (by omega), List.getElem?_eq_getElem hk]
    exact h k _ (List.getElem?_eq_getElem hk)
  · rw [List.getElem?_eq_none (not_lt.mp hk), List.getElem?_eq_none]
    rw [length_slice hle]
    omega

theorem stands_slice (h : lo + n ≤ a.length) : Stands a lo (slice lo (lo + n) a) := by
  intro k y hy
  have hk := (List.getElem?_eq_some_iff.mp hy).1
  rw [length_slice h] at hk
  rwa [getElem?_slice hk] at hy

/-- What stands in a window does not see changes elsewhere. -/
theorem Stands.congr (h : Stands a lo xs)
    (hsame : ∀ t, lo ≤ t → t < lo + xs.length → b[t]? = a[t]?) : Stands b lo xs := by
  intro k y hy
  have hk := (List.getElem?_eq_some_iff.mp hy).1
  rw [hsame _ (Nat.le_add_right _ _) (Nat.add_lt_add_left hk _)]
  exact h k y hy

/-- Writing to an entry of the window. -/
theorem Stands.set (h : Stands a lo (xs ++ x :: ys)) (y : α) {j : ℕ} (hj : lo + xs.length = j) :
    Stands (a.set j y) lo (xs ++ y :: ys) := by
  have hlt := (List.getElem?_eq_some_iff.mp (h.get hj)).1
  intro k z hz
  by_cases hk : k = xs.length
  · subst hk
    rw [List.getElem?_append_right (le_refl _), Nat.sub_self, List.getElem?_cons_zero] at hz
    rw [hj, List.getElem?_set_self hlt, hz]
  · rw [List.getElem?_set_ne (by omega)]
    apply h
    rcases Nat.lt_or_gt_of_ne hk with hlow | hhigh
    · rw [List.getElem?_append_left hlow] at hz ⊢
      exact hz
    · rw [List.getElem?_append_right (le_of_lt hhigh)] at hz ⊢
      obtain ⟨d, hd⟩ := Nat.exists_eq_add_of_lt hhigh
      rw [show k - xs.length = d + 1 by omega, List.getElem?_cons_succ] at hz ⊢
      exact hz

/-- Exchanging two neighbours. -/
theorem Stands.swap {y : α} (h : Stands a lo (xs ++ x :: y :: ys)) {j : ℕ}
    (hj : lo + xs.length = j) :
    Stands ((a.set (j + 1) x).set j y) lo (xs ++ y :: x :: ys) := by
  have hsecond : Stands (a.set (j + 1) x) lo ((xs ++ [x]) ++ x :: ys) := by
    apply Stands.set
    · rw [List.append_assoc]
      exact h
    · rw [List.length_append, List.length_singleton]
      omega
  rw [List.append_assoc] at hsecond
  exact hsecond.set y hj

/-! ## What is kept outside it -/

theorem SameOutside.refl (lo n : ℕ) (a : List α) : SameOutside lo n a a := ⟨rfl, fun _ _ => rfl⟩

theorem SameOutside.trans (h : SameOutside lo n a b) (h' : SameOutside lo n b c) :
    SameOutside lo n a c :=
  ⟨h'.length.trans h.length, fun t ht => (h'.outside t ht).trans (h.outside t ht)⟩

theorem SameOutside.mono (h : SameOutside lo n a b) {lo' n' : ℕ} (hlo : lo' ≤ lo)
    (hn : lo + n ≤ lo' + n') : SameOutside lo' n' a b := by
  refine ⟨h.length, fun t ht => h.outside t ?_⟩
  omega

theorem sameOutside_set {j : ℕ} (y : α) (hlo : lo ≤ j) (hj : j < lo + n) :
    SameOutside lo n a (a.set j y) := by
  refine ⟨List.length_set, fun t ht => List.getElem?_set_ne ?_⟩
  omega

theorem sameOutside_splice (h : lo + n ≤ a.length) (hn : xs.length = n) :
    SameOutside lo n a (splice lo n xs a) := by
  refine ⟨?_, ?_⟩
  · rw [length_splice h]
    omega
  · rintro t (ht | ht)
    · exact getElem?_splice_of_lt ht (by omega)
    · exact getElem?_splice_of_ge hn ht (by omega)

theorem stands_splice (h : lo ≤ a.length) : Stands (splice lo n xs a) lo xs := by
  intro k y hy
  rw [getElem?_splice_mid (List.getElem?_eq_some_iff.mp hy).1 h, hy]

/-- An array is known by a window and the rest. -/
theorem SameOutside.eq_splice (h : SameOutside lo n a b) (hle : lo + n ≤ a.length)
    (hn : xs.length = n) (hstands : Stands b lo xs) : b = splice lo n xs a := by
  have hsplice := sameOutside_splice hle hn
  apply List.ext_getElem?
  intro t
  by_cases ht : t < lo ∨ lo + n ≤ t
  · rw [h.outside t ht, hsplice.outside t ht]
  · obtain ⟨k, rfl⟩ : ∃ k, t = lo + k := ⟨t - lo, by omega⟩
    have hk : k < xs.length := by omega
    rw [hstands k _ (List.getElem?_eq_getElem hk)]
    exact (stands_splice (by omega) k _ (List.getElem?_eq_getElem hk)).symm

end Window
