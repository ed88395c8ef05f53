import Mathlib.Data.List.Basic
import Mathlib.Data.List.Range
import Mathlib.Tactic

/-!
# Splices

A splice replaces a run of a list by another one. A sequence of splices moves
some elements of the list it starts from and deletes the others, and does so by
position: running it on the positions themselves (`traced`) says what it does to
every list of that length.
-/

namespace Splice

variable {α β : Type*}

/-- The elements at the positions `[lo, hi)`. -/
def slice (lo hi : ℕ) (l : List α) : List α := (l.drop lo).take (hi - lo)

/-- Replace the `n` elements from position `lo` on by `ins`. -/
def splice (lo n : ℕ) (ins l : List α) : List α :=
  l.take lo ++ (ins ++ l.drop (lo + n))

/-! ## Slices -/

theorem length_slice {lo hi : ℕ} {l : List α} (h : hi ≤ l.length) :
    (slice lo hi l).length = hi - lo := by
  rw [slice, List.length_take, List.length_drop]
  omega

theorem getElem?_slice {lo hi k : ℕ} {l : List α} (hk : k < hi - lo) :
    (slice lo hi l)[k]? = l[lo + k]? := by
  rw [slice, List.getElem?_take_of_lt hk, List.getElem?_drop]

/-- The `n` elements that a splice replaces stand between what it keeps. -/
theorem take_slice_drop {lo n : ℕ} {l : List α} :
    l = l.take lo ++ (slice lo (lo + n) l ++ l.drop (lo + n)) := by
  rw [slice, Nat.add_sub_cancel_left, ← List.drop_drop, List.take_append_drop,
    List.take_append_drop]

/-! ## One splice -/

theorem length_splice {lo n : ℕ} {ins l : List α} (h : lo + n ≤ l.length) :
    (splice lo n ins l).length = l.length - n + ins.length := by
  unfold splice
  simp only [List.length_append, List.length_take, List.length_drop]
  omega

theorem map_splice (f : α → β) (lo n : ℕ) (ins l : List α) :
    (splice lo n ins l).map f = splice lo n (ins.map f) (l.map f) := by
  unfold splice
  rw [List.map_append, List.map_append, List.map_take, List.map_drop]

theorem splice_append {lo n : ℕ} {pre old post ins : List α}
    (hlo : pre.length = lo) (hn : old.length = n) :
    splice lo n ins (pre ++ (old ++ post)) = pre ++ (ins ++ post) := by
  subst hlo hn
  unfold splice
  rw [List.take_left, ← List.append_assoc pre old post,
    show pre.length + old.length = (pre ++ old).length by simp, List.drop_left]

theorem getElem?_splice_of_lt {lo n j : ℕ} {ins l : List α} (hj : j < lo)
    (hlo : lo ≤ l.length) : (splice lo n ins l)[j]? = l[j]? := by
  unfold splice
  rw [List.getElem?_append_left (by rw [List.length_take]; omega),
    List.getElem?_take_of_lt hj]

/-- Behind a splice that keeps the length nothing moves. -/
theorem getElem?_splice_of_ge {lo n j : ℕ} {ins l : List α}
    (hn : ins.length = n) (hj : lo + n ≤ j) (hlo : lo ≤ l.length) :
    (splice lo n ins l)[j]? = l[j]? := by
  unfold splice
  rw [List.getElem?_append_right (by rw [List.length_take]; omega),
    List.getElem?_append_right (by rw [List.length_take]; omega),
    List.getElem?_drop]
  congr 1
  rw [List.length_take]
  omega

theorem getElem?_splice_mid {lo n k : ℕ} {ins l : List α} (hk : k < ins.length)
    (hlo : lo ≤ l.length) : (splice lo n ins l)[lo + k]? = ins[k]? := by
  have hlen : (l.take lo).length = lo := by rw [List.length_take]; omega
  unfold splice
  rw [List.getElem?_append_right (by omega), hlen, Nat.add_sub_cancel_left,
    List.getElem?_append_left hk]

/-- Deleting a run and then inserting another one there. -/
theorem splice_delete_insert {lo n : ℕ} {ins l : List α} (h : lo ≤ l.length) :
    splice lo 0 ins (splice lo n [] l) = splice lo n ins l := by
  have hlen : (l.take lo).length = lo := by rw [List.length_take]; omega
  unfold splice
  rw [List.nil_append, Nat.add_zero, List.take_left' hlen, List.drop_left' hlen]

/-! ## Sequences of splices -/

structure Edit (α : Type*) where
  lo : ℕ
  n : ℕ
  ins : List α
deriving DecidableEq, Repr

def Edit.map (f : α → β) (e : Edit α) : Edit β := ⟨e.lo, e.n, e.ins.map f⟩

def spliceAll (es : List (Edit α)) (l : List α) : List α :=
  es.foldl (fun l e => splice e.lo e.n e.ins l) l

/-- What a sequence of splices makes of the positions of a list of length `n`:
a position that survives, or an element the splices insert. -/
def traced (es : List (Edit α)) (n : ℕ) : List (ℕ ⊕ α) :=
  spliceAll (es.map (Edit.map .inr)) ((List.range n).map .inl)

/-- The element at position `j` is still there after all the splices. -/
def Survives (es : List (Edit α)) (n j : ℕ) : Prop := Sum.inl j ∈ traced es n

theorem map_spliceAll (f : α → β) (es : List (Edit α)) (l : List α) :
    (spliceAll es l).map f = spliceAll (es.map (Edit.map f)) (l.map f) := by
  induction es generalizing l with
  | nil => rfl
  | cons e es ih =>
      show (spliceAll es (splice e.lo e.n e.ins l)).map f = _
      rw [ih, map_splice]
      rfl

theorem map_some_eq (l : List α) :
    l.map some = (List.range l.length).map fun j => l[j]? := by
  apply List.ext_getElem?
  intro j
  by_cases hj : j < l.length
  · simp [hj]
  · rw [List.getElem?_eq_none (by simpa using hj),
      List.getElem?_eq_none (by simpa using hj)]

/-- A sequence of splices treats every list as it treats the positions. -/
theorem map_some_spliceAll (es : List (Edit α)) (l : List α) :
    (spliceAll es l).map some =
      (traced es l.length).map (Sum.elim (fun j => l[j]?) some) := by
  have hes : es.map (Edit.map some) =
      (es.map (Edit.map .inr)).map
        (Edit.map (Sum.elim (fun j : ℕ => l[j]?) some)) := by
    rw [List.map_map]
    apply List.map_congr_left
    intro e _
    show Edit.mk _ _ _ = Edit.mk _ _ _
    simp [Edit.map]
  unfold traced
  rw [map_spliceAll, map_spliceAll, ← hes, map_some_eq, List.map_map]
  rfl

/-- **Splices by position.** Two lists of one length are taken to the same list
if and only if they agree on the positions that survive. -/
theorem spliceAll_eq_iff {es : List (Edit α)} {l l' : List α}
    (hlen : l.length = l'.length) :
    spliceAll es l = spliceAll es l' ↔
      ∀ j, Survives es l.length j → l[j]? = l'[j]? := by
  have hmap : spliceAll es l = spliceAll es l' ↔
      (traced es l.length).map (Sum.elim (fun j => l[j]?) some) =
        (traced es l.length).map (Sum.elim (fun j => l'[j]?) some) := by
    rw [← map_some_spliceAll, hlen, ← map_some_spliceAll]
    exact (List.map_injective_iff.mpr (Option.some_injective α)).eq_iff.symm
  rw [hmap, List.map_inj_left]
  constructor
  · intro h j hj
    exact h _ hj
  · rintro h (j | x) hx
    · exact h j hx
    · rfl

end Splice
