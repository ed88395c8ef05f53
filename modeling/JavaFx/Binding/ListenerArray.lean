import JavaFx.Java

/-!
# Arrays of listeners

`ExpressionHelper.Generic` keeps the listeners of each kind in an array and a
size. A running notification holds on to the array it began with, so arrays have
an identity: `Arrays` is the store of those allocated so far, and a field holds
an address in it. The two kinds of listeners are handled by the same code.
-/

namespace JavaFx.Binding

variable {L : Type}

/-- The arrays allocated so far, by address. -/
abbrev Arrays (L : Type) := List (List (Option L))

/-- The array at an address. -/
def Arrays.at_ (heap : Arrays L) (r : ℕ) : List (Option L) := heap.getD r []

/-- The fields `invalidationListeners` and `invalidationSize`, or `changeListeners`
and `changeSize`. No address is `null`. -/
structure Listeners where
  array : Option ℕ := none
  size : ℕ := 0
deriving DecidableEq, Repr

/-! ## The code -/

/-- `Arrays.copyOf(a, newLength)` -/
def copyOf (a : List (Option L)) (newLength : ℕ) : List (Option L) :=
  a.take newLength ++ List.replicate (newLength - a.length) none

/-- `if (numMoved > 0) System.arraycopy(src, index+1, dest, index, numMoved)` -/
def closeGap (src dest : List (Option L)) (index numMoved : ℕ) :
    Except Exn (List (Option L)) :=
  if 0 < numMoved then arraycopy src ((index + 1 : ℕ) : ℤ) dest index numMoved
  else .ok dest

/-- The loop of `ExpressionHelperBase.trim`, with `size - index` rounds to go. -/
def trimLoop (collected : L → Bool) :
    ℕ → ℕ → ℕ → List (Option L) → Except Exn (ℕ × List (Option L))
  | 0, _, size, listeners => .ok (size, listeners)
  | rounds + 1, index, size, listeners => do
      let listener ← arrayGet listeners index
      if listener.any collected then
        let listeners ← closeGap listeners listeners index (size - index - 1)
        let listeners ← arraySet listeners ((size - 1 : ℕ) : ℤ) none
        trimLoop collected rounds index (size - 1) listeners
      else trimLoop collected rounds (index + 1) size listeners

/-- `ExpressionHelperBase.trim(size, listeners)`; `collected` holds of the weak
listeners that `wasGarbageCollected()`. -/
def trim (collected : L → Bool) (size : ℕ) (listeners : List (Option L)) :
    Except Exn (ℕ × List (Option L)) :=
  trimLoop collected size 0 size listeners

/-- `(oldCapacity * 3)/2 + 1` -/
def grown (oldCapacity : ℕ) : ℕ := oldCapacity * 3 / 2 + 1

namespace Listeners

/-- `listeners[size++] = listener` -/
def store (heap : Arrays L) (r size : ℕ) (listener : L) :
    Except Exn (Arrays L × Listeners) := do
  let array ← arraySet (heap.at_ r) size (some listener)
  return (heap.set r array, ⟨some r, size + 1⟩)

/-- The array is full: `trim` it, and copy it if that gained nothing. -/
def addTrimmed (collected : L → Bool) (heap : Arrays L) (r size : ℕ) (listener : L) :
    Except Exn (Arrays L × Listeners) := do
  let oldCapacity := (heap.at_ r).length
  let (size, array) ← trim collected size (heap.at_ r)
  if size = oldCapacity then
    store (heap.set r array ++ [copyOf array (grown oldCapacity)]) heap.length size
      listener
  else store (heap.set r array) r size listener

/-- `addListener(listener)` of `Generic` -/
def add (locked : Bool) (collected : L → Bool) (heap : Arrays L) (a : Listeners)
    (listener : L) : Except Exn (Arrays L × Listeners) :=
  match a.array with
  | none => .ok (heap ++ [[some listener]], ⟨some heap.length, 1⟩)
  | some r =>
      let oldCapacity := (heap.at_ r).length
      if locked then
        let newCapacity := if a.size < oldCapacity then oldCapacity else grown oldCapacity
        store (heap ++ [copyOf (heap.at_ r) newCapacity]) heap.length a.size listener
      else if a.size = oldCapacity then addTrimmed collected heap r a.size listener
      else store heap r a.size listener

/-- The search loop of `removeListener`, with `size - index` rounds to go. -/
def indexOf [BEq L] (listener : L) :
    ℕ → ℕ → List (Option L) → Except Exn (Option ℕ)
  | 0, _, _ => .ok none
  | rounds + 1, index, array => do
      let x ← arrayGet array index
      if x.any (listener == ·) then return some index
      else indexOf listener rounds (index + 1) array

/-- The last branch of `removeListener`: the listeners behind `index` move up, in a
new array while a notification holds on to the old one. -/
def removeAt (locked : Bool) (heap : Arrays L) (r size index : ℕ) :
    Except Exn (Arrays L × Listeners) :=
  let numMoved := size - index - 1
  let oldListeners := heap.at_ r
  if locked then do
    let array ← arraycopy oldListeners 0 (List.replicate oldListeners.length none) 0 index
    let array ← closeGap oldListeners array index numMoved
    return (heap ++ [array], ⟨some heap.length, size - 1⟩)
  else do
    let array ← closeGap oldListeners oldListeners index numMoved
    let array ← arraySet array ((size - 1 : ℕ) : ℤ) none
    return (heap.set r array, ⟨some r, size - 1⟩)

/-- `listeners[i].f()` -/
def deref (heap : Arrays L) (a : Listeners) (i : ℕ) : Except Exn L :=
  match a.array with
  | none => .error .nullPointer
  | some r => arrayDeref (heap.at_ r) i

end Listeners

/-! ## What the code does to an array -/

/-- The first slots of the array are `xs`. -/
def Begins (array : List (Option L)) (xs : List L) : Prop :=
  ∃ rest, array = xs.map some ++ rest

namespace Begins

variable {array : List (Option L)} {xs : List L}

theorem length_le (h : Begins array xs) : xs.length ≤ array.length := by
  obtain ⟨rest, rfl⟩ := h
  simp

theorem getElem? (h : Begins array xs) {j : ℕ} (hj : j < xs.length) :
    array[j]? = some (some xs[j]) := by
  obtain ⟨rest, rfl⟩ := h
  rw [List.getElem?_append_left (by simpa using hj)]
  simp [hj]

theorem take (h : Begins array xs) : array.take xs.length = xs.map some := by
  obtain ⟨rest, rfl⟩ := h
  exact List.take_left' (List.length_map _)

theorem set_length (h : Begins array xs) (x : L) (hlt : xs.length < array.length) :
    Begins (array.set xs.length (some x)) (xs ++ [x]) := by
  obtain ⟨rest, rfl⟩ := h
  cases rest with
  | nil => simp at hlt
  | cons y rest =>
      refine ⟨rest, ?_⟩
      rw [List.set_append_right _ _ (by simp)]
      simp

end Begins

theorem begins_copyOf {array : List (Option L)} {xs : List L} (h : Begins array xs)
    {n : ℕ} (hn : array.length ≤ n) :
    Begins (copyOf array n) xs ∧ (copyOf array n).length = n := by
  obtain ⟨rest, rfl⟩ := h
  constructor
  · refine ⟨rest ++ List.replicate (n - (xs.map some ++ rest).length) none, ?_⟩
    rw [copyOf, List.take_of_length_le hn, List.append_assoc]
  · simp only [copyOf, List.length_append, List.length_take, List.length_replicate]
    simp only [List.length_append] at hn
    omega

/-- The shift of a removal, into the array itself or into a copy of what stands in
front of the gap. -/
theorem closeGap_eq {src dest : List (Option L)} {xs : List L} (hsrc : Begins src xs)
    {k : ℕ} (hk : k < xs.length) (hlen : dest.length = src.length)
    (hdest : dest.take k = (xs.take k).map some) :
    ∃ array, closeGap src dest k (xs.length - k - 1) = .ok array ∧
      Begins array (xs.eraseIdx k) ∧ array.length = src.length := by
  have hle := hsrc.length_le
  have herase := List.eraseIdx_eq_take_drop_succ xs k
  unfold closeGap
  by_cases hm : 0 < xs.length - k - 1
  · rw [if_pos hm, arraycopy_of_le (by omega) (by omega)]
    refine ⟨_, rfl, ⟨dest.drop (k + (xs.length - k - 1)), ?_⟩, ?_⟩
    · have hslice : Splice.slice (k + 1) (k + 1 + (xs.length - k - 1)) src =
          (xs.drop (k + 1)).map some := by
        rw [show k + 1 + (xs.length - k - 1) = xs.length by omega, Splice.slice,
          ← List.drop_take, hsrc.take, List.map_drop]
      rw [hslice, Splice.splice, hdest, herase, List.map_append, List.append_assoc]
    · rw [Splice.length_splice (by omega), Splice.length_slice (by omega)]
      omega
  · rw [if_neg hm]
    refine ⟨dest, rfl, ⟨dest.drop k, ?_⟩, hlen⟩
    rw [herase, List.drop_of_length_le (by omega), List.append_nil, ← hdest,
      List.take_append_drop]

/-- A removal in place ends with a `null` behind the listeners that are left. -/
theorem closeGap_in_place {array : List (Option L)} {xs : List L}
    (h : Begins array xs) {k : ℕ} (hk : k < xs.length) :
    ∃ array' array'', closeGap array array k (xs.length - k - 1) = .ok array' ∧
      arraySet array' ((xs.length - 1 : ℕ) : ℤ) none = .ok array'' ∧
      Begins array'' (xs.eraseIdx k) ∧ array''.length = array.length := by
  have htake : array.take k = (xs.take k).map some := by
    rw [List.map_take, ← h.take, List.take_take, min_eq_left hk.le]
  obtain ⟨array', hok, hbegins, hlen⟩ := closeGap_eq h hk rfl htake
  have hle := h.length_le
  refine ⟨array', array'.set (xs.length - 1) none, hok,
    arraySet_of_lt _ (by omega), ?_, by rw [List.length_set, hlen]⟩
  obtain ⟨rest, rfl⟩ := hbegins
  refine ⟨rest.set 0 none, ?_⟩
  have hxs : ((xs.eraseIdx k).map some).length = xs.length - 1 := by
    rw [List.length_map, List.length_eraseIdx_of_lt hk]
  rw [List.set_append_right _ _ hxs.le, hxs, Nat.sub_self]

theorem eraseIdx_append_cons (pre post : List L) (x : L) :
    (pre ++ x :: post).eraseIdx pre.length = pre ++ post := by
  rw [List.eraseIdx_append_of_length_le (le_refl _), Nat.sub_self, List.eraseIdx_cons_zero]

/-- `trim` drops the collected listeners and keeps the order of the others. -/
theorem trimLoop_eq (collected : L → Bool) {pre post : List L}
    {array : List (Option L)} (h : Begins array (pre ++ post)) :
    ∃ array', trimLoop collected post.length pre.length (pre ++ post).length array =
        .ok ((pre ++ post.filter (!collected ·)).length, array') ∧
      Begins array' (pre ++ post.filter (!collected ·)) ∧
      array'.length = array.length := by
  induction post generalizing pre array with
  | nil => exact ⟨array, rfl, h, rfl⟩
  | cons x post ih =>
      have hlt : pre.length < (pre ++ x :: post).length := by simp
      have hget : arrayGet array pre.length = .ok (some x) :=
        arrayGet_eq_of_getElem? (Int.natCast_nonneg _) (by
          rw [Int.toNat_natCast, h.getElem? hlt]
          simp)
      rw [List.length_cons, trimLoop, hget, except_ok_bind]
      cases hx : collected x with
      | true =>
          obtain ⟨array', array'', hclose, hset, hbegins, hlen⟩ :=
            closeGap_in_place h hlt
          rw [eraseIdx_append_cons] at hbegins
          simp only [Option.any_some, hx, if_true, hclose, hset, except_ok_bind]
          obtain ⟨array3, hok, hbegins3, hlen3⟩ := ih hbegins
          have hsize : (pre ++ x :: post).length - 1 = (pre ++ post).length := by simp
          rw [hsize, hok, List.filter_cons, if_neg (by simp [hx])]
          exact ⟨array3, rfl, hbegins3, hlen3.trans hlen⟩
      | false =>
          have hassoc : pre ++ x :: post = (pre ++ [x]) ++ post := by simp
          rw [hassoc] at h
          obtain ⟨array', hok, hbegins, hlen⟩ := ih h
          have hindex : (pre ++ [x]).length = pre.length + 1 := by simp
          rw [hindex] at hok
          have hfilter : (x :: post).filter (!collected ·) =
              x :: post.filter (!collected ·) := by simp [hx]
          simp only [Option.any_some, hx, Bool.false_eq_true, if_false]
          rw [hfilter, hassoc, List.append_cons pre x (post.filter _)]
          exact ⟨array', hok, hbegins, hlen⟩

theorem trim_eq (collected : L → Bool) {xs : List L} {array : List (Option L)}
    (h : Begins array xs) :
    ∃ array', trim collected xs.length array =
        .ok ((xs.filter (!collected ·)).length, array') ∧
      Begins array' (xs.filter (!collected ·)) ∧ array'.length = array.length :=
  @trimLoop_eq L collected [] xs array h

/-- The search finds the first listener that is equal. -/
theorem indexOf_eq [BEq L] (listener : L) {pre post : List L}
    {array : List (Option L)} (h : Begins array (pre ++ post)) :
    Listeners.indexOf listener post.length pre.length array =
      .ok ((post.findIdx? (listener == ·)).map (pre.length + ·)) := by
  induction post generalizing pre with
  | nil => rfl
  | cons x post ih =>
      have hlt : pre.length < (pre ++ x :: post).length := by simp
      have hget : arrayGet array pre.length = .ok (some x) :=
        arrayGet_eq_of_getElem? (Int.natCast_nonneg _) (by
          rw [Int.toNat_natCast, h.getElem? hlt]
          simp)
      rw [List.length_cons, Listeners.indexOf, hget, except_ok_bind, List.findIdx?_cons]
      cases hx : (listener == x) with
      | true =>
          simp only [Option.any_some, hx, if_true]
          rfl
      | false =>
          rw [List.append_cons] at h
          have hih := ih h
          rw [List.length_append, List.length_singleton] at hih
          simp only [Option.any_some, hx, Bool.false_eq_true, if_false, hih,
            Option.map_map]
          congr 2
          funext k
          simp only [Function.comp]
          omega

/-! ## What the code does to the store -/

namespace Listeners

variable {heap : Arrays L} {a : Listeners} {xs : List L}

/-- The field holds the listeners `xs`. -/
def Holds (heap : Arrays L) (a : Listeners) (xs : List L) : Prop :=
  a.size = xs.length ∧
    match a.array with
    | none => xs = []
    | some r => ∃ array, heap[r]? = some array ∧ Begins array xs

/-- What an operation on the field does to the store: with `locked` nothing, else
it may edit the field's array, which then begins with `xs`. -/
structure Edits (locked : Bool) (heap : Arrays L) (a : Listeners) (xs : List L)
    (heap' : Arrays L) : Prop where
  others : ∀ r < heap.length, a.array ≠ some r → heap'[r]? = heap[r]?
  copied : locked = true → ∀ r < heap.length, heap'[r]? = heap[r]?
  begins : locked = false →
    ∀ r array, a.array = some r → heap'[r]? = some array → Begins array xs

/-- A field that now has another array has a new one. -/
def Fresh (heap : Arrays L) (a a' : Listeners) : Prop :=
  a'.array ≠ a.array → ∀ r, a'.array = some r → heap.length ≤ r

theorem at_eq {r : ℕ} {array : List (Option L)} (h : heap[r]? = some array) :
    heap.at_ r = array := by
  rw [Arrays.at_, List.getD_eq_getElem?_getD, h, Option.getD_some]

theorem Holds.deref (h : a.Holds heap xs) {i : ℕ} (hi : i < xs.length) :
    a.deref heap i = .ok xs[i] := by
  obtain ⟨-, harray⟩ := h
  unfold Listeners.deref
  cases ha : a.array with
  | none =>
      rw [ha] at harray
      simp only at harray
      subst harray
      cases hi
  | some r =>
      rw [ha] at harray
      obtain ⟨array, hr, hbegins⟩ := harray
      simp only [at_eq hr]
      rw [arrayDeref, arrayGet_eq_of_getElem? (Int.natCast_nonneg _)
        (by rw [Int.toNat_natCast, hbegins.getElem? hi])]
      rfl

/-- `listeners[size++] = listener` in a large enough array. -/
theorem store_eq {r : ℕ} {array : List (Option L)} (hr : heap[r]? = some array)
    (hbegins : Begins array xs) (hlt : xs.length < array.length) (x : L) :
    store heap r xs.length x = .ok (heap.set r (array.set xs.length (some x)),
        ⟨some r, xs.length + 1⟩) ∧
      Holds (heap.set r (array.set xs.length (some x))) ⟨some r, xs.length + 1⟩
        (xs ++ [x]) := by
  have hlt' : r < heap.length := (List.getElem?_eq_some_iff.mp hr).1
  constructor
  · rw [store, at_eq hr, arraySet_of_lt _ hlt]
    rfl
  · refine ⟨by simp, _, List.getElem?_set_self hlt', hbegins.set_length x hlt⟩

/-- The array has no free slot. -/
def full (heap : Arrays L) (a : Listeners) : Bool :=
  match a.array with
  | none => false
  | some r => a.size == (heap.at_ r).length

/-- The listeners that an `add` leaves in place. -/
def kept (locked : Bool) (collected : L → Bool) (heap : Arrays L) (a : Listeners)
    (xs : List L) : List L :=
  if !locked && a.full heap then xs.filter (!collected ·) else xs

theorem length_grown (n : ℕ) : n < grown n := by
  unfold grown
  omega

theorem edits_append (locked : Bool) (h : a.Holds heap xs) (arrays : Arrays L) :
    Edits locked heap a xs (heap ++ arrays) where
  others := fun r hr _ => List.getElem?_append_left hr
  copied := fun _ r hr => List.getElem?_append_left hr
  begins := by
    intro _ r array' hr harray'
    have harray := h.2
    rw [hr] at harray
    obtain ⟨old, hold, hbegins⟩ := harray
    rw [List.getElem?_append_left (List.getElem?_eq_some_iff.mp hold).1, hold] at harray'
    cases harray'
    exact hbegins

theorem edits_set {r : ℕ} (hr : a.array = some r) {array : List (Option L)}
    (hbegins : Begins array xs) : Edits false heap a xs (heap.set r array) where
  others := by
    intro r' _ hne
    rw [hr] at hne
    exact List.getElem?_set_ne fun heq => hne (congrArg some heq)
  copied := fun h => by cases h
  begins := by
    intro _ r' array' hr' harray'
    rw [hr] at hr'
    cases hr'
    have hlt : r < heap.length := by
      have := (List.getElem?_eq_some_iff.mp harray').1
      rwa [List.length_set] at this
    rw [List.getElem?_set_self hlt] at harray'
    cases harray'
    exact hbegins

/-- **`addListener` on an array.** The new listener comes last; only collected
listeners are dropped, and only from a full array that no notification reads. -/
theorem add_eq (h : a.Holds heap xs) (locked : Bool) (collected : L → Bool) (x : L) :
    ∃ heap' a', add locked collected heap a x = .ok (heap', a') ∧
      a'.Holds heap' (kept locked collected heap a xs ++ [x]) ∧
      Edits locked heap a (kept locked collected heap a xs) heap' ∧
      Fresh heap a a' ∧ heap.length ≤ heap'.length := by
  obtain ⟨hsize, harray⟩ := h
  unfold add kept full
  cases ha : a.array with
  | none =>
      rw [ha] at harray
      simp only at harray
      subst harray
      refine ⟨heap ++ [[some x]], ⟨some heap.length, 1⟩, rfl, ?_, ?_, ?_, by simp⟩
      · rw [Bool.and_false, if_neg Bool.false_ne_true]
        exact ⟨rfl, [some x], by simp, [], rfl⟩
      · rw [Bool.and_false, if_neg Bool.false_ne_true]
        exact edits_append locked ⟨hsize, by rw [ha]⟩ _
      · rintro - r hr
        cases hr
        exact le_refl _
  | some r =>
      rw [ha] at harray
      obtain ⟨array, hr, hbegins⟩ := harray
      have hle := hbegins.length_le
      have hlt : r < heap.length := (List.getElem?_eq_some_iff.mp hr).1
      have hholds : a.Holds heap xs := ⟨hsize, by rw [ha]; exact ⟨array, hr, hbegins⟩⟩
      have hnew : ∀ old : List (Option L), (heap ++ [old])[heap.length]? = some old :=
        fun old => by simp
      simp only [at_eq hr, hsize]
      cases locked with
      | true =>
          obtain ⟨hcopy, hlen⟩ := begins_copyOf hbegins
            (n := if xs.length < array.length then array.length else grown array.length)
            (by split; exacts [le_refl _, (length_grown _).le])
          have hroom : xs.length < (copyOf array (if xs.length < array.length then
              array.length else grown array.length)).length := by
            rw [hlen]
            split
            · assumption
            · exact lt_of_le_of_lt hle (length_grown _)
          obtain ⟨hstore, hstored⟩ := store_eq (hnew _) hcopy hroom x
          simp only [if_true, Bool.not_true, Bool.false_and, Bool.false_eq_true, if_false]
          refine ⟨_, _, hstore, hstored, ?_, ?_, by simp⟩
          · rw [List.set_append_right _ _ (le_refl _), Nat.sub_self, List.set_cons_zero]
            exact edits_append true hholds _
          · rintro - r' hr'
            cases hr'
            exact le_refl _
      | false =>
          simp only [Bool.false_eq_true, if_false, Bool.not_false, Bool.true_and,
            beq_iff_eq]
          by_cases hfull : xs.length = array.length
          · rw [if_pos hfull, if_pos hfull]
            obtain ⟨array', htrim, hbegins', hlen'⟩ := trim_eq collected hbegins
            simp only [addTrimmed, at_eq hr, htrim, except_ok_bind]
            have hr' : (heap.set r array')[r]? = some array' :=
              List.getElem?_set_self hlt
            have hedits : Edits false heap a _ (heap.set r array') :=
              edits_set ha hbegins'
            by_cases hnothing : (xs.filter (!collected ·)).length = array.length
            · rw [if_pos hnothing]
              obtain ⟨hcopy, hlen⟩ := begins_copyOf hbegins'
                (n := grown array.length) (by rw [hlen']; exact (length_grown _).le)
              have hat : (heap.set r array' ++ [copyOf array' (grown array.length)])[
                  heap.length]? = some (copyOf array' (grown array.length)) := by
                rw [List.getElem?_append_right (by simp)]
                simp
              obtain ⟨hstore, hstored⟩ := store_eq hat hcopy
                (by rw [hlen, hnothing]; exact length_grown _) x
              refine ⟨_, _, hstore, hstored, ?_, ?_, by simp⟩
              · rw [List.set_append_right _ _ (by simp)]
                have hsame : (heap.set r array').length = heap.length := by simp
                constructor
                · intro r' hlt' hne
                  rw [List.getElem?_append_left (by simpa using hlt')]
                  exact hedits.others r' hlt' hne
                · intro hl
                  cases hl
                · intro _ r' array'' har harray''
                  rw [ha] at har
                  cases har
                  rw [List.getElem?_append_left (by simpa using hlt)] at harray''
                  exact hedits.begins rfl r array'' ha harray''
              · rintro - r' hr''
                cases hr''
                exact le_refl _
            · rw [if_neg hnothing]
              have hroom : (xs.filter (!collected ·)).length < array'.length := by
                have := List.length_filter_le (!collected ·) xs
                omega
              obtain ⟨hstore, hstored⟩ := store_eq hr' hbegins' hroom x
              refine ⟨_, _, hstore, hstored, ?_, ?_, by simp⟩
              · rw [List.set_set]
                obtain ⟨rest, hrest⟩ := hbegins'.set_length x hroom
                exact edits_set ha ⟨some x :: rest, by rw [hrest]; simp⟩
              · intro hne
                exact absurd ha.symm hne
          · rw [if_neg hfull, if_neg hfull]
            have hroom : xs.length < array.length := by omega
            obtain ⟨hstore, hstored⟩ := store_eq hr hbegins hroom x
            refine ⟨_, _, hstore, hstored, ?_, ?_, by simp⟩
            · obtain ⟨rest, hrest⟩ := hbegins.set_length x hroom
              exact edits_set ha ⟨some x :: rest, by rw [hrest]; simp⟩
            · intro hne
              exact absurd ha.symm hne

/-- **The last branch of `removeListener`.** -/
theorem removeAt_eq (h : a.Holds heap xs) (locked : Bool) {r : ℕ} (ha : a.array = some r)
    {k : ℕ} (hk : k < xs.length) :
    ∃ heap' a', removeAt locked heap r a.size k = .ok (heap', a') ∧
      a'.Holds heap' (xs.eraseIdx k) ∧ Edits locked heap a (xs.eraseIdx k) heap' ∧
      Fresh heap a a' ∧ heap.length ≤ heap'.length ∧
      (locked = true → a'.array ≠ a.array) := by
  obtain ⟨hsize, harray⟩ := h
  rw [ha] at harray
  obtain ⟨array, hr, hbegins⟩ := harray
  have hlt : r < heap.length := (List.getElem?_eq_some_iff.mp hr).1
  have hle := hbegins.length_le
  have herase : xs.length - 1 = (xs.eraseIdx k).length := by
    rw [List.length_eraseIdx_of_lt hk]
  simp only [removeAt, at_eq hr, hsize]
  cases locked with
  | true =>
      have hfront : arraycopy array 0 (List.replicate array.length none) 0 (k : ℕ) =
          .ok (array.take k ++ List.replicate (array.length - k) none) := by
        have hcopy := @arraycopy_of_le (Option L) array
          (List.replicate array.length none) 0 0 k (by omega) (by simp; omega)
        rw [Nat.cast_zero] at hcopy
        rw [hcopy, Splice.splice, Splice.slice]
        simp
      obtain ⟨array', hclose, hbegins', hlen'⟩ := @closeGap_eq L array
        (array.take k ++ List.replicate (array.length - k) none) xs hbegins k hk
        (by simp; omega) (by
          rw [List.take_left' (by simp; omega), List.map_take, ← hbegins.take,
            List.take_take, min_eq_left hk.le])
      simp only [if_true, hfront, hclose, except_ok_bind]
      refine ⟨_, _, rfl, ⟨herase, array', by simp, hbegins'⟩, ?_, ?_, by simp, ?_⟩
      · constructor
        · exact fun r' hlt' _ => List.getElem?_append_left hlt'
        · exact fun _ r' hlt' => List.getElem?_append_left hlt'
        · intro hl
          cases hl
      · rintro - r' hr'
        cases hr'
        exact le_refl _
      · intro _ heq
        rw [ha] at heq
        exact hlt.ne' (Option.some.inj heq)
  | false =>
      obtain ⟨array', array'', hclose, hset, hbegins', hlen'⟩ :=
        closeGap_in_place hbegins hk
      simp only [Bool.false_eq_true, if_false, hclose, hset, except_ok_bind]
      refine ⟨_, _, rfl, ⟨herase, array'', List.getElem?_set_self hlt, hbegins'⟩,
        edits_set ha hbegins', ?_, by simp, fun hl => by cases hl⟩
      intro hne
      exact absurd ha.symm hne

/-! ## Notifications that read an array -/

/-- What an operation does to a field and to its array. With `locked` the array is
never edited; else it begins with `kept` afterwards. -/
structure Touches (locked : Bool) (heap : Arrays L) (a : Listeners) (kept : List L)
    (heap' : Arrays L) (a' : Listeners) : Prop where
  edits : Edits locked heap a kept heap'
  fresh : Fresh heap a a'
  grows : heap.length ≤ heap'.length
  room : a'.array = a.array → kept.length ≤ a'.size ∧ (locked = true → a.size ≤ a'.size)

/-- The slots of `cur` from `i` on are the registered listeners. -/
def Unread (heap : Arrays L) (cur : Listeners) (registered : List L) (i : ℕ) : Prop :=
  cur.size = registered.length ∧ ∀ j, i ≤ j → ∀ x, registered[j]? = some x →
    ∃ r array, cur.array = some r ∧ heap[r]? = some array ∧ array[j]? = some (some x)

/-- A field with the same array has not become shorter than what is still to be
read. -/
def Within (a cur : Listeners) (i : ℕ) : Prop :=
  ∀ r, a.array = some r → cur.array = some r → i < cur.size → cur.size ≤ a.size

/-- The operation leaves the slots that are still to be read as they are. -/
def Spares (locked : Bool) (a : Listeners) (xs kept : List L) (cur : Listeners)
    (i : ℕ) : Prop :=
  locked = false → cur.array = a.array →
    ∀ j < cur.size, i ≤ j → kept[j]? = xs[j]?

instance [DecidableEq L] (locked : Bool) (a : Listeners) (xs kept : List L)
    (cur : Listeners) (i : ℕ) : Decidable (Spares locked a xs kept cur i) :=
  inferInstanceAs (Decidable (locked = false → cur.array = a.array →
    ∀ j < cur.size, i ≤ j → kept[j]? = xs[j]?))

theorem add_touches (h : a.Holds heap xs) (locked : Bool) (collected : L → Bool)
    (x : L) :
    ∃ heap' a', add locked collected heap a x = .ok (heap', a') ∧
      a'.Holds heap' (kept locked collected heap a xs ++ [x]) ∧
      Touches locked heap a (kept locked collected heap a xs) heap' a' := by
  obtain ⟨heap', a', hadd, hholds, hedits, hfresh, hgrows⟩ :=
    add_eq h locked collected x
  refine ⟨heap', a', hadd, hholds, hedits, hfresh, hgrows, fun _ => ?_⟩
  have hsize := hholds.1
  rw [List.length_append, List.length_singleton] at hsize
  refine ⟨by omega, fun hlocked => ?_⟩
  subst hlocked
  rw [h.1, hsize]
  exact Nat.le_succ _

theorem removeAt_touches (h : a.Holds heap xs) (locked : Bool) {r : ℕ}
    (ha : a.array = some r) {k : ℕ} (hk : k < xs.length) :
    ∃ heap' a', removeAt locked heap r a.size k = .ok (heap', a') ∧
      a'.Holds heap' (xs.eraseIdx k) ∧
      Touches locked heap a (xs.eraseIdx k) heap' a' := by
  obtain ⟨heap', a', hremove, hholds, hedits, hfresh, hgrows, hmoved⟩ :=
    removeAt_eq h locked ha hk
  exact ⟨heap', a', hremove, hholds, hedits, hfresh, hgrows, fun hsame =>
    ⟨hholds.1.ge, fun hlocked => absurd hsame (hmoved hlocked)⟩⟩

/-- A field that is left alone, or replaced by one with a new array. -/
theorem Holds.touches_append (h : a.Holds heap xs) (locked : Bool) {a' : Listeners}
    (arrays : Arrays L)
    (ha' : a' = a ∨ a'.array = none ∨ ∃ r, a'.array = some r ∧ heap.length ≤ r)
    (hnone : a'.array = none → a.array = none → xs = [] ∧ a'.size = a.size) :
    Touches locked heap a xs (heap ++ arrays) a' where
  edits := edits_append locked h arrays
  fresh := by
    intro hne r hr
    rcases ha' with rfl | ha' | ⟨r', hr', hle⟩
    · exact absurd rfl hne
    · rw [ha'] at hr
      cases hr
    · rw [hr'] at hr
      cases hr
      exact hle
  grows := by simp
  room := by
    intro hsame
    rcases ha' with rfl | ha' | ⟨r', hr', hle⟩
    · exact ⟨h.1.ge, fun _ => le_refl _⟩
    · obtain ⟨rfl, hsize⟩ := hnone ha' (hsame ▸ ha')
      exact ⟨Nat.zero_le _, fun _ => hsize.ge⟩
    · have harray := h.2
      rw [← hsame, hr'] at harray
      obtain ⟨old, hold, -⟩ := harray
      have := (List.getElem?_eq_some_iff.mp hold).1
      omega

theorem Holds.touches (h : a.Holds heap xs) (locked : Bool) :
    Touches locked heap a xs heap a := by
  have htouch := h.touches_append locked [] (Or.inl rfl) fun hnone _ => ⟨?_, rfl⟩
  · rwa [List.append_nil] at htouch
  · have harray := h.2
    rw [hnone] at harray
    exact harray

theorem Holds.touches_null (h : a.Holds heap xs) (locked : Bool) :
    Touches locked heap a xs heap {} := by
  have htouch := @Holds.touches_append L heap a xs h locked {} []
    (Or.inr (Or.inl rfl)) fun _ hnone => ?_
  · rwa [List.append_nil] at htouch
  · obtain ⟨hsize, harray⟩ := h
    rw [hnone] at harray
    simp only at harray
    subst harray
    exact ⟨rfl, hsize.symm⟩

section Unread

variable {locked : Bool} {heap' : Arrays L} {a' cur : Listeners}
  {kept registered : List L} {i : ℕ}

theorem Unread.deref (h : Unread heap cur registered i) {x : L}
    (hx : registered[i]? = some x) : cur.deref heap i = .ok x := by
  obtain ⟨r, array, hr, harray, hslot⟩ := h.2 i (le_refl i) x hx
  unfold Listeners.deref
  rw [hr]
  simp only [at_eq harray]
  rw [arrayDeref, arrayGet_eq_of_getElem? (Int.natCast_nonneg _)
    (by rw [Int.toNat_natCast]; exact hslot)]
  rfl

theorem Unread.mono (h : Unread heap cur registered i) {i' : ℕ} (hi : i ≤ i') :
    Unread heap cur registered i' :=
  ⟨h.1, fun j hj => h.2 j (hi.trans hj)⟩

theorem Holds.unread (h : a.Holds heap xs) : Unread heap a xs 0 := by
  obtain ⟨hsize, harray⟩ := h
  refine ⟨hsize, fun j _ x hx => ?_⟩
  obtain ⟨hj, rfl⟩ := List.getElem?_eq_some_iff.mp hx
  cases ha : a.array with
  | none =>
      rw [ha] at harray
      simp only at harray
      subst harray
      cases hj
  | some r =>
      rw [ha] at harray
      obtain ⟨array, hr, hbegins⟩ := harray
      exact ⟨r, array, rfl, hr, hbegins.getElem? hj⟩

theorem Unread.lt_length (h : Unread heap cur registered i) (hi : i < cur.size)
    {r : ℕ} (hr : cur.array = some r) : r < heap.length := by
  have hlast : cur.size - 1 < registered.length := by rw [← h.1]; omega
  obtain ⟨r', array, hr', harray, -⟩ := h.2 (cur.size - 1) (by omega)
    registered[cur.size - 1] (List.getElem?_eq_getElem hlast)
  rw [hr] at hr'
  cases hr'
  exact (List.getElem?_eq_some_iff.mp harray).1

/-- **What is still to be read survives** an operation that spares it. -/
theorem Unread.touch (h : Unread heap cur registered i) (hwithin : Within a cur i)
    (hholds : a.Holds heap xs) (ht : Touches locked heap a kept heap' a')
    (hspares : Spares locked a xs kept cur i) :
    Unread heap' cur registered i ∧ Within a' cur i := by
  have hkept : ∀ r, a.array = some r → cur.array = some r → locked = false →
      ∀ j, i ≤ j → ∀ x, registered[j]? = some x → kept[j]? = some x := by
    intro r har hcr hunlocked j hj x hx
    obtain ⟨hjlt, rfl⟩ := List.getElem?_eq_some_iff.mp hx
    have hjcur : j < cur.size := by rw [h.1]; exact hjlt
    have hlen : cur.size ≤ xs.length := by
      rw [← hholds.1]
      exact hwithin r har hcr (lt_of_le_of_lt hj hjcur)
    rw [hspares hunlocked (hcr.trans har.symm) j hjcur hj]
    obtain ⟨r₁, array₁, hr₁, harray₁, hslot₁⟩ := h.2 j hj _ hx
    rw [hcr] at hr₁
    cases hr₁
    have harray := hholds.2
    rw [har] at harray
    obtain ⟨array₂, harray₂, hbegins⟩ := harray
    rw [harray₁] at harray₂
    cases harray₂
    rw [hbegins.getElem? (lt_of_lt_of_le hjcur hlen)] at hslot₁
    rw [List.getElem?_eq_getElem (lt_of_lt_of_le hjcur hlen)]
    exact Option.some.inj hslot₁
  constructor
  · refine ⟨h.1, fun j hj x hx => ?_⟩
    obtain ⟨r, array, hcr, harray, hslot⟩ := h.2 j hj x hx
    have hlt : r < heap.length := (List.getElem?_eq_some_iff.mp harray).1
    by_cases har : a.array = some r
    · cases hlocked : locked with
      | true =>
          exact ⟨r, array, hcr, (ht.edits.copied hlocked r hlt).trans harray, hslot⟩
      | false =>
          have hlt' : r < heap'.length := lt_of_lt_of_le hlt ht.grows
          have hget := List.getElem?_eq_getElem hlt'
          have hbegins := ht.edits.begins hlocked r _ har hget
          obtain ⟨hjk, hxk⟩ := List.getElem?_eq_some_iff.mp
            (hkept r har hcr hlocked j hj x hx)
          refine ⟨r, _, hcr, hget, ?_⟩
          rw [hbegins.getElem? hjk, hxk]
    · exact ⟨r, array, hcr, (ht.edits.others r hlt har).trans harray, hslot⟩
  · intro r har' hcr hi
    by_cases hsame : a'.array = a.array
    · obtain ⟨hroom, hlocked⟩ := ht.room hsame
      have har : a.array = some r := hsame ▸ har'
      cases hl : locked with
      | true => exact (hwithin r har hcr hi).trans (hlocked hl)
      | false =>
          have hlast : cur.size - 1 < registered.length := by rw [← h.1]; omega
          obtain ⟨hlt, -⟩ := List.getElem?_eq_some_iff.mp (hkept r har hcr hl
            (cur.size - 1) (by omega) _ (List.getElem?_eq_getElem hlast))
          omega
    · have hlt := h.lt_length hi hcr
      have hle := ht.fresh hsame r har'
      omega

end Unread

end Listeners

end JavaFx.Binding
