import JavaFx.Collections.FloatArrayContents

/-!
# The calls of an observable array are atomic, or not

A step that makes room cannot be seen, so a method that sets the size last is atomic. `setAll`
sets the size to 0 first: if there is no room then, or nothing to copy, the elements are lost.
-/

namespace JavaFx.Collections

open Splice

variable {α : Type} [Zero α] {alloc : ℕ → Bool} {h t h' : Heap α} {a : ObservableFloatArray α} {r : ℕ}

namespace ObservableFloatArray

/-! ## Room -/

theorem ensureCapacity_run (r : ℕ) (capacity : ℤ) (t : Heap α) :
    (ensureCapacity alloc r capacity).run t =
      if ((t r).array.length : ℤ) < capacity then
        if alloc capacity.toNat then
          (.ok (), Function.update t r { t r with
            array := (t r).array ++ (List.replicate capacity.toNat 0).drop (t r).array.length })
        else (.error .outOfMemory, t)
      else (.ok (), t) := by
  rw [ensureCapacity, Method.run_this_bind]
  by_cases hroom : ((t r).array.length : ℤ) < capacity
  · rw [if_pos hroom, if_pos hroom, Method.run_bind, newArray_run, if_neg (by omega)]
    cases hmem : alloc capacity.toNat with
    | true => rfl
    | false => rfl
  · rw [if_neg hroom, if_neg hroom]
    rfl

theorem quiet_ensureCapacity (hfit : t.Fit) (r : ℕ) {capacity : ℤ} (hint : capacity ≤ maxInt) :
    Quiet (ensureCapacity alloc r capacity) t := by
  by_cases hroom : ((t r).array.length : ℤ) < capacity
  · by_cases hmem : alloc capacity.toNat
    · constructor
      · rw [ensureCapacity_run, if_pos hroom, if_pos hmem]
        apply hfit.update
        constructor
        · rw [List.length_append]
          exact (hfit r).size.trans (Nat.le_add_right _ _)
        · rw [List.length_append, List.length_drop, List.length_replicate]
          omega
      · rw [ensureCapacity_run, if_pos hroom, if_pos hmem]
        apply Heap.contents_update_same
        exact List.take_append_of_le_length (hfit r).size
    · apply Quiet.of_eq hfit
      rw [ensureCapacity_run, if_pos hroom, if_neg hmem]
  · apply Quiet.of_eq hfit
    rw [ensureCapacity_run, if_neg hroom]

/-- There is room after it, in the array and nowhere else. -/
theorem ensureCapacity_ok {capacity : ℤ} {u : Unit}
    (hrun : (ensureCapacity alloc r capacity).run t = (.ok u, h')) :
    capacity ≤ (h' r).array.length ∧ ∀ q, q ≠ r → h' q = t q := by
  rw [ensureCapacity_run] at hrun
  by_cases hroom : ((t r).array.length : ℤ) < capacity
  · rw [if_pos hroom] at hrun
    by_cases hmem : alloc capacity.toNat
    · rw [if_pos hmem] at hrun
      cases hrun
      constructor
      · rw [Function.update_self, List.length_append, List.length_drop, List.length_replicate]
        omega
      · intro q hq
        exact Function.update_of_ne hq _ _
    · rw [if_neg hmem] at hrun
      cases hrun
  · rw [if_neg hroom] at hrun
    cases hrun
    exact ⟨not_lt.mp hroom, fun _ _ => rfl⟩

omit [Zero α] in
theorem Quiet.this {β : Type} {f : Heap α → Method (Heap α) β} (hf : Quiet (f t) t) :
    Quiet (Method.this >>= f) t :=
  ⟨hf.fit, hf.same⟩

omit [Zero α] in
theorem Quiet.trans {β γ : Type} {m : Method (Heap α) β} {f : β → Method (Heap α) γ}
    (hm : Quiet m t) (hf : ∀ b t', m.run t = (.ok b, t') → t'.Fit → Quiet (f b) t') :
    Quiet (m >>= f) t := by
  obtain ⟨hfit, hsame⟩ := hm
  rcases hrun : m.run t with ⟨out, t'⟩
  rw [hrun] at hfit hsame
  cases out with
  | ok b =>
      obtain ⟨hfit', hsame'⟩ := hf b t' hrun hfit
      constructor
      · rw [Method.run_bind_ok hrun]
        exact hfit'
      · rw [Method.run_bind_ok hrun]
        exact hsame'.trans hsame
  | error e =>
      constructor
      · rw [Method.run_bind_error hrun]
        exact hfit
      · rw [Method.run_bind_error hrun]
        exact hsame

theorem toInt_le (x : ℤ) : toInt x ≤ maxInt := by
  unfold toInt maxInt
  omega

omit [Zero α] in
/-- A huge capacity is still an `int`. -/
theorem hugeCapacity_run (minCapacity : ℤ) (t : Heap α) :
    ∃ out, (hugeCapacity minCapacity : Method (Heap α) ℤ).run t = (out, t) ∧
      ∀ capacity, out = .ok capacity → capacity ≤ maxInt := by
  rw [hugeCapacity]
  split
  · exact ⟨_, rfl, fun _ hout => by cases hout⟩
  · refine ⟨_, rfl, fun capacity hout => ?_⟩
    cases hout
    split
    · exact le_refl _
    · rw [maxArraySize]
      omega

theorem quiet_growCapacity (hfit : t.Fit) (r : ℕ) (length : ℤ) :
    Quiet (growCapacity alloc r length) t := by
  rw [growCapacity]
  apply Quiet.this
  dsimp only
  split
  · -- `newCapacity` is an `int`, whatever it has become
    generalize hmin : toInt ((t r).size + length) = minCapacity
    generalize hnew : (if toInt (((t r).array.length : ℤ) + (t r).array.length / 2) < minCapacity then
      minCapacity else toInt ((t r).array.length + (t r).array.length / 2)) = newCapacity
    have hint : newCapacity ≤ maxInt := by
      rw [← hnew, ← hmin]
      split
      · exact toInt_le _
      · exact toInt_le _
    split
    · obtain ⟨out, hrun, hout⟩ := hugeCapacity_run minCapacity t
      apply Quiet.trans
      · apply Quiet.of_eq hfit
        rw [hrun]
      · intro capacity t' hhuge hfit'
        rw [hrun] at hhuge
        exact quiet_ensureCapacity hfit' r (hout _ (Prod.mk.inj hhuge).1)
    · exact quiet_ensureCapacity hfit r hint
  · split
    · exact .of_eq hfit rfl
    · exact .of_eq hfit rfl

/-! ## Changes of the size -/

omit [Zero α] in
theorem setAt_sound (hfit : h.Fit) (r : ℕ) (i : ℤ) (x : α) :
    Sound h ((overwritten (h.contents r) i [x]).map fun l => (Function.update h.contents r l, ()))
      ((setAt r i x).run h) := by
  rw [setAt]
  refine Sound.bind (quiet_rangeCheck hfit r _) rfl fun _ t hcheck _ _ => ?_
  obtain ⟨hle, rfl⟩ := rangeCheck_ok hcheck
  rw [Method.run_this_bind, arraySet]
  by_cases hi : 0 ≤ i ∧ i.toNat < (t r).array.length
  · rw [if_pos hi, Method.run_lift_ok_bind]
    obtain ⟨hi, hlt⟩ := hi
    have hlt' := sum_le hle hi (by omega) (by omega) (hfit r).capacity
    apply Sound.put hfit (fits_of_length (hfit r) List.length_set)
    have hsplice : overwritten (t.contents r) i [x] = some ((t.contents r).set i.toNat x) := by
      rw [overwritten, List.length_singleton, Heap.length_contents hfit, if_pos ⟨hi, by omega⟩]
      rw [List.set_eq_take_append_cons_drop, if_pos (by rw [Heap.length_contents hfit]; omega)]
      rfl
    rw [hsplice, Option.map_some, Heap.contents, List.take_set]
  · rw [if_neg hi]
    exact .error hfit rfl

omit [Zero α] in
/-- An array of the same length that has another number of visible elements. -/
theorem Fits.resized {array : List α} {n : ℕ} (ha : a.Fits) (hlength : array.length = a.array.length)
    (hn : n ≤ a.array.length) : Fits ⟨array, n⟩ := by
  obtain ⟨-, hcapacity⟩ := ha
  exact ⟨by rw [hlength]; exact hn, by rw [hlength]; exact hcapacity⟩

omit [Zero α] in
theorem take_splice_end {lo n : ℕ} {ins l : List α} (hins : ins.length = n) (hlo : lo ≤ l.length) :
    (splice lo n ins l).take (lo + n) = l.take lo ++ ins := by
  have hlength : (l.take lo).length = lo := by
    rw [List.length_take]
    omega
  rw [splice, ← List.append_assoc]
  apply List.take_left'
  rw [List.length_append, hlength, hins]

theorem resize_sound (alloc : ℕ → Bool) (hfit : h.Fit) (r : ℕ) {n : ℤ} (hint : n ≤ maxInt) :
    Sound h (if 0 ≤ n then some (Function.update h.contents r ((h.contents r).take n.toNat ++
      List.replicate (n.toNat - (h.contents r).length) 0), ()) else none)
      ((resize alloc r n).run h) := by
  rw [resize]
  by_cases hn : n < 0
  · rw [if_pos hn]
    exact .error hfit rfl
  · rw [if_neg hn, if_pos (not_lt.mp hn)]
    refine Sound.bind (quiet_ensureCapacity hfit r hint) rfl fun _ t hrun hsame hfit' => ?_
    obtain ⟨hroom, -⟩ := ensureCapacity_ok hrun
    have hsize := (hfit' r).size
    generalize hmin : min (t r).size n.toNat = m
    have hzeros : (List.replicate (n.toNat - m) (0 : α)).length = n.toNat - m := List.length_replicate
    rw [Method.run_this_bind, ← hsame]
    dsimp only
    rw [hmin]
    apply Sound.put hfit'
    · apply Fits.resized (hfit' r) _ (by omega)
      rw [length_splice (by omega), hzeros]
      omega
    · have htake := take_splice_end (l := (t r).array) hzeros (by omega : m ≤ _)
      rw [show m + (n.toNat - m) = n.toNat by omega] at htake
      rw [htake, Heap.length_contents hfit', Heap.contents, List.take_take, Nat.min_comm, hmin,
        show n.toNat - (t r).size = n.toNat - m by omega]

omit [Zero α] in
/-- Elements are appended. -/
theorem appended_sound {src array : List α} {j n : ℤ} (hfit : t.Fit) (hsame : t.contents = h.contents)
    (hcopy : arraycopy src j (t r).array (t r).size n = .ok array) :
    Sound h (some (Function.update h.contents r
      (h.contents r ++ slice j.toNat (j + n).toNat src), ())) ((appended r array n).run t) := by
  obtain ⟨hj, -, hn, hsrc, hdest, rfl⟩ := arraycopy_eq_ok hcopy
  have hcapacity := (hfit r).capacity
  have hsize : (toInt ((t r).size + n)).toNat = (t r).size + n.toNat := by
    rw [toInt_of_nonneg (by omega) (by omega)]
    omega
  rw [appended, Method.run_this_bind, hsize, ← hsame]
  apply Sound.put hfit
  · exact Fits.resized (hfit r) (length_arraycopy hcopy) (by omega)
  · rw [Int.toNat_natCast, take_splice_end (length_slice_toNat hj hn hsrc) (hfit r).size]
    rfl

theorem addAllInternal_sound (alloc : ℕ → Bool) (hfit : h.Fit) (r : ℕ) (src : List α) (j n : ℤ) :
    Sound h ((part src j n).map fun l => (Function.update h.contents r (h.contents r ++ l), ()))
      ((addAllInternal alloc r src j n).run h) := by
  rw [addAllInternal]
  refine Sound.bind (quiet_growCapacity hfit r n) rfl fun _ t _ hsame hfit' => ?_
  rw [Method.run_this_bind]
  rcases hcopy : arraycopy src j (t r).array (t r).size n with e | array
  · exact .error hfit' hsame
  · obtain ⟨hj, -, hn, hsrc, -, -⟩ := arraycopy_eq_ok hcopy
    have hpart := part_take hj hn hsrc (le_refl src.length)
    rw [List.take_length] at hpart
    rw [Method.run_lift_ok_bind, hpart]
    exact appended_sound hfit' hsame hcopy

theorem addAllInternalFrom_sound (alloc : ℕ → Bool) (hfit : h.Fit) (r src : ℕ) (j n : ℤ) :
    Sound h ((part (h.contents src) j n).map fun l =>
      (Function.update h.contents r (h.contents r ++ l), ()))
      ((addAllInternalFrom alloc r src j n).run h) := by
  rw [addAllInternalFrom]
  refine Sound.bind (quiet_growCapacity hfit r n) rfl fun _ t _ hsame hfit' => ?_
  rw [Method.run_this_bind]
  refine Sound.bind (quiet_copyTo hfit' src j _ _ n) hsame fun array t' hrun _ _ => ?_
  obtain ⟨hle, hcopy, rfl⟩ := copyTo_ok hrun
  obtain ⟨hj, -, hn, hsrc, -, -⟩ := arraycopy_eq_ok hcopy
  have hpart := part_take hj hn (sum_le hle hj hn hsrc (hfit' src).capacity) (hfit' src).size
  have hpart' : part (h.contents src) j n = some (slice j.toNat (j + n).toNat (t' src).array) := by
    rw [← hsame]
    exact hpart
  rw [hpart']
  exact appended_sound hfit' hsame hcopy

theorem trimToSize_sound (hfit : h.Fit) (r : ℕ) :
    Sound h (some (h.contents, ())) ((trimToSize alloc r).run h) := by
  rw [trimToSize, Method.run_this_bind]
  dsimp only
  split
  · refine Sound.bind (quiet_newArray hfit _) rfl fun array t hrun _ _ => ?_
    obtain ⟨-, -, rfl, rfl⟩ := newArray_ok hrun
    rcases hcopy : arraycopy (t r).array 0 (List.replicate ((t r).size : ℤ).toNat 0) 0 (t r).size
      with e | array
    · exact .error hfit rfl
    · rw [Method.run_lift_ok_bind]
      have hlength := length_arraycopy hcopy
      rw [List.length_replicate, Int.toNat_natCast] at hlength
      obtain ⟨-, -, hn, hsrc, -, rfl⟩ := arraycopy_eq_ok hcopy
      apply Sound.put hfit
      · exact ⟨le_of_eq hlength.symm, by rw [hlength]; exact (hfit r).size_le⟩
      · have htake := take_splice_end (l := List.replicate ((t r).size : ℤ).toNat (0 : α))
          (length_slice_toNat (le_refl 0) hn hsrc) (Nat.zero_le _)
        have hslice : slice (0 : ℤ).toNat (0 + ((t r).size : ℤ)).toNat (t r).array = t.contents r := by
          rw [Int.zero_add, Int.toNat_natCast]
          rfl
        rw [Nat.zero_add, List.take_zero, List.nil_append] at htake
        have hsame : Function.update t.contents r (t.contents r) = t.contents :=
          Function.update_eq_self _ _
        rw [← htake.trans hslice] at hsame
        exact congrArg (fun l => some (l, ())) hsame.symm
  · exact ⟨hfit, rfl⟩

/-! ## `setAll` -/

/-- Both forms of `setAllInternal`, with what they copy. -/
def refill (alloc : ℕ → Bool) (r : ℕ) (copy : Heap α → Method (Heap α) (List α)) (length : ℤ) :
    Method (Heap α) Unit := do
  emptied r
  ensureCapacity alloc r length
  let h ← Method.this
  let array ← copy h
  put r { array := array, size := length.toNat }

/-- What is copied is `elements`, or nothing. -/
def Copies (h : Heap α) (r : ℕ) (length : ℤ) (copy : Heap α → Method (Heap α) (List α))
    (elements : Option (List α)) : Prop :=
  ∀ t : Heap α, t.Fit → (∀ q, q ≠ r → t q = h q) → length ≤ (t r).array.length →
    (copy t).run t =
      (match elements with
        | some elements => .ok (splice 0 length.toNat elements (t r).array)
        | none => .error .arrayIndexOutOfBounds, t)

omit [Zero α] in
theorem contents_emptied (h : Heap α) (r : ℕ) :
    Heap.contents (Function.update h r { h r with size := 0 }) =
      Function.update h.contents r [] := by
  rw [Heap.contents_update, List.take_zero]

omit [Zero α] in
theorem fit_emptied (hfit : h.Fit) (r : ℕ) :
    Heap.Fit (Function.update h r { h r with size := 0 }) :=
  hfit.update ⟨Nat.zero_le _, (hfit r).capacity⟩

variable {copy : Heap α → Method (Heap α) (List α)} {elements : List α} {j n : ℤ}

theorem refill_run (copy : Heap α → Method (Heap α) (List α)) (n : ℤ) (h : Heap α) :
    (refill alloc r copy n).run h =
      (ensureCapacity alloc r n >>= fun _ => Method.this >>= fun h => copy h >>= fun array =>
        put r { array := array, size := n.toNat }).run
        (Function.update h r { h r with size := 0 }) := rfl

/-- If there can be room, the copying starts with no visible elements. -/
theorem refill_room (copy : Heap α → Method (Heap α) (List α)) (hfit : h.Fit) (hint : n ≤ maxInt)
    (hroom : n ≤ (h r).array.length ∨ alloc n.toNat = true) :
    ∃ t : Heap α, t.Fit ∧ t.contents = Function.update h.contents r [] ∧ (∀ q, q ≠ r → t q = h q) ∧
      n ≤ (t r).array.length ∧ (refill alloc r copy n).run h =
        (copy t >>= fun array => put r { array := array, size := n.toNat }).run t := by
  have hquiet : Quiet (ensureCapacity alloc r n) _ := quiet_ensureCapacity (fit_emptied hfit r) r hint
  obtain ⟨hfit', hsame⟩ := hquiet
  have hrun : ∃ t, (ensureCapacity alloc r n).run (Function.update h r { h r with size := 0 }) =
      (.ok (), t) := by
    rw [ensureCapacity_run, Function.update_self]
    by_cases hlt : ((h r).array.length : ℤ) < n
    · rw [if_pos hlt, if_pos (hroom.resolve_left (by omega))]
      exact ⟨_, rfl⟩
    · rw [if_neg hlt]
      exact ⟨_, rfl⟩
  obtain ⟨t, hrun⟩ := hrun
  obtain ⟨hlength, hframe⟩ := ensureCapacity_ok hrun
  rw [hrun] at hfit' hsame
  refine ⟨t, hfit', hsame.trans (contents_emptied h r), ?_, hlength, ?_⟩
  · intro q hq
    rw [hframe q hq, Function.update_of_ne hq]
  · rw [refill_run, Method.run_bind_ok hrun, Method.run_this_bind]

/-- With room and something to copy, the elements are replaced. -/
theorem refill_sound (hfit : h.Fit) (hint : n ≤ maxInt) (hlength : elements.length = n)
    (hroom : n ≤ (h r).array.length ∨ alloc n.toNat = true) (hcopy : Copies h r n copy (some elements)) :
    Sound h (some (Function.update h.contents r elements, ())) ((refill alloc r copy n).run h) := by
  obtain ⟨t, hfit', hsame, hframe, hle, hrun⟩ := refill_room copy hfit hint hroom
  have hlength' : elements.length = n.toNat := by omega
  rw [hrun, Method.run_bind_ok (hcopy t hfit' hframe hle)]
  have hput : Sound h (some (Function.update t.contents r elements, ()))
      ((put r { array := splice 0 n.toNat elements (t r).array, size := n.toNat }).run t) := by
    apply Sound.put hfit'
    · apply Fits.resized (hfit' r) _ (by omega)
      rw [length_splice (by omega)]
      omega
    · have htake := take_splice_end hlength' (Nat.zero_le (t r).array.length)
      rw [Nat.zero_add, List.take_zero, List.nil_append] at htake
      rw [htake]
  rw [hsame, Function.update_idem] at hput
  exact hput

/-- Without, they are lost. -/
theorem refill_error (hfit : h.Fit) (hint : n ≤ maxInt)
    (hlost : Copies h r n copy none ∨ ¬ (n ≤ (h r).array.length ∨ alloc n.toNat = true)) :
    ∃ e t, (refill alloc r copy n).run h = (.error e, t) ∧ t.Fit ∧
      t.contents = Function.update h.contents r [] := by
  by_cases hroom : n ≤ (h r).array.length ∨ alloc n.toNat = true
  · have hcopy := hlost.resolve_right (not_not.mpr hroom)
    obtain ⟨t, hfit', hsame, hframe, hle, hrun⟩ := refill_room copy hfit hint hroom
    refine ⟨.arrayIndexOutOfBounds, t, ?_, hfit', hsame⟩
    rw [hrun, Method.run_bind_error (hcopy t hfit' hframe hle)]
  · obtain ⟨hlt, hmem⟩ := not_or.mp hroom
    refine ⟨.outOfMemory, _, ?_, fit_emptied hfit r, contents_emptied h r⟩
    rw [refill_run]
    apply Method.run_bind_error
    rw [ensureCapacity_run, Function.update_self, if_pos (not_le.mp hlt), if_neg hmem]

omit [Zero α] in
theorem copies_values (hj : 0 ≤ j) (hn : 0 ≤ n) (src : List α) :
    Copies h r n (fun t => liftM (arraycopy src j (t r).array 0 n)) (part src j n) := by
  intro t _ _ hle
  rw [Method.run_lift, arraycopy, part]
  by_cases hsrc : j + n ≤ src.length
  · rw [if_pos ⟨hj, le_refl _, hn, hsrc, by omega⟩, if_pos ⟨hj, hn, hsrc⟩]
    rfl
  · rw [if_neg fun hvalid => hsrc hvalid.2.2.2.1, if_neg fun hvalid => hsrc hvalid.2.2]

omit [Zero α] in
theorem copies_array (hfit : h.Fit) (hj : 0 ≤ j) (hn : 0 ≤ n) {q : ℕ} (hq : q ≠ r) :
    Copies h r n (fun t => copyTo q j (some (t r).array) 0 n) (part (h.contents q) j n) := by
  intro t _ hframe hle
  have hcapacity := (hfit q).capacity
  have hsize := (hfit q).size
  rw [copyTo_run, hframe q hq]
  by_cases hsum : j + n ≤ (h q).size
  · have hpart : part (h.contents q) j n = some (slice j.toNat (j + n).toNat (h q).array) :=
      part_take hj hn hsum hsize
    rw [hpart, toInt_of_nonneg (by omega) (by omega), if_neg (by omega), arraycopy,
      if_pos ⟨hj, le_refl _, hn, by omega, by omega⟩]
    rfl
  · have hpart : part (h.contents q) j n = none := by
      rw [part, Heap.length_contents hfit, if_neg fun hvalid => hsum hvalid.2.2]
    rw [hpart]
    by_cases hcheck : (h q).size < toInt (j + n)
    · rw [if_pos hcheck]
    · -- the sum has wrapped round, and it is beyond every array
      rw [if_neg hcheck, arraycopy, if_neg fun hvalid =>
        hsum (sum_le (not_lt.mp hcheck) hj hn hvalid.2.2.2.1 hcapacity)]

/-- There is no room for so many elements, and no memory for an array with room. -/
def NoRoom (alloc : ℕ → Bool) (a : ObservableFloatArray α) (length : ℤ) : Prop :=
  ¬ (length ≤ a.array.length ∨ alloc length.toNat = true)

end ObservableFloatArray

open ObservableFloatArray

/-! ## Calls -/

/-- The call sets the size to 0 before it throws. -/
def ArrayCall.Clears (alloc : ℕ → Bool) (r : ℕ) (h : Heap α) : ArrayCall α → Prop
  | .setAll (some src) => NoRoom alloc (h r) src.1.length
  | .setAllPart (some src) srcIndex length =>
      0 ≤ srcIndex.1 ∧ 0 ≤ length.1 ∧ (maxInt < srcIndex.1 + length.1 ∨
        srcIndex.1 + length.1 ≤ src.1.length ∧ NoRoom alloc (h r) length)
  | .setAllFrom (some src) => src ≠ r ∧ NoRoom alloc (h r) (h src).size
  | .setAllPartFrom (some src) srcIndex length =>
      src ≠ r ∧ 0 ≤ srcIndex.1 ∧ 0 ≤ length.1 ∧ (maxInt < srcIndex.1 + length.1 ∨
        srcIndex.1 + length.1 ≤ (h src).size ∧ NoRoom alloc (h r) length)
  | _ => False

/-- The call is atomic just if `P`, and the arrays fit after it anyway. -/
structure Judged {β : Type} (h : Heap α) (described : Option (Contents α × β)) (P : Prop)
    (out : Except Exn β × Heap α) : Prop where
  fit : out.2.Fit
  atomic_iff : Atomic h described out ↔ P

omit [Zero α] in
theorem Sound.judged {β : Type} {d : Option (Contents α × β)} {P : Prop} {out : Except Exn β × Heap α}
    (hsound : Sound h d out) (hP : P) : Judged h d P out :=
  ⟨hsound.fit, fun _ => hP, fun _ => hsound.atomic⟩

omit [Zero α] in
/-- A result that says as much does not change this. -/
theorem Judged.map {β γ : Type} {d : Option (Contents α × β)} {P : Prop} {m : Method (Heap α) β}
    (hm : Judged h d P (m.run t)) {g : β → γ} (hg : Function.Injective g) :
    Judged h (d.map fun x => (x.1, g x.2)) P ((m >>= fun b => pure (g b)).run t) := by
  obtain ⟨hfit, hiff⟩ := hm
  rcases hrun : m.run t with ⟨out, t'⟩
  rw [hrun] at hfit hiff
  cases out with
  | ok b =>
      rw [Method.run_bind_ok hrun]
      refine ⟨hfit, ?_⟩
      rw [← hiff]
      have hinj : Function.Injective fun x : Contents α × β => (x.1, g x.2) :=
        Function.Injective.prodMap Function.injective_id hg
      exact (Option.map_injective hinj).eq_iff (b := some (t'.contents, b))
  | error e =>
      rw [Method.run_bind_error hrun]
      exact ⟨hfit, hiff⟩

theorem refill_judged {copy : Heap α → Method (Heap α) (List α)} {elements : Option (List α)} {n : ℤ}
    (hfit : h.Fit) (hint : n ≤ maxInt) (hlength : ∀ l, elements = some l → l.length = n)
    (hcopy : Copies h r n copy elements) :
    Judged h (elements.map fun l => (Function.update h.contents r l, ()))
      (¬ ((h r).size ≠ 0 ∧ (elements = none ∨ NoRoom alloc (h r) n)))
      ((refill alloc r copy n).run h) := by
  by_cases hlost : elements = none ∨ NoRoom alloc (h r) n
  · have hcopy' : Copies h r n copy none ∨ NoRoom alloc (h r) n := by
      rcases hlost with hnone | hroom
      · exact .inl (hnone ▸ hcopy)
      · exact .inr hroom
    obtain ⟨e, t, hrun, hfit', hsame⟩ := refill_error hfit hint hcopy'
    rw [hrun]
    refine ⟨hfit', ?_⟩
    show t.contents = h.contents ↔ _
    have hempty : h.contents r = [] ↔ (h r).size = 0 := by
      rw [← List.length_eq_zero_iff, Heap.length_contents hfit]
    rw [hsame, Function.update_eq_iff, not_and_or, not_not, ← hempty]
    constructor
    · rintro ⟨hnil, -⟩
      exact .inl hnil.symm
    · rintro (hnil | hsafe)
      · exact ⟨hnil.symm, fun _ _ => rfl⟩
      · exact absurd hlost hsafe
  · obtain ⟨hsome, hroom⟩ := not_or.mp hlost
    obtain ⟨l, rfl⟩ := Option.ne_none_iff_exists'.mp hsome
    exact (refill_sound hfit hint (hlength l rfl) (not_not.mp hroom) hcopy).judged
      fun hlost' => hlost hlost'.2

omit [Zero α] in
theorem length_part {src l : List α} {j n : ℤ} (hpart : part src j n = some l) : l.length = n := by
  rw [part] at hpart
  split at hpart
  · next hvalid =>
      cases hpart
      rw [length_slice_toNat hvalid.1 hvalid.2.1 hvalid.2.2]
      exact Int.toNat_of_nonneg hvalid.2.1
  · cases hpart

omit [Zero α] in
theorem part_eq_none_iff {src : List α} {j n : ℤ} (hj : 0 ≤ j) (hn : 0 ≤ n) :
    part src j n = none ↔ (src.length : ℤ) < j + n := by
  rw [part]
  split
  · next hvalid =>
      constructor
      · intro hnone
        cases hnone
      · intro hlt
        exact absurd hvalid.2.2 (not_le.mpr hlt)
  · next hvalid =>
      constructor
      · intro _
        exact not_le.mp fun hle => hvalid ⟨hj, hn, hle⟩
      · intro _
        rfl

theorem setAllInternal_judged (alloc : ℕ → Bool) (hfit : h.Fit) (r : ℕ) (src : List α) {j n : ℤ} (hj : 0 ≤ j)
    (hn : 0 ≤ n) (hint : n ≤ maxInt) :
    Judged h ((part src j n).map fun l => (Function.update h.contents r l, ()))
      (¬ ((h r).size ≠ 0 ∧ ((src.length : ℤ) < j + n ∨ NoRoom alloc (h r) n)))
      ((setAllInternal alloc r src j n).run h) := by
  rw [← part_eq_none_iff hj hn]
  exact refill_judged hfit hint (fun _ hl => length_part hl) (copies_values hj hn src)

theorem setAllInternalFrom_other_judged (alloc : ℕ → Bool) (hfit : h.Fit) {r src : ℕ} (hsrc : src ≠ r) {j n : ℤ}
    (hj : 0 ≤ j) (hn : 0 ≤ n) (hint : n ≤ maxInt) :
    Judged h ((part (h.contents src) j n).map fun l => (Function.update h.contents r l, ()))
      (¬ ((h r).size ≠ 0 ∧ (((h src).size : ℤ) < j + n ∨ NoRoom alloc (h r) n)))
      ((setAllInternalFrom alloc r src j n).run h) := by
  rw [← Heap.length_contents hfit src, ← part_eq_none_iff hj hn, setAllInternalFrom, if_neg hsrc]
  exact refill_judged hfit hint (fun _ hl => length_part hl) (copies_array hfit hj hn hsrc)

/-- An array that is set to a part of its own elements is never emptied first. -/
theorem setAllInternalFrom_self_sound (alloc : ℕ → Bool) (hfit : h.Fit) (r : ℕ) {j n : ℤ} (hj : 0 ≤ j) (hn : 0 ≤ n)
    (hint : n ≤ maxInt) (hcheck : toInt (j + n) ≤ (h r).size) :
    Sound h ((part (h.contents r) j n).map fun l => (Function.update h.contents r l, ()))
      ((setAllInternalFrom alloc r r j n).run h) := by
  have hsize := (hfit r).size
  have hcapacity := (hfit r).capacity
  rw [setAllInternalFrom, if_pos rfl]
  by_cases hzero : j = 0
  · subst hzero
    rw [if_pos rfl]
    rw [Int.zero_add, toInt_of_nonneg hn hint] at hcheck
    have hpart : part (h.contents r) 0 n = some ((h.contents r).take n.toNat) := by
      rw [part, Heap.length_contents hfit, if_pos ⟨le_refl _, hn, by omega⟩, Int.zero_add]
      rfl
    have hsound := resize_sound alloc hfit r hint
    rw [if_pos hn, Heap.length_contents hfit, Nat.sub_eq_zero_of_le (by omega), List.replicate_zero,
      List.append_nil] at hsound
    rw [hpart]
    exact hsound
  · rw [if_neg hzero, Method.run_this_bind]
    rcases hcopy : arraycopy (h r).array j (h r).array 0 n with e | array
    · exact .error hfit rfl
    · obtain ⟨-, -, -, hsrc, hdest, rfl⟩ := arraycopy_eq_ok hcopy
      have hpart : part (h.contents r) j n = some (slice j.toNat (j + n).toNat (h r).array) :=
        part_take hj hn (sum_le hcheck hj hn hsrc hcapacity) hsize
      rw [Method.run_lift_ok_bind, hpart]
      apply Sound.put hfit
      · exact Fits.resized (hfit r) (length_arraycopy hcopy) (by omega)
      · have htake := take_splice_end (length_slice_toNat hj hn hsrc) (Nat.zero_le (h r).array.length)
        rw [Nat.zero_add, List.take_zero, List.nil_append] at htake
        rw [Int.toNat_zero, htake]
        rfl

/-- What passes a range check is a part of the source, or the sum has wrapped round. -/
theorem beyond_iff {j n : ℤ} {size : ℕ} {P : Prop} (hsum : 0 ≤ j + n) (hsize : (size : ℤ) ≤ maxInt)
    (hcheck : toInt (j + n) ≤ size) :
    ((size : ℤ) < j + n ∨ P) ↔ (maxInt < j + n ∨ j + n ≤ size ∧ P) := by
  by_cases hwrap : maxInt < j + n
  · exact iff_of_true (.inl (hsize.trans_lt hwrap)) (.inl hwrap)
  · rw [toInt_of_nonneg hsum (not_lt.mp hwrap)] at hcheck
    constructor
    · rintro (hlt | hP)
      · exact absurd hcheck (not_le.mpr hlt)
      · exact .inr ⟨hcheck, hP⟩
    · rintro (hlt | ⟨-, hP⟩)
      · exact absurd hlt hwrap
      · exact .inr hP

omit [Zero α] in
theorem rangeCheckSource_run (size : ℕ) (j n : ℤ) (t : Heap α) :
    (rangeCheckSource size j n).run t =
      (if (j < 0 ∨ (size : ℤ) < toInt (j + n)) ∨ n < 0 then .error .arrayIndexOutOfBounds
        else .ok (), t) := by
  rw [rangeCheckSource]
  by_cases hcheck : j < 0 ∨ (size : ℤ) < toInt (j + n)
  · rw [if_pos hcheck, if_pos (show (j < 0 ∨ _) ∨ n < 0 from .inl hcheck)]
    rfl
  · rw [if_neg hcheck]
    by_cases hn : n < 0
    · rw [if_pos hn, if_pos (show (j < 0 ∨ _) ∨ n < 0 from .inr hn)]
      rfl
    · rw [if_neg hn, if_neg (not_or.mpr ⟨hcheck, hn⟩)]
      rfl

omit [Zero α] in
theorem Quiet.sound {m : Method (Heap α) Unit} (hm : Quiet m h) :
    Sound h (some (h.contents, ())) (m.run h) := by
  obtain ⟨hfit, hsame⟩ := hm
  rcases hrun : m.run h with ⟨out, t⟩
  rw [hrun] at hfit hsame
  refine ⟨hfit, ?_⟩
  cases out with
  | ok u => exact congrArg (fun v => some (v, ())) hsame.symm
  | error e => exact hsame

omit [Zero α] in
/-- A call that throws before it has done anything. -/
theorem Judged.error {β : Type} {d : Option (Contents α × β)} {P : Prop} {e : Exn} (hfit : h.Fit)
    (hP : P) : Judged h d P (.error e, h) :=
  ⟨hfit, fun _ => hP, fun _ => rfl⟩

omit [Zero α] in
/-- A call on a part of a source, after the range check. -/
theorem Sound.checked {d : Option (Contents α × Unit)} (size : ℕ) {j n : ℤ}
    {m : Method (Heap α) Unit} (hfit : h.Fit)
    (hm : 0 ≤ j → 0 ≤ n → toInt (j + n) ≤ size → Sound h d (m.run h)) :
    Sound h (d.map fun x => (x.1, (none : Option (List α))))
      ((rangeCheckSource size j n >>= fun _ => m >>= fun _ => pure none).run h) := by
  rw [Method.run_bind, rangeCheckSource_run]
  by_cases hcheck : (j < 0 ∨ (size : ℤ) < toInt (j + n)) ∨ n < 0
  · rw [if_pos hcheck]
    exact .error hfit rfl
  · rw [if_neg hcheck]
    obtain ⟨hcheck, hn⟩ := not_or.mp hcheck
    obtain ⟨hj, hle⟩ := not_or.mp hcheck
    exact (hm (not_lt.mp hj) (not_lt.mp hn) (not_lt.mp hle)).map fun _ => none

theorem toInt_add_le {j n : ℤ} {size : ℕ} (hj : 0 ≤ j) (hn : 0 ≤ n) (hj' : j ≤ maxInt)
    (hn' : n ≤ maxInt) (hsize : (size : ℤ) ≤ maxInt) (hsum : maxInt < j + n ∨ j + n ≤ size) :
    toInt (j + n) ≤ size := by
  unfold toInt maxInt at *
  omega

omit [Zero α] in
/-- `setAll` with a source of `size` elements, after the range check. -/
theorem Judged.checked {d : Option (Contents α × Unit)} {P : Prop} {size : ℕ} {j n : IntValue}
    {m : Method (Heap α) Unit} (hfit : h.Fit) (hsize : (size : ℤ) ≤ maxInt)
    (hm : 0 ≤ j.1 → 0 ≤ n.1 → toInt (j + n) ≤ size →
      Judged h d (¬ ((h r).size ≠ 0 ∧ ((size : ℤ) < j + n ∨ P))) (m.run h)) :
    Judged h (d.map fun x => (x.1, (none : Option (List α))))
      (¬ ((h r).size ≠ 0 ∧ 0 ≤ j.1 ∧ 0 ≤ n.1 ∧ (maxInt < j.1 + n.1 ∨ j.1 + n.1 ≤ size ∧ P)))
      ((rangeCheckSource size j n >>= fun _ => m >>= fun _ => pure none).run h) := by
  rw [Method.run_bind, rangeCheckSource_run]
  by_cases hcheck : (j.1 < 0 ∨ (size : ℤ) < toInt (j.1 + n.1)) ∨ n.1 < 0
  · rw [if_pos hcheck]
    apply Judged.error hfit
    rintro ⟨-, hj, hn, hsum⟩
    have hle := toInt_add_le hj hn j.2.2 n.2.2 hsize (hsum.imp_right And.left)
    rcases hcheck with (hj' | hlt) | hn'
    · exact not_lt.mpr hj hj'
    · exact not_lt.mpr hle hlt
    · exact not_lt.mpr hn hn'
  · rw [if_neg hcheck]
    obtain ⟨hcheck, hn⟩ := not_or.mp hcheck
    obtain ⟨hj, hle⟩ := not_or.mp hcheck
    have hjudged := (hm (not_lt.mp hj) (not_lt.mp hn) (not_lt.mp hle)).map
      (g := fun _ : Unit => (none : Option (List α))) (Function.injective_of_subsingleton _)
    rw [beyond_iff (by omega) hsize (not_lt.mp hle)] at hjudged
    rw [and_iff_right (not_lt.mp hj), and_iff_right (not_lt.mp hn)]
    exact hjudged

omit [Zero α] in
/-- Calls that never throw after a change. -/
theorem Sound.call {β γ : Type} {d : Option (Contents α × β)} {d' : Option (Contents α × γ)}
    {m : Method (Heap α) β} (hsound : Sound h d (m.run h)) {g : β → γ} (size : ℕ)
    (hd : d' = d.map fun x => (x.1, g x.2)) :
    Judged h d' (¬ (size ≠ 0 ∧ False)) ((m >>= fun b => pure (g b)).run h) := by
  rw [hd]
  exact (hsound.map g).judged fun hclears => hclears.2

/-- A method is judged where it is called. -/
def Judges {β : Type} (h : Heap α) (described : Option (Contents α × β)) (P : Prop)
    (m : Method (Heap α) β) : Prop :=
  Judged h described P (m.run h)

omit [Zero α] in
theorem Sound.judges {d : Option (Contents α × Unit)} {m : Method (Heap α) Unit}
    (hsound : Sound h d (m.run h)) (size : ℕ) :
    Judges h (d.map fun x => (x.1, (none : Option (List α)))) (¬ (size ≠ 0 ∧ False))
      (m >>= fun _ => pure none) :=
  (hsound.map fun _ => none).judged fun hclears => hclears.2

omit [Zero α] in
theorem Judges.deref {β γ : Type} {d : Option (Contents α × γ)} {P : Prop} {x : β}
    {f : β → Method (Heap α) γ} (hf : Judges h d P (f x)) :
    Judges h d P (ObservableFloatArray.deref (some x) >>= f) := by
  rw [Judges, Method.run_bind_ok (deref_some x h)]
  exact hf

omit [Zero α] in
theorem Judges.this {γ : Type} {d : Option (Contents α × γ)} {P : Prop}
    {f : Heap α → Method (Heap α) γ} (hf : Judges h d P (f h)) : Judges h d P (Method.this >>= f) := by
  rw [Judges, Method.run_this_bind]
  exact hf

theorem ArrayCall.judged (alloc : ℕ → Bool) (hfit : h.Fit) (r : ℕ) (call : ArrayCall α) :
    Judges h (call.described r h.contents) (¬ ((h r).size ≠ 0 ∧ call.Clears alloc r h))
      (call.perform alloc r) := by
  have hunit : Function.Injective fun _ : Unit => (none : Option (List α)) :=
    Function.injective_of_subsingleton _
  cases call with
  | setAt index value =>
      exact (setAt_sound hfit r index value).call _ (by rw [Option.map_map]; rfl)
  | set destIndex src srcIndex length =>
      apply (set_sound hfit r destIndex (src.map Subtype.val) srcIndex length).call
      cases src with
      | none => rfl
      | some src =>
          rw [Option.map_some, Option.bind_some, Option.map_map]
          rfl
  | setFrom destIndex src srcIndex length =>
      apply (setFrom_sound hfit r destIndex src srcIndex length).call
      cases src with
      | none => rfl
      | some src =>
          rw [Option.bind_some, Option.map_map]
          rfl
  | copyTo srcIndex dest destIndex length =>
      apply (copyTo_sound hfit r srcIndex (dest.map Subtype.val) destIndex length).call
      cases dest with
      | none => rfl
      | some dest =>
          rw [Option.map_some, Option.bind_some, Option.map_map]
          rfl
  | copyToArray srcIndex dest destIndex length =>
      apply (copyToArray_sound hfit r srcIndex dest destIndex length).call
      cases dest with
      | none => rfl
      | some dest =>
          rw [Option.bind_some, Option.map_map]
          rfl
  | toArray dest => exact (toArray_sound hfit r _).call _ rfl
  | toArrayPart index dest length =>
      exact (toArrayPart_sound hfit r index _ length).call _ (by rw [Option.map_map]; rfl)
  | resize newSize =>
      apply (resize_sound alloc hfit r newSize.2.2).call
      rw [described]
      split
      · rfl
      · rfl
  | clear =>
      have hsound := resize_sound alloc hfit r (by decide : (0 : ℤ) ≤ maxInt)
      rw [if_pos (le_refl _), Int.toNat_zero, List.take_zero, Nat.zero_sub, List.replicate_zero] at hsound
      exact hsound.call _ rfl
  | ensureCapacity capacity =>
      exact (quiet_ensureCapacity hfit r capacity.2.2).sound.call _ rfl
  | trimToSize => exact (trimToSize_sound hfit r).call _ rfl
  | setAll src =>
      cases src with
      | none => exact .error hfit fun hclears => hclears.2
      | some src =>
          have hjudged := (setAllInternal_judged alloc hfit r src.1 (le_refl 0)
            (Int.natCast_nonneg src.1.length) src.2).map hunit
          rw [part_all, Int.zero_add, or_iff_right (lt_irrefl _)] at hjudged
          exact hjudged
  | setAllPart src srcIndex length =>
      cases src with
      | none => exact .error hfit fun hclears => hclears.2
      | some src =>
          have hjudged := Judged.checked (j := srcIndex) (n := length) hfit src.2 fun hj hn _ =>
            setAllInternal_judged alloc hfit r src.1 hj hn length.2.2
          rw [Option.map_map] at hjudged
          exact hjudged
  | setAllFrom src =>
      cases src with
      | none => exact .error hfit fun hclears => hclears.2
      | some src =>
          have hpart := part_all (h.contents src)
          rw [Heap.length_contents hfit] at hpart
          by_cases hself : src = r
          · subst hself
            have hcheck : toInt (0 + (h src).size) ≤ (h src).size := by
              rw [Int.zero_add, toInt_of_nonneg (Int.natCast_nonneg _) (hfit src).size_le]
            have hsound := (setAllInternalFrom_self_sound alloc hfit src (le_refl 0)
              (Int.natCast_nonneg _) (hfit src).size_le hcheck).map fun _ => (none : Option (List α))
            rw [hpart] at hsound
            exact hsound.judged fun hclears => hclears.2.1 rfl
          · have hjudged := (setAllInternalFrom_other_judged alloc hfit hself (le_refl 0)
              (Int.natCast_nonneg _) (hfit src).size_le).map hunit
            rw [hpart, Int.zero_add, or_iff_right (lt_irrefl _),
              ← and_iff_right (b := NoRoom alloc (h r) (h src).size) hself] at hjudged
            exact hjudged
  | setAllPartFrom src srcIndex length =>
      cases src with
      | none => exact .error hfit fun hclears => hclears.2
      | some src =>
          by_cases hself : src = r
          · subst hself
            have hsound := Sound.checked (h src).size (j := srcIndex) (n := length) hfit fun hj hn hcheck =>
              setAllInternalFrom_self_sound alloc hfit src hj hn length.2.2 hcheck
            rw [Option.map_map] at hsound
            exact hsound.judged fun hclears => hclears.2.1 rfl
          · have hjudged := Judged.checked (j := srcIndex) (n := length) hfit (hfit src).size_le
              fun hj hn _ => setAllInternalFrom_other_judged alloc hfit hself hj hn length.2.2
            rw [Option.map_map] at hjudged
            refine ⟨hjudged.fit, hjudged.atomic_iff.trans (not_congr (and_congr_right fun _ => ?_))⟩
            exact (and_iff_right hself).symm
  | addAll src =>
      cases src with
      | none => exact .error hfit fun hclears => hclears.2
      | some src =>
          have hsound := addAllInternal_sound alloc hfit r src.1 0 src.1.length
          rw [part_all] at hsound
          rw [perform]
          exact Judges.deref (hsound.judges (h r).size)
  | addAllPart src srcIndex length =>
      cases src with
      | none => exact .error hfit fun hclears => hclears.2
      | some src =>
          have hsound := Sound.checked src.1.length (j := srcIndex.1) (n := length.1) hfit
            fun _ _ _ => addAllInternal_sound alloc hfit r src.1 srcIndex length
          rw [Option.map_map] at hsound
          exact hsound.judged fun hclears => hclears.2
  | addAllFrom src =>
      cases src with
      | none => exact .error hfit fun hclears => hclears.2
      | some src =>
          have hpart := part_all (h.contents src)
          rw [Heap.length_contents hfit] at hpart
          have hsound := addAllInternalFrom_sound alloc hfit r src 0 (h src).size
          rw [hpart] at hsound
          rw [perform]
          exact Judges.deref (Judges.this (hsound.judges (h r).size))
  | addAllPartFrom src srcIndex length =>
      cases src with
      | none => exact .error hfit fun hclears => hclears.2
      | some src =>
          have hsound := Sound.checked (h src).size (j := srcIndex.1) (n := length.1) hfit
            fun _ _ _ => addAllInternalFrom_sound alloc hfit r src srcIndex length
          rw [Option.map_map] at hsound
          exact hsound.judged fun hclears => hclears.2

/-- Whatever was called, the size of an array is not beyond its end. -/
theorem arraysAfter_fit (alloc : ℕ → Bool) (calls : List (ℕ × ArrayCall α)) :
    (arraysAfter alloc calls).Fit := by
  induction calls using List.reverseRecOn with
  | nil => exact fun _ => ⟨le_refl 0, (by decide : (0 : ℤ) ≤ maxInt)⟩
  | append_singleton calls call ih =>
      rw [arraysAfter, List.foldl_append]
      exact (call.2.judged alloc ih call.1).fit

theorem not_all_atomic (alloc : ℕ → Bool) (calls : List (ℕ × ArrayCall α)) (r : ℕ) (call : ArrayCall α)
    (hclears : (arraysAfter alloc calls r).size ≠ 0 ∧ call.Clears alloc r (arraysAfter alloc calls)) :
    ¬ ∀ (alloc : ℕ → Bool) (calls : List (ℕ × ArrayCall α)) (r : ℕ) (call : ArrayCall α),
      Atomic (arraysAfter alloc calls) (call.described r (arraysAfter alloc calls).contents)
        ((call.perform alloc r).run (arraysAfter alloc calls)) := by
  intro hatomic
  exact (call.judged alloc (arraysAfter_fit alloc calls) r).atomic_iff.mp (hatomic alloc calls r call)
    hclears

/-- **A call is atomic unless it is a `setAll` that throws after it has set the size to 0.** -/
theorem arraysAfter_atomic_iff (alloc : ℕ → Bool) (calls : List (ℕ × ArrayCall α)) (r : ℕ)
    (call : ArrayCall α) :
    Atomic (arraysAfter alloc calls) (call.described r (arraysAfter alloc calls).contents)
        ((call.perform alloc r).run (arraysAfter alloc calls)) ↔
      ¬ ((arraysAfter alloc calls r).size ≠ 0 ∧ call.Clears alloc r (arraysAfter alloc calls)) :=
  (call.judged alloc (arraysAfter_fit alloc calls) r).atomic_iff

/-- A `FloatValues` of one element. -/
def oneValue (x : α) : FloatValues α := ⟨[x], (by decide : (1 : ℤ) ≤ maxInt)⟩

/-- `setAll([2], 1, Integer.MAX_VALUE)` on an array that holds 1: the index check is passed since
the sum wraps round. -/
theorem setAll_beyond_not_atomic :
    ¬ ∀ (alloc : ℕ → Bool) (calls : List (ℕ × ArrayCall ℤ)) (r : ℕ) (call : ArrayCall ℤ),
      Atomic (arraysAfter alloc calls) (call.described r (arraysAfter alloc calls).contents)
        ((call.perform alloc r).run (arraysAfter alloc calls)) := by
  let alloc : ℕ → Bool := fun n => n ≤ 16
  let calls : List (ℕ × ArrayCall ℤ) := [(0, .addAll (some (oneValue 1)))]
  let call : ArrayCall ℤ :=
    .setAllPart (some (oneValue 2)) ⟨1, by decide⟩ ⟨2147483647, by decide⟩
  have hclears : (arraysAfter alloc calls 0).size ≠ 0 ∧ call.Clears alloc 0 (arraysAfter alloc calls) :=
    ⟨by decide, by decide, by decide, .inl (by decide)⟩
  exact not_all_atomic alloc calls 0 call hclears

end JavaFx.Collections
