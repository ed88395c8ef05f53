import JavaFx.Collections.ObservableFloatArray

/-!
# What the calls of an observable array do to the visible elements

`described` is what a call does to sequences of elements. The methods that leave the size alone
do that, or throw and change nothing that can be seen.
-/

namespace JavaFx.Collections

open Splice

variable {α : Type}

/-! ## What the calls describe -/

/-- The visible elements of the arrays. -/
abbrev Contents (α : Type) : Type := ℕ → List α

def Heap.contents (h : Heap α) : Contents α := fun r => (h r).array.take (h r).size

/-- The elements at the indexes `[srcIndex, srcIndex + length)`, if there are such. -/
def part (src : List α) (srcIndex length : ℤ) : Option (List α) :=
  if 0 ≤ srcIndex ∧ 0 ≤ length ∧ srcIndex + length ≤ src.length then
    some (slice srcIndex.toNat (srcIndex + length).toNat src)
  else none

/-- `dest` with elements in place of its own from `destIndex` on, if they fit. -/
def overwritten (dest : List α) (destIndex : ℤ) (elements : List α) : Option (List α) :=
  if 0 ≤ destIndex ∧ destIndex + elements.length ≤ dest.length then
    some (splice destIndex.toNat elements.length elements dest)
  else none

/-- A part of `src` copied to `dest`. -/
def copied (src : List α) (srcIndex : ℤ) (dest : List α) (destIndex length : ℤ) :
    Option (List α) :=
  (part src srcIndex length).bind (overwritten dest destIndex)

/-- The array that `toArray` returns. -/
def fitted (elements : List α) : Option (List α) → List α
  | some dest =>
      if dest.length < elements.length then elements else splice 0 elements.length elements dest
  | none => elements

/-- What the call on `r` does to the elements of the arrays, and the array it returns or copies to;
`none` if its arguments do not fit. -/
def ArrayCall.described [Zero α] (r : ℕ) (v : Contents α) :
    ArrayCall α → Option (Contents α × Option (List α))
  | .setAt index value => (overwritten (v r) index [value]).map fun l => (Function.update v r l, none)
  | .set destIndex src srcIndex length =>
      src.bind fun src => (copied src.1 srcIndex (v r) destIndex length).map fun l =>
        (Function.update v r l, none)
  | .setFrom destIndex src srcIndex length =>
      src.bind fun src => (copied (v src) srcIndex (v r) destIndex length).map fun l =>
        (Function.update v r l, none)
  | .setAll src => src.map fun src => (Function.update v r src.1, none)
  | .setAllPart src srcIndex length =>
      src.bind fun src => (part src.1 srcIndex length).map fun l => (Function.update v r l, none)
  | .setAllFrom src => src.map fun src => (Function.update v r (v src), none)
  | .setAllPartFrom src srcIndex length =>
      src.bind fun src => (part (v src) srcIndex length).map fun l => (Function.update v r l, none)
  | .addAll src => src.map fun src => (Function.update v r (v r ++ src.1), none)
  | .addAllPart src srcIndex length =>
      src.bind fun src => (part src.1 srcIndex length).map fun l =>
        (Function.update v r (v r ++ l), none)
  | .addAllFrom src => src.map fun src => (Function.update v r (v r ++ v src), none)
  | .addAllPartFrom src srcIndex length =>
      src.bind fun src => (part (v src) srcIndex length).map fun l =>
        (Function.update v r (v r ++ l), none)
  | .copyTo srcIndex dest destIndex length =>
      dest.bind fun dest => (copied (v r) srcIndex dest.1 destIndex length).map fun l => (v, some l)
  | .copyToArray srcIndex dest destIndex length =>
      dest.bind fun dest => (copied (v r) srcIndex (v dest) destIndex length).map fun l =>
        (Function.update v dest l, none)
  | .toArray dest => some (v, some (fitted (v r) (dest.map Subtype.val)))
  | .toArrayPart index dest length =>
      (part (v r) index length).map fun l => (v, some (fitted l (dest.map Subtype.val)))
  | .resize newSize =>
      if 0 ≤ newSize.1 then
        some (Function.update v r ((v r).take newSize.1.toNat ++
          List.replicate (newSize.1.toNat - (v r).length) 0), none)
      else none
  | .clear => some (Function.update v r [], none)
  | .ensureCapacity _ => some (v, none)
  | .trimToSize => some (v, none)

/-- The call has done what it describes, or it has thrown and nothing that can be seen has changed. -/
def Atomic {β : Type} (h : Heap α) (described : Option (Contents α × β)) :
    Except Exn β × Heap α → Prop
  | (.ok b, h') => described = some (h'.contents, b)
  | (.error _, h') => h'.contents = h.contents

/-! ## Arrays -/

/-- The size of an array is not beyond its end, which is an `int`. -/
structure ObservableFloatArray.Fits (a : ObservableFloatArray α) : Prop where
  size : a.size ≤ a.array.length
  capacity : (a.array.length : ℤ) ≤ maxInt

/-- All arrays are such. -/
def Heap.Fit (h : Heap α) : Prop := ∀ r, (h r).Fits

variable {h h' : Heap α} {a b : ObservableFloatArray α} {r : ℕ}

theorem Heap.length_contents (hfit : h.Fit) (r : ℕ) : (h.contents r).length = (h r).size := by
  rw [contents, List.length_take]
  exact Nat.min_eq_left (hfit r).size

theorem ObservableFloatArray.Fits.size_le (ha : a.Fits) : (a.size : ℤ) ≤ maxInt :=
  (Int.ofNat_le.mpr ha.size).trans ha.capacity

theorem Heap.contents_update (h : Heap α) (r : ℕ) (a : ObservableFloatArray α) :
    Heap.contents (Function.update h r a) = Function.update h.contents r (a.array.take a.size) := by
  funext q
  by_cases hq : q = r
  · subst hq
    rw [contents, Function.update_self, Function.update_self]
  · rw [contents, Function.update_of_ne hq, Function.update_of_ne hq]
    rfl

/-- An array with the same visible elements. -/
theorem Heap.contents_update_same (h : Heap α) {r : ℕ} {a : ObservableFloatArray α}
    (ha : a.array.take a.size = h.contents r) :
    Heap.contents (Function.update h r a) = h.contents := by
  rw [contents_update, ha, Function.update_eq_self]

theorem Heap.Fit.update (hfit : h.Fit) (ha : a.Fits) : Heap.Fit (Function.update h r a) := by
  intro q
  by_cases hq : q = r
  · subst hq
    rw [Function.update_self]
    exact ha
  · rw [Function.update_of_ne hq]
    exact hfit q

/-! ## Copies -/

theorem slice_take {lo hi n : ℕ} {l : List α} (h : hi ≤ n) : slice lo hi (l.take n) = slice lo hi l := by
  rw [slice, slice, List.drop_take, List.take_take]
  congr 1
  omega

theorem take_splice {lo n m : ℕ} {ins l : List α} (hins : ins.length = n) (hm : lo + n ≤ m)
    (hl : m ≤ l.length) : (splice lo n ins l).take m = splice lo n ins (l.take m) := by
  have htake : (l.take lo).length = lo := by
    rw [List.length_take]
    omega
  rw [splice, splice, List.take_append, List.take_append, htake, hins, List.take_take, List.take_take,
    List.drop_take, Nat.min_eq_right (by omega), Nat.min_eq_left (by omega),
    List.take_of_length_le (by omega : ins.length ≤ m - lo), Nat.sub_sub]

/-- What `System.arraycopy` does when it does not throw. -/
theorem arraycopy_eq_ok {src dest res : List α} {i j n : ℤ}
    (h : arraycopy src i dest j n = .ok res) :
    0 ≤ i ∧ 0 ≤ j ∧ 0 ≤ n ∧ i + n ≤ src.length ∧ j + n ≤ dest.length ∧
      res = splice j.toNat n.toNat (slice i.toNat (i + n).toNat src) dest := by
  rw [arraycopy] at h
  split at h
  · next hvalid =>
      obtain ⟨hi, hj, hn, hsrc, hdest⟩ := hvalid
      exact ⟨hi, hj, hn, hsrc, hdest, (Except.ok.inj h).symm⟩
  · cases h

theorem length_arraycopy {src dest res : List α} {i j n : ℤ}
    (h : arraycopy src i dest j n = .ok res) : res.length = dest.length := by
  obtain ⟨hi, hj, hn, hsrc, hdest, rfl⟩ := arraycopy_eq_ok h
  rw [length_splice (by omega), length_slice (by omega)]
  omega

/-- The parts of what is visible are parts of the array. -/
theorem part_take {src : List α} {i n : ℤ} {s : ℕ} (hi : 0 ≤ i) (hn : 0 ≤ n) (hs : i + n ≤ s)
    (hs' : s ≤ src.length) : part (src.take s) i n = some (slice i.toNat (i + n).toNat src) := by
  have hlength : ((src.take s).length : ℤ) = s := by
    rw [List.length_take]
    omega
  rw [part, if_pos ⟨hi, hn, by rw [hlength]; exact hs⟩, slice_take (by omega)]

theorem part_all (l : List α) : part l 0 l.length = some l := by
  rw [part, if_pos ⟨le_refl _, by omega, by omega⟩, Int.zero_add, Int.toNat_natCast]
  exact congrArg some List.take_length

theorem length_slice_toNat {src : List α} {i n : ℤ} (hi : 0 ≤ i) (hn : 0 ≤ n)
    (hsrc : i + n ≤ src.length) : (slice i.toNat (i + n).toNat src).length = n.toNat := by
  rw [length_slice (by omega)]
  omega

/-- Copying between the arrays is copying between what is visible of them, if that is what is read
and written. -/
theorem copied_of_arraycopy {src dest res : List α} {i j n : ℤ} {s d : ℕ}
    (h : arraycopy src i dest j n = .ok res) (hs : i + n ≤ s) (hs' : s ≤ src.length)
    (hd : j + n ≤ d) (hd' : d ≤ dest.length) :
    copied (src.take s) i (dest.take d) j n = some (res.take d) := by
  obtain ⟨hi, hj, hn, hsrc, hdest, rfl⟩ := arraycopy_eq_ok h
  have hslice := length_slice_toNat hi hn hsrc
  have hlength : ((dest.take d).length : ℤ) = d := by
    rw [List.length_take]
    omega
  have hroom : 0 ≤ j ∧ j + (n.toNat : ℕ) ≤ d := by omega
  rw [copied, part_take hi hn hs hs', Option.bind_some, overwritten, hslice, hlength, if_pos hroom,
    take_splice hslice (by omega) hd']

/-! ## Steps that cannot be seen -/

/-- The call is atomic, and the arrays fit after it. -/
structure Sound {β : Type} (h : Heap α) (described : Option (Contents α × β))
    (out : Except Exn β × Heap α) : Prop where
  fit : out.2.Fit
  atomic : Atomic h described out

/-- Nothing that can be seen changes. -/
structure Quiet {β : Type} (m : Method (Heap α) β) (t : Heap α) : Prop where
  fit : (m.run t).2.Fit
  same : (m.run t).2.contents = t.contents

variable {β γ : Type} {t : Heap α} {d : Option (Contents α × γ)}

theorem Sound.error {e : Exn} (hfit : t.Fit) (hsame : t.contents = h.contents) :
    Sound h d ((.error e : Except Exn γ), t) :=
  ⟨hfit, hsame⟩

/-- After a step that cannot be seen, the rest of the method. -/
theorem Sound.bind {m : Method (Heap α) β} {f : β → Method (Heap α) γ} (hm : Quiet m t)
    (hsame : t.contents = h.contents)
    (hf : ∀ b t', m.run t = (.ok b, t') → t'.contents = h.contents → t'.Fit →
      Sound h d ((f b).run t')) : Sound h d ((m >>= f).run t) := by
  obtain ⟨hfit, hquiet⟩ := hm
  rw [Method.run_bind]
  rcases hrun : m.run t with ⟨out, t'⟩
  rw [hrun] at hfit hquiet
  cases out with
  | ok b => exact hf b t' hrun (hquiet.trans hsame) hfit
  | error e => exact .error hfit (hquiet.trans hsame)

/-- What a method returns may be changed after it. -/
theorem Sound.map {m : Method (Heap α) β} {d : Option (Contents α × β)} (hm : Sound h d (m.run t))
    (g : β → γ) : Sound h (d.map fun x => (x.1, g x.2)) ((m >>= fun b => pure (g b)).run t) := by
  obtain ⟨hfit, hatomic⟩ := hm
  rw [Method.run_bind]
  rcases hrun : m.run t with ⟨out, t'⟩
  rw [hrun] at hfit hatomic
  cases out with
  | ok b =>
      have hd : d = some (t'.contents, b) := hatomic
      refine ⟨hfit, ?_⟩
      show d.map _ = some (t'.contents, g b)
      rw [hd]
      rfl
  | error e => exact ⟨hfit, hatomic⟩

/-- The last step: an array is changed as described. -/
theorem Sound.put {d : Option (Contents α × Unit)} (hfit : t.Fit) (ha : a.Fits)
    (hd : d = some (Function.update t.contents r (a.array.take a.size), ())) :
    Sound h d ((ObservableFloatArray.put r a).run t) := by
  refine ⟨hfit.update ha, ?_⟩
  show d = some (Heap.contents (Function.update t r a), ())
  rw [hd, Heap.contents_update]

theorem Quiet.of_eq {m : Method (Heap α) β} (hfit : t.Fit) (hm : (m.run t).2 = t) : Quiet m t := by
  refine ⟨?_, ?_⟩
  · rw [hm]
    exact hfit
  · rw [hm]

namespace ObservableFloatArray

theorem rangeCheck_run (r : ℕ) (size : ℤ) (t : Heap α) : (rangeCheck r size).run t =
    if (t r).size < size then (.error .arrayIndexOutOfBounds, t) else (.ok (), t) := by
  rw [rangeCheck, Method.run_this_bind]
  split
  · rfl
  · rfl

theorem quiet_rangeCheck (hfit : t.Fit) (r : ℕ) (size : ℤ) : Quiet (rangeCheck r size) t := by
  apply Quiet.of_eq hfit
  rw [rangeCheck_run]
  split
  · rfl
  · rfl

theorem rangeCheck_ok {size : ℤ} {u : Unit} (h : (rangeCheck r size).run t = (.ok u, h')) :
    size ≤ (t r).size ∧ h' = t := by
  rw [rangeCheck_run] at h
  split at h
  · cases h
  · next hle =>
      cases h
      exact ⟨not_lt.mp hle, rfl⟩

theorem deref_some (x : β) (t : Heap α) : (deref (some x) : Method (Heap α) β).run t = (.ok x, t) := rfl

theorem quiet_deref (hfit : t.Fit) (x : Option β) : Quiet (deref x : Method (Heap α) β) t := by
  apply Quiet.of_eq hfit
  cases x with
  | none => rfl
  | some x => rfl

theorem deref_ok {x : Option β} {y : β}
    (h : (deref x : Method (Heap α) β).run t = (.ok y, h')) : x = some y ∧ h' = t := by
  cases x with
  | none => cases h
  | some x =>
      cases h
      exact ⟨rfl, rfl⟩

/-- An index check with a sum that wraps round says nothing, but `arraycopy` then finds out. -/
theorem sum_le {i n : ℤ} {size length : ℕ} (hcheck : toInt (i + n) ≤ size) (hi : 0 ≤ i) (hn : 0 ≤ n)
    (hlength : i + n ≤ length) (hcapacity : (length : ℤ) ≤ maxInt) : i + n ≤ size := by
  rwa [toInt_of_nonneg (by omega) (by omega)] at hcheck

/-! ## Copies between arrays -/

theorem fits_of_length {array : List α} (ha : a.Fits) (hlength : array.length = a.array.length) :
    Fits { a with array := array } := by
  obtain ⟨hsize, hcapacity⟩ := ha
  exact ⟨by rw [hlength]; exact hsize, by rw [hlength]; exact hcapacity⟩

theorem set_sound (hfit : h.Fit) (r : ℕ) (i : ℤ) (src : Option (List α)) (j n : ℤ) :
    Sound h (src.bind fun src => (copied src j (h.contents r) i n).map fun l =>
      (Function.update h.contents r l, ())) ((set r i src j n).run h) := by
  rw [set]
  refine Sound.bind (quiet_rangeCheck hfit r _) rfl fun _ t hcheck _ _ => ?_
  obtain ⟨hle, rfl⟩ := rangeCheck_ok hcheck
  rw [Method.run_this_bind]
  refine Sound.bind (quiet_deref hfit src) rfl fun src t hderef _ _ => ?_
  obtain ⟨rfl, rfl⟩ := deref_ok hderef
  rcases hcopy : arraycopy src j (t r).array i n with e | array
  · exact .error hfit rfl
  · rw [Method.run_lift_ok_bind]
    obtain ⟨hj, hi, hn, hsrc, hdest, -⟩ := arraycopy_eq_ok hcopy
    have hlength := length_arraycopy hcopy
    apply Sound.put hfit (fits_of_length (hfit r) hlength)
    have hcopied := copied_of_arraycopy hcopy hsrc (le_refl _)
      (sum_le hle hi hn hdest (hfit r).capacity) (hfit r).size
    rw [List.take_length] at hcopied
    exact congrArg (Option.map _) hcopied

theorem copyTo_run (r : ℕ) (j : ℤ) (dest : List α) (i n : ℤ) (t : Heap α) :
    (copyTo r j (some dest) i n).run t =
      if (t r).size < toInt (j + n) then (.error .arrayIndexOutOfBounds, t)
      else (arraycopy (t r).array j dest i n, t) := by
  rw [copyTo, Method.run_bind, rangeCheck_run]
  by_cases hcheck : (t r).size < toInt (j + n)
  · rw [if_pos hcheck, if_pos hcheck]
  · rw [if_neg hcheck, if_neg hcheck]
    rfl

theorem quiet_copyTo (hfit : t.Fit) (r : ℕ) (j : ℤ) (dest : List α) (i n : ℤ) :
    Quiet (copyTo r j (some dest) i n) t := by
  apply Quiet.of_eq hfit
  rw [copyTo_run]
  split
  · rfl
  · rfl

theorem copyTo_ok {j i n : ℤ} {dest res : List α}
    (hcopy : (copyTo r j (some dest) i n).run t = (.ok res, h')) :
    toInt (j + n) ≤ (t r).size ∧ arraycopy (t r).array j dest i n = .ok res ∧ h' = t := by
  rw [copyTo_run] at hcopy
  split at hcopy
  · cases hcopy
  · next hle =>
      obtain ⟨hres, rfl⟩ := Prod.mk.inj hcopy
      exact ⟨not_lt.mp hle, hres, rfl⟩

theorem copyTo_sound (hfit : h.Fit) (r : ℕ) (j : ℤ) (dest : Option (List α)) (i n : ℤ) :
    Sound h (dest.bind fun dest => (copied (h.contents r) j dest i n).map fun l => (h.contents, l))
      ((copyTo r j dest i n).run h) := by
  cases dest with
  | none =>
      rw [copyTo]
      refine Sound.bind (quiet_rangeCheck hfit r _) rfl fun _ t hcheck hsame hfit' => ?_
      exact .error hfit' hsame
  | some dest =>
      rw [copyTo_run]
      split
      · exact .error hfit rfl
      · next hcheck =>
          rcases hcopy : arraycopy (h r).array j dest i n with e | res
          · exact .error hfit rfl
          · obtain ⟨hj, hi, hn, hsrc, hdest, -⟩ := arraycopy_eq_ok hcopy
            have hcopied := copied_of_arraycopy hcopy
              (sum_le (not_lt.mp hcheck) hj hn hsrc (hfit r).capacity) (hfit r).size hdest
              (le_refl _)
            rw [List.take_length, ← length_arraycopy hcopy, List.take_length] at hcopied
            refine ⟨hfit, ?_⟩
            exact congrArg (Option.map _) hcopied

theorem setFrom_sound (hfit : h.Fit) (r : ℕ) (i : ℤ) (src : Option ℕ) (j n : ℤ) :
    Sound h (src.bind fun src => (copied (h.contents src) j (h.contents r) i n).map fun l =>
      (Function.update h.contents r l, ())) ((setFrom r i src j n).run h) := by
  rw [setFrom]
  refine Sound.bind (quiet_rangeCheck hfit r _) rfl fun _ t hcheck _ _ => ?_
  obtain ⟨hle, rfl⟩ := rangeCheck_ok hcheck
  refine Sound.bind (quiet_deref hfit src) rfl fun src t hderef _ _ => ?_
  obtain ⟨rfl, rfl⟩ := deref_ok hderef
  rw [Method.run_this_bind]
  refine Sound.bind (quiet_copyTo hfit src j _ i n) rfl fun array t' hrun _ _ => ?_
  obtain ⟨hle', hcopy, rfl⟩ := copyTo_ok hrun
  obtain ⟨hj, hi, hn, hsrc, hdest, -⟩ := arraycopy_eq_ok hcopy
  apply Sound.put hfit (fits_of_length (hfit r) (length_arraycopy hcopy))
  have hcopied := copied_of_arraycopy hcopy (sum_le hle' hj hn hsrc (hfit src).capacity)
    (hfit src).size (sum_le hle hi hn hdest (hfit r).capacity) (hfit r).size
  exact congrArg (Option.map _) hcopied

theorem copyToArray_sound (hfit : h.Fit) (r : ℕ) (j : ℤ) (dest : Option ℕ) (i n : ℤ) :
    Sound h (dest.bind fun dest => (copied (h.contents r) j (h.contents dest) i n).map fun l =>
      (Function.update h.contents dest l, ())) ((copyToArray r j dest i n).run h) := by
  rw [copyToArray]
  refine Sound.bind (quiet_rangeCheck hfit r _) rfl fun _ t hcheck _ _ => ?_
  obtain ⟨hle, rfl⟩ := rangeCheck_ok hcheck
  refine Sound.bind (quiet_deref hfit dest) rfl fun dest t hderef _ _ => ?_
  obtain ⟨rfl, rfl⟩ := deref_ok hderef
  rw [Method.run_this_bind, set]
  refine Sound.bind (quiet_rangeCheck hfit dest _) rfl fun _ t' hcheck' _ _ => ?_
  obtain ⟨hle', rfl⟩ := rangeCheck_ok hcheck'
  rw [Method.run_this_bind, Method.run_bind_ok (deref_some _ _)]
  rcases hcopy : arraycopy (t' r).array j (t' dest).array i n with e | array
  · exact .error hfit rfl
  · obtain ⟨hj, hi, hn, hsrc, hdest, -⟩ := arraycopy_eq_ok hcopy
    rw [Method.run_lift_ok_bind]
    apply Sound.put hfit (fits_of_length (hfit dest) (length_arraycopy hcopy))
    have hcopied := copied_of_arraycopy hcopy (sum_le hle hj hn hsrc (hfit r).capacity)
      (hfit r).size (sum_le hle' hi hn hdest (hfit dest).capacity) (hfit dest).size
    exact congrArg (Option.map _) hcopied

/-! ## Returned arrays -/

variable [Zero α] {alloc : ℕ → Bool}

theorem newArray_run (n : ℤ) (t : Heap α) : (newArray alloc n).run t =
    (if n < 0 then .error .negativeArraySize
      else if alloc n.toNat then .ok (List.replicate n.toNat 0) else .error .outOfMemory, t) := by
  rw [newArray]
  by_cases hn : n < 0
  · rw [if_pos hn, if_pos hn]
    rfl
  · rw [if_neg hn, if_neg hn]
    cases hmem : alloc n.toNat with
    | true => rfl
    | false => rfl

theorem quiet_newArray (hfit : t.Fit) (n : ℤ) : Quiet (newArray alloc n : Method (Heap α) (List α)) t := by
  apply Quiet.of_eq hfit
  rw [newArray_run]

theorem newArray_ok {n : ℤ} {array : List α} (hnew : (newArray alloc n).run t = (.ok array, h')) :
    0 ≤ n ∧ alloc n.toNat = true ∧ array = List.replicate n.toNat 0 ∧ h' = t := by
  rw [newArray_run] at hnew
  by_cases hn : n < 0
  · rw [if_pos hn] at hnew
    cases hnew
  · rw [if_neg hn] at hnew
    by_cases hmem : alloc n.toNat
    · rw [if_pos hmem] at hnew
      cases hnew
      exact ⟨not_lt.mp hn, hmem, rfl, rfl⟩
    · rw [if_neg hmem] at hnew
      cases hnew

theorem quiet_destination (hfit : t.Fit) (dest : Option (List α)) (n : ℤ) :
    Quiet (destination alloc dest n) t := by
  cases dest with
  | none => exact quiet_newArray hfit n
  | some dest =>
      rw [destination]
      split
      · exact quiet_newArray hfit n
      · exact .of_eq hfit rfl

/-- Elements that are copied to it make up what `toArray` returns. -/
theorem destination_ok {dest : Option (List α)} {n : ℤ} {array elements : List α}
    (hdest : (destination alloc dest n).run t = (.ok array, h')) (hn : elements.length = n) :
    splice 0 elements.length elements array = fitted elements dest := by
  have hnew : ∀ {array : List α}, (newArray alloc n).run t = (.ok array, h') →
      splice 0 elements.length elements array = elements := by
    intro array hnew
    obtain ⟨hn', -, rfl, rfl⟩ := newArray_ok hnew
    rw [splice, List.take_zero, List.nil_append, List.drop_replicate, Nat.zero_add,
      Nat.sub_eq_zero_of_le (by omega), List.replicate_zero, List.append_nil]
  cases dest with
  | none => exact hnew hdest
  | some dest =>
      rw [destination] at hdest
      by_cases hroom : n > dest.length
      · rw [if_pos hroom] at hdest
        rw [fitted, if_pos (by omega)]
        exact hnew hdest
      · rw [if_neg hroom] at hdest
        cases hdest
        rw [fitted, if_neg (by omega)]

omit [Zero α] in
/-- Visible elements that are copied to a destination. -/
theorem copyOut_sound {array : List α} (hfit : t.Fit) (hsame : t.contents = h.contents) (r : ℕ)
    (i n : ℤ) (hcheck : toInt (i + n) ≤ (t r).size) {g : List α → List α}
    (harray : ∀ elements : List α, elements.length = n →
      splice 0 elements.length elements array = g elements) :
    Sound h ((part (h.contents r) i n).map fun l => (h.contents, g l))
      ((liftM (arraycopy (t r).array i array 0 n) : Method (Heap α) (List α)).run t) := by
  rcases hcopy : arraycopy (t r).array i array 0 n with e | res
  · exact .error hfit hsame
  · obtain ⟨hi, -, hn, hsrc, hdest, rfl⟩ := arraycopy_eq_ok hcopy
    have hle := sum_le hcheck hi hn hsrc (hfit r).capacity
    have hpart : part (t.contents r) i n = some (slice i.toNat (i + n).toNat (t r).array) :=
      part_take hi hn hle (hfit r).size
    have hslice := length_slice_toNat hi hn hsrc
    have hg := harray _ (by rw [hslice]; exact Int.toNat_of_nonneg hn)
    rw [hslice] at hg
    refine ⟨hfit, ?_⟩
    show _ = some (t.contents, _)
    rw [← hsame, hpart, Option.map_some, ← hg]
    rfl

theorem destination_same {dest : Option (List α)} {n : ℤ} {array : List α}
    (hdest : (destination alloc dest n).run t = (.ok array, h')) : h' = t := by
  cases dest with
  | none => exact (newArray_ok hdest).2.2.2
  | some dest =>
      rw [destination] at hdest
      by_cases hroom : n > dest.length
      · rw [if_pos hroom] at hdest
        exact (newArray_ok hdest).2.2.2
      · rw [if_neg hroom] at hdest
        cases hdest
        rfl

theorem toArrayPart_sound (hfit : h.Fit) (r : ℕ) (i : ℤ) (dest : Option (List α)) (n : ℤ) :
    Sound h ((part (h.contents r) i n).map fun l => (h.contents, fitted l dest))
      ((toArrayPart alloc r i dest n).run h) := by
  rw [toArrayPart]
  refine Sound.bind (quiet_rangeCheck hfit r _) rfl fun _ t hcheck _ _ => ?_
  obtain ⟨hle, rfl⟩ := rangeCheck_ok hcheck
  rw [Method.run_this_bind]
  refine Sound.bind (quiet_destination hfit dest n) rfl fun array t' hdest _ _ => ?_
  obtain rfl := destination_same hdest
  exact copyOut_sound hfit rfl r i n hle fun elements hlength => destination_ok hdest hlength

theorem toArray_sound (hfit : h.Fit) (r : ℕ) (dest : Option (List α)) :
    Sound h (some (h.contents, fitted (h.contents r) dest)) ((toArray alloc r dest).run h) := by
  have hpart : part (h.contents r) 0 (h r).size = some (h.contents r) := by
    rw [← Heap.length_contents hfit]
    exact part_all _
  rw [toArray, Method.run_this_bind]
  refine Sound.bind (quiet_destination hfit dest _) rfl fun array t' hdest _ _ => ?_
  obtain rfl := destination_same hdest
  have hcheck : toInt (0 + (t' r).size) ≤ (t' r).size := by
    rw [Int.zero_add, toInt_of_nonneg (by omega) (hfit r).size_le]
  have hsound := copyOut_sound hfit rfl r 0 (t' r).size hcheck fun elements hlength =>
    destination_ok hdest hlength
  rwa [hpart] at hsound

end ObservableFloatArray

end JavaFx.Collections
