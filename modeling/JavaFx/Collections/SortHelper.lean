import JavaFx.Java

/-!
# `com.sun.javafx.collections.SortHelper`

The merge sort of the JDK, extended to record the permutation it carries out.
The arrays `src` and `dest` change roles at every level of the recursion, and
`off` is the distance between the positions of a range in the two.
-/

namespace JavaFx.Collections

open Splice

variable {β : Type}

/-- What the contract of `Comparator` asks for: the sign of `compare` is that of
a total preorder. -/
structure IsComparator (compare : β → β → ℤ) : Prop where
  swap : ∀ x y, compare x y < 0 ↔ 0 < compare y x
  trans : ∀ x y z, compare x y ≤ 0 → compare y z ≤ 0 → compare x z ≤ 0

namespace SortHelper

structure Permutations where
  permutation : List ℕ
  reversePermutation : List ℕ
deriving DecidableEq, Repr

def initPermutation (length : ℕ) : Permutations :=
  ⟨List.range length, List.range length⟩

/-- The part of `swap` that tracks the permutation. -/
def Permutations.swap (ps : Permutations) (a b : ℕ) : Except Exn Permutations := do
  let ra ← arrayGet ps.reversePermutation a
  let permutation ← arraySet ps.permutation ra b
  let rb ← arrayGet ps.reversePermutation b
  let permutation ← arraySet permutation rb a
  let reversePermutation ← arraySet ps.reversePermutation a rb
  let reversePermutation ← arraySet reversePermutation b ra
  return ⟨permutation, reversePermutation⟩

def swap (x : List β) (ps : Permutations) (a b : ℕ) :
    Except Exn (List β × Permutations) := do
  let t ← arrayGet x a
  let y ← arrayGet x b
  let x ← arraySet x a y
  let x ← arraySet x b t
  let ps ← ps.swap a b
  return (x, ps)

/-! ## Insertion sort on the smallest ranges -/

/-- `for (int j = i; j > low && c.compare(dest[j-1], dest[j]) > 0; j--)` -/
def insertDown (c : β → β → ℤ) (low : ℕ) :
    ℕ → List β → Permutations → Except Exn (List β × Permutations)
  | 0, dest, ps => .ok (dest, ps)
  | j + 1, dest, ps =>
      if low < j + 1 then do
        let x ← arrayGet dest j
        let y ← arrayGet dest (j + 1 : ℕ)
        if 0 < c x y then do
          let s ← swap dest ps (j + 1) j
          insertDown c low j s.1 s.2
        else .ok (dest, ps)
      else .ok (dest, ps)

def insertionSort (c : β → β → ℤ) (low high : ℕ) (dest : List β)
    (ps : Permutations) : Except Exn (List β × Permutations) :=
  (List.range' low (high - low)).foldlM (fun s i => insertDown c low i s.1 s.2)
    (dest, ps)

/-! ## Merging -/

/-- The variables of the merging loop. -/
structure Merging (β : Type) where
  dest : List β
  ps : Permutations
  p : ℕ
  q : ℕ

/-- `dest[i] = src[k]; permutation[reversePermutation[k]] = i` -/
def place (src : List β) (i k : ℕ) (dest : List β) (ps : Permutations) :
    Except Exn (List β × Permutations) := do
  let x ← arrayGet src k
  let dest ← arraySet dest i x
  let r ← arrayGet ps.reversePermutation k
  let permutation ← arraySet ps.permutation r i
  return (dest, { ps with permutation := permutation })

def takeLeft (src : List β) (i : ℕ) (m : Merging β) : Except Exn (Merging β) := do
  let s ← place src i m.p m.dest m.ps
  return { m with dest := s.1, ps := s.2, p := m.p + 1 }

def takeRight (src : List β) (i : ℕ) (m : Merging β) : Except Exn (Merging β) := do
  let s ← place src i m.q m.dest m.ps
  return { m with dest := s.1, ps := s.2, q := m.q + 1 }

/-- The body of the merging loop. -/
def mergeStep (c : β → β → ℤ) (src : List β) (mid high : ℕ) (m : Merging β)
    (i : ℕ) : Except Exn (Merging β) :=
  if high ≤ m.q then takeLeft src i m
  else if m.p < mid then do
    let x ← arrayGet src m.p
    let y ← arrayGet src m.q
    if c x y ≤ 0 then takeLeft src i m else takeRight src i m
  else takeRight src i m

/-- `reversePermutation[permutation[i]] = i` -/
def reverseStep (ps : Permutations) (i : ℕ) : Except Exn Permutations := do
  let k ← arrayGet ps.permutation i
  let reversePermutation ← arraySet ps.reversePermutation k i
  return { ps with reversePermutation := reversePermutation }

/-- What follows the two recursive calls: the halves of `[low, high)` in `src`
are sorted and go to `dest` from `destLow` on. -/
def mergeHalves (c : β → β → ℤ) (src dest : List β) (low mid high destLow : ℕ)
    (ps : Permutations) : Except Exn (List β × Permutations) := do
  let x ← arrayGet src ((mid : ℤ) - 1)
  let y ← arrayGet src mid
  if c x y ≤ 0 then do
    let dest ← arraycopy src low dest destLow (high - low : ℕ)
    return (dest, ps)
  else do
    let m ← (List.range' destLow (high - low)).foldlM
      (mergeStep c src mid high) ⟨dest, ps, low, mid⟩
    let ps ← (List.range' destLow (high - low)).foldlM reverseStep m.ps
    return (m.dest, ps)

def insertionSortThreshold : ℕ := 7

/-- The arrays of a call. -/
structure Arrays (β : Type) where
  src : List β
  dest : List β
  ps : Permutations

/-- `mergeSort(src, dest, low, high, off, c)`; `fuel` bounds the depth. -/
def mergeSort (c : β → β → ℤ) :
    ℕ → Arrays β → ℕ → ℕ → ℤ → Except Exn (Arrays β)
  | 0, _, _, _, _ => .error .stackOverflow
  | fuel + 1, a, destLow, destHigh, off =>
      if destHigh - destLow < insertionSortThreshold then do
        let s ← insertionSort c destLow destHigh a.dest a.ps
        return { a with dest := s.1, ps := s.2 }
      else do
        let low := ((destLow : ℤ) + off).toNat
        let high := ((destHigh : ℤ) + off).toNat
        let mid := (low + high) / 2
        let b ← mergeSort c fuel ⟨a.dest, a.src, a.ps⟩ low mid (-off)
        let b ← mergeSort c fuel b mid high (-off)
        let s ← mergeHalves c b.dest b.src low mid high destLow b.ps
        return ⟨b.dest, s.1, s.2⟩

def rangeCheck (arrayLen fromIndex toIndex : ℕ) : Except Exn Unit :=
  if toIndex < fromIndex then
    .error (.illegalArgument ("fromIndex(" ++ toString fromIndex ++
      ") > toIndex(" ++ toString toIndex ++ ")"))
  else if arrayLen < toIndex then .error .arrayIndexOutOfBounds
  else .ok ()

/-- `sort(a, fromIndex, toIndex, c)`: the array afterwards and the result. -/
def sort (a : List β) (fromIndex toIndex : ℕ) (c : β → β → ℤ) :
    Except Exn (List β × List ℕ) := do
  rangeCheck a.length fromIndex toIndex
  let s ← mergeSort c (toIndex - fromIndex + 1)
    ⟨slice fromIndex toIndex a, a, initPermutation a.length⟩
    fromIndex toIndex (-fromIndex)
  return (s.dest, slice fromIndex toIndex s.ps.permutation)

end SortHelper

end JavaFx.Collections
