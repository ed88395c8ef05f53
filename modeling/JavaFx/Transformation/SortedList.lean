import JavaFx.Collections.Replay
import JavaFx.Collections.SortHelper

/-!
# `javafx.collections.transformation.SortedList`

The list keeps an array of `Element` records, each with an element of the source
and its index there. With a comparator the records are sorted and every change
of the source renumbers them; without one `updateUnsorted` moves the records as
the source moves its elements and leaves their indexes alone.

Methods that throw hand on the state the list is left in. The elements are
references; the comparator, which reads the state of the elements, is a
parameter of each call.
-/

namespace JavaFx.Transformation

open JavaFx.Collections Splice

variable {α : Type}

structure Element (α : Type) where
  e : α
  index : ℕ
deriving DecidableEq, Repr

structure SortedList (α : Type) where
  sorted : List (Option (Element α))
  size : ℕ
  builder : ListChangeBuilder α := {}
deriving DecidableEq, Repr

/-- An exception thrown by a method, with the object as it is then. -/
def throwing {σ β : Type} (s : σ) (x : Except Exn β) : Except (σ × Exn) β :=
  match x with
  | .ok b => .ok b
  | .error e => .error (s, e)

/-- `getAddedSize()` -/
def getAddedSize (c : SubChange α) : ℕ := if c.wasAdded then c.to_ - c.from_ else 0

/-- `getPermutation(i)` -/
def getPermutation (c : SubChange α) (i : ℕ) : Except Exn ℕ :=
  if c.wasPermutated then arrayGet c.perm ((i : ℤ) - c.from_)
  else .error (.illegalState "Not a permutation change")

namespace SortedList

/-- `new SortedList(source)` -/
def new (source : List α) : SortedList α where
  sorted := (source.zipIdx.map fun p => some ⟨p.1, p.2⟩) ++
    List.replicate (source.length * 3 / 2 + 1 - source.length) none
  size := source.length

def get (s : SortedList α) (index : ℕ) : Except Exn α :=
  if s.size ≤ index then .error .indexOutOfBounds
  else do
    let x ← arrayDeref s.sorted index
    return x.e

def getSourceIndex (s : SortedList α) (index : ℕ) : Except Exn ℕ := do
  let x ← arrayDeref s.sorted index
  return x.index

/-- `ensureSize(size)` -/
def ensureSize (size : ℕ) (s : SortedList α) : Except Exn (SortedList α) :=
  if s.sorted.length < size then do
    let replacement ← arraycopy s.sorted 0
      (List.replicate (size * 3 / 2 + 1) none) 0 s.size
    return { s with sorted := replacement }
  else .ok s

/-! ## Without a comparator -/

/-- One round of the loop that fills `sortedTmp`. -/
def permuteStep (c : SubChange α) (sorted : List (Option (Element α)))
    (sortedTmp : List (Option (Element α))) (i : ℕ) :
    Except Exn (List (Option (Element α))) := do
  let x ← arrayGet sorted i
  if c.from_ ≤ i ∧ i < c.to_ then do
    let p ← getPermutation c i
    arraySet sortedTmp p x
  else arraySet sortedTmp i x

/-- The branch of `updateUnsorted` on `wasPermutated()`. -/
def permuteUnsorted (c : SubChange α) (s : SortedList α) :
    Except Exn (SortedList α) :=
  if c.wasPermutated then do
    let sortedTmp ← (List.range s.size).foldlM (permuteStep c s.sorted)
      (List.replicate s.sorted.length none)
    return { s with sorted := sortedTmp }
  else .ok s

/-- The branch of `updateUnsorted` on `wasRemoved()`. -/
def removeUnsorted (c : SubChange α) (s : SortedList α) :
    Except Exn (SortedList α) :=
  if c.wasRemoved then do
    let sorted ← arraycopy s.sorted (c.from_ + c.getRemovedSize : ℕ) s.sorted
      c.from_ ((s.size : ℤ) - (c.from_ + c.getRemovedSize : ℕ))
    return { s with sorted := sorted, size := s.size - c.getRemovedSize }
  else .ok s

/-- `sorted[i] = new Element<E>(c.getList().get(i), i)` -/
def putElement (list : List α) (sorted : List (Option (Element α))) (i : ℕ) :
    Except Exn (List (Option (Element α))) := do
  let e ← listGet list i
  arraySet sorted i (some ⟨e, i⟩)

/-- The branch of `updateUnsorted` on `wasAdded()`. -/
def addUnsorted (list : List α) (c : SubChange α) (s : SortedList α) :
    Except Exn (SortedList α) :=
  if c.wasAdded then do
    let s ← s.ensureSize (s.size + getAddedSize c)
    let sorted ← arraycopy s.sorted c.from_ s.sorted c.to_
      ((s.size : ℤ) - c.from_)
    let sorted ← (List.range' c.from_ (c.to_ - c.from_)).foldlM
      (putElement list) sorted
    return { s with sorted := sorted, size := s.size + getAddedSize c }
  else .ok s

def updateUnsortedStep (list : List α) (s : SortedList α) (c : SubChange α) :
    Except Exn (SortedList α) := do
  let s ← s.permuteUnsorted c
  let s ← s.removeUnsorted c
  s.addUnsorted list c

def updateUnsorted (change : DocumentedChange α) (s : SortedList α) :
    Except Exn (SortedList α) :=
  change.changes.foldlM (updateUnsortedStep change.list) s

/-! ## With a comparator -/

/-- `ElementComparator.compare`. The callers below see to it that no record is
`null`, where the source would throw. -/
def elementCompare (compare : α → α → ℤ) :
    Option (Element α) → Option (Element α) → ℤ
  | some x, some y => compare x.e y.e
  | _, _ => 0

/-- A call of the builder, which is left alone if the call throws. -/
def onBuilder (s : SortedList α)
    (f : ListChangeBuilder α → Except Exn (ListChangeBuilder α)) :
    Except (SortedList α × Exn) (SortedList α) := do
  let builder ← throwing s (f s.builder)
  return { s with builder := builder }

/-- `sorted[i].index = f(sorted[i].index)` -/
def reindexStep (f : ℕ → Except Exn ℕ) (s : SortedList α) (i : ℕ) :
    Except (SortedList α × Exn) (SortedList α) := do
  let x ← throwing s (arrayDeref s.sorted i)
  let index ← throwing s (f x.index)
  let sorted ← throwing s (arraySet s.sorted i (some { x with index := index }))
  return { s with sorted := sorted }

def updatePermutationIndexes (c : SubChange α) (s : SortedList α) :
    Except (SortedList α × Exn) (SortedList α) :=
  (List.range s.size).foldlM (reindexStep (getPermutation c)) s

/-- `if (index >= from) index += difference` -/
def shiftIndex (from_ : ℕ) (difference : ℤ) (index : ℕ) : ℕ :=
  if from_ ≤ index then ((index : ℤ) + difference).toNat else index

def updateIndices (from_ : ℕ) (difference : ℤ) (s : SortedList α) :
    Except (SortedList α × Exn) (SortedList α) :=
  (List.range s.size).foldlM
    (reindexStep fun index => .ok (shiftIndex from_ difference index)) s

/-- The loop of `Arrays.binarySearch`; `hi` is the source's `high + 1`. -/
def binarySearchLoop (compare : α → α → ℤ) (sorted : List (Option (Element α)))
    (e : α) : ℕ → ℕ → ℕ → Except Exn ℤ
  | 0, lo, _ => .ok (.negSucc lo)
  | fuel + 1, lo, hi =>
      if lo < hi then do
        let mid := (lo + (hi - 1)) / 2
        let x ← arrayDeref sorted mid
        if compare x.e e < 0 then
          binarySearchLoop compare sorted e fuel (mid + 1) hi
        else if 0 < compare x.e e then
          binarySearchLoop compare sorted e fuel lo mid
        else .ok mid
      else .ok (.negSucc lo)

/-- `findPosition(E e)` -/
def findPosition (compare : α → α → ℤ) (e : α) (s : SortedList α) :
    Except Exn ℤ :=
  if s.sorted.length = 0 then .ok 0
  else binarySearchLoop compare s.sorted e s.size 0 s.size

/-- `while (tmp != 0 && sorted[--tmp].index != idx && compare(..) == 0);` -/
def scanLeft (compare : α → α → ℤ) (sorted : List (Option (Element α))) (idx : ℕ)
    (e : α) : ℕ → Except Exn ℕ
  | 0 => .ok 0
  | tmp + 1 => do
      let x ← arrayDeref sorted tmp
      if x.index ≠ idx ∧ compare x.e e = 0 then
        scanLeft compare sorted idx e tmp
      else .ok tmp

/-- `while (tmp != (size - 1) && sorted[++tmp].index != idx && ..);` with
`size - 1 - tmp` as the first argument. -/
def scanRight (compare : α → α → ℤ) (sorted : List (Option (Element α))) (idx : ℕ)
    (e : α) : ℕ → ℕ → Except Exn ℕ
  | 0, tmp => .ok tmp
  | n + 1, tmp => do
      let x ← arrayDeref sorted (tmp + 1 : ℕ)
      if x.index ≠ idx ∧ compare x.e e = 0 then
        scanRight compare sorted idx e n (tmp + 1)
      else .ok (tmp + 1)

/-- The two scans of `findPosition(int idx, E e)` from `pos` on. -/
def scanFrom (compare : α → α → ℤ) (idx : ℕ) (e : α) (s : SortedList α)
    (pos : ℕ) : Except Exn ℤ := do
  let tmp ← scanLeft compare s.sorted idx e pos
  let x ← arrayDeref s.sorted tmp
  if x.index = idx then .ok tmp
  else do
    let tmp ← scanRight compare s.sorted idx e (s.size - 1 - pos) pos
    let x ← arrayDeref s.sorted tmp
    if x.index = idx then .ok tmp else .ok (-1)

/-- `findPosition(int idx, E e)` -/
def findPositionOf (compare : α → α → ℤ) (idx : ℕ) (e : α) (s : SortedList α) :
    Except Exn ℤ := do
  let pos ← s.findPosition compare e
  let x ← arrayDeref s.sorted pos
  if x.index = idx then .ok pos else s.scanFrom compare idx e pos.toNat

/-- `if (pos < 0) pos = ~pos` -/
def insertionPoint : ℤ → ℕ
  | .ofNat pos => pos
  | .negSucc pos => pos

def insertToMapping (compare : α → α → ℤ) (e : α) (idx : ℕ) (s : SortedList α) :
    Except (SortedList α × Exn) (SortedList α) := do
  let found ← throwing s (s.findPosition compare e)
  let pos := insertionPoint found
  let s ← throwing s (s.ensureSize (s.size + 1))
  let s ← s.updateIndices idx 1
  let sorted ← throwing s
    (arraycopy s.sorted pos s.sorted (pos + 1) ((s.size : ℤ) - pos))
  let sorted ← throwing { s with sorted := sorted }
    (arraySet sorted pos (some ⟨e, idx⟩))
  onBuilder { s with sorted := sorted, size := s.size + 1 } (·.nextAdd pos (pos + 1))

def putElementStep (list : List α) (s : SortedList α) (i : ℕ) :
    Except (SortedList α × Exn) (SortedList α) := do
  let sorted ← throwing s (putElement list s.sorted i)
  return { s with sorted := sorted }

/-- `Arrays.sort(sorted, 0, size, elementComparator)`, which is stable. -/
def sortElements (compare : α → α → ℤ) (s : SortedList α) :
    Except Exn (SortedList α) := do
  let records ← (List.range s.size).mapM (arrayDeref s.sorted ·)
  let records := records.mergeSort fun x y => compare x.e y.e ≤ 0
  return { s with sorted := records.map some ++ s.sorted.drop s.size }

def setAllToMapping (compare : α → α → ℤ) (list : List α) (to_ : ℕ)
    (s : SortedList α) : Except (SortedList α × Exn) (SortedList α) := do
  let s ← throwing s (s.ensureSize to_)
  let s ← (List.range to_).foldlM (putElementStep list) { s with size := to_ }
  let s ← throwing s (s.sortElements compare)
  onBuilder s (·.nextAdd 0 s.size)

def removeFromMapping (compare : α → α → ℤ) (idx : ℕ) (e : α)
    (s : SortedList α) : Except (SortedList α × Exn) (SortedList α) := do
  let pos ← throwing s (s.findPositionOf compare idx e)
  let sorted ← throwing s
    (arraycopy s.sorted (pos + 1) s.sorted pos ((s.size : ℤ) - pos - 1))
  let s := { s with sorted := sorted, size := s.size - 1 }
  let sorted ← throwing s (arraySet s.sorted s.size none)
  let s ← { s with sorted := sorted }.updateIndices (idx + 1) (-1)
  onBuilder s (·.nextRemove pos.toNat e)

def removeAllFromMapping (s : SortedList α) :
    Except (SortedList α × Exn) (SortedList α) := do
  let removed ← throwing s ((List.range s.size).mapM s.get)
  let sorted := List.replicate s.size none ++ s.sorted.drop s.size
  onBuilder { s with sorted := sorted, size := 0 } (·.nextRemoveAll 0 removed)

/-- `helper.sort(sorted, 0, size, elementComparator)` -/
def helperSort (compare : α → α → ℤ) (s : SortedList α) :
    Except Exn (SortedList α × List ℕ) := do
  let _ ← (List.range s.size).mapM (arrayDeref s.sorted ·)
  let r ← SortHelper.sort s.sorted 0 s.size (elementCompare compare)
  return ({ s with sorted := r.1 }, r.2)

def nextUpdateStep (compare : α → α → ℤ) (list : List α) (s : SortedList α)
    (i : ℕ) : Except (SortedList α × Exn) (SortedList α) := do
  let e ← throwing s (listGet list i)
  let pos ← throwing s (s.findPositionOf compare i e)
  onBuilder s (·.nextUpdate pos.toNat)

def update (compare : α → α → ℤ) (list : List α) (c : SubChange α)
    (s : SortedList α) : Except (SortedList α × Exn) (SortedList α) := do
  let r ← throwing s (s.helperSort compare)
  let s ← onBuilder r.1 (·.nextPermutation r.1.size 0 r.1.size r.2)
  (List.range' c.from_ (c.to_ - c.from_)).foldlM (nextUpdateStep compare list) s

/-- The removals of `addRemove(c)`. -/
def removeOld (compare : α → α → ℤ) (c : SubChange α) (s : SortedList α) :
    Except (SortedList α × Exn) (SortedList α) :=
  if c.from_ = 0 ∧ c.getRemovedSize = s.size then s.removeAllFromMapping
  else c.getRemoved.foldlM (fun s e => s.removeFromMapping compare c.from_ e) s

def insertStep (compare : α → α → ℤ) (list : List α) (s : SortedList α)
    (i : ℕ) : Except (SortedList α × Exn) (SortedList α) := do
  let e ← throwing s (listGet list i)
  s.insertToMapping compare e i

/-- The insertions of `addRemove(c)`. -/
def insertNew (compare : α → α → ℤ) (list : List α) (c : SubChange α)
    (s : SortedList α) : Except (SortedList α × Exn) (SortedList α) :=
  if s.size = 0 then s.setAllToMapping compare list c.to_
  else (List.range' c.from_ (c.to_ - c.from_)).foldlM (insertStep compare list) s

def addRemove (compare : α → α → ℤ) (list : List α) (c : SubChange α)
    (s : SortedList α) : Except (SortedList α × Exn) (SortedList α) := do
  let s ← s.removeOld compare c
  s.insertNew compare list c

/-- The body of the loop of `sourceChanged`. -/
def sourceSubChanged (compare : α → α → ℤ) (list : List α) (s : SortedList α)
    (c : SubChange α) : Except (SortedList α × Exn) (SortedList α) :=
  if c.wasPermutated then s.updatePermutationIndexes c
  else if c.updated then s.update compare list c
  else s.addRemove compare list c

/-- `endChange()` -/
def endChange (s : SortedList α) : Except (SortedList α × Exn) (SortedList α) := do
  let r ← throwing s s.builder.endChange
  return { s with builder := r.1 }

/-- `sourceChanged(c)` -/
def sourceChanged (comparator : Option (α → α → ℤ)) (change : DocumentedChange α)
    (s : SortedList α) : Except (SortedList α × Exn) (SortedList α) :=
  match comparator with
  | some compare => do
      let s ← change.changes.foldlM (sourceSubChanged compare change.list)
        { s with builder := s.builder.beginChange }
      s.endChange
  | none => throwing s (s.updateUnsorted change)

end SortedList

end JavaFx.Transformation
