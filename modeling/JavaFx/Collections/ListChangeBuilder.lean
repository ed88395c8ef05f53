import JavaFx.Java
import Mathlib.Data.List.Sort

/-!
# `javafx.collections.ListChangeBuilder`

The builder collects the notifications an observable list makes between
`beginChange` and the outermost `endChange` and fires them as one `Change`.

The two lists of sub-changes start as `null` in the source and are treated
there exactly as empty ones, so both are plain lists here. A sub-change's own
`removed` list is different: `null` and empty behave differently and are kept
apart. Positions are natural numbers; as long as the sub-changes are in order
none of the decrements below reaches zero. Lists and arrays are values: the
builder keeps the `perm` array it is handed, and every caller hands over a
freshly allocated one.
-/

namespace JavaFx.Collections

variable {α : Type}

structure SubChange (α : Type) where
  from_ : ℕ
  to_ : ℕ
  removed : Option (List α)
  perm : List ℕ
  updated : Bool
deriving DecidableEq, Repr

structure ListChangeBuilder (α : Type) where
  changeLock : ℕ := 0
  addRemoveChanges : List (SubChange α) := []
  updateChanges : List (SubChange α) := []
  permutationChange : Option (SubChange α) := none
deriving DecidableEq, Repr

/-! ## Searching and shifting -/

/-- The loop of `findSubChange`; `hi` is the source's `to + 1`. Each round
shrinks `[lo, hi)`, so the length of the list is enough fuel. -/
def findSubChangeLoop (idx : ℕ) (list : List (SubChange α)) :
    ℕ → ℕ → ℕ → ℤ
  | 0, lo, _ => .negSucc lo
  | fuel + 1, lo, hi =>
      if lo < hi then
        let changeIdx := (lo + (hi - 1)) / 2
        match list[changeIdx]? with
        | none => .negSucc lo
        | some change =>
            if change.to_ ≤ idx then
              findSubChangeLoop idx list fuel (changeIdx + 1) hi
            else if idx < change.from_ then
              findSubChangeLoop idx list fuel lo changeIdx
            else .ofNat changeIdx
      else .negSucc lo

/-- The index of the sub-change whose range holds `idx`, or `~i` (that is
`Int.negSucc i`) where `i` is the place for a new one. -/
def findSubChange (idx : ℕ) (list : List (SubChange α)) : ℤ :=
  findSubChangeLoop idx list list.length 0 list.length

/-- `for (int i = k; i < list.size(); ++i)` over the sub-changes. -/
def forFrom (k : ℕ) (f : SubChange α → SubChange α)
    (list : List (SubChange α)) : List (SubChange α) :=
  list.take k ++ (list.drop k).map f

/-- `change.from += n; change.to += n` -/
def SubChange.moveUp (n : ℕ) (c : SubChange α) : SubChange α :=
  { c with from_ := c.from_ + n, to_ := c.to_ + n }

/-- `change.from--; change.to--` -/
def SubChange.moveDown (c : SubChange α) : SubChange α :=
  { c with from_ := c.from_ - 1, to_ := c.to_ - 1 }

/-- `list.get(i)` followed by an update of that sub-change. -/
def changeAt (list : List (SubChange α)) (i : ℕ)
    (f : SubChange α → Except Exn (SubChange α)) :
    Except Exn (List (SubChange α)) :=
  match list[i]? with
  | none => .error .indexOutOfBounds
  | some c => do
      let c' ← f c
      return list.set i c'

/-- `change.removed.add(removed)` -/
def SubChange.addRemoved (x : α) (c : SubChange α) :
    Except Exn (SubChange α) :=
  match c.removed with
  | none => .error .nullPointer
  | some r => .ok { c with removed := some (r ++ [x]) }

/-- `change.removed.add(0, removed)` -/
def SubChange.addRemovedFirst (x : α) (c : SubChange α) :
    Except Exn (SubChange α) :=
  match c.removed with
  | none => .error .nullPointer
  | some r => .ok { c with removed := some (x :: r) }

/-- `idx > 0 && list.get(idx - 1).to == pos` -/
def endsBefore (list : List (SubChange α)) (idx pos : ℕ) : Bool :=
  0 < idx && (list[idx - 1]?.map SubChange.to_) == some pos

/-- `idx < list.size() && list.get(idx).from == pos` -/
def startsAt (list : List (SubChange α)) (idx pos : ℕ) : Bool :=
  (list[idx]?.map SubChange.from_) == some pos

/-! ## Updates, removals and additions -/

def insertUpdate (pos : ℕ) (updateChanges : List (SubChange α)) :
    List (SubChange α) :=
  match findSubChange pos updateChanges with
  | .ofNat _ => updateChanges
  | .negSucc idx =>
      if endsBefore updateChanges idx pos then
        updateChanges.modify (idx - 1) fun c => { c with to_ := pos + 1 }
      else if startsAt updateChanges idx (pos + 1) then
        updateChanges.modify idx fun c => { c with from_ := pos }
      else updateChanges.insertIdx idx ⟨pos, pos + 1, none, [], true⟩

def insertRemoved (pos : ℕ) (removed : α) (changes : List (SubChange α)) :
    Except Exn (List (SubChange α)) :=
  match findSubChange pos changes with
  | .negSucc idx =>
      if endsBefore changes idx pos then do
        let cs ← changeAt changes (idx - 1) (·.addRemoved removed)
        return forFrom idx SubChange.moveDown cs
      else if startsAt changes idx (pos + 1) then do
        let cs ← changeAt changes idx (·.moveDown.addRemovedFirst removed)
        return forFrom (idx + 1) SubChange.moveDown cs
      else
        let cs := changes.insertIdx idx ⟨pos, pos, some [removed], [], false⟩
        return forFrom (idx + 1) SubChange.moveDown cs
  | .ofNat idx =>
      match changes[idx]? with
      | none => .error .indexOutOfBounds
      | some c =>
          let change := { c with to_ := c.to_ - 1 }
          -- `from == to && removed == null || removed.isEmpty()`: the `||`
          -- binds last, so an empty list alone drops the sub-change
          if change.from_ = change.to_ ∧ change.removed = none then
            return forFrom (idx + 1) SubChange.moveDown (changes.eraseIdx idx)
          else
            match change.removed with
            | none => .error .nullPointer
            | some r =>
                if r.isEmpty then
                  return forFrom (idx + 1) SubChange.moveDown
                    (changes.eraseIdx idx)
                else
                  return forFrom (idx + 1) SubChange.moveDown
                    (changes.set idx change)

def insertAdd (from_ to_ : ℕ) (changes : List (SubChange α)) :
    List (SubChange α) :=
  let numberOfAdded := to_ - from_
  match findSubChange from_ changes with
  | .negSucc idx =>
      if endsBefore changes idx from_ then
        forFrom idx (SubChange.moveUp numberOfAdded)
          (changes.modify (idx - 1) fun c => { c with to_ := to_ })
      else
        forFrom (idx + 1) (SubChange.moveUp numberOfAdded)
          (changes.insertIdx idx ⟨from_, to_, some [], [], false⟩)
  | .ofNat idx =>
      forFrom (idx + 1) (SubChange.moveUp numberOfAdded)
        (changes.modify idx fun c => { c with to_ := c.to_ + numberOfAdded })

/-- The part of `nextRemove` that shifts the recorded updates. -/
def removeFromUpdates (idx : ℕ) (updateChanges : List (SubChange α)) :
    List (SubChange α) :=
  match findSubChange idx updateChanges with
  | .negSucc uPos => forFrom uPos SubChange.moveDown updateChanges
  | .ofNat uPos =>
      match updateChanges[uPos]? with
      | none => updateChanges
      | some change =>
          if change.from_ = change.to_ - 1 then
            forFrom uPos SubChange.moveDown (updateChanges.eraseIdx uPos)
          else
            forFrom (uPos + 1) SubChange.moveDown
              (updateChanges.set uPos { change with to_ := change.to_ - 1 })

/-- The part of `nextAdd` that splits and shifts the recorded updates. -/
def addToUpdates (from_ to_ : ℕ) (updateChanges : List (SubChange α)) :
    List (SubChange α) :=
  match findSubChange from_ updateChanges with
  | .negSucc uPos => forFrom uPos (SubChange.moveUp (to_ - from_)) updateChanges
  | .ofNat uPos =>
      match updateChanges[uPos]? with
      | none => updateChanges
      | some change =>
          forFrom (uPos + 2) (SubChange.moveUp (to_ - from_))
            ((updateChanges.insertIdx (uPos + 1)
              ⟨to_, change.to_ + to_ - from_, none, [], true⟩).set uPos
                { change with to_ := from_ })

namespace ListChangeBuilder

def checkState (b : ListChangeBuilder α) : Except Exn Unit :=
  if b.changeLock = 0 then
    .error (.illegalState "beginChange was not called on this builder")
  else .ok ()

/-- The sub-changes after `nextRemove(idx, removed)`, with the two fast paths
on the last sub-change. -/
def removeChange (idx : ℕ) (removed : α) (changes : List (SubChange α)) :
    Except Exn (List (SubChange α)) :=
  match changes.getLast? with
  | none => insertRemoved idx removed changes
  | some last =>
      if last.to_ = idx then
        changeAt changes (changes.length - 1) (·.addRemoved removed)
      else if last.from_ = idx + 1 then
        changeAt changes (changes.length - 1)
          (·.moveDown.addRemovedFirst removed)
      else insertRemoved idx removed changes

/-- `nextRemove(int idx, E removed)` -/
def nextRemove (b : ListChangeBuilder α) (idx : ℕ) (removed : α) :
    Except Exn (ListChangeBuilder α) := do
  b.checkState
  let changes ← removeChange idx removed b.addRemoveChanges
  return { b with
    addRemoveChanges := changes
    updateChanges := removeFromUpdates idx b.updateChanges }

/-- `nextRemove(int idx, List<? extends E> removed)` -/
def nextRemoveAll (b : ListChangeBuilder α) (idx : ℕ) (removed : List α) :
    Except Exn (ListChangeBuilder α) := do
  b.checkState
  removed.foldlM (fun b x => b.nextRemove idx x) b

/-- The sub-changes after `nextAdd(from, to)`. -/
def addChange (from_ to_ : ℕ) (changes : List (SubChange α)) :
    List (SubChange α) :=
  match changes.getLast? with
  | none => insertAdd from_ to_ changes
  | some last =>
      if last.to_ = from_ then
        changes.set (changes.length - 1) { last with to_ := to_ }
      else if last.from_ ≤ from_ ∧ from_ < last.to_ then
        changes.set (changes.length - 1)
          { last with to_ := last.to_ + (to_ - from_) }
      else insertAdd from_ to_ changes

def nextAdd (b : ListChangeBuilder α) (from_ to_ : ℕ) :
    Except Exn (ListChangeBuilder α) := do
  b.checkState
  return { b with
    addRemoveChanges := addChange from_ to_ b.addRemoveChanges
    updateChanges := addToUpdates from_ to_ b.updateChanges }

def nextReplace (b : ListChangeBuilder α) (from_ to_ : ℕ) (removed : List α) :
    Except Exn (ListChangeBuilder α) := do
  let b ← b.nextRemoveAll from_ removed
  b.nextAdd from_ to_

def nextSet (b : ListChangeBuilder α) (idx : ℕ) (old : α) :
    Except Exn (ListChangeBuilder α) := do
  let b ← b.nextRemove idx old
  b.nextAdd idx (idx + 1)

def nextUpdate (b : ListChangeBuilder α) (idx : ℕ) :
    Except Exn (ListChangeBuilder α) := do
  b.checkState
  let updateChanges :=
    match b.updateChanges.getLast? with
    | none => insertUpdate idx b.updateChanges
    | some last =>
        if last.to_ = idx then
          b.updateChanges.set (b.updateChanges.length - 1)
            { last with to_ := idx + 1 }
        else insertUpdate idx b.updateChanges
  return { b with updateChanges := updateChanges }

end ListChangeBuilder

/-! ## Permutations -/

/-- `j < from || j >= to ? j : perm[j - from]` -/
def permutedIndex (from_ to_ : ℕ) (perm : List ℕ) (j : ℕ) : Except Exn ℕ :=
  if j < from_ ∨ to_ ≤ j then .ok j else arrayGet perm ((j : ℤ) - from_)

/-- The local variables of the loop over the sub-changes in the first half of
`nextPermutation`. An entry `-1` of `mapToOriginal` marks an added element. -/
structure MapState where
  mapToOriginal : List ℤ
  removed : List ℤ
  last : ℕ
  offset : ℤ
deriving DecidableEq, Repr

/-- `for (int j = lo; j < hi; ++j) mapToOriginal[...] = value(j)` -/
def mapRange (from_ to_ : ℕ) (perm : List ℕ) (lo hi : ℕ) (value : ℕ → ℤ)
    (mapToOriginal : List ℤ) : Except Exn (List ℤ) :=
  (List.range' lo (hi - lo)).foldlM (fun m j => do
    let p ← permutedIndex from_ to_ perm j
    arraySet m p (value j)) mapToOriginal

/-- `change.removed != null ? change.removed.size() : 0` -/
def SubChange.removedSize (c : SubChange α) : ℕ :=
  (c.removed.getD []).length

def mapChange (from_ to_ : ℕ) (perm : List ℕ) (s : MapState)
    (change : SubChange α) : Except Exn MapState := do
  let m ← mapRange from_ to_ perm s.last change.from_
    (fun j : ℕ => (j : ℤ) + s.offset) s.mapToOriginal
  let m ← mapRange from_ to_ perm change.from_ change.to_ (fun _ => -1) m
  return {
    mapToOriginal := m
    removed := s.removed ++ (List.range change.removedSize).map
      fun k : ℕ => (change.from_ : ℤ) + s.offset + k
    last := change.to_
    offset := s.offset +
      ((change.removedSize : ℤ) - ((change.to_ : ℤ) - change.from_)) }

/-- `while (mapToOriginal[mapPtr] == -1) mapPtr++` -/
def skipAdded (mapToOriginal : List ℤ) (mapPtr : ℕ) : Except Exn ℕ :=
  match (mapToOriginal.drop mapPtr).findIdx? (· ≠ -1) with
  | some k => .ok (mapPtr + k)
  | none => .error .arrayIndexOutOfBounds

/-- One round of the loop that fills `newPerm`. -/
def fillPerm (mapToOriginal removed : List ℤ) (s : List ℕ × ℕ) (i : ℕ) :
    Except Exn (List ℕ × ℕ) :=
  if (i : ℤ) ∈ removed then do
    let p ← arraySet s.1 i i
    return (p, s.2)
  else do
    let mapPtr ← skipAdded mapToOriginal s.2
    let orig ← arrayGet mapToOriginal mapPtr
    let p ← arraySet s.1 orig i
    return (p, mapPtr + 1)

/-- The first half of `nextPermutation`: the permutation of the original list
that corresponds to `perm` on the current one. -/
def reconstruct (size from_ to_ : ℕ) (perm : List ℕ)
    (changes : List (SubChange α)) : Except Exn (List ℕ) := do
  let s ← changes.foldlM (mapChange from_ to_ perm)
    ⟨List.replicate size 0, [], 0, 0⟩
  let m ← mapRange from_ to_ perm s.last size
    (fun i : ℕ => (i : ℤ) + s.offset)
    s.mapToOriginal
  let length := (size : ℤ) + s.offset
  if length < 0 then .error .negativeArraySize
  else do
    let (newPerm, _) ← (List.range length.toNat).foldlM
      (fillPerm m s.removed) (List.replicate length.toNat 0, 0)
    return newPerm

/-- Composition of the recorded permutation with a new one. -/
def mergePermutation (old : SubChange α) (prePermFrom prePermTo : ℕ)
    (prePerm : List ℕ) : Except Exn (SubChange α) :=
  if prePermFrom = old.from_ ∧ prePermTo = old.to_ then do
    let perm ← (List.range prePerm.length).foldlM (fun (perm : List ℕ) (i : ℕ) => do
      let p ← arrayGet perm i
      let q ← arrayGet prePerm ((p : ℤ) - prePermFrom)
      arraySet perm i q) old.perm
    return { old with perm := perm }
  else do
    let newTo := max old.to_ prePermTo
    let newFrom := min old.from_ prePermFrom
    let newPerm ← (List.range' newFrom (newTo - newFrom)).mapM fun (i : ℕ) =>
      if i < old.from_ ∨ old.to_ ≤ i then
        arrayGet prePerm ((i : ℤ) - prePermFrom)
      else do
        let p ← arrayGet old.perm ((i : ℤ) - old.from_)
        if p < prePermFrom ∨ prePermTo ≤ p then return p
        else arrayGet prePerm ((p : ℤ) - prePermFrom)
    return { old with from_ := newFrom, to_ := newTo, perm := newPerm }

/-- `HashMap.put` -/
def mapPut {β : Type} (m : List (ℕ × β)) (k : ℕ) (v : β) : List (ℕ × β) :=
  m.filter (fun e => e.1 ≠ k) ++ [(k, v)]

/-- The positions of the range of `change` after the permutation. -/
def permutedRange (from_ to_ : ℕ) (perm : List ℕ) (change : SubChange α) :
    Except Exn (List ℕ) :=
  (List.range' change.from_ (change.to_ - change.from_)).mapM
    (permutedIndex from_ to_ perm)

/-- The iteration order of a `TreeSet` built from the elements of `l`. -/
def treeSet (l : List ℕ) : List ℕ := l.dedup.insertionSort (· ≤ ·)

/-- Position `i` extends the last run or opens a new one. -/
def growRun (updated : Bool) (changes : List (SubChange α)) (i : ℕ) :
    List (SubChange α) :=
  match changes.getLast? with
  | none => changes ++ [⟨i, i + 1, none, [], updated⟩]
  | some last =>
      if last.to_ = i then
        changes.set (changes.length - 1) { last with to_ := i + 1 }
      else changes ++ [⟨i, i + 1, none, [], updated⟩]

/-- The last run takes the removed elements that moved to `i`. -/
def attachRemoved (i : ℕ) (s : List (SubChange α) × List (ℕ × List α)) :
    List (SubChange α) × List (ℕ × List α) :=
  match s.2.lookup i with
  | none => s
  | some removed =>
      (s.1.modify (s.1.length - 1) fun c =>
          { c with removed := some (c.removed.getD [] ++ removed) },
        s.2.filter (fun e => e.1 ≠ i))

/-- One round of `for (Integer i : newAdded)`. -/
def addRun (s : List (SubChange α) × List (ℕ × List α)) (i : ℕ) :
    List (SubChange α) × List (ℕ × List α) :=
  attachRemoved i (growRun false s.1 i, s.2)

/-- One round of the loop over the removals that hit no added element. -/
def addStandalone (changes : List (SubChange α)) (e : ℕ × List α) :
    Except Exn (List (SubChange α)) :=
  match findSubChange e.1 changes with
  | .ofNat _ => .error .assertion
  | .negSucc idx =>
      .ok (changes.insertIdx idx ⟨e.1, e.1, some e.2, [], false⟩)

/-- `newRemoved.put(…, change.removed)`, for a list that is not `null`. -/
def putRemoved (from_ to_ : ℕ) (perm : List ℕ) (m : List (ℕ × List α))
    (change : SubChange α) : Except Exn (List (ℕ × List α)) :=
  match change.removed with
  | none => .ok m
  | some r => do
      let at_ ← permutedIndex from_ to_ perm change.from_
      return mapPut m at_ r

/-- The second half of `nextPermutation`: added and removed runs move with the
elements they start at. -/
def rehome (from_ to_ : ℕ) (perm : List ℕ) (changes : List (SubChange α)) :
    Except Exn (List (SubChange α)) := do
  let added ← changes.mapM (permutedRange from_ to_ perm)
  let newRemoved ← changes.foldlM (putRemoved from_ to_ perm) []
  let (runs, rest) := (treeSet added.flatten).foldl addRun ([], newRemoved)
  rest.foldlM addStandalone runs

/-- The updated runs after a permutation. -/
def rehomeUpdates (from_ to_ : ℕ) (perm : List ℕ)
    (changes : List (SubChange α)) : Except Exn (List (SubChange α)) := do
  let updated ← changes.mapM (permutedRange from_ to_ perm)
  return (treeSet updated.flatten).foldl (growRun true) []

/-- `prePermFrom`, `prePermTo` and `prePerm`: the range and the permutation of
the original list. -/
def originalPermutation (size from_ to_ : ℕ) (perm : List ℕ)
    (changes : List (SubChange α)) : Except Exn (ℕ × ℕ × List ℕ) :=
  if changes.isEmpty then .ok (from_, to_, perm)
  else do
    let newPerm ← reconstruct size from_ to_ perm changes
    return (0, newPerm.length, newPerm)

/-- The new `permutationChange`. -/
def recordPermutation (permutationChange : Option (SubChange α))
    (prePermFrom prePermTo : ℕ) (prePerm : List ℕ) :
    Except Exn (SubChange α) :=
  match permutationChange with
  | some old => mergePermutation old prePermFrom prePermTo prePerm
  | none => .ok ⟨prePermFrom, prePermTo, none, prePerm, false⟩

/-- `if (changes != null && !changes.isEmpty())` -/
def ifAny (changes : List (SubChange α))
    (f : List (SubChange α) → Except Exn (List (SubChange α))) :
    Except Exn (List (SubChange α)) :=
  if changes.isEmpty then .ok changes else f changes

/-- `nextPermutation(from, to, perm)`; `size` is `list.size()`. -/
def ListChangeBuilder.nextPermutation (b : ListChangeBuilder α)
    (size from_ to_ : ℕ) (perm : List ℕ) : Except Exn (ListChangeBuilder α) := do
  b.checkState
  let (prePermFrom, prePermTo, prePerm) ←
    originalPermutation size from_ to_ perm b.addRemoveChanges
  let permutationChange ←
    recordPermutation b.permutationChange prePermFrom prePermTo prePerm
  let addRemoveChanges ← ifAny b.addRemoveChanges (rehome from_ to_ perm)
  let updateChanges ← ifAny b.updateChanges (rehomeUpdates from_ to_ perm)
  return { b with
    addRemoveChanges := addRemoveChanges
    updateChanges := updateChanges
    permutationChange := some permutationChange }

/-! ## Firing -/

/-- `prev.removed` after `compress` has merged `cur` into `prev`. -/
def mergeRemoved : Option (List α) → Option (List α) →
    Except Exn (Option (List α))
  | none, none => .ok none
  | none, some c => .ok (some c)
  | some p, some c => .ok (some (p ++ c))
  | some _, none => .error .nullPointer

/-- The loop of `compress`, started at `prev`; the entries it sets to `null`
are left out of the result. -/
def compressFrom (prev : SubChange α) :
    List (SubChange α) → Except Exn (List (SubChange α))
  | [] => .ok [prev]
  | cur :: rest =>
      if prev.to_ = cur.from_ then do
        let removed ← mergeRemoved prev.removed cur.removed
        compressFrom { prev with to_ := cur.to_, removed := removed } rest
      else do
        let tail ← compressFrom cur rest
        return prev :: tail

def compress : List (SubChange α) → Except Exn (List (SubChange α))
  | [] => .ok []
  | prev :: rest => compressFrom prev rest

def finalizeSubChange (c : SubChange α) : SubChange α :=
  { c with removed := some (c.removed.getD []) }

namespace ListChangeBuilder

/-- The sub-changes of the fired `Change`, or `none` when nothing is fired. -/
def commit (b : ListChangeBuilder α) :
    Except Exn (ListChangeBuilder α × Option (List (SubChange α))) :=
  let total := b.updateChanges.length + b.addRemoveChanges.length +
    b.permutationChange.toList.length
  if b.changeLock = 0 ∧ total ≠ 0 then
    if total = 1 then
      .ok ({ changeLock := 0 },
        some ((b.permutationChange.toList ++ b.addRemoveChanges ++
          b.updateChanges).map finalizeSubChange))
    else do
      let updates ← compress b.updateChanges
      let addRemoves ← compress b.addRemoveChanges
      return ({ changeLock := 0 },
        some ((b.permutationChange.toList ++ addRemoves ++ updates).map
          finalizeSubChange))
  else .ok (b, none)

def beginChange (b : ListChangeBuilder α) : ListChangeBuilder α :=
  { b with changeLock := b.changeLock + 1 }

def endChange (b : ListChangeBuilder α) :
    Except Exn (ListChangeBuilder α × Option (List (SubChange α))) :=
  if b.changeLock = 0 then
    .error (.illegalState "Called endChange before beginChange")
  else commit { b with changeLock := b.changeLock - 1 }

end ListChangeBuilder

end JavaFx.Collections
