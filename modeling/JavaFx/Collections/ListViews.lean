import JavaFx.Java

/-!
# Lists with sub-lists and iterators

The documented behaviour of `java.util.List` and of `ObservableList` on top of it: a
method of a list or of one of its sub-lists does something to the elements of its
window, and the views that have not made a structural change themselves are then no
longer to be used and fail fast. An iterator has a cursor and the position of the
element it returned last.
-/

namespace JavaFx.Collections

/-- What a call returns. -/
inductive Reply (α : Type) where
  | void
  | bool (b : Bool)
  | int (i : ℤ)
  | element (a : α)
  | elements (l : List α)
  | subList (id : ℕ)
  | iterator (id : ℕ)
deriving DecidableEq, Repr

/-- The methods of `List`. A collection that is only asked for its elements is the
predicate `contains`. -/
inductive ListOp (α : Type) where
  | size
  | isEmpty
  | contains (o : α)
  | containsAll (c : List α)
  | toArray
  | equals (l : List α)
  | get (index : ℤ)
  | indexOf (o : α)
  | lastIndexOf (o : α)
  | add (e : α)
  | addAt (index : ℤ) (e : α)
  | addAll (c : List α)
  | addAllAt (index : ℤ) (c : List α)
  | set (index : ℤ) (e : α)
  | removeAt (index : ℤ)
  | remove (o : α)
  | removeAll (contains : α → Bool)
  | retainAll (contains : α → Bool)
  | clear

/-- The methods `ObservableList` adds. -/
inductive ObservableListOp (α : Type) where
  | setAll (c : List α)
  | remove (fromIndex toIndex : ℤ)

/-- The methods that make a view. -/
inductive ViewOp where
  | iterator
  | listIterator (index : ℤ)
  | subList (fromIndex toIndex : ℤ)

/-- The methods of `Iterator` and `ListIterator`. -/
inductive IterOp (α : Type) where
  | hasNext
  | next
  | remove
  | hasPrevious
  | previous
  | nextIndex
  | previousIndex
  | set (e : α)
  | add (e : α)

/-- What a method does to the elements. -/
structure Effect (α : Type) where
  elements : List α
  /-- It counts as a structural change. -/
  structural : Bool
  answer : Reply α

section Elements

variable {α : Type}

/-- `w.get(i)` -/
def elementAt (w : List α) (i : ℤ) : Except Exn α :=
  if 0 ≤ i then listGet w i.toNat else .error .indexOutOfBounds

/-- A position to insert at. -/
def positionIn (w : List α) (i : ℤ) : Except Exn ℕ :=
  if 0 ≤ i ∧ i ≤ w.length then .ok i.toNat else .error .indexOutOfBounds

/-- A range, as `subList` accepts it. -/
def rangeIn (size : ℕ) (fromIndex toIndex : ℤ) : Except Exn (ℕ × ℕ) :=
  if fromIndex < 0 ∨ (size : ℤ) < toIndex then .error .indexOutOfBounds
  else if toIndex < fromIndex then .error (.illegalArgument "")
  else .ok (fromIndex.toNat, toIndex.toNat)

variable [BEq α]

/-- `w.indexOf(o)` -/
def indexOf (w : List α) (o : α) : ℤ :=
  match w.findIdx? (o == ·) with
  | some i => i
  | none => -1

/-- `w.lastIndexOf(o)` -/
def lastIndexOf (w : List α) (o : α) : ℤ :=
  match w.reverse.findIdx? (o == ·) with
  | some i => w.length - 1 - i
  | none => -1

/-- A method of `List` on a list of elements. -/
def ListOp.apply (w : List α) : ListOp α → Except Exn (Effect α)
  | size => .ok ⟨w, false, .int w.length⟩
  | isEmpty => .ok ⟨w, false, .bool w.isEmpty⟩
  | contains o => .ok ⟨w, false, .bool (w.any (o == ·))⟩
  | containsAll c => .ok ⟨w, false, .bool (c.all fun o => w.any (o == ·))⟩
  | toArray => .ok ⟨w, false, .elements w⟩
  | equals l => .ok ⟨w, false, .bool (w == l)⟩
  | get i => do
      let a ← elementAt w i
      return ⟨w, false, .element a⟩
  | indexOf o => .ok ⟨w, false, .int (Collections.indexOf w o)⟩
  | lastIndexOf o => .ok ⟨w, false, .int (Collections.lastIndexOf w o)⟩
  | add e => .ok ⟨w ++ [e], true, .bool true⟩
  | addAt i e => do
      let i ← positionIn w i
      return ⟨Splice.splice i 0 [e] w, true, .void⟩
  | addAll c => .ok ⟨w ++ c, !c.isEmpty, .bool !c.isEmpty⟩
  | addAllAt i c => do
      let i ← positionIn w i
      return ⟨Splice.splice i 0 c w, !c.isEmpty, .bool !c.isEmpty⟩
  | set i e => do
      let a ← elementAt w i
      return ⟨Splice.splice i.toNat 1 [e] w, false, .element a⟩
  | removeAt i => do
      let a ← elementAt w i
      return ⟨Splice.splice i.toNat 1 [] w, true, .element a⟩
  | remove o =>
      match w.findIdx? (o == ·) with
      | some i => .ok ⟨Splice.splice i 1 [] w, true, .bool true⟩
      | none => .ok ⟨w, false, .bool false⟩
  | removeAll c => .ok ⟨w.filter (!c ·), w.any c, .bool (w.any c)⟩
  | retainAll c => .ok ⟨w.filter c, w.any (!c ·), .bool (w.any (!c ·))⟩
  | clear => .ok ⟨[], true, .void⟩

/-- A method of `ObservableList` on a list of elements. -/
def ObservableListOp.apply (w : List α) : ObservableListOp α → Except Exn (Effect α)
  | setAll c => .ok ⟨c, true, .bool true⟩
  | remove fromIndex toIndex => do
      let (lo, hi) ← rangeIn w.length fromIndex toIndex
      return ⟨Splice.splice lo (hi - lo) [] w, true, .void⟩

end Elements

/-! ## Views -/

/-- A list: the top-level one, or a sub-list of a list. -/
inductive ListRef where
  | top
  | sub (id : ℕ) (outer : ListRef)
deriving DecidableEq, Repr

/-- The sub-lists a list is, or lies in. -/
def ListRef.ids : ListRef → List ℕ
  | top => []
  | sub id outer => id :: outer.ids

/-- A sub-list: the list it was taken from, and its window on the top-level list. -/
structure SubView where
  outer : ListRef
  lo : ℕ
  size : ℕ
  fresh : Bool := true

/-- An iterator. `start` and `removedBack` are its history: where it was created, and
how many elements it has removed that `previous` had returned. -/
structure IterView where
  owner : ListRef
  cursor : ℕ
  lastRet : Option ℕ := none
  fresh : Bool := true
  start : ℕ
  removedBack : ℕ := 0

section Iterators

variable {α : Type}

def IterView.next (v : IterView) (w : List α) : Except Exn (Effect α × IterView) :=
  match w[v.cursor]? with
  | none => .error .noSuchElement
  | some a =>
      .ok (⟨w, false, .element a⟩, { v with cursor := v.cursor + 1, lastRet := some v.cursor })

def IterView.previous (v : IterView) (w : List α) : Except Exn (Effect α × IterView) :=
  if v.cursor = 0 then .error .noSuchElement
  else
    match w[v.cursor - 1]? with
    | none => .error .noSuchElement
    | some a =>
        .ok (⟨w, false, .element a⟩,
          { v with cursor := v.cursor - 1, lastRet := some (v.cursor - 1) })

/-- The cursor steps back only over an element that `next` has returned. -/
def IterView.remove (v : IterView) (w : List α) : Except Exn (Effect α × IterView) :=
  match v.lastRet with
  | none => .error (.illegalState "")
  | some i =>
      if i < v.cursor then
        .ok (⟨Splice.splice i 1 [] w, true, .void⟩,
          { v with cursor := v.cursor - 1, lastRet := none })
      else
        .ok (⟨Splice.splice i 1 [] w, true, .void⟩,
          { v with lastRet := none, removedBack := v.removedBack + 1 })

def IterView.set (v : IterView) (w : List α) (e : α) : Except Exn (Effect α × IterView) :=
  match v.lastRet with
  | none => .error (.illegalState "")
  | some i => .ok (⟨Splice.splice i 1 [e] w, false, .void⟩, v)

def IterView.add (v : IterView) (w : List α) (e : α) : Except Exn (Effect α × IterView) :=
  .ok (⟨Splice.splice v.cursor 0 [e] w, true, .void⟩,
    { v with cursor := v.cursor + 1, lastRet := none })

def IterOp.apply (v : IterView) (w : List α) : IterOp α → Except Exn (Effect α × IterView)
  | hasNext => .ok (⟨w, false, .bool (v.cursor ≠ w.length)⟩, v)
  | next => v.next w
  | remove => v.remove w
  | hasPrevious => .ok (⟨w, false, .bool (v.cursor ≠ 0)⟩, v)
  | previous => v.previous w
  | nextIndex => .ok (⟨w, false, .int v.cursor⟩, v)
  | previousIndex => .ok (⟨w, false, .int (v.cursor - 1)⟩, v)
  | set e => v.set w e
  | add e => v.add w e

end Iterators

/-- A list with the views that have been taken of it. -/
structure PlainList (α : Type) where
  elements : List α
  subs : ℕ → Option SubView := fun _ => none
  nextSub : ℕ := 0
  iters : ℕ → Option IterView := fun _ => none
  nextIter : ℕ := 0

namespace PlainList

variable {α : Type}

/-- The list a method is called on; `none` is the top-level one. -/
def ref (p : PlainList α) : Option ℕ → Except Exn ListRef
  | none => .ok .top
  | some id =>
      match p.subs id with
      | some v => .ok (.sub id v.outer)
      | none => .error .nullPointer

/-- The window of a list, if it is still to be used. -/
def window (p : PlainList α) : ListRef → Except Exn (ℕ × ℕ)
  | .top => .ok (0, p.elements.length)
  | .sub id _ =>
      match p.subs id with
      | some v => if v.fresh then .ok (v.lo, v.size) else .error .concurrentModification
      | none => .error .nullPointer

/-- The elements of a list. -/
def contents (p : PlainList α) (r : ListRef) : Except Exn (List α) := do
  let (lo, size) ← p.window r
  return Splice.slice lo (lo + size) p.elements

/-- The sub-lists after a structural change of `r` by `n` elements for `size`. -/
def resize (p : PlainList α) (r : ListRef) (size n : ℕ) (id : ℕ) : Option SubView :=
  (p.subs id).map fun v =>
    if id ∈ r.ids then { v with size := v.size - size + n } else { v with fresh := false }

/-- The elements of a window are replaced. -/
def store (p : PlainList α) (r : ListRef) (lo size : ℕ) (e : Effect α) : PlainList α :=
  if e.structural then
    { p with
      elements := Splice.splice lo size e.elements p.elements
      subs := p.resize r size e.elements.length
      iters := fun id => (p.iters id).map fun v => { v with fresh := false } }
  else { p with elements := Splice.splice lo size e.elements p.elements }

/-- A method of a list. -/
def call (p : PlainList α) (r : Option ℕ) (f : List α → Except Exn (Effect α)) :
    Except Exn (PlainList α × Reply α) := do
  let ref ← p.ref r
  let (lo, size) ← p.window ref
  let e ← f (Splice.slice lo (lo + size) p.elements)
  return (p.store ref lo size e, e.answer)

/-- A new iterator of `r`. -/
def addIter (p : PlainList α) (r : ListRef) (cursor : ℕ) : PlainList α × Reply α :=
  ({ p with
    iters := Function.update p.iters p.nextIter
      (some { owner := r, cursor := cursor, start := cursor })
    nextIter := p.nextIter + 1 }, .iterator p.nextIter)

/-- A new sub-list of `r`. -/
def addSub (p : PlainList α) (r : ListRef) (lo size : ℕ) : PlainList α × Reply α :=
  ({ p with
    subs := Function.update p.subs p.nextSub (some { outer := r, lo := lo, size := size })
    nextSub := p.nextSub + 1 }, .subList p.nextSub)

/-- A method that makes a view. -/
def view (p : PlainList α) (r : Option ℕ) (op : ViewOp) :
    Except Exn (PlainList α × Reply α) := do
  let ref ← p.ref r
  let (lo, size) ← p.window ref
  match op with
  | .iterator => return p.addIter ref 0
  | .listIterator index => do
      let i ← positionIn (Splice.slice lo (lo + size) p.elements) index
      return p.addIter ref i
  | .subList fromIndex toIndex => do
      let (a, b) ← rangeIn size fromIndex toIndex
      return p.addSub ref (lo + a) (b - a)

/-- The effect of an iterator's method, which stays to be used itself. -/
def storeIter (p : PlainList α) (id : ℕ) (v : IterView) (lo size : ℕ) (e : Effect α) :
    PlainList α :=
  let p := p.store v.owner lo size e
  { p with iters := Function.update p.iters id (some v) }

/-- A method of an iterator. -/
def iter (p : PlainList α) (id : ℕ) (op : IterOp α) : Except Exn (PlainList α × Reply α) :=
  match p.iters id with
  | none => .error .nullPointer
  | some v =>
      if v.fresh then do
        let (lo, size) ← p.window v.owner
        let (e, v) ← op.apply v (Splice.slice lo (lo + size) p.elements)
        return (p.storeIter id v lo size e, e.answer)
      else .error .concurrentModification

end PlainList

/-- A call on a list, one of its sub-lists or one of its iterators. -/
inductive ListCall (α : Type) where
  | list (receiver : Option ℕ) (op : ListOp α)
  | observable (op : ObservableListOp α)
  | view (receiver : Option ℕ) (op : ViewOp)
  | iter (id : ℕ) (op : IterOp α)

/-- A call on the plain list. -/
def PlainList.perform {α : Type} [BEq α] (p : PlainList α) :
    ListCall α → Except Exn (PlainList α × Reply α)
  | .list r op => p.call r fun w => op.apply w
  | .observable op => p.call none fun w => op.apply w
  | .view r op => p.view r op
  | .iter id op => p.iter id op

end JavaFx.Collections
