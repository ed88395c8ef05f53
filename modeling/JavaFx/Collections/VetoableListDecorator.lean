import JavaFx.Collections.ListViews

/-!
# `VetoableListDecorator`

Every mutator first proposes its change to `onProposedChange`, which may throw, and
then calls the decorated list. Sub-lists and iterators wrap those of the decorated
list and keep an offset, a modification count and, the iterators, a cursor of their
own.
-/

namespace JavaFx.Collections

variable {α : Type}

/-! ## The code -/

/-- The fields of a `VetoableSubListDecorator`; its `modCountAccessor` counts for the
list it was taken from. -/
structure SubWrap where
  accessor : ListRef
  offset : ℤ
  modCount : ℕ

/-- The fields of a `VetoableIteratorDecorator`. -/
structure IterWrap where
  accessor : ListRef
  offset : ℤ
  modCount : ℕ
  cursor : ℤ := 0
  lastReturned : ℤ := 0

/-- A decorator with the sub-lists and iterators it has handed out, which wrap those
of the decorated list with the same number. -/
structure VetoableListDecorator (α : Type) where
  list : PlainList α
  modCount : ℕ := 0
  subs : ℕ → Option SubWrap := fun _ => none
  iters : ℕ → Option IterWrap := fun _ => none

/-- What `onProposedChange` throws, if it vetoes the change. -/
abbrev Veto (α : Type) := List α → List ℤ → Option Exn

/-- A call with the changes it has proposed. -/
structure Outcome (α : Type) where
  proposals : List (List α × List ℤ)
  result : Except Exn (VetoableListDecorator α × Reply α)

/-- `onProposedChange(toBeAdded, indexes)`, and then the rest of the method. -/
def onProposedChange (veto : Veto α) (toBeAdded : List α) (indexes : List ℤ)
    (rest : Except Exn (VetoableListDecorator α × Reply α)) : Outcome α :=
  ⟨[(toBeAdded, indexes)],
    match veto toBeAdded indexes with
    | some e => .error e
    | none => rest⟩

/-- A method that proposes nothing. -/
def quiet (result : Except Exn (VetoableListDecorator α × Reply α)) : Outcome α := ⟨[], result⟩

/-- The body of the loop of `removeFromList` for an element that is to be removed at
the position `at_` of the top-level list. -/
def addToBeRemoved (toBeRemoved : List ℤ) (pointer at_ : ℤ) : Except Exn (List ℤ × ℤ) :=
  if pointer = -1 then do
    let toBeRemoved ← arraySet toBeRemoved (pointer + 1) at_
    let toBeRemoved ← arraySet toBeRemoved (pointer + 2) (at_ + 1)
    return (toBeRemoved, pointer + 2)
  else do
    let last ← arrayGet toBeRemoved (pointer - 1)
    if last = at_ then do
      let toBeRemoved ← arraySet toBeRemoved (pointer - 1) (at_ + 1)
      return (toBeRemoved, pointer)
    else do
      let tmp ← arraycopy toBeRemoved 0 (List.replicate (toBeRemoved.length + 2) 0) 0
        toBeRemoved.length
      let toBeRemoved ← arraySet tmp (pointer + 1) at_
      let toBeRemoved ← arraySet toBeRemoved (pointer + 2) (at_ + 1)
      return (toBeRemoved, pointer + 2)

/-- The loop of `removeFromList` over the rest of the list. -/
def removeLoop (contains : α → Bool) (complement : Bool) :
    List α → ℤ → List ℤ → ℤ → Except Exn (List ℤ × ℤ)
  | [], _, toBeRemoved, pointer => .ok (toBeRemoved, pointer)
  | el :: rest, at_, toBeRemoved, pointer =>
      if (contains el ^^ complement) = true then do
        let (toBeRemoved, pointer) ← addToBeRemoved toBeRemoved pointer at_
        removeLoop contains complement rest (at_ + 1) toBeRemoved pointer
      else removeLoop contains complement rest (at_ + 1) toBeRemoved pointer

/-- The change `removeFromList` proposes. -/
def removeFromList (w : List α) (offset : ℤ) (contains : α → Bool) (complement : Bool) :
    Except Exn (Option (List α × List ℤ)) := do
  let (toBeRemoved, pointer) ← removeLoop contains complement w offset [0, 0] (-1)
  return if pointer ≠ -1 then some ([], toBeRemoved) else none

/-- The change a method proposes, for a list that starts at `offset`. Looking at the
size or the elements may fail. -/
def ListOp.proposal (offset : ℤ) (w : Except Exn (List α)) :
    ListOp α → Except Exn (Option (List α × List ℤ))
  | add e => do
      let w ← w
      return some ([e], [offset + w.length, offset + w.length])
  | addAll c => do
      let w ← w
      return some (c, [offset + w.length, offset + w.length])
  | addAllAt index c => .ok (some (c, [offset + index, offset + index]))
  | removeAll c => do
      let w ← w
      removeFromList w offset c false
  | retainAll c => do
      let w ← w
      removeFromList w offset c true
  | clear => do
      let w ← w
      return some ([], [offset, offset + w.length])
  | set index e => .ok (some ([e], [offset + index, offset + index + 1]))
  | addAt index e => .ok (some ([e], [offset + index, offset + index]))
  | removeAt index => .ok (some ([], [offset + index, offset + index + 1]))
  | _ => .ok none

/-- The methods that change the modification count: always, or if they return
`true`. -/
def ListOp.increments (answer : Reply α) : ListOp α → Bool
  | add _ | addAt _ _ | removeAt _ | clear => true
  | addAll _ | addAllAt _ _ | removeAll _ | retainAll _ =>
      match answer with
      | .bool b => b
      | _ => false
  | _ => false

namespace VetoableListDecorator

/-- `modCountAccessor.get()` -/
def getModCount (d : VetoableListDecorator α) : ListRef → Option ℕ
  | .top => some d.modCount
  | .sub id _ => (d.subs id).map SubWrap.modCount

/-- `modCountAccessor.incrementAndGet()` -/
def incrementAndGet (d : VetoableListDecorator α) : ListRef → VetoableListDecorator α × ℕ
  | .top => ({ d with modCount := d.modCount + 1 }, d.modCount + 1)
  | .sub id outer =>
      let (d, n) := d.incrementAndGet outer
      ({ d with
        subs := Function.update d.subs id ((d.subs id).map fun s => { s with modCount := n }) }, n)

def checkForComodification (d : VetoableListDecorator α) (modCount : ℕ) (accessor : ListRef) :
    Except Exn Unit :=
  if some modCount ≠ d.getModCount accessor then .error .concurrentModification else .ok ()

/-- The call of the decorated list, and `incrementModCount()` after it. -/
def forward (d : VetoableListDecorator α) (receiver : Option ℕ) (this : ListRef)
    (f : List α → Except Exn (Effect α)) (increments : Reply α → Bool) :
    Except Exn (VetoableListDecorator α × Reply α) := do
  let (list, answer) ← d.list.call receiver f
  let d := { d with list := list }
  return (if increments answer then (d.incrementAndGet this).1 else d, answer)

section Methods

variable [BEq α]

/-- `lastIndexOf` of the top-level list; `stack` bounds the nesting of its calls. -/
def lastIndexOf (d : VetoableListDecorator α) (o : α) :
    ℕ → Except Exn (VetoableListDecorator α × Reply α)
  | 0 => .error .stackOverflow
  | stack + 1 => d.lastIndexOf o stack

/-- A method of the list `this`, which starts at `offset`. -/
def listMethod (d : VetoableListDecorator α) (veto : Veto α) (receiver : Option ℕ)
    (this : ListRef) (offset : ℤ) (op : ListOp α) : Outcome α :=
  match op.proposal offset (d.list.contents this) with
  | .error e => quiet (.error e)
  | .ok none => quiet (d.forward receiver this (fun w => op.apply w) fun a => op.increments a)
  | .ok (some (toBeAdded, indexes)) =>
      onProposedChange veto toBeAdded indexes
        (d.forward receiver this (fun w => op.apply w) fun a => op.increments a)

/-- `remove(Object)` -/
def removeObject (d : VetoableListDecorator α) (veto : Veto α) (receiver : Option ℕ)
    (this : ListRef) (offset : ℤ) (o : α) : Outcome α :=
  match d.list.contents this with
  | .error e => quiet (.error e)
  | .ok w =>
      if indexOf w o ≠ -1 then
        let outcome := d.listMethod veto receiver this offset (.removeAt (indexOf w o))
        ⟨outcome.proposals, outcome.result.map fun (d, _) => (d, .bool true)⟩
      else quiet (.ok (d, .bool false))

/-- The methods both kinds of list have. -/
def sharedMethod (d : VetoableListDecorator α) (veto : Veto α) (receiver : Option ℕ)
    (this : ListRef) (offset : ℤ) : ListOp α → Outcome α
  | .remove o => d.removeObject veto receiver this offset o
  | op => d.listMethod veto receiver this offset op

/-- A method of the top-level list. -/
def topMethod (d : VetoableListDecorator α) (veto : Veto α) (stack : ℕ) : ListOp α → Outcome α
  | .lastIndexOf o => quiet (d.lastIndexOf o stack)
  | op => d.sharedMethod veto none .top 0 op

/-- A method of a sub-list. -/
def subMethod (d : VetoableListDecorator α) (veto : Veto α) (id : ℕ) (op : ListOp α) :
    Outcome α :=
  match d.subs id with
  | none => quiet (.error .nullPointer)
  | some s =>
      match d.checkForComodification s.modCount s.accessor with
      | .error e => quiet (.error e)
      | .ok _ => d.sharedMethod veto (some id) (.sub id s.accessor) s.offset op

/-- `setAll` and `remove(from, to)` of the top-level list. -/
def observableMethod (d : VetoableListDecorator α) (veto : Veto α) :
    ObservableListOp α → Outcome α
  | .setAll c =>
      onProposedChange veto c [0, d.list.elements.length]
        (d.forward none .top (fun w => (ObservableListOp.setAll c).apply w) fun _ => true)
  | .remove fromIndex toIndex =>
      onProposedChange veto [] [fromIndex, toIndex]
        (d.forward none .top (fun w => (ObservableListOp.remove fromIndex toIndex).apply w)
          fun _ => true)

end Methods

def setSub (d : VetoableListDecorator α) (id : ℕ) (s : SubWrap) : VetoableListDecorator α :=
  { d with subs := Function.update d.subs id (some s) }

def setIter (d : VetoableListDecorator α) (id : ℕ) (it : IterWrap) : VetoableListDecorator α :=
  { d with iters := Function.update d.iters id (some it) }

/-- The wrapper of a view that the decorated list has made. -/
def wrap (d : VetoableListDecorator α) (this : ListRef) (offset : ℤ) (modCount : ℕ) :
    ViewOp → Reply α → VetoableListDecorator α
  | .iterator, .iterator id =>
      d.setIter id { accessor := this, offset := offset, modCount := modCount }
  | .listIterator index, .iterator id =>
      d.setIter id { accessor := this, offset := offset + index, modCount := modCount }
  | .subList fromIndex _, .subList id =>
      d.setSub id { accessor := this, offset := offset + fromIndex, modCount := modCount }
  | _, _ => d

/-- A method that makes a view of the list `this`, whose count is `modCount`. -/
def viewMethod (d : VetoableListDecorator α) (receiver : Option ℕ) (this : ListRef)
    (offset : ℤ) (modCount : ℕ) (op : ViewOp) :
    Except Exn (VetoableListDecorator α × Reply α) := do
  let (list, answer) ← d.list.view receiver op
  return ({ d with list := list }.wrap this offset modCount op answer, answer)

/-- `iterator()`, `listIterator(index)` and `subList(fromIndex, toIndex)`. -/
def view (d : VetoableListDecorator α) (receiver : Option ℕ) (op : ViewOp) : Outcome α :=
  match receiver with
  | none => quiet (d.viewMethod none .top 0 d.modCount op)
  | some id =>
      match d.subs id with
      | none => quiet (.error .nullPointer)
      | some s =>
          match d.checkForComodification s.modCount s.accessor with
          | .error e => quiet (.error e)
          | .ok _ =>
              quiet (d.viewMethod (some id) (.sub id s.accessor) s.offset s.modCount op)

/-- The call of the wrapped iterator; the fields of the wrapper afterwards are `wrap`. -/
def forwardIter (d : VetoableListDecorator α) (id : ℕ) (wrap : IterWrap) (op : IterOp α) :
    Except Exn (VetoableListDecorator α × Reply α) := do
  let (list, answer) ← d.list.iter id op
  return ({ d with list := list }.setIter id wrap, answer)

/-- The call of the wrapped iterator, `incrementModCount()`, and the new `cursor` and
`lastReturned`. -/
def forwardEdit (d : VetoableListDecorator α) (id : ℕ) (it : IterWrap) (op : IterOp α)
    (cursor lastReturned : ℤ) : Except Exn (VetoableListDecorator α × Reply α) := do
  let (list, answer) ← d.list.iter id op
  let (d, n) := { d with list := list }.incrementAndGet it.accessor
  return (d.setIter id { it with
    modCount := n, cursor := cursor, lastReturned := lastReturned }, answer)

/-- A method of an iterator, after `checkForComodification()`. -/
def iterMethod (d : VetoableListDecorator α) (veto : Veto α) (id : ℕ) (it : IterWrap) :
    IterOp α → Outcome α
  | .next =>
      quiet (d.forwardIter id { it with lastReturned := it.cursor, cursor := it.cursor + 1 } .next)
  | .previous =>
      quiet (d.forwardIter id { it with lastReturned := it.cursor - 1, cursor := it.cursor - 1 }
        .previous)
  | .remove =>
      if it.lastReturned = -1 then quiet (.error (.illegalState ""))
      else
        onProposedChange veto [] [it.offset + it.lastReturned, it.offset + it.lastReturned + 1]
          (d.forwardEdit id it .remove (it.cursor - 1) (-1))
  | .set e =>
      if it.lastReturned = -1 then quiet (.error (.illegalState ""))
      else
        onProposedChange veto [e] [it.offset + it.lastReturned, it.offset + it.lastReturned + 1]
          (d.forwardIter id it (.set e))
  | .add e =>
      onProposedChange veto [e] [it.offset + it.cursor, it.offset + it.cursor]
        (d.forwardEdit id it (.add e) (it.cursor + 1) it.lastReturned)
  | op => quiet (d.forwardIter id it op)

def iter (d : VetoableListDecorator α) (veto : Veto α) (id : ℕ) (op : IterOp α) : Outcome α :=
  match d.iters id with
  | none => quiet (.error .nullPointer)
  | some it =>
      match d.checkForComodification it.modCount it.accessor with
      | .error e => quiet (.error e)
      | .ok _ => d.iterMethod veto id it op

/-- A call on the decorator, one of its sub-lists or one of its iterators. -/
def perform [BEq α] (d : VetoableListDecorator α) (veto : Veto α) (stack : ℕ) :
    ListCall α → Outcome α
  | .list none op => d.topMethod veto stack op
  | .list (some id) op => d.subMethod veto id op
  | .observable op => d.observableMethod veto op
  | .view receiver op => d.view receiver op
  | .iter id op => d.iter veto id op

end VetoableListDecorator

/-! ## `removeFromList` -/

/-- The positions of the elements to be removed, counted from `at_`. -/
def removedAt (test : α → Bool) : List α → ℤ → List ℤ
  | [], _ => []
  | el :: rest, at_ =>
      if test el = true then at_ :: removedAt test rest (at_ + 1)
      else removedAt test rest (at_ + 1)

/-- One pair of indexes for each position. -/
def unitPairs (positions : List ℤ) : List ℤ := positions.flatMap fun i => [i, i + 1]

/-- The array and the pointer when `positions` have been recorded. -/
def Recorded (positions toBeRemoved : List ℤ) (pointer : ℤ) : Prop :=
  (positions = [] ∧ toBeRemoved = [0, 0] ∧ pointer = -1) ∨
  (positions ≠ [] ∧ toBeRemoved = unitPairs positions ∧ pointer = 2 * positions.length - 1)

theorem length_unitPairs (positions : List ℤ) :
    (unitPairs positions).length = 2 * positions.length := by
  induction positions with
  | nil => rfl
  | cons i positions ih =>
      show (unitPairs positions).length + 1 + 1 = 2 * (positions.length + 1)
      rw [ih]
      omega

theorem unitPairs_append (is js : List ℤ) :
    unitPairs (is ++ js) = unitPairs is ++ unitPairs js :=
  List.flatMap_append

/-- Copying an array to the start of one that is longer by two. -/
theorem arraycopy_longer (l : List ℤ) :
    arraycopy l 0 (List.replicate (l.length + 2) 0) 0 l.length = .ok (l ++ [0, 0]) := by
  rw [arraycopy, if_pos (by rw [List.length_replicate]; omega)]
  have hdrop : (List.replicate (l.length + 2) (0 : ℤ)).drop l.length = [0, 0] := by
    rw [List.drop_replicate, Nat.add_sub_cancel_left]
    rfl
  simp [Splice.splice, Splice.slice, hdrop]

/-- The comparison is with the start of the last pair, where the next position to be
removed never stands: every position gets a pair of its own. -/
theorem addToBeRemoved_spec {positions toBeRemoved : List ℤ} {pointer at_ : ℤ}
    (h : Recorded positions toBeRemoved pointer) (hlt : ∀ i ∈ positions, i < at_) :
    ∃ toBeRemoved' pointer', addToBeRemoved toBeRemoved pointer at_ =
        .ok (toBeRemoved', pointer') ∧ Recorded (positions ++ [at_]) toBeRemoved' pointer' := by
  rcases h with ⟨rfl, rfl, rfl⟩ | ⟨hne, rfl, rfl⟩
  · exact ⟨[at_, at_ + 1], 1, rfl, Or.inr ⟨List.cons_ne_nil _ _, rfl, rfl⟩⟩
  · obtain ⟨front, i, rfl⟩ := (List.eq_nil_or_concat positions).resolve_left hne
    rw [List.concat_eq_append] at *
    have hi : i < at_ := hlt i (List.mem_append_right _ List.mem_cons_self)
    have hpos : ((front ++ [i]).length : ℤ) = front.length + 1 := by
      rw [List.length_append, List.length_singleton]
      rfl
    have hlen : (unitPairs (front ++ [i])).length = 2 * front.length + 2 := by
      rw [length_unitPairs, List.length_append, List.length_singleton]
      omega
    have hget : arrayGet (unitPairs (front ++ [i])) (2 * (front ++ [i]).length - 1 - 1) =
        .ok i := by
      apply arrayGet_eq_of_getElem? (by omega)
      have hnat : (2 * ((front ++ [i]).length : ℤ) - 1 - 1).toNat = 2 * front.length := by omega
      rw [hnat, unitPairs_append, List.getElem?_append_right (by rw [length_unitPairs]),
        length_unitPairs, Nat.sub_self]
      rfl
    have hfirst : arraySet (unitPairs (front ++ [i]) ++ [0, 0])
        (2 * (front ++ [i]).length - 1 + 1) at_ =
        .ok (unitPairs (front ++ [i]) ++ [at_, 0]) := by
      have hidx : (2 * ((front ++ [i]).length : ℤ) - 1 + 1) =
          ((unitPairs (front ++ [i])).length : ℕ) := by omega
      rw [hidx, arraySet_of_lt _ (by rw [List.length_append]; simp), List.set_append_right _ _
        (le_refl _), Nat.sub_self]
      rfl
    have hsecond : arraySet (unitPairs (front ++ [i]) ++ [at_, 0])
        (2 * (front ++ [i]).length - 1 + 2) (at_ + 1) =
        .ok (unitPairs (front ++ [i]) ++ [at_, at_ + 1]) := by
      have hidx : (2 * ((front ++ [i]).length : ℤ) - 1 + 2) =
          ((unitPairs (front ++ [i])).length + 1 : ℕ) := by omega
      rw [hidx, arraySet_of_lt _ (by rw [List.length_append]; simp), List.set_append_right _ _
        (Nat.le_add_right _ 1), Nat.add_sub_cancel_left]
      rfl
    refine ⟨_, _, ?_, Or.inr ⟨?_, (unitPairs_append (front ++ [i]) [at_]).symm, rfl⟩⟩
    · rw [addToBeRemoved, if_neg (by omega), hget, except_ok_bind, if_neg hi.ne,
        arraycopy_longer, except_ok_bind, hfirst, except_ok_bind, hsecond, except_ok_bind]
      show Except.ok (_, _) = Except.ok (_, _)
      congr 2
      simp only [List.length_append, List.length_singleton]
      omega
    · exact List.append_ne_nil_of_right_ne_nil _ (List.cons_ne_nil _ _)

theorem removeLoop_spec (contains : α → Bool) (complement : Bool) (w : List α) :
    ∀ (at_ : ℤ) (positions toBeRemoved : List ℤ) (pointer : ℤ),
      Recorded positions toBeRemoved pointer → (∀ i ∈ positions, i < at_) →
      ∃ toBeRemoved' pointer', removeLoop contains complement w at_ toBeRemoved pointer =
          .ok (toBeRemoved', pointer') ∧
        Recorded (positions ++ removedAt (fun el => contains el ^^ complement) w at_)
          toBeRemoved' pointer' := by
  induction w with
  | nil =>
      intro at_ positions toBeRemoved pointer h _
      rw [removedAt, List.append_nil]
      exact ⟨toBeRemoved, pointer, rfl, h⟩
  | cons el w ih =>
      intro at_ positions toBeRemoved pointer h hlt
      rw [removeLoop, removedAt]
      by_cases hel : (contains el ^^ complement) = true
      · rw [if_pos hel, if_pos hel]
        obtain ⟨arr, ptr, hok, hrec⟩ := addToBeRemoved_spec h hlt
        obtain ⟨arr', ptr', hok', hrec'⟩ := ih (at_ + 1) (positions ++ [at_]) arr ptr hrec (by
          intro i hi
          rcases List.mem_append.mp hi with hi | hi
          · exact (hlt i hi).trans (lt_add_one _)
          · rw [List.mem_singleton.mp hi]
            exact lt_add_one _)
        rw [List.append_assoc] at hrec'
        refine ⟨arr', ptr', ?_, hrec'⟩
        rw [hok]
        exact hok'
      · rw [if_neg hel, if_neg hel]
        exact ih (at_ + 1) positions toBeRemoved pointer h fun i hi =>
          (hlt i hi).trans (lt_add_one _)

/-- **What `removeFromList` proposes:** one pair for each position. -/
theorem removeFromList_eq (w : List α) (offset : ℤ) (contains : α → Bool) (complement : Bool) :
    removeFromList w offset contains complement =
      .ok (if removedAt (fun el => contains el ^^ complement) w offset ≠ [] then
        some ([], unitPairs (removedAt (fun el => contains el ^^ complement) w offset))
      else none) := by
  obtain ⟨arr, ptr, hok, hrec⟩ := removeLoop_spec contains complement w offset [] [0, 0] (-1)
    (Or.inl ⟨rfl, rfl, rfl⟩) fun _ hi => nomatch hi
  rw [List.nil_append] at hrec
  rw [removeFromList, hok, except_ok_bind]
  show Except.ok (if ptr ≠ -1 then some ([], arr) else none) = _
  rcases hrec with ⟨hnil, -, hptr⟩ | ⟨hne, harr, hptr⟩
  · rw [if_neg (fun h => h hptr), if_neg (fun h => h hnil)]
  · have hpos : 0 < (removedAt (fun el => contains el ^^ complement) w offset).length :=
      List.length_pos_iff.mpr hne
    rw [if_pos (by omega), if_pos hne, harr]

end JavaFx.Collections
