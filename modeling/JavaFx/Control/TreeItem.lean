import JavaFx.Collections.ObservableListWrapper
import JavaFx.Lib.UpForest

/-!
# `TreeItem`

All items at once, each with its fields. A children list tells its item of what has changed,
part by part; the item links the new children, unlinks the old ones and fires an event that
every item up the parent chain hears. What is counted is cached, and the event makes the cache
dirty.

A call that does not return is `none`: the dispatch chain of an item that lies above itself
overflows the stack. A `remove(from, to)` that throws leaves the change of the list open, and
from then on the list tells nobody.
-/

namespace JavaFx.Control

open Collections

/-- `BooleanPropertyBase`, as far as the expanded flag uses it. -/
structure ExpandedProperty where
  value : Bool
  valid : Bool
deriving DecidableEq

structure TreeItem (ι : Type) where
  children : List (Option ι)
  changeOpen : Bool
  parent : Option ι
  parentLinkCount : ℤ
  leaf : Bool
  expanded : Option ExpandedProperty
  expandedDescendentCountDirty : Bool
  expandedDescendentCount : ℤ
  previousExpandedDescendentCount : ℤ
deriving DecidableEq

/-- An item that has just been made. -/
def TreeItem.new {ι : Type} : TreeItem ι where
  children := []
  changeOpen := false
  parent := none
  parentLinkCount := 0
  leaf := true
  expanded := none
  expandedDescendentCountDirty := true
  expandedDescendentCount := 1
  previousExpandedDescendentCount := 1

/-- The items. -/
abbrev TreeItems (ι : Type) := ι → TreeItem ι

/-- What a listener reads from one part of a change: `getAddedSubList()` and `getRemoved()`. -/
structure ChildrenChange (ι : Type) where
  added : List (Option ι)
  removed : List (Option ι)

namespace TreeItems

variable {ι : Type} [DecidableEq ι]

def modify (s : TreeItems ι) (x : ι) (f : TreeItem ι → TreeItem ι) : TreeItems ι :=
  Function.update s x (f (s x))

def isLeaf (s : TreeItems ι) (x : ι) : Bool := (s x).leaf

/-- The value of the expanded flag. -/
def isExpanded (s : TreeItems ι) (x : ι) : Bool :=
  match (s x).expanded with
  | some property => property.value
  | none => false

/-- Reading the expanded flag makes it valid. -/
def validate (s : TreeItems ι) (x : ι) : TreeItems ι :=
  s.modify x fun item => { item with
    expanded := item.expanded.map fun property => { property with valid := true } }

/-! ## Events -/

/-- `buildEventDispatchChain`: the items from the root of the tree to this one. -/
def buildEventDispatchChain (s : TreeItems ι) : ℕ → ι → Option (List ι)
  | 0, _ => none
  | fuel + 1, x =>
    match (s x).parent with
    | none => some [x]
    | some p => (buildEventDispatchChain s fuel p).map (· ++ [x])

/-- `itemListener` -/
def itemListener (x : ι) (s : TreeItems ι) : TreeItems ι :=
  s.modify x fun item => { item with expandedDescendentCountDirty := true }

variable [Fintype ι]

/-- An event of the kinds that change the count. A chain of more items than there are does not
end. -/
def fireEvent (s : TreeItems ι) (x : ι) : Option (TreeItems ι) :=
  (s.buildEventDispatchChain (Fintype.card ι) x).map fun chain => chain.foldr itemListener s

/-! ## The children -/

omit [Fintype ι] in
/-- The loop body of `updateChildrenParent`. -/
def updateChildParent (newParent : Option ι) (s : TreeItems ι) : Option ι → TreeItems ι
  | none => s
  | some x =>
    let currentParent := (s x).parent
    let s :=
      if (s x).parentLinkCount = 0 then s.modify x fun item => { item with parent := newParent }
      else s
    let parentMatch : Bool := currentParent.isSome && decide (currentParent = newParent)
    if parentMatch then
      if newParent = none then
        s.modify x fun item => { item with parentLinkCount := item.parentLinkCount - 1 }
      else s.modify x fun item => { item with parentLinkCount := item.parentLinkCount + 1 }
    else s

omit [Fintype ι] in
def updateChildrenParent (treeItems : List (Option ι)) (newParent : Option ι) (s : TreeItems ι) :
    TreeItems ι :=
  treeItems.foldl (updateChildParent newParent) s

def updateChildren (p : ι) (s : TreeItems ι) (c : ChildrenChange ι) : Option (TreeItems ι) :=
  let s := s.modify p fun item => { item with leaf := item.children.isEmpty }
  let s := updateChildrenParent c.removed none s
  let s := updateChildrenParent c.added (some p) s
  s.fireEvent p

/-- `childrenListener.onChanged` -/
def onChanged (p : ι) (changes : List (ChildrenChange ι)) (s : TreeItems ι) :
    Option (TreeItems ι) :=
  changes.foldlM (updateChildren p) (itemListener p s)

omit [Fintype ι] [DecidableEq ι] in
/-- The part of a change that a sub-change is shown as. -/
def shown (list : List (Option ι)) (c : SubChange (Option ι)) : ChildrenChange ι where
  added := Splice.slice c.from_ c.to_ list
  removed := c.removed.getD []

/-- What has been fired, if anything, is heard. -/
def heard (s : TreeItems ι) (p : ι) (list : List (Option ι)) :
    Option (List (SubChange (Option ι))) → Option (TreeItems ι)
  | none => some s
  | some subs => s.onChanged p (subs.map (shown list))

/-- A mutator of the children list. An exception that leaves the change open keeps what has
been done; the others leave the list as it was. -/
def mutateChildren (s : TreeItems ι) (p : ι) (m : ListMutator (Option ι)) : Option (TreeItems ι) :=
  match ObservableListWrapper.mutate (s p).children m with
  | .ok (list, fired) =>
    let s' := s.modify p fun item => { item with children := list }
    if (s p).changeOpen then some s' else s'.heard p list fired
  | .error _ =>
    match m with
    | .removeRange fromIndex _ => some (s.modify p fun item => { item with
        children :=
          if 0 ≤ fromIndex then item.children.take fromIndex.toNat else item.children
        changeOpen := true })
    | _ => some s

/-- `sort(comparator)` of the children list fires a permutation itself. -/
def sortChildren (s : TreeItems ι) (p : ι) (le : Option ι → Option ι → Bool) :
    Option (TreeItems ι) :=
  if (s p).children.isEmpty then some s
  else
    let s := s.modify p fun item => { item with children := item.children.mergeSort le }
    s.onChanged p [⟨[], []⟩]

/-! ## The expanded flag -/

/-- `invalidated()` of the expanded property. -/
def expandedInvalidated (s : TreeItems ι) (x : ι) : Option (TreeItems ι) :=
  if s.isLeaf x then some s else (s.validate x).fireEvent x

def setExpanded (s : TreeItems ι) (x : ι) (value : Bool) : Option (TreeItems ι) :=
  if value = false ∧ (s x).expanded = none then some s
  else
    let property := (s x).expanded.getD ⟨false, true⟩
    if property.value = value then
      some (s.modify x fun item => { item with expanded := some property })
    else
      let s' := s.modify x fun item => { item with expanded := some ⟨value, false⟩ }
      if property.valid then s'.expandedInvalidated x else some s'

/-! ## The count -/

omit [Fintype ι] in
/-- `child.isExpanded() ? child.getExpandedDescendentCount(reset) : 1` -/
def childCount (count : ι → TreeItems ι → Option (ℤ × TreeItems ι)) (child : ι)
    (s : TreeItems ι) : Option (ℤ × TreeItems ι) :=
  if s.isExpanded child then count child (s.validate child) else some (1, s.validate child)

omit [Fintype ι] in
/-- The loop of `updateExpandedDescendentCount`, with the call for a child as an argument. -/
def addChildCounts (count : ι → TreeItems ι → Option (ℤ × TreeItems ι)) (x : ι)
    (s : TreeItems ι) : List (Option ι) → Option (TreeItems ι)
  | [] => some s
  | none :: rest => addChildCounts count x s rest
  | some child :: rest => do
    let soFar := (s x).expandedDescendentCount
    let (n, s) ← childCount count child s
    let s := s.modify x fun item => { item with expandedDescendentCount := soFar + n }
    addChildCounts count x s rest

omit [Fintype ι] in
def updateExpandedDescendentCount (count : ι → TreeItems ι → Option (ℤ × TreeItems ι)) (x : ι)
    (s : TreeItems ι) : Option (TreeItems ι) :=
  let s := s.modify x fun item => { item with
    previousExpandedDescendentCount := item.expandedDescendentCount
    expandedDescendentCount := 1 }
  if s.isLeaf x then some s
  else
    let expanded := s.isExpanded x
    let s := s.validate x
    if expanded then addChildCounts count x s (s x).children else some s

omit [Fintype ι] in
def countWithin : ℕ → Bool → ι → TreeItems ι → Option (ℤ × TreeItems ι)
  | 0, _, _, _ => none
  | fuel + 1, reset, x, s => do
    if reset || (s x).expandedDescendentCountDirty then
      let s ← updateExpandedDescendentCount (countWithin fuel reset) x s
      let s := s.modify x fun item => { item with expandedDescendentCountDirty := false }
      return ((s x).expandedDescendentCount, s)
    else return ((s x).expandedDescendentCount, s)

def getExpandedDescendentCount (reset : Bool) (x : ι) (s : TreeItems ι) :
    Option (ℤ × TreeItems ι) :=
  countWithin (Fintype.card ι) reset x s

end TreeItems

/-! ## Runs -/

/-- A call from outside. -/
inductive TreeOp (ι : Type) where
  | mutateChildren (p : ι) (m : ListMutator (Option ι))
  | sortChildren (p : ι) (le : Option ι → Option ι → Bool)
  | setExpanded (x : ι) (value : Bool)
  | isExpanded (x : ι)
  | getExpandedDescendentCount (reset : Bool) (x : ι)

variable {ι : Type} [DecidableEq ι] [Fintype ι]

def TreeOp.perform (s : TreeItems ι) : TreeOp ι → Option (TreeItems ι)
  | .mutateChildren p m => s.mutateChildren p m
  | .sortChildren p le => s.sortChildren p le
  | .setExpanded x value => s.setExpanded x value
  | .isExpanded x => some (s.validate x)
  | .getExpandedDescendentCount reset x => (s.getExpandedDescendentCount reset x).map Prod.snd

/-- New items, and then calls one after the other, all of which return. -/
def TreeItems.afterOps (ops : List (TreeOp ι)) : Option (TreeItems ι) :=
  ops.foldlM TreeOp.perform fun _ => TreeItem.new

end JavaFx.Control
