import JavaFx.Lib.Ascending

/-!
# `MultipleSelectionModelBase`

The selected rows are a bit set, walked in ascending order; the selected index, the selected
item and the focus are kept beside it. The list of items does not change. What the methods
report to the listeners of `getSelectedIndices()` is recorded with the list as it is at that
moment. The focus is that of a `FocusModel`, or `-1` where there is none.
-/

namespace JavaFx.Control

inductive SelectionMode where
  | single
  | multiple
deriving DecidableEq

/-- One step of a change of the selected indices: what `next()` makes visible. -/
structure IndexChange where
  from_ : ℤ
  to_ : ℤ
  removed : List ℤ
deriving DecidableEq

/-- A change, and the list its listeners see while they walk it. -/
structure Notification where
  changes : List IndexChange
  list : List ℕ
deriving DecidableEq

/-- What does not change: the mode, the items and whether there is a focus model. -/
structure SelectionSetup (α : Type) where
  selectionMode : SelectionMode
  items : List (Option α)
  hasFocusModel : Bool

structure MultipleSelectionModel (α : Type) where
  selectedIndices : Ascending
  selectedIndex : ℤ
  selectedItem : Option α
  focusedIndex : ℤ
  makeAtomic : Bool
  fired : List Notification

namespace MultipleSelectionModel

variable {α : Type} (setup : SelectionSetup α)

def new : MultipleSelectionModel α where
  selectedIndices := .empty
  selectedIndex := -1
  selectedItem := none
  focusedIndex := -1
  makeAtomic := false
  fired := []

def getItemCount : ℤ := setup.items.length

/-- `null` outside the items -/
def getModelItem (index : ℤ) : Option α :=
  if 0 ≤ index then setup.items[index.toNat]?.join else none

/-- `FocusModel.focus` -/
def focus (index : ℤ) (s : MultipleSelectionModel α) : MultipleSelectionModel α :=
  { s with focusedIndex := if index < 0 ∨ getItemCount setup ≤ index then -1 else index }

def getFocusedIndex (s : MultipleSelectionModel α) : ℤ :=
  if setup.hasFocusModel then s.focusedIndex else -1

/-- The listener on the selected index keeps the selected item in step. -/
def setSelectedIndex (index : ℤ) (s : MultipleSelectionModel α) : MultipleSelectionModel α :=
  if index = s.selectedIndex then s
  else { s with selectedIndex := index, selectedItem := getModelItem setup index }

def setSelectedItem (item : Option α) (s : MultipleSelectionModel α) : MultipleSelectionModel α :=
  { s with selectedItem := item }

/-- `selectedIndices.set(index)` -/
def setBit (index : ℤ) (s : MultipleSelectionModel α) : MultipleSelectionModel α :=
  { s with selectedIndices := s.selectedIndices.insert index.toNat }

def isSelected (s : MultipleSelectionModel α) (index : ℤ) : Bool :=
  0 ≤ index && decide (index.toNat ∈ s.selectedIndices)

def isEmpty (s : MultipleSelectionModel α) : Bool := s.selectedIndices.toList.isEmpty

def quietClearSelection (s : MultipleSelectionModel α) : MultipleSelectionModel α :=
  { s with selectedIndices := .empty }

def setMakeAtomic (flag : Bool) (s : MultipleSelectionModel α) : MultipleSelectionModel α :=
  { s with makeAtomic := flag }

/-! ## `selectedIndicesSeq` -/

/-- `createListFromBitSet(bitset).get(index)` -/
def getFrom (bitset : Ascending) (index : ℤ) : ℤ :=
  if index < 0 ∨ getItemCount setup ≤ index then -1
  else match bitset.toList[index.toNat]? with
    | some row => row
    | none => -1

/-- All entries of such a list. -/
def entries (bitset : Ascending) : List ℤ :=
  (List.range bitset.toList.length).map fun i : ℕ => getFrom setup bitset i

/-- `selectedIndicesSeq.indexOf(row)` -/
def indexOf (s : MultipleSelectionModel α) (row : ℤ) : ℤ :=
  match (entries setup s.selectedIndices).findIdx? (· == row) with
  | some i => i
  | none => -1

/-- `selectedIndicesSeq.callObservers` -/
def callObservers (changes : List IndexChange) (s : MultipleSelectionModel α) :
    MultipleSelectionModel α :=
  { s with fired := s.fired ++ [⟨changes, s.selectedIndices.toList⟩] }

/-- The report of a row that has been selected. -/
def fireAdded (row : ℤ) (s : MultipleSelectionModel α) : MultipleSelectionModel α :=
  if s.makeAtomic then s
  else
    let changeIndex := indexOf setup s row
    s.callObservers [⟨changeIndex, changeIndex + 1, []⟩]

/-! ## The methods -/

/-- `clone.nextSetBit(index)` -/
def nextSetBit (bitset : Ascending) (index : ℕ) : ℤ :=
  match bitset.toList.find? (index ≤ ·) with
  | some row => row
  | none => -1

/-- The list of the removed rows in `clearSelection()`: its `get` is `nextSetBit`. -/
def removedRows (bitset : Ascending) : List ℤ :=
  (List.range bitset.toList.length).map (nextSetBit bitset)

def clearSelection (s : MultipleSelectionModel α) : MultipleSelectionModel α :=
  let s := if s.makeAtomic then s else focus setup (-1) (setSelectedIndex setup (-1) s)
  if s.isEmpty then s
  else
    let removed := removedRows s.selectedIndices
    let s := s.quietClearSelection
    if s.makeAtomic then s else s.callObservers [⟨0, 0, removed⟩]

variable [DecidableEq α]

def select (row : ℤ) (s : MultipleSelectionModel α) : MultipleSelectionModel α :=
  if row = -1 then clearSelection setup s
  else if row < 0 ∨ getItemCount setup ≤ row then s
  else
    let isSameRow : Bool := row = s.selectedIndex
    let newItem := getModelItem setup row
    let isSameItem : Bool := newItem.isSome ∧ newItem = s.selectedItem
    let fireUpdatedItemEvent := isSameRow && !isSameItem
    let s :=
      if row.toNat ∈ s.selectedIndices then s
      else
        let s := if setup.selectionMode = .single then s.quietClearSelection else s
        s.setBit row
    let s := fireAdded setup row (focus setup row (setSelectedIndex setup row s))
    if fireUpdatedItemEvent then s.setSelectedItem newItem else s

def clearAndSelect (row : ℤ) (s : MultipleSelectionModel α) : MultipleSelectionModel α :=
  if s.selectedIndices.toList.length = 1 ∧ s.isSelected row then s
  else
    let s := s.setMakeAtomic true
    let previousSelectedIndices := entries setup s.selectedIndices
    let s := clearSelection setup s
    let s := select setup row s
    let s := s.setMakeAtomic false
    let changeIndex := indexOf setup s row
    s.callObservers [⟨changeIndex, changeIndex + 1, previousSelectedIndices⟩]

/-- The loop of `select(T)`, from row `i` on. -/
def selectFrom (obj : Option α) (s : MultipleSelectionModel α) :
    ℕ → List (Option α) → MultipleSelectionModel α
  | _, [] => s.setSelectedItem obj
  | i, rowObj :: rest =>
    if rowObj.isSome ∧ rowObj = obj then
      if s.isSelected i then s
      else
        let s := if setup.selectionMode = .single then s.quietClearSelection else s
        select setup i s
    else selectFrom obj s (i + 1) rest

/-- `select(T)` -/
def selectItem (obj : Option α) (s : MultipleSelectionModel α) : MultipleSelectionModel α :=
  if obj = none ∧ setup.selectionMode = .single then clearSelection setup s
  else selectFrom setup obj s 0 setup.items

/-! ### `selectIndices` -/

/-- Whether a row is one of the items. -/
def inRange (index : ℤ) : Bool := 0 ≤ index && decide (index < getItemCount setup)

/-- The single selection: the last row that is one of the items. -/
def selectLastOf (rows : List ℤ) (s : MultipleSelectionModel α) : MultipleSelectionModel α :=
  match rows.reverse.find? (inRange setup) with
  | some index => select setup index (s.setBit index)
  | none => s

/-- What the multiple selection keeps while it walks the rows: the rows that became selected
and the last one that is an item. -/
structure RowWalk (α : Type) where
  model : MultipleSelectionModel α
  actualSelectedRows : List ℤ
  lastIndex : ℤ

def RowWalk.visit (w : RowWalk α) (index : ℤ) : RowWalk α :=
  if inRange setup index then
    if index.toNat ∈ w.model.selectedIndices then { w with lastIndex := index }
    else ⟨w.model.setBit index, w.actualSelectedRows ++ [index], index⟩
  else w

/-- The state of the change `createRangeChange` makes. -/
structure RangeChange where
  pos : ℕ
  invalid : Bool
deriving DecidableEq

/-- The inner loop of `next()`: from the row before, the position after the rows it takes. -/
def runEnd : ℤ → List ℤ → ℕ → ℕ
  | _, [], pos => pos
  | previousEndValue, endValue :: rest, pos =>
    if previousEndValue ≠ endValue - 1 then pos + 1
    else runEnd endValue rest (pos + 1)

/-- `next()` of the range change, over and over: the steps a listener gets to see. -/
def rangeSteps (addedItems : List ℤ) : ℕ → RangeChange → List IndexChange
  | 0, _ => []
  | fuel + 1, c =>
    match addedItems.drop c.pos with
    | [] => []
    | startValue :: rest =>
      let to_ := runEnd startValue rest (c.pos + 1)
      if c.invalid ∨ to_ < addedItems.length then
        ⟨c.pos, to_, []⟩ :: rangeSteps addedItems fuel ⟨to_, false⟩
      else []

/-- `createRangeChange`: every step moves on, so the rows are enough rounds. -/
def createRangeChange (addedItems : List ℤ) : List IndexChange :=
  rangeSteps addedItems (addedItems.length + 1) ⟨0, true⟩

/-- `rows` is `none` where the source has `null`. -/
def selectIndices (row : ℤ) (rows : Option (List ℤ)) (s : MultipleSelectionModel α) :
    MultipleSelectionModel α :=
  match rows with
  | none => select setup row s
  | some rows =>
    if setup.selectionMode = .single then
      let s := s.quietClearSelection
      let s := selectLastOf setup rows s
      let s :=
        if s.isEmpty = true ∧ 0 < row ∧ row < getItemCount setup then select setup row (s.setBit row)
        else s
      s.callObservers [⟨0, 1, []⟩]
    else
      let w := (row :: rows).foldl (RowWalk.visit setup) ⟨s, [], -1⟩
      let s := w.model
      let s :=
        if w.lastIndex ≠ -1 then
          (focus setup w.lastIndex (setSelectedIndex setup w.lastIndex s)).setSelectedItem
            (getModelItem setup w.lastIndex)
        else s
      s.callObservers (createRangeChange w.actualSelectedRows)

def selectAll (s : MultipleSelectionModel α) : MultipleSelectionModel α :=
  if setup.selectionMode = .single then s
  else
    let s := s.quietClearSelection
    if getItemCount setup ≤ 0 then s
    else
      let rowCount := getItemCount setup
      let s := { s with selectedIndices := .below rowCount.toNat }
      let s := s.callObservers [⟨0, rowCount, []⟩]
      let focusedIndex := getFocusedIndex setup s
      if focusedIndex = -1 then
        focus setup (rowCount - 1) (setSelectedIndex setup (rowCount - 1) s)
      else focus setup focusedIndex (setSelectedIndex setup focusedIndex s)

/-- `if (getSelectionMode() == SINGLE) quietClearSelection();` -/
def clearIfSingle (s : MultipleSelectionModel α) : MultipleSelectionModel α :=
  if setup.selectionMode = .single then s.quietClearSelection else s

def selectFirst (s : MultipleSelectionModel α) : MultipleSelectionModel α :=
  let s := clearIfSingle setup s
  if 0 < getItemCount setup then select setup 0 s else s

def selectLast (s : MultipleSelectionModel α) : MultipleSelectionModel α :=
  let s := clearIfSingle setup s
  let numItems := getItemCount setup
  if 0 < numItems ∧ s.selectedIndex < numItems - 1 then select setup (numItems - 1) s else s

/-- `clearSelection(int)` -/
def clearSelectionAt (index : ℤ) (s : MultipleSelectionModel α) : MultipleSelectionModel α :=
  if index < 0 then s
  else
    let wasEmpty := s.isEmpty
    let s := { s with selectedIndices := s.selectedIndices.erase index.toNat }
    let s := if !wasEmpty && s.isEmpty then clearSelection setup s else s
    s.callObservers [⟨index, index + 1, [index]⟩]

def selectPrevious (s : MultipleSelectionModel α) : MultipleSelectionModel α :=
  let focusIndex := getFocusedIndex setup s
  let s := clearIfSingle setup s
  if focusIndex = -1 then select setup (getItemCount setup - 1) s
  else if 0 < focusIndex then select setup (focusIndex - 1) s
  else s

def selectNext (s : MultipleSelectionModel α) : MultipleSelectionModel α :=
  let focusIndex := getFocusedIndex setup s
  let s := clearIfSingle setup s
  if focusIndex = -1 then select setup 0 s
  else if focusIndex ≠ getItemCount setup - 1 then select setup (focusIndex + 1) s
  else s

end MultipleSelectionModel

/-- A call of the selection model. `focus` is the one call that goes to the focus model. -/
inductive SelectionOp (α : Type) where
  | select (row : ℤ)
  | selectItem (obj : Option α)
  | clearAndSelect (row : ℤ)
  | selectIndices (row : ℤ) (rows : Option (List ℤ))
  | selectAll
  | selectFirst
  | selectLast
  | selectNext
  | selectPrevious
  | clearSelection
  | clearSelectionAt (index : ℤ)
  | focus (index : ℤ)

def SelectionOp.perform {α : Type} [DecidableEq α] (setup : SelectionSetup α)
    (s : MultipleSelectionModel α) : SelectionOp α → MultipleSelectionModel α
  | .select row => MultipleSelectionModel.select setup row s
  | .selectItem obj => MultipleSelectionModel.selectItem setup obj s
  | .clearAndSelect row => MultipleSelectionModel.clearAndSelect setup row s
  | .selectIndices row rows => MultipleSelectionModel.selectIndices setup row rows s
  | .selectAll => MultipleSelectionModel.selectAll setup s
  | .selectFirst => MultipleSelectionModel.selectFirst setup s
  | .selectLast => MultipleSelectionModel.selectLast setup s
  | .selectNext => MultipleSelectionModel.selectNext setup s
  | .selectPrevious => MultipleSelectionModel.selectPrevious setup s
  | .clearSelection => MultipleSelectionModel.clearSelection setup s
  | .clearSelectionAt index => MultipleSelectionModel.clearSelectionAt setup index s
  | .focus index => MultipleSelectionModel.focus setup index s

end JavaFx.Control
