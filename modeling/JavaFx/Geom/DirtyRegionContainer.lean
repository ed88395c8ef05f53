import JavaFx.JavaInt
import Mathlib.Order.MinMax

/-!
# `DirtyRegionContainer`

An array of rectangles that do not leave its capacity: when it is full, rectangles are merged in
pairs, those of the smallest union first. The pairs stand in a heap of references to `int[3]`, and
the heap is kept from one time to the next. A method that reads past an array, or whose loops need
more than `fuel` turns, has no result.
-/

namespace JavaFx.Geom

variable {α : Type} [LinearOrder α]

/-! ## Rectangles -/

structure RectBounds (α : Type) where
  minX : α
  minY : α
  maxX : α
  maxY : α
deriving DecidableEq

namespace RectBounds

def isEmpty (r : RectBounds α) : Bool := !(r.minX ≤ r.maxX && r.minY ≤ r.maxY)

def intersects (r other : RectBounds α) : Bool :=
  !(other.isEmpty || r.isEmpty) && (r.minX ≤ other.maxX && r.minY ≤ other.maxY &&
    other.minX ≤ r.maxX && other.minY ≤ r.maxY)

def unionWith (r other : RectBounds α) : RectBounds α :=
  if other.isEmpty then r
  else if r.isEmpty then other
  else
    { minX := min r.minX other.minX
      minY := min r.minY other.minY
      maxX := max r.maxX other.maxX
      maxY := max r.maxY other.maxY }

end RectBounds

/-! ## The heap -/

/-- An `int[3]` of the heap: the area of the union of two regions, and their indexes. -/
structure Entry where
  area : ℤ
  i0 : ℕ
  i1 : ℕ
deriving DecidableEq

/-- The array of references and what they refer to. -/
structure Heap where
  cells : List Entry
  heap : List ℕ
  heapSize : ℕ
  invalidMask : BitVec 64 := 0
deriving DecidableEq

namespace Heap

/-- `heap[i]`, as a value. -/
def entry (h : Heap) (i : ℕ) : Option Entry := do
  let ref ← h.heap[i]?
  h.cells[ref]?

/-- The child that `siftDown` compares with. -/
def smallerChild (h : Heap) (i : ℕ) : Option ℕ := do
  let child := 2 * i + 1
  let left ← h.entry child
  if child + 1 < h.heapSize then do
    let right ← h.entry (child + 1)
    return if right.area < left.area then child + 1 else child
  else return child

def siftDown : ℕ → Heap → ℕ → Option Heap
  | 0, _, _ => none
  | fuel + 1, h, i =>
      if i < h.heapSize / 2 then do
        let child ← h.smallerChild i
        let e ← h.entry i
        let c ← h.entry child
        if e.area ≤ c.area then return h
        else do
          let ref ← h.heap[i]?
          let ref' ← h.heap[child]?
          siftDown fuel { h with heap := (h.heap.set child ref).set i ref' } child
      else return h

/-- The loop of `heapify`, from `i` down. -/
def heapify (fuel : ℕ) : ℕ → Heap → Option Heap
  | 0, h => siftDown fuel h 0
  | i + 1, h => do
      let h ← siftDown fuel h (i + 1)
      heapify fuel i h

end Heap

/-- `1 << i` -/
def bit (i : ℕ) : BitVec 32 := 1#32 <<< (i % 32)

/-- An index of the entry is one of a region that has been merged, as far as the mask can tell. -/
def Entry.isInvalid (e : Entry) (invalidMask : BitVec 64) : Bool :=
  0 < ((bit e.i0 ||| bit e.i1).signExtend 64 &&& invalidMask).toInt

def resolveMap : ℕ → List ℕ → ℕ → Option ℕ
  | 0, _, _ => none
  | fuel + 1, map, idx => do
      let next ← map[idx]?
      if next ≠ idx then resolveMap fuel map next else return idx

/-! ## The container -/

structure DirtyRegionContainer (α : Type) where
  dirtyRegions : List (RectBounds α)
  emptyIndex : ℕ := 0
  cells : List Entry := []
  /-- The references of the heap, or null. -/
  heap : Option (List ℕ) := none

namespace DirtyRegionContainer

/-- `new DirtyRegionContainer(count)`, with the bounds of `new RectBounds()`. -/
def create (count : ℕ) (blank : RectBounds α) : DirtyRegionContainer α where
  dirtyRegions := List.replicate count blank

section Compress

-- `area` is what `unifiedRegionArea` computes of two rectangles
variable (area : RectBounds α → RectBounds α → ℤ) (fuel : ℕ)

def unifiedRegionArea (dirtyRegions : List (RectBounds α)) (i0 i1 : ℕ) : Option ℤ := do
  let r0 ← dirtyRegions[i0]?
  let r1 ← dirtyRegions[i1]?
  return area r0 r1

/-- The loop of `takeMinWithMap`: the heap, and the reference that is taken from it. -/
def revalue (dirtyRegions : List (RectBounds α)) (map : List ℕ) : ℕ → Heap → Option (Heap × ℕ)
  | 0, _ => none
  | turns + 1, h => do
      let temp ← h.heap[0]?
      let e ← h.cells[temp]?
      if e.isInvalid h.invalidMask then do
        let i0 ← resolveMap fuel map e.i0
        let i1 ← resolveMap fuel map e.i1
        let unified ← unifiedRegionArea area dirtyRegions i0 i1
        let h ← { h with cells := h.cells.set temp { e with area := unified } }.siftDown fuel 0
        let top ← h.heap[0]?
        if top = temp then return (h, temp) else revalue dirtyRegions map turns h
      else return (h, temp)

def takeMinWithMap (dirtyRegions : List (RectBounds α)) (map : List ℕ) (h : Heap) :
    Option (Heap × Entry) := do
  let (h, temp) ← revalue area fuel dirtyRegions map fuel h
  if 0 < h.heapSize ∧ h.heapSize ≤ h.heap.length then do
    let h ← { h with heap := h.heap.set (h.heapSize - 1) temp }.siftDown fuel 0
    let min ← h.cells[temp]?
    return ({ h with heapSize := h.heapSize - 1 }, min)
  else none

/-- The first loop of `heapCompress`, with the number of turns. -/
def mergeRegions : ℕ → List (RectBounds α) → List ℕ → Heap →
    Option (List (RectBounds α) × List ℕ × Heap)
  | 0, dirtyRegions, map, h => some (dirtyRegions, map, h)
  | turns + 1, dirtyRegions, map, h => do
      let (h, min) ← takeMinWithMap area fuel dirtyRegions map h
      let idx0 ← resolveMap fuel map min.i0
      let idx1 ← resolveMap fuel map min.i1
      if idx0 ≠ idx1 then do
        let r0 ← dirtyRegions[idx0]?
        let r1 ← dirtyRegions[idx1]?
        mergeRegions turns (dirtyRegions.set idx0 (r0.unionWith r1)) (map.set idx1 idx0)
          { h with
            invalidMask :=
              h.invalidMask ||| (bit idx0).signExtend 64 ||| (bit idx1).signExtend 64 }
      else mergeRegions turns dirtyRegions map h

/-- `while (map[emptyIndex - 1] != emptyIndex - 1) --emptyIndex` -/
def dropUnused (map : List ℕ) : ℕ → Option ℕ
  | 0 => none
  | last + 1 => do
      let next ← map[last]?
      if next ≠ last then dropUnused map last else return last + 1

/-- The second loop of `heapCompress`, from `i` on: it moves the unused regions to the end. -/
def moveUnused : ℕ → ℕ → List (RectBounds α) → List ℕ → ℕ → Option (List (RectBounds α) × ℕ)
  | 0, _, _, _, _ => none
  | fuel + 1, i, dirtyRegions, map, emptyIndex =>
      if i < emptyIndex then do
        let next ← map[i]?
        if next ≠ i then do
          let emptyIndex ← dropUnused map emptyIndex
          if i < emptyIndex - 1 then do
            let tmp ← dirtyRegions[emptyIndex - 1]?
            let unused ← dirtyRegions[i]?
            moveUnused fuel (i + 1) ((dirtyRegions.set (emptyIndex - 1) unused).set i tmp)
              (map.set i i) (emptyIndex - 1)
          else moveUnused fuel (i + 1) dirtyRegions map emptyIndex
        else moveUnused fuel (i + 1) dirtyRegions map emptyIndex
      else return (dirtyRegions, emptyIndex)

/-- The pairs of indexes, as `compress_heap` goes through them. -/
def pairs (n : ℕ) : List (ℕ × ℕ) :=
  (List.range (n - 1)).flatMap fun i => (List.range' (i + 1) (n - 1 - i)).map fun j => (i, j)

/-- The loops of `compress_heap` that write the pairs into the arrays of the heap, from `k` on. -/
def fillHeap (dirtyRegions : List (RectBounds α)) (heap : List ℕ) :
    List (ℕ × ℕ) → ℕ → List Entry → Option (List Entry)
  | [], _, cells => some cells
  | (i, j) :: rest, k, cells => do
      let ref ← heap[k]?
      let unified ← unifiedRegionArea area dirtyRegions i j
      fillHeap dirtyRegions heap rest (k + 1) (cells.set ref { area := unified, i0 := i, i1 := j })

/-- `n * (n - 1) / 2`, as an `int`. -/
def heapLength (n : ℕ) : ℤ := (toInt (n * (n - 1))).tdiv 2

/-- The heap of the container, which is made when it is null. -/
def openHeap (c : DirtyRegionContainer α) : Option (List ℕ × List Entry) :=
  match c.heap with
  | some heap => some (heap, c.cells)
  | none =>
      let length := heapLength c.dirtyRegions.length
      if length < 0 then none
      else some (List.range length.toNat, List.replicate length.toNat ⟨0, 0, 0⟩)

/-- `compress_heap()`, with `heapCompress()` -/
def compressHeap (c : DirtyRegionContainer α) : Option (DirtyRegionContainer α) := do
  let n := c.dirtyRegions.length
  let (heap, cells) ← c.openHeap
  let cells ← fillHeap area c.dirtyRegions heap (pairs n) 0 cells
  let h : Heap := { cells := cells, heap := heap, heapSize := heap.length }
  let h ← h.heapify fuel (h.heapSize / 2)
  let (dirtyRegions, map, h) ←
    mergeRegions area fuel (n / 2) c.dirtyRegions (List.range n) h
  let (dirtyRegions, emptyIndex) ← moveUnused fuel 0 dirtyRegions map c.emptyIndex
  return {
    dirtyRegions := dirtyRegions
    emptyIndex := emptyIndex
    cells := h.cells
    heap := some h.heap }

/-- The loop of `addDirtyRegion` over the regions, with the number of turns. -/
def absorb : ℕ → ℕ → RectBounds α → List (RectBounds α) → ℕ →
    Option (RectBounds α × List (RectBounds α) × ℕ)
  | 0, _, region, dirtyRegions, emptyIndex => some (region, dirtyRegions, emptyIndex)
  | turns + 1, tempIndex, region, dirtyRegions, emptyIndex => do
      let dr ← dirtyRegions[tempIndex]?
      if region.intersects dr then do
        let last ← dirtyRegions[emptyIndex - 1]?
        absorb turns tempIndex (region.unionWith dr)
          ((dirtyRegions.set tempIndex last).set (emptyIndex - 1) dr) (emptyIndex - 1)
      else absorb turns (tempIndex + 1) region dirtyRegions emptyIndex

def addDirtyRegion : ℕ → DirtyRegionContainer α → RectBounds α → Option (DirtyRegionContainer α)
  | 0, _, _ => none
  | depth + 1, c, region =>
      if region.isEmpty then some c
      else do
        let (region, dirtyRegions, emptyIndex) ←
          absorb c.emptyIndex 0 region c.dirtyRegions c.emptyIndex
        let c := { c with dirtyRegions := dirtyRegions, emptyIndex := emptyIndex }
        if emptyIndex < dirtyRegions.length then
          return { c with
            dirtyRegions := dirtyRegions.set emptyIndex region
            emptyIndex := emptyIndex + 1 }
        else if dirtyRegions.length = 1 then do
          let dr ← dirtyRegions[0]?
          return { c with dirtyRegions := dirtyRegions.set 0 (dr.unionWith region) }
        else do
          let c ← c.compressHeap area fuel
          addDirtyRegion depth c region

end Compress

def reset (c : DirtyRegionContainer α) : DirtyRegionContainer α := { c with emptyIndex := 0 }

end DirtyRegionContainer

end JavaFx.Geom
