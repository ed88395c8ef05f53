import JavaFx.Method
import JavaFx.JavaInt

/-!
# `com.sun.javafx.collections.ObservableFloatArrayImpl`

An array with spare room. Of its elements only those below `size` are visible. The indexes and
lengths that callers pass are added as `int`s, so that a sum may wrap round.
-/

namespace JavaFx.Collections

/-- A value of type `int`. -/
abbrev IntValue : Type := {x : ℤ // -2147483648 ≤ x ∧ x ≤ maxInt}

/-- A `float[]`. -/
abbrev FloatValues (α : Type) : Type := {values : List α // (values.length : ℤ) ≤ maxInt}

/-- The fields of an array. -/
structure ObservableFloatArray (α : Type) where
  array : List α := []
  size : ℕ := 0

/-- The observable arrays there are. -/
abbrev Heap (α : Type) : Type := ℕ → ObservableFloatArray α

variable {α : Type} [Zero α]

namespace ObservableFloatArray

/-- What a method of the array `r` leaves. -/
def put (r : ℕ) (a : ObservableFloatArray α) : Method (Heap α) Unit :=
  modify fun h => Function.update h r a

/-! ## Range checks -/

/-- `rangeCheck(int)` -/
def rangeCheck (r : ℕ) (size : ℤ) : Method (Heap α) Unit := do
  let h ← Method.this
  if (h r).size < size then throw .arrayIndexOutOfBounds

/-- `rangeCheck(src, srcIndex, length)`, for a source of `size` elements that is not null. -/
def rangeCheckSource (size : ℕ) (srcIndex length : ℤ) : Method (Heap α) Unit := do
  if srcIndex < 0 ∨ (size : ℤ) < toInt (srcIndex + length) then throw .arrayIndexOutOfBounds
  if length < 0 then throw .arrayIndexOutOfBounds

/-- A reference that is used. -/
def deref {β : Type} : Option β → Method (Heap α) β
  | some x => pure x
  | none => throw .nullPointer

/-! ## Capacity -/

/-- `new float[length]`; `alloc` says which lengths there is memory for. -/
def newArray (alloc : ℕ → Bool) (length : ℤ) : Method (Heap α) (List α) := do
  if length < 0 then throw .negativeArraySize
  if !alloc length.toNat then throw .outOfMemory
  return List.replicate length.toNat 0

def ensureCapacity (alloc : ℕ → Bool) (r : ℕ) (capacity : ℤ) : Method (Heap α) Unit := do
  let h ← Method.this
  let a := h r
  if (a.array.length : ℤ) < capacity then
    -- `Arrays.copyOf(array, capacity)`
    let array ← newArray alloc capacity
    put r { a with array := a.array ++ array.drop a.array.length }

/-- `MAX_ARRAY_SIZE` -/
def maxArraySize : ℤ := maxInt - 8

def hugeCapacity (minCapacity : ℤ) : Method (Heap α) ℤ :=
  if minCapacity < 0 then throw .outOfMemory
  else pure (if minCapacity > maxArraySize then maxInt else maxArraySize)

def growCapacity (alloc : ℕ → Bool) (r : ℕ) (length : ℤ) : Method (Heap α) Unit := do
  let h ← Method.this
  let a := h r
  let minCapacity := toInt (a.size + length)
  let oldCapacity : ℤ := a.array.length
  if minCapacity > oldCapacity then
    let newCapacity := toInt (oldCapacity + oldCapacity / 2)
    let newCapacity := if newCapacity < minCapacity then minCapacity else newCapacity
    let newCapacity ← if newCapacity > maxArraySize then hugeCapacity minCapacity else pure newCapacity
    ensureCapacity alloc r newCapacity
  else if 0 < length ∧ minCapacity < 0 then throw .outOfMemory

/-! ## Copying out -/

/-- `copyTo(srcIndex, float[] dest, destIndex, length)`: the array `dest` afterwards. -/
def copyTo (r : ℕ) (srcIndex : ℤ) (dest : Option (List α)) (destIndex length : ℤ) :
    Method (Heap α) (List α) := do
  rangeCheck r (toInt (srcIndex + length))
  let h ← Method.this
  let dest ← deref dest
  liftM (arraycopy (h r).array srcIndex dest destIndex length)

/-- `(dest == null) || (length > dest.length) ? new float[length] : dest` -/
def destination (alloc : ℕ → Bool) (dest : Option (List α)) (length : ℤ) :
    Method (Heap α) (List α) :=
  match dest with
  | none => newArray alloc length
  | some dest => if length > dest.length then newArray alloc length else pure dest

/-- `toArray(float[] dest)` -/
def toArray (alloc : ℕ → Bool) (r : ℕ) (dest : Option (List α)) : Method (Heap α) (List α) := do
  let h ← Method.this
  let a := h r
  let dest ← destination alloc dest a.size
  liftM (arraycopy a.array 0 dest 0 a.size)

/-- `toArray(index, float[] dest, length)` -/
def toArrayPart (alloc : ℕ → Bool) (r : ℕ) (index : ℤ) (dest : Option (List α)) (length : ℤ) :
    Method (Heap α) (List α) := do
  rangeCheck r (toInt (index + length))
  let h ← Method.this
  let dest ← destination alloc dest length
  liftM (arraycopy (h r).array index dest 0 length)

/-! ## Changes -/

/-- `set(index, value)` -/
def setAt (r : ℕ) (index : ℤ) (value : α) : Method (Heap α) Unit := do
  rangeCheck r (toInt (index + 1))
  let h ← Method.this
  let array ← liftM (arraySet (h r).array index value)
  put r { h r with array := array }

/-- `set(destIndex, float[] src, srcIndex, length)` -/
def set (r : ℕ) (destIndex : ℤ) (src : Option (List α)) (srcIndex length : ℤ) :
    Method (Heap α) Unit := do
  rangeCheck r (toInt (destIndex + length))
  let h ← Method.this
  let src ← deref src
  let array ← liftM (arraycopy src srcIndex (h r).array destIndex length)
  put r { h r with array := array }

/-- `set(destIndex, ObservableFloatArray src, srcIndex, length)` -/
def setFrom (r : ℕ) (destIndex : ℤ) (src : Option ℕ) (srcIndex length : ℤ) :
    Method (Heap α) Unit := do
  rangeCheck r (toInt (destIndex + length))
  let src ← deref src
  let h ← Method.this
  let array ← copyTo src srcIndex (some (h r).array) destIndex length
  put r { h r with array := array }

/-- `copyTo(srcIndex, ObservableFloatArray dest, destIndex, length)` -/
def copyToArray (r : ℕ) (srcIndex : ℤ) (dest : Option ℕ) (destIndex length : ℤ) :
    Method (Heap α) Unit := do
  rangeCheck r (toInt (srcIndex + length))
  let dest ← deref dest
  let h ← Method.this
  set dest destIndex (some (h r).array) srcIndex length

def resize (alloc : ℕ → Bool) (r : ℕ) (newSize : ℤ) : Method (Heap α) Unit := do
  if newSize < 0 then throw .negativeArraySize
  ensureCapacity alloc r newSize
  let h ← Method.this
  let a := h r
  let minSize := min a.size newSize.toNat
  -- `Arrays.fill(array, minSize, size, 0)`
  put r { array := Splice.splice minSize (newSize.toNat - minSize)
            (List.replicate (newSize.toNat - minSize) 0) a.array
          size := newSize.toNat }

/-- What follows the copying in `addAllInternal`. -/
def appended (r : ℕ) (array : List α) (length : ℤ) : Method (Heap α) Unit := do
  let h ← Method.this
  put r { array := array, size := (toInt ((h r).size + length)).toNat }

/-- `addAllInternal(float[] src, srcIndex, length)` -/
def addAllInternal (alloc : ℕ → Bool) (r : ℕ) (src : List α) (srcIndex length : ℤ) :
    Method (Heap α) Unit := do
  growCapacity alloc r length
  let h ← Method.this
  let array ← liftM (arraycopy src srcIndex (h r).array (h r).size length)
  appended r array length

/-- `addAllInternal(ObservableFloatArray src, srcIndex, length)` -/
def addAllInternalFrom (alloc : ℕ → Bool) (r src : ℕ) (srcIndex length : ℤ) :
    Method (Heap α) Unit := do
  growCapacity alloc r length
  let h ← Method.this
  let array ← copyTo src srcIndex (some (h r).array) (h r).size length
  appended r array length

/-- `size = 0`, which `setAllInternal` starts with. -/
def emptied (r : ℕ) : Method (Heap α) Unit := do
  let h ← Method.this
  put r { h r with size := 0 }

/-- `setAllInternal(float[] src, srcIndex, length)` -/
def setAllInternal (alloc : ℕ → Bool) (r : ℕ) (src : List α) (srcIndex length : ℤ) :
    Method (Heap α) Unit := do
  emptied r
  ensureCapacity alloc r length
  let h ← Method.this
  let array ← liftM (arraycopy src srcIndex (h r).array 0 length)
  put r { array := array, size := length.toNat }

/-- `setAllInternal(ObservableFloatArray src, srcIndex, length)` -/
def setAllInternalFrom (alloc : ℕ → Bool) (r src : ℕ) (srcIndex length : ℤ) :
    Method (Heap α) Unit := do
  if src = r then
    if srcIndex = 0 then resize alloc r length
    else
      let h ← Method.this
      let array ← liftM (arraycopy (h r).array srcIndex (h r).array 0 length)
      put r { array := array, size := length.toNat }
  else
    emptied r
    ensureCapacity alloc r length
    let h ← Method.this
    let array ← copyTo src srcIndex (some (h r).array) 0 length
    put r { array := array, size := length.toNat }

def trimToSize (alloc : ℕ → Bool) (r : ℕ) : Method (Heap α) Unit := do
  let h ← Method.this
  let a := h r
  if a.array.length ≠ a.size then
    let newArray ← newArray alloc a.size
    let array ← liftM (arraycopy a.array 0 newArray 0 a.size)
    put r { a with array := array }

end ObservableFloatArray

/-! ## Calls -/

/-- A call of a public method; arrays may be null. -/
inductive ArrayCall (α : Type) where
  | setAt (index : IntValue) (value : α)
  | set (destIndex : IntValue) (src : Option (FloatValues α)) (srcIndex length : IntValue)
  | setFrom (destIndex : IntValue) (src : Option ℕ) (srcIndex length : IntValue)
  | setAll (src : Option (FloatValues α))
  | setAllPart (src : Option (FloatValues α)) (srcIndex length : IntValue)
  | setAllFrom (src : Option ℕ)
  | setAllPartFrom (src : Option ℕ) (srcIndex length : IntValue)
  | addAll (src : Option (FloatValues α))
  | addAllPart (src : Option (FloatValues α)) (srcIndex length : IntValue)
  | addAllFrom (src : Option ℕ)
  | addAllPartFrom (src : Option ℕ) (srcIndex length : IntValue)
  | copyTo (srcIndex : IntValue) (dest : Option (FloatValues α)) (destIndex length : IntValue)
  | copyToArray (srcIndex : IntValue) (dest : Option ℕ) (destIndex length : IntValue)
  | toArray (dest : Option (FloatValues α))
  | toArrayPart (index : IntValue) (dest : Option (FloatValues α)) (length : IntValue)
  | resize (newSize : IntValue)
  | clear
  | ensureCapacity (capacity : IntValue)
  | trimToSize

open ObservableFloatArray in
/-- What the call does, and the array that is returned or copied to. -/
def ArrayCall.perform (alloc : ℕ → Bool) (r : ℕ) :
    ArrayCall α → Method (Heap α) (Option (List α))
  | .setAt index value => do
      ObservableFloatArray.setAt r index value
      return none
  | .set destIndex src srcIndex length => do
      ObservableFloatArray.set r destIndex (src.map Subtype.val) srcIndex length
      return none
  | .setFrom destIndex src srcIndex length => do
      ObservableFloatArray.setFrom r destIndex src srcIndex length
      return none
  | .setAll src => do
      let src ← deref src
      setAllInternal alloc r src 0 src.1.length
      return none
  | .setAllPart src srcIndex length => do
      let src ← deref src
      rangeCheckSource src.1.length srcIndex length
      setAllInternal alloc r src srcIndex length
      return none
  | .setAllFrom src => do
      let src ← deref src
      let h ← Method.this
      setAllInternalFrom alloc r src 0 (h src).size
      return none
  | .setAllPartFrom src srcIndex length => do
      let src ← deref src
      let h ← Method.this
      rangeCheckSource (h src).size srcIndex length
      setAllInternalFrom alloc r src srcIndex length
      return none
  | .addAll src => do
      let src ← deref src
      addAllInternal alloc r src 0 src.1.length
      return none
  | .addAllPart src srcIndex length => do
      let src ← deref src
      rangeCheckSource src.1.length srcIndex length
      addAllInternal alloc r src srcIndex length
      return none
  | .addAllFrom src => do
      let src ← deref src
      let h ← Method.this
      addAllInternalFrom alloc r src 0 (h src).size
      return none
  | .addAllPartFrom src srcIndex length => do
      let src ← deref src
      let h ← Method.this
      rangeCheckSource (h src).size srcIndex length
      addAllInternalFrom alloc r src srcIndex length
      return none
  | .copyTo srcIndex dest destIndex length => do
      let dest ← ObservableFloatArray.copyTo r srcIndex (dest.map Subtype.val) destIndex length
      return some dest
  | .copyToArray srcIndex dest destIndex length => do
      ObservableFloatArray.copyToArray r srcIndex dest destIndex length
      return none
  | .toArray dest => do
      let dest ← ObservableFloatArray.toArray alloc r (dest.map Subtype.val)
      return some dest
  | .toArrayPart index dest length => do
      let dest ← ObservableFloatArray.toArrayPart alloc r index (dest.map Subtype.val) length
      return some dest
  | .resize newSize => do
      ObservableFloatArray.resize alloc r newSize
      return none
  | .clear => do
      ObservableFloatArray.resize alloc r 0
      return none
  | .ensureCapacity capacity => do
      ObservableFloatArray.ensureCapacity alloc r capacity
      return none
  | .trimToSize => do
      ObservableFloatArray.trimToSize alloc r
      return none

/-- The arrays after calls, each on one of them, from empty ones on; a call that throws leaves the
state it has left. -/
def arraysAfter (alloc : ℕ → Bool) (calls : List (ℕ × ArrayCall α)) : Heap α :=
  calls.foldl (fun h call => ((call.2.perform alloc call.1).run h).2) fun _ => {}

end JavaFx.Collections
