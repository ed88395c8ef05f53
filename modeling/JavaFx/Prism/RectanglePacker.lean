import JavaFx.Java
import JavaFx.JavaInt

/-!
# The packer of textures

A `RectanglePacker` cuts its area into levels and fills each level from its start. The sums are
those of `int`s.
-/

namespace JavaFx.Prism

structure Rectangle where
  x : ℤ
  y : ℤ
  width : ℤ
  height : ℤ
deriving DecidableEq

structure Level where
  length : ℤ
  size : ℤ
  sizeOffset : ℤ
  lengthOffset : ℤ := 0
deriving DecidableEq

/-- `level.add(..)`: the level and the rectangle, if there is room. -/
def Level.add (level : Level) (rect : Rectangle) (x y requestedLength requestedSize : ℤ)
    (vertical : Bool) : Option (Level × Rectangle) :=
  if toInt (level.lengthOffset + requestedLength) ≤ level.length ∧ requestedSize ≤ level.size then
    let rect :=
      if vertical then { rect with x := level.sizeOffset, y := level.lengthOffset }
      else { rect with x := level.lengthOffset, y := level.sizeOffset }
    some ({ level with lengthOffset := toInt (level.lengthOffset + requestedLength) },
      { rect with x := toInt (rect.x + x), y := toInt (rect.y + y) })
  else none

structure RectanglePacker where
  levels : List Level := []
  recentUsedLevelIndex : ℕ := 0
  length : ℤ
  size : ℤ
  sizeOffset : ℤ := 0
  x : ℤ
  y : ℤ
  vertical : Bool
deriving DecidableEq

namespace RectanglePacker

def MIN_SIZE : ℤ := 8

def ROUND_UP : ℤ := 4

/-- `new RectanglePacker(backingStore, x, y, width, height, vertical)` -/
def create (x y width height : ℤ) (vertical : Bool) : RectanglePacker where
  length := if vertical then height else width
  size := if vertical then width else height
  x := x
  y := y
  vertical := vertical

/-- The length of a rectangle in the direction of the levels. -/
def requestedLength (packer : RectanglePacker) (rect : Rectangle) : ℤ :=
  if packer.vertical then rect.height else rect.width

/-- The size of a rectangle across the levels. -/
def requestedSize (packer : RectanglePacker) (rect : Rectangle) : ℤ :=
  if packer.vertical then rect.width else rect.height

/-- The loop of `binarySearch`: the last level looked at and its size. -/
def search (levels : List Level) (key from_ to_ mid midSize : ℤ) : Except Exn (ℤ × ℤ) :=
  if h : from_ ≤ to_ then do
    let mid := (from_ + to_) / 2
    let level ← arrayGet levels mid
    if key < level.size then search levels key from_ (mid - 1) mid level.size
    else search levels key (mid + 1) to_ mid level.size
  else .ok (mid, midSize)
termination_by (to_ + 1 - from_).toNat
decreasing_by all_goals omega

def binarySearch (levels : List Level) (k : ℤ) : Except Exn ℕ :=
  if levels = [] then .ok 0
  else do
    let (mid, midSize) ← search levels (toInt (k + 1)) 0 (levels.length - 1) 0 0
    return (if midSize < k then mid + 1
      else if k < midSize then (if 0 < mid then mid - 1 else 0)
      else mid).toNat

/-- The requested size, at least the minimum and rounded up. -/
def roundUp (requestedSize : ℤ) : ℤ :=
  let newSize := max MIN_SIZE requestedSize
  toInt (toInt (newSize + ROUND_UP - 1) - (newSize - 1) % ROUND_UP)

/-- The loop over the levels from `i` on: the level that takes the rectangle, with its index. -/
def place (packer : RectanglePacker) (rect : Rectangle) (requestedLength requestedSize newSize : ℤ)
    (newLevelFlag : Bool) : List Level → ℕ → Option (ℕ × Level × Rectangle)
  | [], _ => none
  | level :: rest, i =>
      if toInt (newSize + ROUND_UP * 2) < level.size ∧ newLevelFlag = true then none
      else
        match level.add rect packer.x packer.y requestedLength requestedSize packer.vertical with
        | some (level, rect) => some (i, level, rect)
        | none => place packer rect requestedLength requestedSize newSize newLevelFlag rest (i + 1)

/-- The index at which the levels are tried first. -/
def firstIndex (packer : RectanglePacker) (newSize : ℤ) : Except Exn ℕ :=
  if packer.recentUsedLevelIndex < packer.levels.length then do
    let level ← listGet packer.levels packer.recentUsedLevelIndex
    if level.size ≠ newSize then binarySearch packer.levels newSize
    else return packer.recentUsedLevelIndex
  else .ok packer.recentUsedLevelIndex

/-- `new Level(length, newSize, sizeOffset)` -/
def newLevel (packer : RectanglePacker) (newSize : ℤ) : Level where
  length := packer.length
  size := newSize
  sizeOffset := packer.sizeOffset

/-- The new level goes behind the level at the index. -/
def isBehind (levels : List Level) (newIndex : ℕ) (newSize : ℤ) : Except Exn Bool :=
  if newIndex < levels.length then do
    let level ← listGet levels newIndex
    return decide (level.size ≤ newSize)
  else .ok false

/-- `levels.add(index, level)` -/
def insertLevel (levels : List Level) (index : ℕ) (level : Level) : Except Exn (List Level) :=
  if index ≤ levels.length then .ok (levels.insertIdx index level) else .error .indexOutOfBounds

/-- `add(rect)`: the rectangle comes back placed if the result is true. -/
def add (packer : RectanglePacker) (rect : Rectangle) :
    Except Exn (RectanglePacker × Option Rectangle) := do
  let requestedLength := packer.requestedLength rect
  let requestedSize := packer.requestedSize rect
  if packer.length < requestedLength then return (packer, none)
  if packer.size < requestedSize then return (packer, none)
  let newSize := roundUp requestedSize
  let newIndex ← packer.firstIndex newSize
  let newLevelFlag := decide (toInt (packer.sizeOffset + newSize) ≤ packer.size)
  match place packer rect requestedLength requestedSize newSize newLevelFlag
      (packer.levels.drop newIndex) newIndex with
  | some (i, level, rect) =>
      return ({ packer with levels := packer.levels.set i level, recentUsedLevelIndex := i },
        some rect)
  | none =>
      if !newLevelFlag then return (packer, none)
      let newLevel := packer.newLevel newSize
      let behind ← isBehind packer.levels newIndex newSize
      let index := if behind then newIndex + 1 else newIndex
      let added := newLevel.add rect packer.x packer.y requestedLength requestedSize packer.vertical
      let levels ← insertLevel packer.levels index (added.elim newLevel Prod.fst)
      return ({ packer with
        sizeOffset := toInt (packer.sizeOffset + newSize)
        levels := levels
        recentUsedLevelIndex := index }, added.map Prod.snd)

def clear (packer : RectanglePacker) : RectanglePacker :=
  { packer with levels := [], sizeOffset := 0, recentUsedLevelIndex := 0 }

end RectanglePacker

end JavaFx.Prism
