import JavaFx.Java

/-!
# The key frames of a timeline

`TimelineClipCore.playTo` visits the key frames between the current tick and the target, in the
order of the direction. `lastKF` is to tell where to begin and which frame not to visit twice.
Ticks are not negative. A handler may abort the playing: `abort` says which key frames have such
handlers.
-/

namespace JavaFx.Animation

/-- A key frame has a handler, or a null in its place. -/
structure KeyFrame where
  ticks : ℕ
  hasHandler : Bool := true
deriving DecidableEq

/-- What a timeline is told. -/
inductive TimelineCall where
  | setCurrentTicks (ticks : ℕ)
  | interpolate (ticks : ℕ)
  | handle (kfIndex : ℕ)
deriving DecidableEq

/-- The fields, and the calls that have been made. -/
structure TimelineClipCore where
  keyFrames : List KeyFrame
  lastKF : ℤ := -1
  curTicks : ℕ := 0
  aborted : Bool := false
  calls : List TimelineCall := []

namespace TimelineClipCore

def setTime (s : TimelineClipCore) (ticks : ℕ) : TimelineClipCore :=
  { s with curTicks := ticks, calls := s.calls ++ [.setCurrentTicks ticks] }

def interpolate (s : TimelineClipCore) (ticks : ℕ) : TimelineClipCore :=
  { s with calls := s.calls ++ [.interpolate ticks] }

def start (s : TimelineClipCore) : TimelineClipCore :=
  let s := { s with lastKF := -1 }
  if 0 < s.curTicks then s.interpolate s.curTicks else s

variable (abort : ℕ → Bool)

/-- `onFinished.handle(..)`; what it throws is caught. -/
def handle (s : TimelineClipCore) (kfIndex : ℕ) : TimelineClipCore :=
  { s with aborted := s.aborted || abort kfIndex, calls := s.calls ++ [.handle kfIndex] }

def visitKeyFrame (s : TimelineClipCore) (kfIndex : ℕ) (kf : KeyFrame) : TimelineClipCore :=
  if (kfIndex : ℤ) ≠ s.lastKF then
    let s := { s with lastKF := kfIndex }
    if kf.hasHandler then ((s.setTime kf.ticks).interpolate kf.ticks).handle abort kfIndex else s
  else s

/-- The loop forwards, over the key frames from `fromKF` on with their indexes. -/
def playForward (ticks : ℕ) : List (KeyFrame × ℕ) → TimelineClipCore → TimelineClipCore
  | [], s => s
  | (kf, fi) :: rest, s =>
      if ticks < kf.ticks then { s with lastKF := (fi : ℤ) - 1 }
      else if s.curTicks ≤ kf.ticks then
        let s := s.visitKeyFrame abort fi kf
        if s.aborted then s else playForward ticks rest s
      else playForward ticks rest s

/-- The loop backwards, over the key frames from `fromKF` down. -/
def playBackward (ticks : ℕ) : List (KeyFrame × ℕ) → TimelineClipCore → TimelineClipCore
  | [], s => s
  | (kf, fi) :: rest, s =>
      if kf.ticks < ticks then { s with lastKF := (fi : ℤ) + 1 }
      else if kf.ticks ≤ s.curTicks then
        let s := s.visitKeyFrame abort fi kf
        if s.aborted then s else playBackward ticks rest s
      else playBackward ticks rest s

/-- The index the loop forwards begins with. -/
def forwardFrom (s : TimelineClipCore) : Except Exn ℤ :=
  if s.lastKF = -1 then .ok 0
  else do
    let kf ← arrayGet s.keyFrames s.lastKF
    return if kf.ticks ≤ s.curTicks then s.lastKF + 1 else s.lastKF

/-- The index the loop backwards begins with. -/
def backwardFrom (s : TimelineClipCore) : Except Exn ℤ :=
  if s.lastKF = -1 then .ok (s.keyFrames.length - 1)
  else do
    let kf ← arrayGet s.keyFrames s.lastKF
    return if s.curTicks ≤ kf.ticks then s.lastKF - 1 else s.lastKF

/-- The end of `playTo`: the time is set unless the visit of a key frame has done so. -/
def arrive (s : TimelineClipCore) (ticks : ℕ) : Except Exn TimelineClipCore :=
  if s.aborted then .ok s
  else if s.lastKF = -1 then .ok ((s.setTime ticks).interpolate ticks)
  else do
    let kf ← arrayGet s.keyFrames s.lastKF
    return if kf.ticks ≠ ticks ∨ kf.hasHandler = false then
      (s.setTime ticks).interpolate ticks
    else s

def playTo (s : TimelineClipCore) (ticks : ℕ) : Except Exn TimelineClipCore := do
  let s := { s with aborted := false }
  if s.curTicks ≤ ticks then
    let fromKF ← s.forwardFrom
    (playForward abort ticks (s.keyFrames.zipIdx.drop fromKF.toNat) s).arrive ticks
  else
    let fromKF ← s.backwardFrom
    (playBackward abort ticks (s.keyFrames.zipIdx.take (fromKF + 1).toNat).reverse s).arrive ticks

end TimelineClipCore

end JavaFx.Animation
