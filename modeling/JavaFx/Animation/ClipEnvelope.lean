import JavaFx.Animation.TickCalculation

/-!
# Clip envelopes

A `ClipEnvelope` turns the pulses of the timer into calls of its animation. The animation may
answer a call with `abortCurrentPulse()`: `abort` says after which calls it does, given all calls
so far. A loop that does not end in the number of rounds it is given has no result.
-/

namespace JavaFx.Animation

/-- The calls of the `AnimationAccessor`. -/
inductive Call where
  | playTo (pos cycleTicks : ℤ)
  | jumpTo (pos cycleTicks : ℤ) (forceJump : Bool)
  | setCurrentRate (currentRate : ℤ)
  | finished
deriving DecidableEq

/-- The fields of `ClipEnvelope`, and the calls that have been made. -/
structure ClipEnvelope where
  cycleTicks : ℤ
  rate : ℤ := 1
  deltaTicks : ℤ := 0
  ticks : ℤ := 0
  currentRate : ℤ := 1
  inTimePulse : Bool := false
  aborted : Bool := false
  calls : List Call := []

/-- The fields that `FiniteClipEnvelope` and `InfiniteClipEnvelope` add. -/
structure LoopingEnvelope extends ClipEnvelope where
  autoReverse : Bool
  pos : ℤ := 0

namespace LoopingEnvelope

variable (abort : List Call → Bool)

/-- A call of the animation, with `abortCurrentPulse()`. -/
def call (e : LoopingEnvelope) (x : Call) : LoopingEnvelope :=
  if (e.inTimePulse && abort (e.calls ++ [x])) = true then
    { e with calls := e.calls ++ [x], aborted := true, inTimePulse := false }
  else { e with calls := e.calls ++ [x] }

def setCurrentRate (e : LoopingEnvelope) (currentRate : ℤ) : LoopingEnvelope :=
  { e with currentRate }.call abort (.setCurrentRate currentRate)

/-- `AnimationAccessor.getDefault().playTo(animation, pos, cycleTicks)`, with a new `pos`. -/
def playTo (e : LoopingEnvelope) (pos : ℤ) : LoopingEnvelope :=
  { e with pos }.call abort (.playTo pos e.cycleTicks)

/-- The part of the loop that goes over to the next cycle. -/
def nextCycle (e : LoopingEnvelope) : LoopingEnvelope :=
  if e.autoReverse then e.setCurrentRate abort (-e.currentRate)
  else
    let pos := if 0 < e.currentRate then 0 else e.cycleTicks
    { e with pos }.call abort (.jumpTo pos e.cycleTicks false)

/-- The difference between the position and the end of the cycle. -/
def cycleDelta (e : LoopingEnvelope) : ℤ :=
  if 0 < e.currentRate then e.cycleTicks - e.pos else e.pos

/-- `pos += (currentRate > 0)? overallDelta : -overallDelta`, and `playTo`. -/
def playRest (e : LoopingEnvelope) (overallDelta : ℤ) : LoopingEnvelope :=
  e.playTo abort (e.pos + if 0 < e.currentRate then overallDelta else -overallDelta)

/-- `start()`, when the current rate has been calculated. -/
def start (e : LoopingEnvelope) (calculatedRate : ℤ) : LoopingEnvelope :=
  let e := e.setCurrentRate abort calculatedRate
  { e with deltaTicks := e.ticks }

/-- What begins and ends a pulse, around the rest of `timePulse`. -/
def pulsing (e : LoopingEnvelope) (rest : LoopingEnvelope → Option LoopingEnvelope) :
    Option LoopingEnvelope :=
  if e.cycleTicks = 0 then some e
  else (rest { e with aborted := false, inTimePulse := true }).map fun e =>
    { e with inTimePulse := false }

end LoopingEnvelope

open LoopingEnvelope

namespace FiniteClipEnvelope

variable (abort : List Call → Bool)

/-- The field that `updateTotalTicks` sets. -/
def totalTicks (cycleCount cycleTicks : ℤ) : ℤ := toLong (cycleCount * cycleTicks)

def calculateCurrentRate (e : LoopingEnvelope) : ℤ :=
  if !e.autoReverse then e.rate
  else if decide (Int.tmod e.ticks (toLong (2 * e.cycleTicks)) < e.cycleTicks) =
      decide (0 < e.rate) then e.rate
  else -e.rate

/-- The `while` loop, with what is left of `overallDelta`; nothing is left when an aborted pulse
has left the method. -/
def cycles (reachedEnd : Bool) :
    ℕ → LoopingEnvelope → ℤ → ℤ → Option (LoopingEnvelope × Option ℤ)
  | 0, _, _, _ => none
  | rounds + 1, e, overallDelta, cycleDelta =>
      if cycleDelta ≤ overallDelta then
        let (e, overallDelta) :=
          if 0 < cycleDelta then
            (e.playTo abort (if 0 < e.currentRate then e.cycleTicks else 0),
              overallDelta - cycleDelta)
          else (e, overallDelta)
        if 0 < cycleDelta ∧ e.aborted = true then some (e, none)
        else
          let e := if !reachedEnd || 0 < overallDelta then e.nextCycle abort else e
          cycles reachedEnd rounds e overallDelta e.cycleTicks
      else some (e, some overallDelta)

/-- `timePulse(currentTick)` -/
def timePulse (cycleCount : ℤ) (e : LoopingEnvelope) (currentTick : ℤ) :
    Option LoopingEnvelope :=
  e.pulsing fun e =>
    let total := totalTicks cycleCount e.cycleTicks
    let ticks := checkBounds (toLong (e.deltaTicks + roundTicks currentTick |e.rate|)) total
    let reachedEnd := decide (total ≤ ticks)
    let overallDelta := toLong (ticks - e.ticks)
    let e := { e with ticks }
    if overallDelta = 0 then some e
    else
      (cycles abort reachedEnd (overallDelta.toNat + 2) e overallDelta e.cycleDelta).map fun
        | (e, none) => e
        | (e, some overallDelta) =>
            let e := if 0 < overallDelta ∧ reachedEnd = false then e.playRest abort overallDelta
              else e
            if reachedEnd = true ∧ e.aborted = false then e.call abort .finished else e

end FiniteClipEnvelope

namespace InfiniteClipEnvelope

variable (abort : List Call → Bool)

def calculateCurrentRate (e : LoopingEnvelope) : ℤ :=
  if !e.autoReverse then e.rate
  else if Int.tmod e.ticks (toLong (2 * e.cycleTicks)) < e.cycleTicks then e.rate
  else -e.rate

/-- The `while` loop. -/
def cycles : ℕ → LoopingEnvelope → ℤ → ℤ → Option (LoopingEnvelope × Option ℤ)
  | 0, _, _, _ => none
  | rounds + 1, e, overallDelta, cycleDelta =>
      if cycleDelta ≤ overallDelta then
        let (e, overallDelta) :=
          if 0 < cycleDelta then
            (e.playTo abort (if 0 < e.currentRate then e.cycleTicks else 0),
              overallDelta - cycleDelta)
          else (e, overallDelta)
        if 0 < cycleDelta ∧ e.aborted = true then some (e, none)
        else
          let e := e.nextCycle abort
          cycles rounds e overallDelta e.cycleTicks
      else some (e, some overallDelta)

/-- `timePulse(currentTick)` -/
def timePulse (e : LoopingEnvelope) (currentTick : ℤ) : Option LoopingEnvelope :=
  e.pulsing fun e =>
    let ticks := max 0 (toLong (e.deltaTicks + roundTicks currentTick |e.rate|))
    let overallDelta := toLong (ticks - e.ticks)
    let e := { e with ticks }
    if overallDelta = 0 then some e
    else
      (cycles abort (overallDelta.toNat + 2) e overallDelta e.cycleDelta).map fun
        | (e, none) => e
        | (e, some overallDelta) =>
            if 0 < overallDelta then e.playRest abort overallDelta else e

end InfiniteClipEnvelope

end JavaFx.Animation
