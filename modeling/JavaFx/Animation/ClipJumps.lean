import JavaFx.Animation.TickCalculation

/-!
# Jumps of a looping envelope

`start()` and `jumpTo` both work out in which direction an animation with auto-reverse plays at a
position. A rate may be of any type with a sign. For negative rates the ticks of a
`FiniteClipEnvelope` run from the end.
-/

namespace JavaFx.Animation

/-- A `FiniteClipEnvelope` with its cycle count, or an `InfiniteClipEnvelope`. -/
inductive EnvelopeKind where
  | finite (cycleCount : ℤ)
  | infinite
deriving DecidableEq

/-- The calls of the animation that a jump makes. -/
inductive JumpCall (R : Type) where
  | setCurrentRate (currentRate : R)
  | jumpTo (pos cycleTicks : ℤ) (forceJump : Bool)
deriving DecidableEq

/-- The fields of the two envelopes, whether the animation is running, and its calls. -/
structure JumpingEnvelope (R : Type) where
  kind : EnvelopeKind
  autoReverse : Bool
  running : Bool
  cycleTicks : ℤ
  rate : R
  currentRate : R
  deltaTicks : ℤ := 0
  ticks : ℤ := 0
  pos : ℤ := 0
  inTimePulse : Bool := false
  aborted : Bool := false
  calls : List (JumpCall R) := []

namespace JumpingEnvelope

variable {R : Type} [LinearOrder R] [Zero R] [Neg R]

/-- `totalTicks` -/
def totalTicks (e : JumpingEnvelope R) (cycleCount : ℤ) : ℤ := toLong (cycleCount * e.cycleTicks)

/-- `ticks % (2 * cycleTicks) < cycleTicks` -/
def forward (e : JumpingEnvelope R) : Bool :=
  decide (Int.tmod e.ticks (toLong (2 * e.cycleTicks)) < e.cycleTicks)

def calculateCurrentRate (e : JumpingEnvelope R) : R :=
  if !e.autoReverse then e.rate
  else match e.kind with
    | .finite _ => if e.forward = decide (0 < e.rate) then e.rate else -e.rate
    | .infinite => if e.forward then e.rate else -e.rate

/-- `Math.abs` -/
def absRate (rate : R) : R := if 0 < rate then rate else -rate

def setCurrentRate (currentRate : R) (e : JumpingEnvelope R) : JumpingEnvelope R :=
  { e with currentRate, calls := e.calls ++ [.setCurrentRate currentRate] }

/-- `start()` -/
def start (e : JumpingEnvelope R) : JumpingEnvelope R :=
  { setCurrentRate e.calculateCurrentRate e with deltaTicks := e.ticks }

def abortCurrentPulse (e : JumpingEnvelope R) : JumpingEnvelope R :=
  if e.inTimePulse then { e with aborted := true, inTimePulse := false } else e

/-- The ticks that a jump goes to. -/
def targetTicks (e : JumpingEnvelope R) (newTicks : ℤ) : ℤ :=
  match e.kind with
  | .finite cycleCount =>
      let total := e.totalTicks cycleCount
      checkBounds (if e.rate < 0 then toLong (total - newTicks) else newTicks) total
  | .infinite => Int.tmod (max 0 newTicks) (toLong (2 * e.cycleTicks))

/-- The position and the current rate with auto-reverse, after `ticks` has been set. -/
def reversing (e : JumpingEnvelope R) : JumpingEnvelope R :=
  let (pos, currentRate) :=
    match e.kind with
    | .finite _ =>
        let ticks := Int.tmod e.ticks e.cycleTicks
        if e.forward = decide (0 < e.rate) then (ticks, absRate e.rate)
        else (toLong (e.cycleTicks - ticks), -absRate e.rate)
    | .infinite =>
        if e.cycleTicks < e.ticks then (toLong (toLong (2 * e.cycleTicks) - e.ticks), -e.rate)
        else (e.ticks, e.rate)
  let e := { e with pos }
  if e.running then e.setCurrentRate currentRate else e

/-- The position without auto-reverse. -/
def repeating (e : JumpingEnvelope R) : JumpingEnvelope R :=
  let pos := Int.tmod e.ticks e.cycleTicks
  match e.kind with
  | .finite _ =>
      let pos := if e.rate < 0 then toLong (e.cycleTicks - pos) else pos
      { e with pos := if pos = 0 ∧ 0 < e.ticks then e.cycleTicks else pos }
  | .infinite => { e with pos := if pos = 0 then e.ticks else pos }

/-- `jumpTo(newTicks)` -/
def jumpTo (e : JumpingEnvelope R) (newTicks : ℤ) : JumpingEnvelope R :=
  if e.cycleTicks = 0 then e
  else
    let oldTicks := e.ticks
    let e := { e with ticks := e.targetTicks newTicks }
    let delta := toLong (e.ticks - oldTicks)
    if delta = 0 then e
    else
      let e := { e with deltaTicks := toLong (e.deltaTicks + delta) }
      let e := if e.autoReverse then e.reversing else e.repeating
      abortCurrentPulse { e with calls := e.calls ++ [.jumpTo e.pos e.cycleTicks false] }

/-! ## The direction -/

/-- The two rates play in one direction. -/
def SameSign (a b : R) : Prop := (0 < a ↔ 0 < b) ∧ (a < 0 ↔ b < 0)

variable {e : JumpingEnvelope R} {newTicks : ℤ} {r : R}

omit [LinearOrder R] [Zero R] [Neg R] in
theorem abortCurrentPulse_fields (e : JumpingEnvelope R) :
    e.abortCurrentPulse.calls = e.calls ∧ e.abortCurrentPulse.kind = e.kind ∧
      e.abortCurrentPulse.rate = e.rate ∧ e.abortCurrentPulse.autoReverse = e.autoReverse ∧
      e.abortCurrentPulse.cycleTicks = e.cycleTicks ∧ e.abortCurrentPulse.ticks = e.ticks := by
  rw [abortCurrentPulse]
  split
  · exact ⟨rfl, rfl, rfl, rfl, rfl, rfl⟩
  · exact ⟨rfl, rfl, rfl, rfl, rfl, rfl⟩

/-- The current rate that a jump to the ticks of `e` sets. -/
def jumpedRate (e : JumpingEnvelope R) : R :=
  match e.kind with
  | .finite _ => if e.forward = decide (0 < e.rate) then absRate e.rate else -absRate e.rate
  | .infinite => if e.cycleTicks < e.ticks then -e.rate else e.rate

theorem reversing_calls (hrunning : e.running = true) :
    e.reversing.calls = e.calls ++ [.setCurrentRate e.jumpedRate] ∧
      e.reversing.ticks = e.ticks ∧ e.reversing.cycleTicks = e.cycleTicks ∧
      e.reversing.kind = e.kind ∧ e.reversing.rate = e.rate ∧ e.reversing.autoReverse = e.autoReverse := by
  rw [reversing, jumpedRate]
  cases hkind : e.kind with
  | finite cycleCount =>
      by_cases hforward : e.forward = decide (0 < e.rate)
      · simp [hforward, hrunning, setCurrentRate]
      · simp [hforward, hrunning, setCurrentRate]
  | infinite =>
      by_cases hback : e.cycleTicks < e.ticks
      · simp [hback, hrunning, setCurrentRate]
      · simp [hback, hrunning, setCurrentRate]

/-- A jump that sets a rate sets this one. -/
theorem jumpTo_sets (hrunning : e.running = true) (hreverse : e.autoReverse = true)
    (hset : .setCurrentRate r ∈ (e.jumpTo newTicks).calls.drop e.calls.length) :
    r = jumpedRate { e with ticks := e.targetTicks newTicks } ∧
      (e.jumpTo newTicks).kind = e.kind ∧ (e.jumpTo newTicks).rate = e.rate ∧
      (e.jumpTo newTicks).autoReverse = true ∧ (e.jumpTo newTicks).cycleTicks = e.cycleTicks ∧
      (e.jumpTo newTicks).ticks = e.targetTicks newTicks := by
  by_cases hzero : e.cycleTicks = 0
  · rw [jumpTo, if_pos hzero, List.drop_length] at hset
    cases hset
  · rw [jumpTo, if_neg hzero] at hset ⊢
    by_cases hdelta : toLong (e.targetTicks newTicks - e.ticks) = 0
    · dsimp only at hset
      rw [if_pos hdelta, List.drop_length] at hset
      cases hset
    · dsimp only at hset ⊢
      rw [if_neg hdelta, if_pos hreverse] at hset ⊢
      set e' : JumpingEnvelope R := { e with
        ticks := e.targetTicks newTicks
        deltaTicks := toLong (e.deltaTicks + toLong (e.targetTicks newTicks - e.ticks)) } with he'
      obtain ⟨hcalls, hticks, hcycle, hkind, hrate, hreverse'⟩ := reversing_calls (e := e') hrunning
      set f : JumpingEnvelope R := { e'.reversing with
        calls := e'.reversing.calls ++ [.jumpTo e'.reversing.pos e'.reversing.cycleTicks false] } with hf
      obtain ⟨hcalls', hkind', hrate', hauto', hcycle', hticks'⟩ := abortCurrentPulse_fields f
      refine ⟨?_, hkind'.trans hkind, hrate'.trans hrate, hauto'.trans (hreverse'.trans hreverse),
        hcycle'.trans hcycle, hticks'.trans hticks⟩
      have hadded : f.abortCurrentPulse.calls = e.calls ++
          [.setCurrentRate e'.jumpedRate, .jumpTo e'.reversing.pos e'.reversing.cycleTicks false] := by
        rw [hcalls', hf]
        show e'.reversing.calls ++ _ = _
        rw [hcalls, List.append_assoc]
        rfl
      rw [hadded, List.drop_left, List.mem_cons, List.mem_singleton] at hset
      rcases hset with hr | hr
      · cases hr
        rfl
      · cases hr

/-- The two rates for the ticks of an envelope. -/
theorem sameSign_iff (hneg : ∀ x : R, 0 < -x ↔ x < 0) (hneg' : ∀ x : R, -x < 0 ↔ 0 < x)
    (e : JumpingEnvelope R) (hreverse : e.autoReverse = true) (hrate : e.rate ≠ 0)
    (hrest : e.kind = .infinite → e.ticks ≠ e.cycleTicks ∧ e.forward = decide (e.ticks < e.cycleTicks)) :
    SameSign e.jumpedRate e.calculateCurrentRate ↔ e.kind = .infinite ∨ 0 < e.rate := by
  have hnot : calculateCurrentRate e = match e.kind with
      | .finite _ => if e.forward = decide (0 < e.rate) then e.rate else -e.rate
      | .infinite => if e.forward then e.rate else -e.rate := by
    rw [calculateCurrentRate, hreverse]
    rfl
  rw [hnot, jumpedRate]
  cases hkind : e.kind with
  | finite cycleCount =>
      rw [or_iff_right (by simp)]
      dsimp only
      by_cases hpos : 0 < e.rate
      · rw [absRate, if_pos hpos]
        exact iff_of_true ⟨Iff.rfl, Iff.rfl⟩ hpos
      · -- for a negative rate, one expression is the negation of the other
        have hlt : e.rate < 0 := lt_of_le_of_ne (not_lt.mp hpos) hrate
        rw [absRate, if_neg hpos]
        apply iff_of_false _ hpos
        by_cases hforward : e.forward = decide (0 < e.rate)
        · rw [if_pos hforward, if_pos hforward]
          intro hsame
          exact hpos (hsame.1.mp ((hneg _).mpr hlt))
        · rw [if_neg hforward, if_neg hforward]
          intro hsame
          exact hpos ((hneg' _).mp ((hneg _).mp (hsame.1.mpr ((hneg _).mpr hlt))))
  | infinite =>
      obtain ⟨hne, hforward⟩ := hrest hkind
      apply iff_of_true _ (.inl rfl)
      dsimp only
      rw [hforward]
      by_cases hback : e.cycleTicks < e.ticks
      · rw [if_pos hback, if_neg (by rw [decide_eq_true_eq]; omega)]
        exact ⟨Iff.rfl, Iff.rfl⟩
      · rw [if_neg hback, if_pos (by rw [decide_eq_true_eq]; omega)]
        exact ⟨Iff.rfl, Iff.rfl⟩

/-- **Where a jump sets a rate, it has the sign that `start()` gives it there, unless the envelope
is finite and its rate is negative.** -/
theorem jumpTo_sign_iff (hneg : ∀ x : R, 0 < -x ↔ x < 0) (hneg' : ∀ x : R, -x < 0 ↔ 0 < x)
    (e : JumpingEnvelope R) (hrunning : e.running = true) (hreverse : e.autoReverse = true)
    (hrate : e.rate ≠ 0) (newTicks : ℤ) (r : R)
    (hset : .setCurrentRate r ∈ (e.jumpTo newTicks).calls.drop e.calls.length)
    (hticks : ¬ e.cycleTicks ∣ (e.jumpTo newTicks).ticks) :
    SameSign r (e.jumpTo newTicks).start.currentRate ↔ e.kind = .infinite ∨ 0 < e.rate := by
  obtain ⟨hr, hkind, hrate', hreverse', hcycle, htarget⟩ := jumpTo_sets hrunning hreverse hset
  have hjumped : r = (e.jumpTo newTicks).jumpedRate := by
    rw [hr, jumpedRate, jumpedRate, forward, forward, hkind, hrate', hcycle, htarget]
  rw [hjumped, ← hkind, ← hrate']
  apply sameSign_iff hneg hneg' _ hreverse' (by rw [hrate']; exact hrate)
  intro hinfinite
  constructor
  · intro hend
    apply hticks
    rw [hend, hcycle]
  · have hreduced : Int.tmod (e.jumpTo newTicks).ticks (toLong (2 * e.cycleTicks)) =
        (e.jumpTo newTicks).ticks := by
      rw [htarget, targetTicks, ← hkind, hinfinite]
      exact Int.tmod_tmod _ _
    rw [forward, hcycle, hreduced]

/-- A running infinite envelope with cycles of 10 ticks jumps into its second cycle. -/
theorem jumpTo_sign_infinite :
    SameSign (-2 : ℤ) (jumpTo ⟨.infinite, true, true, 10, 2, 2, 0, 0, 0, false, false, []⟩ 15).start.currentRate ↔
      EnvelopeKind.infinite = .infinite ∨ (0 : ℤ) < 2 :=
  jumpTo_sign_iff (fun x => by omega) (fun x => by omega)
    ⟨.infinite, true, true, 10, 2, 2, 0, 0, 0, false, false, []⟩ rfl rfl (by decide) 15 (-2)
    (by decide) (by decide)

/-- With the rate −1 two cycles of 10 ticks are played from the end: a jump to 15 sets the rate −1
at the tick 5, and starting there sets the rate 1. -/
theorem jumpTo_backwards_sign :
    .setCurrentRate (-1 : ℤ) ∈
        (jumpTo ⟨.finite 2, true, true, 10, (-1 : ℤ), 1, 0, 0, 0, false, false, []⟩ 15).calls ∧
      ¬ 10 ∣ (jumpTo ⟨.finite 2, true, true, 10, (-1 : ℤ), 1, 0, 0, 0, false, false, []⟩ 15).ticks ∧
      ¬ SameSign (-1 : ℤ)
        (jumpTo ⟨.finite 2, true, true, 10, (-1 : ℤ), 1, 0, 0, 0, false, false, []⟩ 15).start.currentRate := by
  refine ⟨by decide, by decide, fun hsame => ?_⟩
  exact absurd (hsame.2.mp (by decide)) (by decide)

end JumpingEnvelope

end JavaFx.Animation
