import JavaFx.Animation.ClipLooping

/-!
# Sequences of pulses

A pulse sets `ticks` and then catches up with it. From what one pulse does to a clip that has
played up to a tick follows, by induction over the pulses, what a whole sequence does.
-/

namespace JavaFx.Animation

open FiniteClipEnvelope

/-- What both envelopes do after `ticks` has been calculated. -/
def pulseTo (reachedEnd : Bool) (ticks : ℤ) (e : LoopingEnvelope) : Option LoopingEnvelope :=
  e.pulsing fun e =>
    let overallDelta := toLong (ticks - e.ticks)
    let e := { e with ticks }
    if overallDelta = 0 then some e
    else
      (cycles never reachedEnd (overallDelta.toNat + 2) e overallDelta e.cycleDelta).map fun
        | (e, none) => e
        | (e, some overallDelta) =>
            let e := if 0 < overallDelta ∧ reachedEnd = false then e.playRest never overallDelta
              else e
            if reachedEnd = true ∧ e.aborted = false then e.call never .finished else e

/-- The fields that the pulses do not change at rate 1. -/
structure Steady (c : ℕ) (e : LoopingEnvelope) : Prop where
  cycleTicks : e.cycleTicks = c
  rate : e.rate = 1
  deltaTicks : e.deltaTicks = 0

/-- What a pulse comes to in `long` arithmetic. -/
theorem pulse_ticks (t : ℕ) : toLong (0 + roundTicks t |1|) = roundTicks t 1 ∧ 0 ≤ roundTicks t 1 := by
  have hnonneg : 0 ≤ roundTicks t 1 := by
    rw [roundTicks_one (Int.natCast_nonneg t)]
    exact le_min (toDouble_nonneg (Int.natCast_nonneg t)) (by decide)
  refine ⟨?_, hnonneg⟩
  rw [abs_one, zero_add]
  refine toLong_of_nonneg hnonneg ?_
  rw [roundTicks_one (Int.natCast_nonneg t)]
  exact min_le_right _ _

theorem Steady.finite {c : ℕ} {e : LoopingEnvelope} (h : Steady c e) (n t : ℕ) :
    timePulse never n e t =
      pulseTo (decide (totalTicks n c ≤ checkBounds (roundTicks t 1) (totalTicks n c)))
        (checkBounds (roundTicks t 1) (totalTicks n c)) e := by
  rw [timePulse, pulseTo, LoopingEnvelope.pulsing, LoopingEnvelope.pulsing]
  split
  · rfl
  · simp only [h.cycleTicks, h.rate, h.deltaTicks, (pulse_ticks t).1]
    all_goals rfl

theorem Steady.infinite {c : ℕ} {e : LoopingEnvelope} (h : Steady c e) (t : ℕ) :
    InfiniteClipEnvelope.timePulse never e t = pulseTo false (roundTicks t 1) e := by
  rw [InfiniteClipEnvelope.timePulse, pulseTo, LoopingEnvelope.pulsing, LoopingEnvelope.pulsing]
  split
  · rfl
  · simp only [h.rate, h.deltaTicks, (pulse_ticks t).1, max_eq_right (pulse_ticks t).2,
      infinite_cycles_eq, Bool.false_eq_true, false_and, and_true, if_false]
    all_goals rfl

/-! ## One pulse -/

section Pulse

variable {c : ℕ} {autoReverse : Bool} {e : LoopingEnvelope}

/-- The clip has played up to the tick `s`, which is before the end. -/
def Ready (c : ℕ) (autoReverse : Bool) (s : ℕ) (e : LoopingEnvelope) : Prop :=
  InCycle c autoReverse s (s / c) (s / c) (position c autoReverse (s / c) (s % c)) e

/-- The clip has played all its `n` cycles. -/
structure Finished (c : ℕ) (autoReverse : Bool) (n : ℕ) (e : LoopingEnvelope) : Prop where
  steady : Steady c e
  tick : e.ticks = (n * c : ℕ)
  pos : e.pos = position c autoReverse (n - 1) c
  calls : e.calls.filter (Call.endsCycle c) = (List.range n).map (endOf c autoReverse)
  finished : e.calls.count .finished = 1

theorem Steady.ne_zero (hc : 0 < c) (h : Steady c e) : e.cycleTicks ≠ 0 := by
  rw [h.cycleTicks]
  omega

theorem Ready.steady {s : ℕ} (h : Ready c autoReverse s e) : Steady c e :=
  ⟨h.cycleTicks, h.rate, h.deltaTicks⟩

/-- A pulse at the same tick changes nothing. -/
theorem pulseTo_same (hc : 0 < c) (h : Steady c e) {s : ℕ} (hs : e.ticks = s) (reachedEnd : Bool) :
    pulseTo reachedEnd s e =
      some { e with ticks := (s : ℤ), aborted := false, inTimePulse := false } := by
  rw [pulseTo, LoopingEnvelope.pulsing, if_neg (h.ne_zero hc)]
  simp only [hs, Int.sub_self]
  rw [if_pos (by decide)]
  rfl

theorem Ready.same (hc : 0 < c) {s : ℕ} (h : Ready c autoReverse s e) (reachedEnd : Bool) :
    ∃ e', pulseTo reachedEnd s e = some e' ∧ Ready c autoReverse s e' :=
  ⟨_, pulseTo_same hc h.steady h.tick reachedEnd, h.cycleTicks, h.reverse, h.rate, h.deltaTicks,
    rfl, rfl, h.currentRate, h.pos, h.calls, h.unfinished⟩

theorem Finished.same (hc : 0 < c) {n : ℕ} (h : Finished c autoReverse n e) (reachedEnd : Bool) :
    ∃ e', pulseTo reachedEnd (n * c : ℕ) e = some e' ∧ Finished c autoReverse n e' :=
  ⟨_, pulseTo_same hc h.steady h.tick reachedEnd,
    ⟨h.steady.cycleTicks, h.steady.rate, h.steady.deltaTicks⟩, rfl, h.pos, h.calls, h.finished⟩

/-- A later tick: the loop runs, from the clip with the new `ticks`. -/
theorem pulseTo_later (hc : 0 < c) (h : Steady c e) {s ticks : ℕ} (hs : e.ticks = s)
    (hlt : s < ticks) (hlong : ticks < 2 ^ 63) (reachedEnd : Bool) :
    pulseTo reachedEnd ticks e =
      ((cycles never reachedEnd (ticks - s + 2)
        { e with ticks := (ticks : ℤ), aborted := false, inTimePulse := true }
        ((ticks - s : ℕ) : ℤ) e.cycleDelta).map fun
        | (e, none) => e
        | (e, some overallDelta) =>
            let e := if 0 < overallDelta ∧ reachedEnd = false then e.playRest never overallDelta
              else e
            if reachedEnd = true ∧ e.aborted = false then e.call never .finished else e).map
        fun e => { e with inTimePulse := false } := by
  have hdelta : toLong ((ticks : ℤ) - s) = ((ticks - s : ℕ) : ℤ) := by
    have hle : ((ticks - s : ℕ) : ℤ) ≤ maxLong := natCast_le_maxLong (by omega)
    rw [toLong_of_nonneg (by omega) (by omega)]
    omega
  rw [pulseTo, LoopingEnvelope.pulsing, if_neg (h.ne_zero hc)]
  simp only [hs, hdelta, Int.toNat_natCast]
  rw [if_neg (by omega)]
  rfl

theorem Ready.begin {s : ℕ} (h : Ready c autoReverse s e) (ticks : ℕ) :
    InCycle c autoReverse ticks (s / c) (s / c) (position c autoReverse (s / c) (s % c))
      { e with ticks := (ticks : ℤ), aborted := false, inTimePulse := true } :=
  ⟨h.cycleTicks, h.reverse, h.rate, h.deltaTicks, rfl, rfl, h.currentRate, h.pos, h.calls,
    h.unfinished⟩

theorem Ready.cycleDelta (hc : 0 < c) {s : ℕ} (h : Ready c autoReverse s e) :
    e.cycleDelta = ((c - s % c : ℕ) : ℤ) := by
  have hmod : s % c < c := Nat.mod_lt s hc
  rw [InCycle.cycleDelta h]
  omega

/-- **A pulse before the end** plays up to its tick. -/
theorem Ready.before (hc : 0 < c) {s ticks : ℕ} (h : Ready c autoReverse s e) (hle : s ≤ ticks)
    (hlong : ticks < 2 ^ 63) :
    ∃ e', pulseTo false ticks e = some e' ∧ Ready c autoReverse ticks e' := by
  rcases Nat.eq_or_lt_of_le hle with rfl | hlt
  · exact h.same hc false
  · obtain ⟨e', r, d, hloop, hrd, hcycle⟩ :=
      cycles_before hc (ticks - s + 2) s _ hle (by omega) (h.begin ticks)
    have hmod : ticks % c < c := Nat.mod_lt ticks hc
    rw [pulseTo_later hc h.steady h.tick hlt hlong, h.cycleDelta hc, hloop]
    simp only [Option.map_some, Bool.false_eq_true, false_and, if_false, and_true]
    refine ⟨_, rfl, ?_⟩
    -- the rest of the pulse lies inside the cycle
    have hrest : Ready c autoReverse ticks
        (if 0 < (d : ℤ) then e'.playRest never d else e') := by
      by_cases hd : 0 < d
      · rw [if_pos (by omega), Ready, ← hrd]
        exact hcycle.playRest hd (by omega)
      · rw [if_neg (by omega), Ready, ← hrd, show d = 0 by omega]
        exact hcycle
    exact ⟨hrest.cycleTicks, hrest.reverse, hrest.rate, hrest.deltaTicks, hrest.aborted, hrest.tick,
      hrest.currentRate, hrest.pos, hrest.calls, hrest.unfinished⟩

/-- **The pulse that reaches the end** plays the last cycle to its end and finishes. -/
theorem Ready.reaches (hc : 0 < c) {s n : ℕ} (h : Ready c autoReverse s e) (hlt : s < n * c)
    (hlong : n * c < 2 ^ 63) :
    ∃ e', pulseTo true (n * c : ℕ) e = some e' ∧ Finished c autoReverse n e' := by
  obtain ⟨e', hloop, hcycle⟩ :=
    cycles_end hc (n * c - s + 2) s _ hlt (by omega) (h.begin (n * c))
  rw [pulseTo_later hc h.steady h.tick hlt hlong, h.cycleDelta hc, hloop]
  simp only [Option.map_some, Bool.true_eq_false, and_false, if_false, true_and, hcycle.aborted,
    if_true, call_never]
  refine ⟨_, rfl, ⟨hcycle.cycleTicks, hcycle.rate, hcycle.deltaTicks⟩, hcycle.tick, hcycle.pos,
    ?_, ?_⟩
  · show (e'.calls ++ [Call.finished]).filter (Call.endsCycle c) = _
    rw [List.filter_append, hcycle.calls, List.filter_cons_of_neg Bool.false_ne_true,
      List.filter_nil, List.append_nil]
  · show (e'.calls ++ [Call.finished]).count .finished = 1
    rw [List.count_append, List.count_eq_zero.mpr hcycle.unfinished, List.count_singleton_self]

/-- Whatever the numbers are, a pulse sets `ticks`; one that is taken to reach the end finishes. -/
theorem pulseTo_frame (hc : 0 < c) (h : Steady c e) {ticks : ℤ} {reachedEnd : Bool}
    {e' : LoopingEnvelope} (hpulse : pulseTo reachedEnd ticks e = some e') :
    e'.ticks = ticks ∧
      (toLong (ticks - e.ticks) ≠ 0 → reachedEnd = true → .finished ∈ e'.calls) := by
  rw [pulseTo, LoopingEnvelope.pulsing, if_neg (h.ne_zero hc)] at hpulse
  simp only at hpulse
  by_cases hzero : toLong (ticks - e.ticks) = 0
  · rw [if_pos hzero] at hpulse
    cases hpulse
    exact ⟨rfl, fun hne => absurd hzero hne⟩
  · rw [if_neg hzero, Option.map_map, Option.map_eq_some_iff] at hpulse
    obtain ⟨⟨e₁, rest⟩, hloop, rfl⟩ := hpulse
    obtain ⟨haborted, hticks, hrest⟩ := cycles_frame rfl hloop
    obtain ⟨d, rfl⟩ := Option.isSome_iff_exists.mp hrest
    have hplay : ∀ d, (e₁.playRest never d).aborted = false ∧
        (e₁.playRest never d).ticks = ticks := by
      intro d
      rw [LoopingEnvelope.playRest, LoopingEnvelope.playTo, call_never]
      exact ⟨haborted, hticks⟩
    cases reachedEnd with
    | false =>
        refine ⟨?_, fun _ h => absurd h Bool.false_ne_true⟩
        simp only [Function.comp_apply, Bool.false_eq_true, false_and, if_false, and_true]
        split
        · exact (hplay d).2
        · exact hticks
    | true =>
        simp only [Function.comp_apply, Bool.true_eq_false, and_false, if_false, haborted, true_and,
          if_true, call_never]
        exact ⟨hticks, fun _ _ => List.mem_append_right _ (List.mem_singleton_self _)⟩

end Pulse

/-! ## Sequences of pulses -/

/-- After every pulse of the sequence the animation has done what it should have done. -/
def Loops (run : List ℕ → Option LoopingEnvelope) (c : ℕ) (autoReverse : Bool) (total : Option ℕ)
    (ts : List ℕ) : Prop :=
  ∀ pre t, pre ++ [t] <+: ts → ∃ e, run (pre ++ [t]) = some e ∧ Played c autoReverse total t e

/-- What holds along a sequence of pulses, from what one pulse does: `State` is the state after a
tick, and `Good` the ticks that lead on to it. -/
theorem loops_iff {step : LoopingEnvelope → ℕ → Option LoopingEnvelope} {start : LoopingEnvelope}
    (State : ℕ → LoopingEnvelope → Prop) {Good : ℕ → Prop} {c : ℕ} {autoReverse : Bool}
    {total : Option ℕ} (hstart : State 0 start) (hzero : Good 0)
    (hgood : ∀ s t e, State s e → s ≤ t → t < 2 ^ 63 → Good t → ∃ e', step e t = some e' ∧ State t e')
    (hplayed : ∀ t e, State t e → Played c autoReverse total t e)
    (hbad : ∀ s t e e', State s e → Good s → s ≤ t → t < 2 ^ 63 → step e t = some e' →
      Played c autoReverse total t e' → Good t)
    {ts : List ℕ} (hts : ts.Pairwise (· ≤ ·)) (hlong : ∀ t ∈ ts, t < 2 ^ 63) :
    Loops (fun ts => ts.foldlM step start) c autoReverse total ts ↔ ∀ t ∈ ts, Good t := by
  have hlast : ∀ {pre : List ℕ} {t : ℕ}, (pre ++ [t]).Pairwise (· ≤ ·) → pre.getLastD 0 ≤ t := by
    intro pre t hp
    rcases List.eq_nil_or_concat' pre with rfl | ⟨pre, s, rfl⟩
    · exact Nat.zero_le t
    · rw [List.getLastD_concat]
      exact (List.pairwise_append.mp hp).2.2 s (by simp) t (List.mem_singleton_self t)
  have hrun : ∀ {ts : List ℕ}, ts.Pairwise (· ≤ ·) → (∀ t ∈ ts, t < 2 ^ 63) → (∀ t ∈ ts, Good t) →
      ∃ e, ts.foldlM step start = some e ∧ State (ts.getLastD 0) e := by
    intro ts
    induction ts using List.reverseRecOn with
    | nil => exact fun _ _ _ => ⟨start, rfl, hstart⟩
    | append_singleton pre t ih =>
        intro hts hlong hall
        obtain ⟨e, hpre, hstate⟩ := ih (List.pairwise_append.mp hts).1
          (fun x hx => hlong x (List.mem_append_left _ hx))
          (fun x hx => hall x (List.mem_append_left _ hx))
        have ht : t ∈ pre ++ [t] := List.mem_append_right _ (List.mem_singleton_self t)
        obtain ⟨e', hstep, hstate'⟩ := hgood _ t e hstate (hlast hts) (hlong t ht) (hall t ht)
        refine ⟨e', ?_, ?_⟩
        · rw [List.foldlM_append, hpre]
          show (step e t >>= fun e => some e) = some e'
          rw [hstep]
          rfl
        · rw [List.getLastD_concat]
          exact hstate'
  constructor
  · intro hloops
    induction ts using List.reverseRecOn with
    | nil => exact fun t ht => absurd ht List.not_mem_nil
    | append_singleton pre t ih =>
        have hpre : ∀ x ∈ pre, Good x := ih (List.pairwise_append.mp hts).1
          (fun x hx => hlong x (List.mem_append_left _ hx))
          (fun p x hp => hloops p x (hp.trans (List.prefix_append pre [t])))
        have ht : t ∈ pre ++ [t] := List.mem_append_right _ (List.mem_singleton_self t)
        have hlastGood : Good (pre.getLastD 0) := by
          rcases List.eq_nil_or_concat' pre with rfl | ⟨pre, s, rfl⟩
          · exact hzero
          · rw [List.getLastD_concat]
            exact hpre s (by simp)
        obtain ⟨e, hrunpre, hstate⟩ := hrun (List.pairwise_append.mp hts).1
          (fun x hx => hlong x (List.mem_append_left _ hx)) hpre
        obtain ⟨e', hrun', hp⟩ := hloops pre t (List.prefix_refl _)
        have hstep : step e t = some e' := by
          simp only [List.foldlM_append, hrunpre] at hrun'
          show step e t = some e'
          rw [← hrun']
          show step e t = (step e t >>= fun e => some e)
          cases step e t with
          | none => rfl
          | some _ => rfl
        intro x hx
        rcases List.mem_append.mp hx with hx | hx
        · exact hpre x hx
        · rw [List.mem_singleton.mp hx]
          exact hbad _ t e e' hstate hlastGood (hlast hts) (hlong t ht) hstep hp
  · intro hall pre t hpre
    obtain ⟨e, hrunpre, hstate⟩ := hrun (hts.sublist hpre.sublist)
      (fun x hx => hlong x (hpre.subset hx)) (fun x hx => hall x (hpre.subset hx))
    rw [List.getLastD_concat] at hstate
    exact ⟨e, hrunpre, hplayed t e hstate⟩

/-! ## The two envelopes -/

/-- A clip after `start()`. -/
def started (c : ℕ) (autoReverse : Bool) (calculateCurrentRate : LoopingEnvelope → ℤ) :
    LoopingEnvelope :=
  let e : LoopingEnvelope := { cycleTicks := c, autoReverse }
  e.start never (calculateCurrentRate e)

def FiniteClipEnvelope.run (c n : ℕ) (autoReverse : Bool) (ts : List ℕ) : Option LoopingEnvelope :=
  ts.foldlM (fun e (t : ℕ) => timePulse never n e (t : ℤ)) (started c autoReverse calculateCurrentRate)

def InfiniteClipEnvelope.run (c : ℕ) (autoReverse : Bool) (ts : List ℕ) : Option LoopingEnvelope :=
  ts.foldlM (fun e (t : ℕ) => InfiniteClipEnvelope.timePulse never e (t : ℤ))
    (started c autoReverse InfiniteClipEnvelope.calculateCurrentRate)

/-- The pulse is exact as a `double`. -/
def Exact (t : ℕ) : Prop := roundTicks t 1 = t

/-- The pulse is exact and before the end, as `totalTicks` tells it, or 0; or it is at the end or
later, and still is so as a `double`. -/
def ExactlyTold (c n t : ℕ) : Prop :=
  (Exact t ∧ ((t : ℤ) < totalTicks n c ∨ t = 0)) ∨ (n * c ≤ t ∧ ((n * c : ℕ) : ℤ) ≤ roundTicks t 1)

section Envelopes

variable {c n : ℕ} {autoReverse : Bool}

theorem started_ready {calculate : LoopingEnvelope → ℤ}
    (hrate : calculate { cycleTicks := c, autoReverse } = 1) :
    Ready c autoReverse 0 (started c autoReverse calculate) := by
  have hforward : ¬ Backward autoReverse 0 := fun hb => nomatch hb.2
  rw [Ready, Nat.zero_div, Nat.zero_mod, started, hrate]
  simp only [LoopingEnvelope.start, LoopingEnvelope.setCurrentRate, call_never]
  refine ⟨rfl, rfl, rfl, rfl, rfl, rfl, ?_, ?_, rfl, ?_⟩
  · rw [if_neg hforward]
  · rw [position, if_neg hforward]
    rfl
  · rw [List.nil_append, List.mem_singleton]
    exact Call.noConfusion

theorem Ready.played {t : ℕ} {total : Option ℕ} {e : LoopingEnvelope}
    (h : Ready c autoReverse t e) (hbefore : ∀ n, total = some n → t < n) :
    Played c autoReverse total t e := by
  have hbound : total.elim t (min t) = t := by
    cases total with
    | none => rfl
    | some n => exact min_eq_left (le_of_lt (hbefore n rfl))
  refine ⟨?_, ?_, ?_, ?_⟩
  · rw [hbound]
    exact h.tick
  · rw [hbound, if_neg (fun hend => Nat.lt_irrefl t (hbefore t hend.2))]
    exact h.pos
  · rw [hbound]
    exact h.calls
  · rw [List.count_eq_zero.mpr h.unfinished, if_neg]
    rintro ⟨n, hn, hle⟩
    exact absurd (hbefore n hn) (not_lt.mpr hle)

theorem Finished.played (hc : 0 < c) (hn : 0 < n) {t : ℕ} {e : LoopingEnvelope}
    (h : Finished c autoReverse n e) (ht : n * c ≤ t) :
    Played c autoReverse (some (n * c)) t e := by
  have hbound : min t (n * c) = n * c := min_eq_right ht
  refine ⟨?_, ?_, ?_, ?_⟩
  · rw [Option.elim_some, hbound]
    exact h.tick
  · rw [Option.elim_some, hbound, h.pos, Nat.mul_div_cancel _ hc, Nat.mul_mod_left]
    cases autoReverse with
    | false =>
        rw [if_pos ⟨rfl, rfl⟩, position, if_neg (fun hb => Bool.false_ne_true hb.1)]
    | true =>
        rw [if_neg (fun hf => Bool.noConfusion hf.1), position, position]
        have hturn : Backward true n ↔ ¬ Backward true (n - 1) := by
          simp only [Backward, true_and]
          omega
        by_cases hb : Backward true (n - 1)
        · rw [if_pos hb, if_neg (fun hb' => hturn.mp hb' hb), Int.sub_self, Nat.cast_zero]
        · rw [if_neg hb, if_pos (hturn.mpr hb), Nat.cast_zero, Int.sub_zero]
  · rw [Option.elim_some, hbound, Nat.mul_div_cancel _ hc]
    exact h.calls
  · rw [h.finished, if_pos ⟨n * c, rfl, ht⟩]

/-- The state of a finite clip after the tick `t`. -/
def FiniteClipEnvelope.State (c n : ℕ) (autoReverse : Bool) (t : ℕ) (e : LoopingEnvelope) : Prop :=
  (t < n * c ∧ Ready c autoReverse t e) ∨ (n * c ≤ t ∧ Finished c autoReverse n e)

theorem FiniteClipEnvelope.State.steady {t : ℕ} {e : LoopingEnvelope}
    (h : State c n autoReverse t e) : Steady c e := by
  rcases h with ⟨-, h⟩ | ⟨-, h⟩
  · exact h.steady
  · exact h.steady

theorem exact_zero : Exact 0 := by
  rw [Exact, roundTicks_one (Int.natCast_nonneg 0), toDouble_of_lt (by decide)]
  unfold maxLong
  omega

theorem totalTicks_le (n c : ℕ) : totalTicks n c ≤ ((n * c : ℕ) : ℤ) := by
  have hnonneg : (0 : ℤ) ≤ ((n * c : ℕ) : ℤ) := Int.natCast_nonneg _
  rw [totalTicks, ← Nat.cast_mul]
  unfold toLong
  omega

theorem totalTicks_of_lt (h : n * c < 2 ^ 63) : totalTicks n c = ((n * c : ℕ) : ℤ) := by
  rw [totalTicks, ← Nat.cast_mul]
  exact toLong_of_nonneg (Int.natCast_nonneg _) (natCast_le_maxLong h)

/-- A pulse that is told exactly leads on. -/
theorem FiniteClipEnvelope.State.pulse (hc : 0 < c) (hn : 0 < n) {s t : ℕ} {e : LoopingEnvelope}
    (h : State c n autoReverse s e) (hle : s ≤ t) (hlong : t < 2 ^ 63) (ht : ExactlyTold c n t) :
    ∃ e', timePulse never n e (t : ℤ) = some e' ∧ State c n autoReverse t e' := by
  rw [h.steady.finite]
  rcases ht with ⟨hexact, hbefore⟩ | ⟨hend, hround⟩
  · have hlt : t < n * c := by
      rcases hbefore with hbefore | rfl
      · exact_mod_cast hbefore.trans_le (totalTicks_le n c)
      · exact Nat.mul_pos hn hc
    have hready : Ready c autoReverse s e := by
      rcases h with ⟨-, h⟩ | ⟨hs, -⟩
      · exact h
      · omega
    rw [Exact] at hexact
    rw [hexact]
    by_cases hpos : (t : ℤ) < totalTicks n c
    · have hticks : checkBounds t (totalTicks n c) = t := by
        rw [checkBounds, min_eq_left (le_of_lt hpos), max_eq_right (Int.natCast_nonneg t)]
      rw [hticks, decide_eq_false (not_le.mpr hpos)]
      obtain ⟨e', hpulse, hready'⟩ := hready.before hc hle hlong
      exact ⟨e', hpulse, Or.inl ⟨hlt, hready'⟩⟩
    · -- the first pulses, at tick 0, when `totalTicks` is not positive
      have ht0 : t = 0 := hbefore.resolve_left hpos
      have hs0 : s = 0 := Nat.le_zero.mp (ht0 ▸ hle)
      subst ht0 hs0
      have hticks : checkBounds ((0 : ℕ) : ℤ) (totalTicks n c) = ((0 : ℕ) : ℤ) := by
        rw [checkBounds, min_eq_right (not_lt.mp hpos)]
        exact max_eq_left (not_lt.mp hpos)
      rw [hticks]
      obtain ⟨e', hpulse, hready'⟩ := hready.same hc _
      exact ⟨e', hpulse, Or.inl ⟨hlt, hready'⟩⟩
  · have hN : n * c < 2 ^ 63 := hend.trans_lt hlong
    have hticks : checkBounds (roundTicks t 1) (totalTicks n c) = ((n * c : ℕ) : ℤ) := by
      rw [totalTicks_of_lt hN, checkBounds, min_eq_right hround,
        max_eq_right (Int.natCast_nonneg _)]
    rw [hticks, totalTicks_of_lt hN, decide_eq_true (le_refl _)]
    rcases h with ⟨hs, hready⟩ | ⟨-, hfinished⟩
    · obtain ⟨e', hpulse, hfinished⟩ := hready.reaches hc hs hN
      exact ⟨e', hpulse, Or.inr ⟨hend, hfinished⟩⟩
    · obtain ⟨e', hpulse, hfinished'⟩ := hfinished.same hc true
      exact ⟨e', hpulse, Or.inr ⟨hend, hfinished'⟩⟩

/-- A pulse that is not told exactly goes wrong. -/
theorem FiniteClipEnvelope.State.told (hc : 0 < c) (hn : 0 < n) {s t : ℕ} {e e' : LoopingEnvelope}
    (h : State c n autoReverse s e) (hs : ExactlyTold c n s) (hle : s ≤ t) (hlong : t < 2 ^ 63)
    (hpulse : timePulse never n e (t : ℤ) = some e')
    (hplayed : Played c autoReverse (some (n * c)) t e') : ExactlyTold c n t := by
  rw [h.steady.finite] at hpulse
  obtain ⟨hticks, hfinishes⟩ := pulseTo_frame hc h.steady hpulse
  have hN : 0 < n * c := Nat.mul_pos hn hc
  have hmin : checkBounds (roundTicks t 1) (totalTicks n c) = ((min t (n * c) : ℕ) : ℤ) :=
    hticks.symm.trans hplayed.ticks
  by_cases hend : n * c ≤ t
  · refine Or.inr ⟨hend, ?_⟩
    rw [min_eq_right hend, totalTicks_of_lt (hend.trans_lt hlong), checkBounds] at hmin
    have hle : ((n * c : ℕ) : ℤ) ≤ min (roundTicks t 1) ((n * c : ℕ) : ℤ) := by
      rcases max_choice (0 : ℤ) (min (roundTicks t 1) ((n * c : ℕ) : ℤ)) with hmax | hmax
      · omega
      · exact le_of_eq (hmin.symm.trans hmax)
    exact hle.trans (min_le_left _ _)
  · have hlt : t < n * c := not_le.mp hend
    rw [min_eq_left (le_of_lt hlt)] at hmin
    rcases Nat.eq_zero_or_pos t with rfl | hpos
    · exact Or.inl ⟨exact_zero, Or.inr rfl⟩
    · rcases checkBounds_cases hmin (by exact_mod_cast hpos) with ⟨hexact, hbefore⟩ | ⟨hW, -⟩
      · exact Or.inl ⟨hexact, Or.inl hbefore⟩
      · -- the wrapped total is reached before the end
        exfalso
        rcases h with ⟨-, hready⟩ | ⟨hs', -⟩
        · rcases Nat.eq_or_lt_of_le hle with rfl | hst
          · rcases hs with ⟨-, hs | hs⟩ | ⟨hs, -⟩
            · rw [hW] at hs
              exact lt_irrefl _ hs
            · exact absurd hs hpos.ne'
            · exact hend hs
          · have hne : toLong (checkBounds (roundTicks t 1) (totalTicks n c) - e.ticks) ≠ 0 := by
              have hle' : (t : ℤ) ≤ maxLong := natCast_le_maxLong hlong
              rw [hmin, hready.tick, toLong_of_nonneg (by omega) (by omega)]
              omega
            have hmem := hfinishes hne (by rw [hmin, hW]; exact decide_eq_true (le_refl _))
            have hcount := hplayed.finished
            rw [if_neg] at hcount
            · exact List.count_eq_zero.mp hcount hmem
            · rintro ⟨m, hm, hmt⟩
              cases hm
              exact hend hmt
        · omega

/-- **Looping does not depend on the pulses:** the state after each pulse is that of its tick
exactly when every pulse is told exactly. -/
theorem looping_iff (hc : 0 < c) (hn : 2 ≤ n) (autoReverse : Bool) {ts : List ℕ}
    (hts : ts.Pairwise (· ≤ ·)) (hlong : ∀ t ∈ ts, t < 2 ^ 63) :
    (Loops (FiniteClipEnvelope.run c n autoReverse) c autoReverse (some (n * c)) ts ↔
      ∀ t ∈ ts, ExactlyTold c n t) ∧
    (Loops (InfiniteClipEnvelope.run c autoReverse) c autoReverse none ts ↔ ∀ t ∈ ts, Exact t) := by
  have hpos : 0 < n := by omega
  have hrate : ∀ x : ℤ, (0 : ℤ).tmod x < (c : ℤ) := by
    intro x
    rw [Int.zero_tmod]
    exact_mod_cast hc
  constructor
  · unfold FiniteClipEnvelope.run
    refine loops_iff (FiniteClipEnvelope.State c n autoReverse) ?_ ?_ ?_ ?_ ?_ hts hlong
    · refine Or.inl ⟨Nat.mul_pos hpos hc, started_ready ?_⟩
      simp only [calculateCurrentRate, hrate, decide_true]
      cases autoReverse with
      | true => rfl
      | false => rfl
    · exact Or.inl ⟨exact_zero, Or.inr rfl⟩
    · exact fun s t e h hle hlt ht => h.pulse hc hpos hle hlt ht
    · rintro t e (⟨ht, h⟩ | ⟨ht, h⟩)
      · exact h.played fun m hm => Option.some.inj hm ▸ ht
      · exact h.played hc hpos ht
    · exact fun s t e e' h hs hle hlt hpulse hp => h.told hc hpos hs hle hlt hpulse hp
  · unfold InfiniteClipEnvelope.run
    refine loops_iff (Ready c autoReverse) ?_ exact_zero ?_ ?_ ?_ hts hlong
    · refine started_ready ?_
      simp only [InfiniteClipEnvelope.calculateCurrentRate, hrate, if_true, ite_self]
    · intro s t e h hle hlt ht
      rw [h.steady.infinite, show roundTicks t 1 = t from ht]
      exact h.before hc hle hlt
    · exact fun t e h => h.played fun m hm => nomatch hm
    · intro s t e e' h _ _ _ hpulse hp
      rw [h.steady.infinite] at hpulse
      exact (pulseTo_frame hc h.steady hpulse).1.symm.trans hp.ticks

/-- Three cycles of ten ticks there and back, in three pulses. -/
theorem looping_iff_thrice :
    Loops (FiniteClipEnvelope.run 10 3 true) 10 true (some (3 * 10)) [4, 10, 37] ∧
      Loops (InfiniteClipEnvelope.run 10 true) 10 true none [4, 10, 37] := by
  have hexact : ∀ t, t < 2 ^ 53 → Exact t := by
    intro t ht
    rw [Exact, roundTicks_one (Int.natCast_nonneg t), toDouble_of_lt (by omega)]
    exact min_eq_left (natCast_le_maxLong (by omega))
  have h := looping_iff (c := 10) (n := 3) (by decide) (by decide) true
    (by decide : [4, 10, 37].Pairwise (· ≤ ·)) (by decide)
  refine ⟨h.1.mpr fun t ht => ?_, h.2.mpr fun t ht => hexact t ?_⟩
  · simp only [List.mem_cons, List.not_mem_nil, or_false] at ht
    rcases ht with rfl | rfl | rfl
    · exact Or.inl ⟨hexact 4 (by decide), Or.inl (by decide)⟩
    · exact Or.inl ⟨hexact 10 (by decide), Or.inl (by decide)⟩
    · exact Or.inr ⟨by decide, by rw [show roundTicks (37 : ℕ) 1 = 37 from hexact 37 (by decide)]; decide⟩
  · simp only [List.mem_cons, List.not_mem_nil, or_false] at ht
    rcases ht with rfl | rfl | rfl
    · decide
    · decide
    · decide

/-- Two cycles of 2⁶² ticks are -2⁶³ ticks as a `long`: the first pulse stays at tick 0. -/
theorem total_wraps : ¬ Loops (FiniteClipEnvelope.run (2 ^ 62) 2 false) (2 ^ 62) false
    (some (2 * 2 ^ 62)) [1] := by
  intro h
  obtain ⟨e, hrun, hplayed⟩ := h [] 1 (List.prefix_refl _)
  have hticks : (FiniteClipEnvelope.run (2 ^ 62) 2 false [1]).map (fun e => e.ticks) = some 0 := by
    decide
  rw [List.nil_append] at hrun
  rw [hrun, Option.map_some, Option.some_inj, hplayed.ticks] at hticks
  exact absurd hticks (by decide)

end Envelopes

end JavaFx.Animation
