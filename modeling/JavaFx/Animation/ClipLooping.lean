import JavaFx.Animation.ClipEnvelope

/-!
# Looping

At rate 1, without aborts, the state after a pulse is a function of the tick: the cycle it falls
into, the position in that cycle and the ends of the cycles before have been played to, one after
the other. Both envelopes compute with `long`s and `double`s, so this holds as long as the number
of ticks of the whole animation is a `long` and the pulses survive their conversion to `double`.
-/

namespace JavaFx.Animation

/-- An animation that does not abort the pulse. -/
def never : List Call → Bool := fun _ => false

/-- In cycle `k` the animation plays backwards. -/
def Backward (autoReverse : Bool) (k : ℕ) : Prop := autoReverse = true ∧ k % 2 = 1

instance (autoReverse : Bool) (k : ℕ) : Decidable (Backward autoReverse k) :=
  inferInstanceAs (Decidable (_ ∧ _))

/-- The position `r` ticks after the start of cycle `k`. -/
def position (c : ℕ) (autoReverse : Bool) (k r : ℕ) : ℤ :=
  if Backward autoReverse k then (c : ℤ) - r else r

/-- The call that plays cycle `k` to its end. -/
def endOf (c : ℕ) (autoReverse : Bool) (k : ℕ) : Call := .playTo (position c autoReverse k c) c

/-- The call plays a cycle to one of its ends. -/
def Call.endsCycle (c : ℕ) : Call → Bool
  | .playTo pos _ => pos == 0 || pos == c
  | _ => false

/-- **What a looping animation has done by tick `t`**, when it has `total` ticks; none for an
infinite number of cycles. -/
structure Played (c : ℕ) (autoReverse : Bool) (total : Option ℕ) (t : ℕ) (e : LoopingEnvelope) :
    Prop where
  ticks : e.ticks = (total.elim t (min t) : ℕ)
  pos : e.pos = if autoReverse = false ∧ total = some (total.elim t (min t)) then (c : ℤ)
    else position c autoReverse (total.elim t (min t) / c) (total.elim t (min t) % c)
  cycles : e.calls.filter (Call.endsCycle c) =
    (List.range (total.elim t (min t) / c)).map (endOf c autoReverse)
  finished : e.calls.count .finished = if ∃ n, total = some n ∧ n ≤ t then 1 else 0

/-! ## One cycle -/

/-- In cycle `k`, at the position `p`, after `q` cycles; `ticks` is the tick of the pulse. -/
structure InCycle (c : ℕ) (autoReverse : Bool) (ticks k q : ℕ) (p : ℤ) (e : LoopingEnvelope) :
    Prop where
  cycleTicks : e.cycleTicks = c
  reverse : e.autoReverse = autoReverse
  rate : e.rate = 1
  deltaTicks : e.deltaTicks = 0
  aborted : e.aborted = false
  tick : e.ticks = ticks
  currentRate : e.currentRate = if Backward autoReverse k then -1 else 1
  pos : e.pos = p
  calls : e.calls.filter (Call.endsCycle c) = (List.range q).map (endOf c autoReverse)
  unfinished : .finished ∉ e.calls

theorem call_never (e : LoopingEnvelope) (x : Call) :
    e.call never x = { e with calls := e.calls ++ [x] } := by
  rw [LoopingEnvelope.call, never, Bool.and_false, if_neg Bool.false_ne_true]

section Cycle

variable {c ticks k q : ℕ} {autoReverse : Bool} {p : ℤ} {e : LoopingEnvelope}

/-- The current rate tells the direction. -/
theorem InCycle.forward (h : InCycle c autoReverse ticks k q p e) :
    0 < e.currentRate ↔ ¬ Backward autoReverse k := by
  rw [h.currentRate]
  split
  · next hb => exact iff_of_false (by omega) (fun hn => hn hb)
  · next hb => exact iff_of_true (by omega) hb

theorem InCycle.cycleDelta {r : ℕ} (h : InCycle c autoReverse ticks k q (position c autoReverse k r) e) :
    e.cycleDelta = c - r := by
  rw [LoopingEnvelope.cycleDelta, h.cycleTicks, h.pos, position]
  by_cases hb : Backward autoReverse k
  · rw [if_neg (fun hf => h.forward.mp hf hb), if_pos hb]
  · rw [if_pos (h.forward.mpr hb), if_neg hb]

/-- The rest of the cycle is played. -/
theorem InCycle.endCycle (h : InCycle c autoReverse ticks k k p e) :
    InCycle c autoReverse ticks k (k + 1) (position c autoReverse k c)
      (e.playTo never (if 0 < e.currentRate then e.cycleTicks else 0)) := by
  have hpos : (if 0 < e.currentRate then e.cycleTicks else 0) = position c autoReverse k c := by
    rw [position, h.cycleTicks]
    by_cases hb : Backward autoReverse k
    · rw [if_neg (fun hf => h.forward.mp hf hb), if_pos hb, Int.sub_self]
    · rw [if_pos (h.forward.mpr hb), if_neg hb]
  have hends : Call.endsCycle c (endOf c autoReverse k) = true := by
    rw [endOf, Call.endsCycle, position]
    split
    · rw [Int.sub_self]
      rfl
    · rw [Bool.or_eq_true, beq_self_eq_true]
      exact Or.inr rfl
  rw [hpos, LoopingEnvelope.playTo, call_never, h.cycleTicks]
  refine ⟨rfl, h.reverse, h.rate, h.deltaTicks, h.aborted, h.tick, h.currentRate,
    rfl, ?_, ?_⟩
  · show (e.calls ++ [endOf c autoReverse k]).filter (Call.endsCycle c) = _
    rw [List.filter_append, h.calls, List.filter_cons_of_pos hends, List.filter_nil,
      List.range_succ, List.map_append, List.map_singleton]
  · rw [List.mem_append, List.mem_singleton]
    rintro (hmem | hmem)
    · exact h.unfinished hmem
    · cases hmem

/-- At the end of a cycle the next one begins. -/
theorem InCycle.nextCycle (h : InCycle c autoReverse ticks k q (position c autoReverse k c) e) :
    InCycle c autoReverse ticks (k + 1) q (position c autoReverse (k + 1) 0)
      (e.nextCycle never) := by
  have hcalls : ∀ x : Call, Call.endsCycle c x = false → x ≠ .finished →
      (e.calls ++ [x]).filter (Call.endsCycle c) = (List.range q).map (endOf c autoReverse) ∧
        Call.finished ∉ e.calls ++ [x] := by
    intro x hx hne
    rw [List.filter_append, h.calls, List.filter_cons_of_neg (by rw [hx]; exact Bool.false_ne_true),
      List.filter_nil, List.append_nil]
    refine ⟨rfl, ?_⟩
    rw [List.mem_append, List.mem_singleton, not_or]
    exact ⟨h.unfinished, hne.symm⟩
  rw [LoopingEnvelope.nextCycle, h.reverse]
  cases autoReverse with
  | true =>
      have hturn : Backward true (k + 1) ↔ ¬ Backward true k := by
        simp only [Backward, true_and]
        omega
      rw [if_pos rfl, LoopingEnvelope.setCurrentRate, call_never]
      obtain ⟨hends, hunfinished⟩ :=
        hcalls (.setCurrentRate (-e.currentRate)) rfl Call.noConfusion
      refine ⟨h.cycleTicks, h.reverse, h.rate, h.deltaTicks, h.aborted, h.tick, ?_, ?_,
        hends, hunfinished⟩
      · show -e.currentRate = _
        rw [h.currentRate]
        by_cases hb : Backward true k
        · rw [if_pos hb, if_neg (fun hb' => hturn.mp hb' hb), Int.neg_neg]
        · rw [if_neg hb, if_pos (hturn.mpr hb)]
      · show e.pos = _
        rw [h.pos, position, position]
        by_cases hb : Backward true k
        · rw [if_pos hb, if_neg (fun hb' => hturn.mp hb' hb), Int.sub_self, Nat.cast_zero]
        · rw [if_neg hb, if_pos (hturn.mpr hb), Nat.cast_zero, Int.sub_zero]
  | false =>
      have hforward : ∀ k, ¬ Backward false k := fun k hb => Bool.false_ne_true hb.1
      rw [if_neg Bool.false_ne_true, if_pos (h.forward.mpr (hforward k))]
      simp only [call_never]
      obtain ⟨hends, hunfinished⟩ := hcalls (.jumpTo 0 e.cycleTicks false) rfl Call.noConfusion
      refine ⟨h.cycleTicks, rfl, h.rate, h.deltaTicks, h.aborted, h.tick, ?_, ?_,
        hends, hunfinished⟩
      · show e.currentRate = _
        rw [h.currentRate, if_neg (hforward k), if_neg (hforward (k + 1))]
      · rw [position, if_neg (hforward (k + 1)), Nat.cast_zero]

/-- A part of the cycle is played. -/
theorem InCycle.playRest {r d : ℕ} (h : InCycle c autoReverse ticks k q (position c autoReverse k r) e)
    (hd : 0 < d) (hr : r + d < c) :
    InCycle c autoReverse ticks k q (position c autoReverse k (r + d)) (e.playRest never d) := by
  have hpos : e.pos + (if 0 < e.currentRate then (d : ℤ) else -d) =
      position c autoReverse k (r + d) := by
    rw [h.pos, position, position, Nat.cast_add]
    by_cases hb : Backward autoReverse k
    · rw [if_neg (fun hf => h.forward.mp hf hb), if_pos hb, if_pos hb]
      omega
    · rw [if_pos (h.forward.mpr hb), if_neg hb, if_neg hb]
  have hinside : Call.endsCycle c (.playTo (position c autoReverse k (r + d)) c) = false := by
    rw [Call.endsCycle, position, Nat.cast_add, Bool.or_eq_false_iff, beq_eq_false_iff_ne,
      beq_eq_false_iff_ne]
    split
    · exact ⟨by omega, by omega⟩
    · exact ⟨by omega, by omega⟩
  rw [LoopingEnvelope.playRest, hpos, LoopingEnvelope.playTo, call_never, h.cycleTicks]
  refine ⟨rfl, h.reverse, h.rate, h.deltaTicks, h.aborted, h.tick, h.currentRate,
    rfl, ?_, ?_⟩
  · show (e.calls ++ [_]).filter (Call.endsCycle c) = _
    rw [List.filter_append, h.calls,
      List.filter_cons_of_neg (by rw [hinside]; exact Bool.false_ne_true), List.filter_nil,
      List.append_nil]
  · rw [List.mem_append, List.mem_singleton]
    rintro (hmem | hmem)
    · exact h.unfinished hmem
    · cases hmem

end Cycle

/-! ## The loop -/

open FiniteClipEnvelope

/-- The loop of `InfiniteClipEnvelope` is that of `FiniteClipEnvelope` before the end. -/
theorem infinite_cycles_eq (abort : List Call → Bool) (rounds : ℕ) (e : LoopingEnvelope)
    (overallDelta cycleDelta : ℤ) : InfiniteClipEnvelope.cycles abort rounds e overallDelta cycleDelta =
      cycles abort false rounds e overallDelta cycleDelta := by
  induction rounds generalizing e overallDelta cycleDelta with
  | zero => rfl
  | succ rounds ih =>
      rw [InfiniteClipEnvelope.cycles, cycles]
      simp only [ih, Bool.not_false, Bool.true_or, if_true]

section Loop

variable {c : ℕ} {autoReverse : Bool}

/-- One round: the cycle of `s` is played to its end. -/
theorem cycles_round {ticks s : ℕ} {e : LoopingEnvelope}
    (h : InCycle c autoReverse ticks (s / c) (s / c) (position c autoReverse (s / c) (s % c)) e)
    (hc : 0 < c) (hfit : c - s % c ≤ ticks - s) (reachedEnd : Bool) (rounds : ℕ) :
    ∃ e', InCycle c autoReverse ticks (s / c) (s / c + 1) (position c autoReverse (s / c) c) e' ∧
      cycles never reachedEnd (rounds + 1) e ((ticks - s : ℕ) : ℤ) ((c - s % c : ℕ) : ℤ) =
        cycles never reachedEnd rounds
          (if !reachedEnd || 0 < ((ticks - (s / c + 1) * c : ℕ) : ℤ) then e'.nextCycle never else e')
          ((ticks - (s / c + 1) * c : ℕ) : ℤ) (c : ℤ) := by
  have hmod : s % c < c := Nat.mod_lt s hc
  have hsplit : c * (s / c) + s % c = s := Nat.div_add_mod s c
  have hnext : (s / c + 1) * c = s + (c - s % c) := by
    rw [Nat.add_mul, Nat.one_mul, Nat.mul_comm]
    omega
  have hleft : ((ticks - s : ℕ) : ℤ) - ((c - s % c : ℕ) : ℤ) =
      ((ticks - (s / c + 1) * c : ℕ) : ℤ) := by
    rw [hnext]
    omega
  have hend := h.endCycle
  refine ⟨_, hend, ?_⟩
  rw [cycles, if_pos (by omega), if_pos (by omega)]
  simp only [hleft]
  rw [if_neg (fun ha => by rw [hend.aborted] at ha; exact Bool.false_ne_true ha.2)]
  have hcycle : ∀ b : Bool,
      (if b = true then (e.playTo never (if 0 < e.currentRate then e.cycleTicks else 0)).nextCycle never
        else e.playTo never (if 0 < e.currentRate then e.cycleTicks else 0)).cycleTicks = (c : ℤ) := by
    rintro (_ | _)
    · exact hend.cycleTicks
    · exact hend.nextCycle.cycleTicks
  rw [hcycle]

/-- The loop without the end of the animation: it goes as far as the cycle of the tick. -/
theorem cycles_before (hc : 0 < c) {ticks : ℕ} : ∀ (rounds s : ℕ) (e : LoopingEnvelope), s ≤ ticks →
    ticks - s < rounds →
    InCycle c autoReverse ticks (s / c) (s / c) (position c autoReverse (s / c) (s % c)) e →
    ∃ e' r d, cycles never false rounds e ((ticks - s : ℕ) : ℤ) ((c - s % c : ℕ) : ℤ) =
        some (e', some ((d : ℕ) : ℤ)) ∧ r + d = ticks % c ∧
      InCycle c autoReverse ticks (ticks / c) (ticks / c)
        (position c autoReverse (ticks / c) r) e' := by
  intro rounds
  induction rounds with
  | zero => exact fun s e _ hrounds => absurd hrounds (Nat.not_lt_zero _)
  | succ rounds ih =>
      intro s e hs hrounds h
      have hmod : s % c < c := Nat.mod_lt s hc
      have hsplit : c * (s / c) + s % c = s := Nat.div_add_mod s c
      by_cases hdone : ticks - s < c - s % c
      · -- the tick lies in the cycle of `s`
        have hq : ticks / c = s / c := by
          refine Nat.div_eq_of_lt_le ?_ ?_
          · rw [Nat.mul_comm]
            omega
          · rw [Nat.add_mul, Nat.one_mul, Nat.mul_comm]
            omega
        have hr : ticks % c = s % c + (ticks - s) := by
          have hsplit' : c * (ticks / c) + ticks % c = ticks := Nat.div_add_mod ticks c
          rw [hq] at hsplit'
          omega
        rw [cycles, if_neg (by omega)]
        refine ⟨e, s % c, ticks - s, rfl, hr.symm, ?_⟩
        rw [hq]
        exact h
      · obtain ⟨e', hend, hround⟩ := cycles_round h hc (not_lt.mp hdone) false rounds
        have hnext : (s / c + 1) * c = s + (c - s % c) := by
          rw [Nat.add_mul, Nat.one_mul, Nat.mul_comm]
          omega
        have hih := ih ((s / c + 1) * c) (e'.nextCycle never) (by omega) (by omega)
        rw [Nat.mul_div_cancel _ hc, Nat.mul_mod_left, Nat.sub_zero] at hih
        rw [hround, Bool.not_false, Bool.true_or, if_pos rfl]
        exact hih hend.nextCycle

/-- The loop at the end of the animation: it plays the last cycle to its end and stays there. -/
theorem cycles_end (hc : 0 < c) {n : ℕ} : ∀ (rounds s : ℕ) (e : LoopingEnvelope), s < n * c →
    n * c - s + 1 < rounds →
    InCycle c autoReverse (n * c) (s / c) (s / c) (position c autoReverse (s / c) (s % c)) e →
    ∃ e', cycles never true rounds e ((n * c - s : ℕ) : ℤ) ((c - s % c : ℕ) : ℤ) =
        some (e', some 0) ∧
      InCycle c autoReverse (n * c) (n - 1) n (position c autoReverse (n - 1) c) e' := by
  intro rounds
  induction rounds with
  | zero => exact fun s e _ hrounds => absurd hrounds (Nat.not_lt_zero _)
  | succ rounds ih =>
      intro s e hs hrounds h
      have hmod : s % c < c := Nat.mod_lt s hc
      have hsplit : c * (s / c) + s % c = s := Nat.div_add_mod s c
      have hnext : (s / c + 1) * c = s + (c - s % c) := by
        rw [Nat.add_mul, Nat.one_mul, Nat.mul_comm]
        omega
      have hq : s / c + 1 ≤ n := (Nat.div_lt_iff_lt_mul hc).mpr hs
      have hle : (s / c + 1) * c ≤ n * c := Nat.mul_le_mul_right c hq
      obtain ⟨e', hend, hround⟩ := cycles_round h hc (by omega) true rounds
      rw [hround]
      by_cases hlast : s / c + 1 = n
      · have hpos : 0 < n * c - s := Nat.sub_pos_of_lt hs
        have hne : rounds ≠ 0 := by
          rintro rfl
          omega
        obtain ⟨rounds, rfl⟩ := Nat.exists_eq_succ_of_ne_zero hne
        rw [hlast, Nat.sub_self, Nat.cast_zero, if_neg (by decide), cycles, if_neg (by omega)]
        refine ⟨e', rfl, ?_⟩
        rw [show n - 1 = s / c from Nat.sub_eq_of_eq_add hlast.symm]
        rw [hlast] at hend
        exact hend
      · have hlt : (s / c + 1) * c < n * c :=
          Nat.mul_lt_mul_of_pos_right (lt_of_le_of_ne hq hlast) hc
        have hih := ih ((s / c + 1) * c) (e'.nextCycle never) hlt (by omega)
        rw [Nat.mul_div_cancel _ hc, Nat.mul_mod_left, Nat.sub_zero] at hih
        rw [if_pos (by simp only [Bool.not_true, Bool.false_or, decide_eq_true_eq]; omega)]
        exact hih hend.nextCycle

/-- Whatever the numbers are, the loop is not aborted and leaves the tick alone. -/
theorem cycles_frame {reachedEnd : Bool} : ∀ {rounds : ℕ} {e e' : LoopingEnvelope}
    {overallDelta cycleDelta : ℤ} {rest : Option ℤ}, e.aborted = false →
    cycles never reachedEnd rounds e overallDelta cycleDelta = some (e', rest) →
    e'.aborted = false ∧ e'.ticks = e.ticks ∧ rest.isSome = true := by
  intro rounds
  induction rounds with
  | zero => exact fun _ h => nomatch h
  | succ rounds ih =>
      intro e e' overallDelta cycleDelta rest haborted h
      have hplay : ∀ p, (e.playTo never p).aborted = false ∧ (e.playTo never p).ticks = e.ticks := by
        intro p
        rw [LoopingEnvelope.playTo, call_never]
        exact ⟨haborted, rfl⟩
      have hnext : ∀ {e₁ : LoopingEnvelope}, e₁.aborted = false →
          (e₁.nextCycle never).aborted = false ∧ (e₁.nextCycle never).ticks = e₁.ticks := by
        intro e₁ h₁
        rw [LoopingEnvelope.nextCycle, LoopingEnvelope.setCurrentRate]
        simp only [call_never]
        split
        · exact ⟨h₁, rfl⟩
        · exact ⟨h₁, rfl⟩
      have hstep : ∀ {b : Bool} {e₁ : LoopingEnvelope} {d : ℤ}, e₁.aborted = false →
          e₁.ticks = e.ticks →
          cycles never reachedEnd rounds (if b = true then e₁.nextCycle never else e₁) d
            (if b = true then e₁.nextCycle never else e₁).cycleTicks = some (e', rest) →
          e'.aborted = false ∧ e'.ticks = e.ticks ∧ rest.isSome = true := by
        intro b e₁ d h₁ ht hrec
        cases b with
        | true =>
            obtain ⟨ha, htick, hrest⟩ := ih (hnext h₁).1 hrec
            exact ⟨ha, htick.trans ((hnext h₁).2.trans ht), hrest⟩
        | false =>
            obtain ⟨ha, htick, hrest⟩ := ih h₁ hrec
            exact ⟨ha, htick.trans ht, hrest⟩
      rw [cycles] at h
      by_cases hfit : cycleDelta ≤ overallDelta
      · rw [if_pos hfit] at h
        by_cases hdelta : 0 < cycleDelta
        · obtain ⟨ha, ht⟩ := hplay (if 0 < e.currentRate then e.cycleTicks else 0)
          rw [if_pos hdelta] at h
          simp only at h
          rw [if_neg (fun hab => by rw [ha] at hab; exact Bool.false_ne_true hab.2)] at h
          exact hstep ha ht h
        · rw [if_neg hdelta] at h
          simp only at h
          rw [if_neg (fun hab => hdelta hab.1)] at h
          exact hstep haborted rfl h
      · rw [if_neg hfit] at h
        cases h
        exact ⟨haborted, rfl, rfl⟩

end Loop

end JavaFx.Animation
