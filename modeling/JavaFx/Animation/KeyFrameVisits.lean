import JavaFx.Animation.TimelineClipCore

/-!
# Which key frames are visited

The key frames are sorted, so those up to a tick are the first ones. After playing forwards
`lastKF` is the last frame at or before the current tick, after playing backwards the first one
at or after it. Going on in the same direction that is what `playTo` needs. After a turn it is
right when exactly one frame stands at the current tick; between two frames it takes the frame
that is next in the new direction for one that has just been visited.
-/

namespace JavaFx.Animation

/-- A handler that does not abort. -/
def calm : ℕ → Bool := fun _ => false

/-! ## Sorted key frames -/

/-- In a list where `P` holds of all elements before one of which it holds, it holds of the first
`countP P` elements. -/
theorem getElem?_of_countP {α : Type} {P : α → Bool} {l : List α}
    (hl : l.Pairwise fun a b => P b = true → P a = true) {i : ℕ} {x : α} (hx : l[i]? = some x) :
    P x = true ↔ i < l.countP P := by
  induction l generalizing i with
  | nil => cases hx
  | cons a l ih =>
      obtain ⟨ha, hl⟩ := List.pairwise_cons.mp hl
      by_cases hPa : P a = true
      · rw [List.countP_cons_of_pos hPa]
        cases i with
        | zero =>
            cases hx
            exact iff_of_true hPa (Nat.succ_pos _)
        | succ i =>
            rw [ih hl hx]
            omega
      · have hnone : l.countP P = 0 := List.countP_eq_zero.mpr fun b hb hPb => hPa (ha b hb hPb)
        rw [List.countP_cons_of_neg hPa, hnone]
        cases i with
        | zero =>
            cases hx
            exact iff_of_false hPa (Nat.lt_irrefl 0)
        | succ i =>
            refine iff_of_false (fun hP => hPa (ha x (List.mem_of_getElem? hx) hP)) (by omega)

namespace TimelineClipCore

/-- The number of key frames at or before `x`. -/
def upTo (ks : List KeyFrame) (x : ℕ) : ℕ := ks.countP fun k => k.ticks ≤ x

/-- The number of key frames before `x`. -/
def before (ks : List KeyFrame) (x : ℕ) : ℕ := ks.countP fun k => k.ticks < x

/-- The key frames as `setKeyFrames` leaves them, all with handlers. -/
structure Ordered (ks : List KeyFrame) : Prop where
  sorted : ks.Pairwise fun k k' => k.ticks ≤ k'.ticks
  handlers : ∀ k ∈ ks, k.hasHandler = true

section Sorted

variable {ks : List KeyFrame} {i x y : ℕ} {k : KeyFrame}

theorem Ordered.le_iff (h : Ordered ks) (hk : ks[i]? = some k) : k.ticks ≤ x ↔ i < upTo ks x := by
  have hiff := getElem?_of_countP (P := fun k => decide (k.ticks ≤ x)) (h.sorted.imp ?_) hk
  · rw [decide_eq_true_eq] at hiff
    exact hiff
  · intro a b hab hb
    rw [decide_eq_true_eq] at hb ⊢
    omega

theorem Ordered.lt_iff (h : Ordered ks) (hk : ks[i]? = some k) : k.ticks < x ↔ i < before ks x := by
  have hiff := getElem?_of_countP (P := fun k => decide (k.ticks < x)) (h.sorted.imp ?_) hk
  · rw [decide_eq_true_eq] at hiff
    exact hiff
  · intro a b hab hb
    rw [decide_eq_true_eq] at hb ⊢
    omega

theorem upTo_le_length (ks : List KeyFrame) (x : ℕ) : upTo ks x ≤ ks.length := List.countP_le_length

theorem before_le_upTo (ks : List KeyFrame) (x : ℕ) : before ks x ≤ upTo ks x := by
  refine List.countP_mono_left fun k _ hk => ?_
  rw [decide_eq_true_eq] at hk ⊢
  omega

theorem upTo_mono (ks : List KeyFrame) (h : x ≤ y) : upTo ks x ≤ upTo ks y := by
  refine List.countP_mono_left fun k _ hk => ?_
  rw [decide_eq_true_eq] at hk ⊢
  omega

theorem upTo_le_before (ks : List KeyFrame) (h : x < y) : upTo ks x ≤ before ks y := by
  refine List.countP_mono_left fun k _ hk => ?_
  rw [decide_eq_true_eq] at hk ⊢
  omega

theorem exists_getElem? (h : i < ks.length) : ∃ k, ks[i]? = some k :=
  ⟨ks[i], List.getElem?_eq_getElem h⟩

end Sorted

/-! ## The loops -/

/-- The key frames whose handlers have been called. -/
def handled (s : TimelineClipCore) : List ℕ :=
  s.calls.filterMap fun
    | .handle kfIndex => some kfIndex
    | _ => none

/-- The indexes from `lo` on below `hi`. -/
def indexes (lo hi : ℕ) : List ℕ := List.range' lo (hi - lo)

theorem indexes_cons {lo hi : ℕ} (h : lo < hi) : indexes lo hi = lo :: indexes (lo + 1) hi := by
  rw [indexes, indexes, show hi - lo = hi - (lo + 1) + 1 by omega, List.range'_succ]

theorem indexes_snoc {lo hi : ℕ} (h : lo ≤ hi) : indexes lo (hi + 1) = indexes lo hi ++ [hi] := by
  rw [indexes, indexes, show hi + 1 - lo = hi - lo + 1 by omega, List.range'_concat, Nat.one_mul,
    show lo + (hi - lo) = hi by omega]

theorem indexes_self {lo hi : ℕ} (h : hi ≤ lo) : indexes lo hi = [] := by
  rw [indexes, Nat.sub_eq_zero_of_le h]
  rfl

theorem length_indexes (lo hi : ℕ) : (indexes lo hi).length = hi - lo := List.length_range'

/-- A key frame is visited. -/
theorem visit_eq {s : TimelineClipCore} {i : ℕ} {k : KeyFrame} (hi : (i : ℤ) ≠ s.lastKF)
    (hk : k.hasHandler = true) :
    ∃ calls, s.visitKeyFrame calm i k =
        { s with lastKF := i, curTicks := k.ticks, calls := calls } ∧
      (s.visitKeyFrame calm i k).handled = s.handled ++ [i] := by
  refine ⟨s.calls ++ [.setCurrentTicks k.ticks] ++ [.interpolate k.ticks] ++ [.handle i], ?_, ?_⟩
  · rw [visitKeyFrame, if_pos hi, if_pos hk, handle, calm, Bool.or_false]
    rfl
  · rw [visitKeyFrame, if_pos hi, if_pos hk, handled, handle]
    show (s.calls ++ [TimelineCall.setCurrentTicks k.ticks] ++ [TimelineCall.interpolate k.ticks] ++
      [TimelineCall.handle i]).filterMap _ = s.handled ++ [i]
    rw [List.filterMap_append, List.filterMap_append, List.filterMap_append]
    show s.handled ++ [] ++ [] ++ [i] = _
    rw [List.append_nil, List.append_nil]

section Loops

variable {ks : List KeyFrame} {t : ℕ}

/-- The tick after the visits: that of the last frame visited. -/
def tickAfter (ks : List KeyFrame) (curTicks : ℕ) (visits : List ℕ) : ℕ :=
  visits.foldl (fun cur i => (ks[i]?.map KeyFrame.ticks).getD cur) curTicks

theorem tickAfter_cons {i c : ℕ} {k : KeyFrame} (hk : ks[i]? = some k) (visits : List ℕ) :
    tickAfter ks c (i :: visits) = tickAfter ks k.ticks visits := by
  rw [tickAfter, List.foldl_cons, hk]
  rfl

theorem tickAfter_concat {i : ℕ} {k : KeyFrame} (hk : ks[i]? = some k) (c : ℕ) (visits : List ℕ) :
    tickAfter ks c (visits ++ [i]) = k.ticks := by
  rw [tickAfter, List.foldl_append, List.foldl_cons, hk]
  rfl

/-- What a loop does to the state: the frames it has visited, and the new `lastKF`. -/
structure Visited (ks : List KeyFrame) (s : TimelineClipCore) (visits : List ℕ) (lastKF : ℤ)
    (s' : TimelineClipCore) : Prop where
  keyFrames : s'.keyFrames = s.keyFrames
  aborted : s'.aborted = false
  lastKF : s'.lastKF = lastKF
  curTicks : s'.curTicks = tickAfter ks s.curTicks visits
  handled : s'.handled = s.handled ++ visits

/-- One more visit, before the others. -/
theorem Visited.cons {s s' : TimelineClipCore} {visits : List ℕ} {lastKF : ℤ} {i : ℕ} {k : KeyFrame}
    (hk : ks[i]? = some k) (hi : (i : ℤ) ≠ s.lastKF) (hhandler : k.hasHandler = true)
    (h : Visited ks (s.visitKeyFrame calm i k) visits lastKF s') :
    Visited ks s (i :: visits) lastKF s' := by
  obtain ⟨calls, hvisit, hhandled⟩ := visit_eq hi hhandler
  refine ⟨?_, h.aborted, h.lastKF, ?_, ?_⟩
  · rw [h.keyFrames, hvisit]
  · rw [h.curTicks, hvisit, tickAfter_cons hk]
  · rw [h.handled, hhandled, List.append_assoc]
    rfl

theorem zipIdx_drop {f : ℕ} {k : KeyFrame} (hk : ks[f]? = some k) :
    ks.zipIdx.drop f = (k, f) :: ks.zipIdx.drop (f + 1) := by
  obtain ⟨hlt, rfl⟩ := List.getElem?_eq_some_iff.mp hk
  rw [List.drop_eq_getElem_cons (by rw [List.length_zipIdx]; exact hlt), List.getElem_zipIdx,
    Nat.zero_add]

theorem zipIdx_take {f : ℕ} {k : KeyFrame} (hk : ks[f]? = some k) :
    (ks.zipIdx.take (f + 1)).reverse = (k, f) :: (ks.zipIdx.take f).reverse := by
  obtain ⟨hlt, rfl⟩ := List.getElem?_eq_some_iff.mp hk
  rw [List.take_add_one, List.getElem?_zipIdx, hk, List.reverse_append]
  simp

theorem Ordered.ticks_le (h : Ordered ks) {i j : ℕ} {k k' : KeyFrame} (hij : i ≤ j)
    (hk : ks[i]? = some k) (hk' : ks[j]? = some k') : k.ticks ≤ k'.ticks := by
  have hj : j < upTo ks k'.ticks := (h.le_iff hk').mp (Nat.le_refl _)
  exact (h.le_iff hk).mpr (hij.trans_lt hj)

/-- **The loop forwards** visits the frames from `f` on up to the target. -/
theorem playForward_eq (h : Ordered ks) : ∀ (rest f : ℕ) (s : TimelineClipCore),
    f + rest = ks.length → f ≤ upTo ks t → s.aborted = false → s.lastKF = (f : ℤ) - 1 →
    (∀ i k, f ≤ i → ks[i]? = some k → s.curTicks ≤ k.ticks) →
    Visited ks s (indexes f (upTo ks t)) ((upTo ks t : ℤ) - 1)
      (playForward calm t (ks.zipIdx.drop f) s) := by
  intro rest
  induction rest with
  | zero =>
      intro f s hlen hf hab hlast _
      have hall : upTo ks t = f := le_antisymm (by have := upTo_le_length ks t; omega) hf
      rw [List.drop_eq_nil_of_le (by rw [List.length_zipIdx]; omega), playForward, hall,
        indexes_self (Nat.le_refl f)]
      exact ⟨rfl, hab, hlast, rfl, (List.append_nil _).symm⟩
  | succ rest ih =>
      intro f s hlen hf hab hlast hafter
      obtain ⟨k, hk⟩ := exists_getElem? (show f < ks.length by omega)
      rw [zipIdx_drop hk, playForward]
      by_cases hreached : t < k.ticks
      · have hnot := (h.le_iff hk (x := t)).not.mp (not_le.mpr hreached)
        rw [if_pos hreached, show upTo ks t = f by omega, indexes_self (Nat.le_refl f)]
        exact ⟨rfl, hab, rfl, rfl, (List.append_nil _).symm⟩
      · have hlt : f < upTo ks t := (h.le_iff hk).mp (not_lt.mp hreached)
        have hi : (f : ℤ) ≠ s.lastKF := by omega
        have hhandler : k.hasHandler = true := h.handlers k (List.mem_of_getElem? hk)
        obtain ⟨calls, hvisit, -⟩ := visit_eq hi hhandler
        have hab' : (s.visitKeyFrame calm f k).aborted = false := by rw [hvisit]; exact hab
        rw [if_neg hreached, if_pos (hafter f k (Nat.le_refl f) hk)]
        simp only [hab', Bool.false_eq_true, if_false]
        rw [indexes_cons hlt]
        refine Visited.cons hk hi hhandler (ih (f + 1) _ (by omega) hlt hab' ?_ ?_)
        · rw [hvisit]
          simp only
          omega
        · intro i k' hi' hk'
          rw [hvisit]
          exact h.ticks_le (by omega) hk hk'

/-- **The loop backwards** visits the frames below `f` down to the target. -/
theorem playBackward_eq (h : Ordered ks) : ∀ (f : ℕ) (s : TimelineClipCore),
    f ≤ ks.length → before ks t ≤ f → s.aborted = false → s.lastKF = (f : ℤ) →
    (∀ i k, i < f → ks[i]? = some k → k.ticks ≤ s.curTicks) →
    Visited ks s (indexes (before ks t) f).reverse (before ks t : ℤ)
      (playBackward calm t (ks.zipIdx.take f).reverse s) := by
  intro f
  induction f with
  | zero =>
      intro s _ hf hab hlast _
      rw [List.take_zero, List.reverse_nil, playBackward, Nat.le_zero.mp hf,
        indexes_self (Nat.le_refl 0)]
      exact ⟨rfl, hab, hlast, rfl, (List.append_nil _).symm⟩
  | succ f ih =>
      intro s hlen hf hab hlast hbefore
      obtain ⟨k, hk⟩ := exists_getElem? (show f < ks.length by omega)
      rw [zipIdx_take hk, playBackward]
      by_cases hreached : k.ticks < t
      · have hlt := (h.lt_iff hk).mp hreached
        rw [if_pos hreached, show before ks t = f + 1 by omega, indexes_self (Nat.le_refl _)]
        exact ⟨rfl, hab, by push_cast; rfl, rfl, (List.append_nil _).symm⟩
      · have hle : before ks t ≤ f := not_lt.mp ((h.lt_iff hk).not.mp hreached)
        have hi : (f : ℤ) ≠ s.lastKF := by
          rw [hlast]
          push_cast
          omega
        have hhandler : k.hasHandler = true := h.handlers k (List.mem_of_getElem? hk)
        obtain ⟨calls, hvisit, -⟩ := visit_eq hi hhandler
        have hab' : (s.visitKeyFrame calm f k).aborted = false := by rw [hvisit]; exact hab
        rw [if_neg hreached, if_pos (hbefore f k (Nat.lt_succ_self f) hk)]
        simp only [hab', Bool.false_eq_true, if_false]
        rw [indexes_snoc hle, List.reverse_append, List.reverse_singleton, List.singleton_append]
        refine Visited.cons hk hi hhandler (ih _ (by omega) hle hab' ?_ ?_)
        · rw [hvisit]
        · intro i k' hi' hk'
          rw [hvisit]
          exact h.ticks_le (by omega) hk' hk

/-- A visit of the frame that `lastKF` points to is suppressed. -/
theorem visit_suppressed {s : TimelineClipCore} {i : ℕ} (k : KeyFrame) (hi : s.lastKF = i) :
    s.visitKeyFrame calm i k = s := by
  rw [visitKeyFrame, if_neg (fun hne => hne hi.symm)]

end Loops

/-! ## One call of `playTo` -/

section Steps

variable {ks : List KeyFrame} {s : TimelineClipCore} {c t : ℕ}

/-- At tick `c`, with some `lastKF`. -/
structure StandsAt (ks : List KeyFrame) (c : ℕ) (lastKF : ℤ) (s : TimelineClipCore) : Prop where
  keyFrames : s.keyFrames = ks
  curTicks : s.curTicks = c
  lastKF : s.lastKF = lastKF

/-- After playing forwards. -/
def AtForward (ks : List KeyFrame) (c : ℕ) (s : TimelineClipCore) : Prop :=
  StandsAt ks c ((upTo ks c : ℤ) - 1) s

/-- After playing backwards. -/
def AtBackward (ks : List KeyFrame) (c : ℕ) (s : TimelineClipCore) : Prop :=
  StandsAt ks c (before ks c : ℤ) s ∧ before ks c < ks.length

theorem arrayGet_keyFrame {i : ℕ} {k : KeyFrame} (hk : ks[i]? = some k) :
    arrayGet ks (i : ℤ) = .ok k :=
  arrayGet_eq_of_getElem? (Int.natCast_nonneg i) (by rw [Int.toNat_natCast]; exact hk)

theorem arrived (hkeyFrames : s.keyFrames = ks) :
    StandsAt ks t s.lastKF ((s.setTime t).interpolate t) ∧
      ((s.setTime t).interpolate t).handled = s.handled := by
  refine ⟨⟨hkeyFrames, rfl, rfl⟩, ?_⟩
  rw [handled, interpolate, setTime]
  show (s.calls ++ [TimelineCall.setCurrentTicks t] ++ [TimelineCall.interpolate t]).filterMap _ = _
  rw [List.filterMap_append, List.filterMap_append]
  show s.handled ++ [] ++ [] = _
  rw [List.append_nil, List.append_nil]

/-- Whatever `lastKF` is, the arrival calls no handler. -/
theorem arrive_handled {s' : TimelineClipCore} (harrive : s.arrive t = .ok s') :
    s'.handled = s.handled := by
  have hset : ((s.setTime t).interpolate t).handled = s.handled := (arrived rfl).2
  rw [arrive] at harrive
  split_ifs at harrive with hab hlast
  · cases harrive
    rfl
  · cases harrive
    exact hset
  · cases hget : arrayGet s.keyFrames s.lastKF with
    | error e =>
        rw [hget] at harrive
        cases harrive
    | ok k =>
        rw [hget] at harrive
        cases harrive
        split
        · exact hset
        · rfl

/-- The arrival, when `lastKF` does not point past the end, and points to a frame at the target
only if that has been visited. -/
theorem arrive_eq (h : Ordered ks) (hkeyFrames : s.keyFrames = ks) (hab : s.aborted = false)
    (hlast : s.lastKF = -1 ∨ ∃ (i : ℕ) (k : KeyFrame), s.lastKF = i ∧ ks[i]? = some k ∧
      (k.ticks = t → s.curTicks = t)) :
    ∃ s', s.arrive t = .ok s' ∧ StandsAt ks t s.lastKF s' := by
  rw [arrive, hab, if_neg Bool.false_ne_true]
  rcases hlast with hlast | ⟨i, k, hlast, hk, hat⟩
  · rw [if_pos hlast]
    exact ⟨_, rfl, (arrived hkeyFrames).1⟩
  · have hhandler : k.hasHandler = true := h.handlers k (List.mem_of_getElem? hk)
    rw [if_neg (by rw [hlast]; omega), hlast, hkeyFrames, arrayGet_keyFrame hk]
    by_cases hticks : k.ticks = t
    · refine ⟨s, ?_, ⟨hkeyFrames, hat hticks, hlast⟩⟩
      show Except.ok (if k.ticks ≠ t ∨ k.hasHandler = false then _ else s) = _
      rw [if_neg]
      rintro (hne | hno)
      · exact hne hticks
      · rw [hhandler] at hno
        cases hno
    · refine ⟨_, ?_, hlast ▸ (arrived hkeyFrames).1⟩
      show Except.ok (if k.ticks ≠ t ∨ k.hasHandler = false then _ else s) = _
      rw [if_pos (Or.inl hticks)]

theorem playTo_of_forward (hkeyFrames : s.keyFrames = ks) (hct : s.curTicks ≤ t) {f : ℕ}
    (hfrom : ({ s with aborted := false } : TimelineClipCore).forwardFrom = .ok (f : ℤ)) :
    playTo calm s t =
      (playForward calm t (ks.zipIdx.drop f) { s with aborted := false }).arrive t := by
  rw [playTo]
  simp only
  rw [if_pos hct, hfrom, ← hkeyFrames]
  rfl

theorem playTo_of_backward (hkeyFrames : s.keyFrames = ks) (hct : t < s.curTicks) {f : ℕ}
    (hfrom : ({ s with aborted := false } : TimelineClipCore).backwardFrom = .ok ((f : ℤ) - 1)) :
    playTo calm s t =
      (playBackward calm t (ks.zipIdx.take f).reverse { s with aborted := false }).arrive t := by
  rw [playTo]
  simp only
  rw [if_neg (not_le.mpr hct), hfrom, ← hkeyFrames]
  show (playBackward calm t (s.keyFrames.zipIdx.take ((f : ℤ) - 1 + 1).toNat).reverse _).arrive t = _
  rw [Int.sub_add_cancel, Int.toNat_natCast]

/-- **Playing forwards from the frame `f` on**, when the frames before are not after `c`. -/
theorem playTo_forward (h : Ordered ks) (hkeyFrames : s.keyFrames = ks) (hc : s.curTicks = c)
    (hct : c ≤ t) {f : ℕ} (hf : f ≤ upTo ks t) (hlast : s.lastKF = (f : ℤ) - 1)
    (hfrom : ({ s with aborted := false } : TimelineClipCore).forwardFrom = .ok (f : ℤ))
    (hafter : ∀ i k, f ≤ i → ks[i]? = some k → c ≤ k.ticks)
    (hbefore : ∀ i k, f = i + 1 → ks[i]? = some k → k.ticks ≤ c) :
    ∃ s', playTo calm s t = .ok s' ∧ AtForward ks t s' ∧
      s'.handled = s.handled ++ indexes f (upTo ks t) := by
  have hle := upTo_le_length ks t
  have hloop := playForward_eq (t := t) h (ks.length - f) f { s with aborted := false }
    (by omega) hf rfl hlast (fun i k hi hk => hc ▸ hafter i k hi hk)
  rw [playTo_of_forward hkeyFrames (hc ▸ hct) hfrom]
  obtain ⟨s', harrive, hstands⟩ := arrive_eq (t := t) h (hloop.keyFrames.trans hkeyFrames)
    hloop.aborted (by
      rcases Nat.eq_zero_or_pos (upTo ks t) with hzero | hpos
      · exact Or.inl (by rw [hloop.lastKF, hzero]; rfl)
      · obtain ⟨j, hj⟩ := Nat.exists_eq_succ_of_ne_zero hpos.ne'
        obtain ⟨k, hk⟩ := exists_getElem? (show j < ks.length by omega)
        refine Or.inr ⟨j, k, ?_, hk, fun hticks => ?_⟩
        · rw [hloop.lastKF, hj]
          push_cast
          omega
        · rw [hloop.curTicks]
          by_cases hfj : f ≤ j
          · -- the last frame visited is the one at the target
            rw [hj, indexes_snoc hfj, tickAfter_concat hk]
            exact hticks
          · rw [indexes_self (by omega)]
            have hkc := hbefore j k (by omega) hk
            show s.curTicks = t
            omega)
  refine ⟨s', harrive, ?_, ?_⟩
  · rw [hloop.lastKF] at hstands
    exact hstands
  · rw [arrive_handled harrive, hloop.handled]
    rfl

/-- **Playing backwards from below the frame `f`**, when that frame is after the target. -/
theorem playTo_backward (h : Ordered ks) (hkeyFrames : s.keyFrames = ks) (hc : s.curTicks = c)
    (htc : t < c) {f : ℕ} {k : KeyFrame} (hk : ks[f]? = some k) (hkt : t < k.ticks)
    (hf : before ks t ≤ f) (hlast : s.lastKF = (f : ℤ))
    (hfrom : ({ s with aborted := false } : TimelineClipCore).backwardFrom = .ok ((f : ℤ) - 1))
    (hbelow : ∀ i k, i < f → ks[i]? = some k → k.ticks ≤ c) :
    ∃ s', playTo calm s t = .ok s' ∧ AtBackward ks t s' ∧
      s'.handled = s.handled ++ (indexes (before ks t) f).reverse := by
  have hflt : f < ks.length := (List.getElem?_eq_some_iff.mp hk).1
  have hloop := playBackward_eq (t := t) h f { s with aborted := false } (le_of_lt hflt) hf rfl
    hlast (fun i k hi hk => hc ▸ hbelow i k hi hk)
  rw [playTo_of_backward hkeyFrames (hc ▸ htc) hfrom]
  obtain ⟨s', harrive, hstands⟩ := arrive_eq (t := t) h (hloop.keyFrames.trans hkeyFrames)
    hloop.aborted (by
      obtain ⟨k', hk'⟩ := exists_getElem? (show before ks t < ks.length by omega)
      refine Or.inr ⟨before ks t, k', hloop.lastKF, hk', fun hticks => ?_⟩
      rw [hloop.curTicks]
      rcases Nat.eq_or_lt_of_le hf with heq | hlt
      · rw [heq, hk, Option.some_inj] at hk'
        subst hk'
        omega
      · rw [indexes_cons hlt, List.reverse_cons, tickAfter_concat hk']
        exact hticks)
  refine ⟨s', harrive, ?_, ?_⟩
  · rw [hloop.lastKF] at hstands
    exact ⟨hstands, by omega⟩
  · rw [arrive_handled harrive, hloop.handled]
    rfl

end Steps

end TimelineClipCore

end JavaFx.Animation
