import JavaFx.Animation.KeyFrameVisits

/-!
# Timelines that turn

A timeline that only plays forwards, or goes on in the direction it has, fires the key frames it
crosses. After a turn it does so exactly when one frame stands alone at the turning point, or
when there is none there and the first move after the turn crosses none.
-/

namespace JavaFx.Animation

namespace TimelineClipCore

/-- The indexes of the key frames at the ticks where `P` holds. -/
def crossed (ks : List KeyFrame) (P : ℕ → Bool) : List ℕ :=
  (ks.zipIdx.filter fun p => P p.1.ticks).map Prod.snd

/-- The key frames between two ticks, in the order of the direction; the first call includes the
frames at its start. -/
def due (ks : List KeyFrame) (first : Bool) (c t : ℕ) : List ℕ :=
  if c ≤ t then crossed ks fun x => (c < x || (first && x == c)) && x ≤ t
  else (crossed ks fun x => t ≤ x && x < c).reverse

/-- **Every call** calls the handlers of the key frames that are due, and arrives. -/
def PlaysRight (ks : List KeyFrame) : Bool → TimelineClipCore → List ℕ → Prop
  | _, _, [] => True
  | first, s, t :: ts =>
      match playTo calm s t with
      | .ok s' => s'.curTicks = t ∧ s'.handled = s.handled ++ due ks first s.curTicks t ∧
          PlaysRight ks false s' ts
      | .error _ => False

instance PlaysRight.decidable (ks : List KeyFrame) :
    ∀ (first : Bool) (s : TimelineClipCore) (ts : List ℕ), Decidable (PlaysRight ks first s ts)
  | _, _, [] => .isTrue trivial
  | first, s, t :: ts =>
      match h : playTo calm s t with
      | .ok s' =>
          have := PlaysRight.decidable ks false s' ts
          decidable_of_iff (s'.curTicks = t ∧ s'.handled = s.handled ++ due ks first s.curTicks t ∧
            PlaysRight ks false s' ts) (by rw [PlaysRight, h])
      | .error _ => .isFalse (by rw [PlaysRight, h]; exact id)

/-- One key frame stands at `c`, and no other. -/
def AloneAt (ks : List KeyFrame) (c : ℕ) : Prop := (ks.countP fun k => k.ticks = c) = 1

/-- No key frame stands between the two ticks. -/
def NoneIn (ks : List KeyFrame) (lo hi : ℕ) : Prop := ∀ k ∈ ks, ¬ (lo ≤ k.ticks ∧ k.ticks ≤ hi)

instance (ks : List KeyFrame) (c : ℕ) : Decidable (AloneAt ks c) :=
  inferInstanceAs (Decidable (_ = _))

instance (ks : List KeyFrame) (lo hi : ℕ) : Decidable (NoneIn ks lo hi) :=
  inferInstanceAs (Decidable (∀ k ∈ ks, _))

/-- The timeline may turn back at `c` to `t`. -/
def MayTurnBack (ks : List KeyFrame) (c t : ℕ) : Prop :=
  AloneAt ks c ∨ (NoneIn ks t c ∧ ∃ k ∈ ks, c < k.ticks)

/-- The timeline may turn forwards at `c` to `t`. -/
def MayTurnForward (ks : List KeyFrame) (c t : ℕ) : Prop := AloneAt ks c ∨ NoneIn ks c t

/-- All turns are such; before the first key frame there is nothing to turn back from. -/
def CleanTurns (ks : List KeyFrame) : Bool → ℕ → List ℕ → Prop
  | _, _, [] => True
  | true, c, t :: ts =>
      if c ≤ t ∨ ∀ k ∈ ks, c < k.ticks then CleanTurns ks true t ts
      else MayTurnBack ks c t ∧ CleanTurns ks false t ts
  | false, c, t :: ts =>
      if t < c then CleanTurns ks false t ts
      else MayTurnForward ks c t ∧ CleanTurns ks true t ts

/-- A run begins with a call forwards. -/
def CleanRun (ks : List KeyFrame) : List ℕ → Prop
  | [] => True
  | t :: ts => CleanTurns ks true t ts

/-! ## Counting -/

section Counting

variable {ks : List KeyFrame} {c t : ℕ}

/-- The frames at the ticks of an interval are those of an interval of indexes. -/
theorem crossed_eq {P : ℕ → Bool} {lo hi : ℕ} (hhi : hi ≤ ks.length)
    (hP : ∀ i k, ks[i]? = some k → (P k.ticks = true ↔ lo ≤ i ∧ i < hi)) :
    crossed ks P = indexes lo hi := by
  have hsorted : (crossed ks P).Pairwise (· < ·) := by
    have hsub : (crossed ks P).Sublist (ks.zipIdx.map Prod.snd) := List.filter_sublist.map _
    rw [List.zipIdx_map_snd] at hsub
    exact List.Pairwise.sublist hsub List.pairwise_lt_range'
  refine hsorted.eq_of_mem_iff List.pairwise_lt_range' fun i => ?_
  rw [crossed, List.mem_map, indexes, List.mem_range'_1]
  constructor
  · rintro ⟨⟨k, j⟩, hmem, rfl⟩
    obtain ⟨hmem, hPk⟩ := List.mem_filter.mp hmem
    have := (hP j k (List.mem_zipIdx_iff_getElem?.mp hmem)).mp hPk
    omega
  · rintro ⟨hlo, hlt⟩
    obtain ⟨k, hk⟩ := exists_getElem? (show i < ks.length by omega)
    refine ⟨(k, i), List.mem_filter.mpr ⟨List.mem_zipIdx_iff_getElem?.mpr hk, ?_⟩, rfl⟩
    exact (hP i k hk).mpr ⟨hlo, by omega⟩

theorem due_forward (h : Ordered ks) (hct : c ≤ t) :
    due ks false c t = indexes (upTo ks c) (upTo ks t) := by
  rw [due, if_pos hct]
  refine crossed_eq (upTo_le_length ks t) fun i k hk => ?_
  rw [Bool.false_and, Bool.or_false, Bool.and_eq_true, decide_eq_true_eq, decide_eq_true_eq,
    h.le_iff hk, ← not_le, h.le_iff hk, not_lt]

theorem due_first (h : Ordered ks) : due ks true 0 t = indexes 0 (upTo ks t) := by
  rw [due, if_pos (Nat.zero_le t)]
  refine crossed_eq (upTo_le_length ks t) fun i k hk => ?_
  rw [Bool.true_and, Bool.and_eq_true, Bool.or_eq_true, decide_eq_true_eq, beq_iff_eq,
    decide_eq_true_eq, h.le_iff hk]
  omega

theorem due_backward (h : Ordered ks) (htc : t < c) (first : Bool) :
    due ks first c t = (indexes (before ks t) (before ks c)).reverse := by
  rw [due, if_neg (not_le.mpr htc)]
  congr 1
  refine crossed_eq ((before_le_upTo ks c).trans (upTo_le_length ks c)) fun i k hk => ?_
  rw [Bool.and_eq_true, decide_eq_true_eq, decide_eq_true_eq, h.lt_iff hk, ← not_lt, h.lt_iff hk,
    not_lt]

theorem upTo_eq (ks : List KeyFrame) (c : ℕ) :
    upTo ks c = before ks c + ks.countP fun k => k.ticks = c := by
  induction ks with
  | nil => rfl
  | cons k ks ih =>
      rw [upTo, before, List.countP_cons, List.countP_cons, List.countP_cons]
      rw [upTo, before] at ih
      rw [ih]
      rcases lt_trichotomy k.ticks c with hlt | heq | hgt
      · simp [hlt, le_of_lt hlt, hlt.ne]
        omega
      · simp [heq]
        omega
      · simp [not_le.mpr hgt, not_lt.mpr (le_of_lt hgt), hgt.ne']

theorem aloneAt_iff : AloneAt ks c ↔ upTo ks c = before ks c + 1 := by
  rw [AloneAt, upTo_eq]
  omega

/-- No frame in an interval: the counts up to its ends agree. -/
theorem noneIn_iff (h : Ordered ks) (hct : c ≤ t) : NoneIn ks c t ↔ upTo ks t = before ks c := by
  have hle : before ks c ≤ upTo ks t := (before_le_upTo ks c).trans (upTo_mono ks hct)
  constructor
  · intro hnone
    by_contra hne
    have hlen := upTo_le_length ks t
    obtain ⟨k, hk⟩ := exists_getElem? (show before ks c < ks.length by omega)
    refine hnone k (List.mem_of_getElem? hk) ⟨not_lt.mp fun hlt => ?_, (h.le_iff hk).mpr (by omega)⟩
    exact Nat.lt_irrefl _ ((h.lt_iff hk).mp hlt)
  · rintro heq k hk ⟨hlo, hhi⟩
    obtain ⟨i, hi⟩ := List.mem_iff_getElem?.mp hk
    have h₁ := (h.le_iff hi).mp hhi
    have h₂ := (h.lt_iff hi (x := c)).not.mp (not_lt.mpr hlo)
    omega

theorem exists_after_iff (h : Ordered ks) : (∃ k ∈ ks, c < k.ticks) ↔ upTo ks c < ks.length := by
  constructor
  · rintro ⟨k, hk, hlt⟩
    obtain ⟨i, hi⟩ := List.mem_iff_getElem?.mp hk
    have hnot := (h.le_iff hi (x := c)).not.mp (not_le.mpr hlt)
    have := (List.getElem?_eq_some_iff.mp hi).1
    omega
  · intro hlt
    obtain ⟨k, hk⟩ := exists_getElem? hlt
    exact ⟨k, List.mem_of_getElem? hk, not_le.mp fun hle =>
      Nat.lt_irrefl _ ((h.le_iff hk).mp hle)⟩

theorem all_after_iff : (∀ k ∈ ks, c < k.ticks) ↔ upTo ks c = 0 := by
  rw [upTo, List.countP_eq_zero]
  refine forall₂_congr fun k _ => ?_
  rw [decide_eq_true_eq, not_le]

end Counting

/-! ## Steps -/

section Steps

variable {ks : List KeyFrame} {s s' : TimelineClipCore} {c t : ℕ}

/-- What a call is to do. -/
def Right (ks : List KeyFrame) (first : Bool) (s : TimelineClipCore) (t : ℕ)
    (s' : TimelineClipCore) : Prop :=
  s'.curTicks = t ∧ s'.handled = s.handled ++ due ks first s.curTicks t

/-- Going on forwards. -/
theorem AtForward.forward (h : Ordered ks) (hs : AtForward ks c s) (hct : c ≤ t) :
    ∃ s', playTo calm s t = .ok s' ∧ AtForward ks t s' ∧ Right ks false s t s' := by
  have hlen := upTo_le_length ks c
  have hfrom : ({ s with aborted := false } : TimelineClipCore).forwardFrom =
      .ok ((upTo ks c : ℕ) : ℤ) := by
    rw [forwardFrom]
    simp only [hs.lastKF, hs.keyFrames, hs.curTicks]
    rcases Nat.eq_zero_or_pos (upTo ks c) with hzero | hpos
    · rw [hzero]
      rfl
    · obtain ⟨j, hj⟩ := Nat.exists_eq_succ_of_ne_zero hpos.ne'
      obtain ⟨k, hk⟩ := exists_getElem? (show j < ks.length by omega)
      have hlast : ((upTo ks c : ℕ) : ℤ) - 1 = (j : ℤ) := by omega
      rw [hlast, if_neg (by omega), arrayGet_keyFrame hk]
      show Except.ok (if k.ticks ≤ c then (j : ℤ) + 1 else j) = _
      rw [if_pos ((h.le_iff hk).mpr (by omega)), hj]
      push_cast
      rfl
  obtain ⟨s', hplay, hs', hhandled⟩ := playTo_forward h hs.keyFrames hs.curTicks hct
    (upTo_mono ks hct) hs.lastKF hfrom
    (fun i k hi hk => le_of_lt (not_le.mp fun hle => absurd ((h.le_iff hk).mp hle) (not_lt.mpr hi)))
    (fun i k hi hk => (h.le_iff hk).mpr (by omega))
  refine ⟨s', hplay, hs', hs'.curTicks, ?_⟩
  rw [hhandled, hs.curTicks, due_forward h hct]

/-- The first call. -/
theorem forward_first (h : Ordered ks) (t : ℕ) :
    ∃ s', playTo calm (start { keyFrames := ks }) t = .ok s' ∧ AtForward ks t s' ∧
      Right ks true (start { keyFrames := ks }) t s' := by
  obtain ⟨s', hplay, hs', hhandled⟩ := playTo_forward (f := 0) (c := 0) (t := t)
    (s := start { keyFrames := ks }) h rfl rfl (Nat.zero_le t) (Nat.zero_le _) rfl rfl
    (fun i k _ _ => Nat.zero_le _) (fun i k hi _ => absurd hi (Nat.succ_ne_zero i).symm)
  refine ⟨s', hplay, hs', hs'.curTicks, ?_⟩
  rw [hhandled]
  show _ = [] ++ due ks true 0 t
  rw [due_first h]
  rfl

/-- Going on backwards. -/
theorem AtBackward.backward (h : Ordered ks) (hs : AtBackward ks c s) (htc : t < c) :
    ∃ s', playTo calm s t = .ok s' ∧ AtBackward ks t s' ∧ Right ks false s t s' := by
  obtain ⟨hstands, hlt⟩ := hs
  obtain ⟨k, hk⟩ := exists_getElem? hlt
  have hkc : c ≤ k.ticks := not_lt.mp fun hkc => Nat.lt_irrefl _ ((h.lt_iff hk).mp hkc)
  have hfrom : ({ s with aborted := false } : TimelineClipCore).backwardFrom =
      .ok (((before ks c : ℕ) : ℤ) - 1) := by
    rw [backwardFrom]
    simp only [hstands.lastKF, hstands.keyFrames, hstands.curTicks]
    rw [if_neg (by omega), arrayGet_keyFrame hk]
    show Except.ok (if c ≤ k.ticks then _ else _) = _
    rw [if_pos hkc]
  obtain ⟨s', hplay, hs', hhandled⟩ := playTo_backward h hstands.keyFrames hstands.curTicks htc hk
    (by omega) ((before_le_upTo ks t).trans (upTo_le_before ks htc)) hstands.lastKF hfrom
    (fun i k' hi hk' => le_of_lt ((h.lt_iff hk').mpr hi))
  refine ⟨s', hplay, hs', hs'.1.curTicks, ?_⟩
  rw [hhandled, hstands.curTicks, due_backward h htc]

/-- Going back, frames after the current tick are passed over. -/
theorem playBackward_after : ∀ {frames : List (KeyFrame × ℕ)} {s : TimelineClipCore},
    t ≤ s.curTicks → (∀ p ∈ frames, s.curTicks < p.1.ticks) → playBackward calm t frames s = s
  | [], _, _, _ => rfl
  | (k, i) :: rest, s, htc, hafter => by
      have hk : s.curTicks < k.ticks := hafter (k, i) List.mem_cons_self
      rw [playBackward, if_neg (by omega), if_neg (not_le.mpr hk)]
      exact playBackward_after htc fun p hp => hafter p (List.mem_cons_of_mem _ hp)

/-- Before the first key frame the direction does not matter. -/
theorem AtForward.outside (h : Ordered ks) (hs : AtForward ks c s) (htc : t < c)
    (hnone : upTo ks c = 0) :
    ∃ s', playTo calm s t = .ok s' ∧ AtForward ks t s' ∧ Right ks false s t s' := by
  have hlast : s.lastKF = -1 := by
    rw [hs.lastKF, hnone]
    rfl
  have hfrom : ({ s with aborted := false } : TimelineClipCore).backwardFrom =
      .ok ((ks.length : ℤ) - 1) := by
    rw [backwardFrom]
    simp only [hlast, hs.keyFrames]
    rfl
  have hloop : playBackward calm t (ks.zipIdx.take ks.length).reverse { s with aborted := false } =
      { s with aborted := false } := by
    refine playBackward_after (hs.curTicks ▸ le_of_lt htc) fun p hp => ?_
    have hmem := List.mem_zipIdx_iff_getElem?.mp (List.mem_of_mem_take (List.mem_reverse.mp hp))
    rw [show ({ s with aborted := false } : TimelineClipCore).curTicks = c from hs.curTicks]
    exact all_after_iff.mpr hnone p.1 (List.mem_of_getElem? hmem)
  obtain ⟨s', harrive, hstands⟩ := arrive_eq (s := { s with aborted := false }) (t := t) h
    hs.keyFrames rfl (Or.inl hlast)
  have hnone' : upTo ks t = 0 := Nat.le_zero.mp (hnone ▸ upTo_mono ks (le_of_lt htc))
  refine ⟨s', ?_, ?_, hstands.curTicks, ?_⟩
  · rw [playTo_of_backward hs.keyFrames (hs.curTicks ▸ htc) hfrom, hloop, harrive]
  · rw [AtForward, hnone']
    have hlast' : ({ s with aborted := false } : TimelineClipCore).lastKF = ((0 : ℕ) : ℤ) - 1 := hlast
    rw [hlast'] at hstands
    exact hstands
  · rw [arrive_handled harrive, hs.curTicks, due_backward h htc,
      indexes_self (by have := before_le_upTo ks c; omega)]
    exact (List.append_nil _).symm

/-- Turning back at a key frame: the frames below the last one up to `c` are visited. -/
theorem AtForward.back (h : Ordered ks) (hs : AtForward ks c s) (htc : t < c)
    (hat : before ks c < upTo ks c) :
    ∃ s', playTo calm s t = .ok s' ∧ AtBackward ks t s' ∧
      s'.handled = s.handled ++ (indexes (before ks t) (upTo ks c - 1)).reverse := by
  obtain ⟨l, hl⟩ := Nat.exists_eq_succ_of_ne_zero (Nat.ne_of_gt (Nat.zero_lt_of_lt hat))
  have hlen := upTo_le_length ks c
  obtain ⟨k, hk⟩ := exists_getElem? (show l < ks.length by omega)
  have hkc : c ≤ k.ticks := not_lt.mp ((h.lt_iff hk).not.mpr (by omega))
  have hlast : s.lastKF = (l : ℤ) := by
    rw [hs.lastKF, hl]
    push_cast
    omega
  have hfrom : ({ s with aborted := false } : TimelineClipCore).backwardFrom =
      .ok ((l : ℤ) - 1) := by
    rw [backwardFrom]
    simp only [hlast, hs.keyFrames, hs.curTicks]
    rw [if_neg (by omega), arrayGet_keyFrame hk]
    show Except.ok (if c ≤ k.ticks then _ else _) = _
    rw [if_pos hkc]
  have hle := (before_le_upTo ks t).trans (upTo_le_before ks htc)
  rw [hl, Nat.succ_sub_one]
  exact playTo_backward h hs.keyFrames hs.curTicks htc hk (by omega) (by omega) hlast hfrom
    (fun i k' hi hk' => (h.le_iff hk').mpr (by omega))

/-- Between key frames, after the frame `l`: the loop backwards begins with `l`. -/
theorem AtForward.backwardFrom_between (h : Ordered ks) (hs : AtForward ks c s) {l : ℕ}
    (hl : upTo ks c = l + 1) (hbetween : before ks c = l + 1) {k : KeyFrame} (hk : ks[l]? = some k) :
    ({ s with aborted := false } : TimelineClipCore).backwardFrom =
      .ok (((l + 1 : ℕ) : ℤ) - 1) := by
  have hkc : k.ticks < c := (h.lt_iff hk).mpr (by omega)
  have hlast : s.lastKF = (l : ℤ) := by
    rw [hs.lastKF, hl]
    push_cast
    omega
  rw [backwardFrom]
  simp only [hlast, hs.keyFrames, hs.curTicks]
  rw [if_neg (by omega), arrayGet_keyFrame hk]
  show Except.ok (if c ≤ k.ticks then _ else (l : ℤ)) = _
  rw [if_neg (not_le.mpr hkc)]
  push_cast
  rw [Int.add_sub_cancel]

theorem arrayGet_length {i : ℕ} (hi : ks.length ≤ i) :
    arrayGet ks (i : ℤ) = .error .arrayIndexOutOfBounds := by
  rw [arrayGet, if_pos (Int.natCast_nonneg i), Int.toNat_natCast, List.getElem?_eq_none hi]

/-- Turning back between key frames, when none is crossed: past the last one it fails. -/
theorem AtForward.back_between (h : Ordered ks) (hs : AtForward ks c s) (htc : t < c)
    (hpos : 0 < upTo ks c) (hnone : upTo ks c = before ks t) :
    (upTo ks c < ks.length → ∃ s', playTo calm s t = .ok s' ∧ AtBackward ks t s' ∧
      Right ks false s t s') ∧
    (upTo ks c = ks.length → ∃ e, playTo calm s t = .error e) := by
  obtain ⟨l, hl⟩ := Nat.exists_eq_succ_of_ne_zero hpos.ne'
  have hlen := upTo_le_length ks c
  have hle := (before_le_upTo ks t).trans (upTo_le_before ks htc)
  have hbetween : before ks c = l + 1 := by
    have := before_le_upTo ks c
    omega
  obtain ⟨k, hk⟩ := exists_getElem? (show l < ks.length by omega)
  have hkt : k.ticks < t := (h.lt_iff hk).mpr (by omega)
  have hplay : playTo calm s t =
      ({ s with aborted := false, lastKF := (upTo ks c : ℤ) } : TimelineClipCore).arrive t := by
    rw [playTo_of_backward hs.keyFrames (hs.curTicks ▸ htc)
      (hs.backwardFrom_between h hl hbetween hk), zipIdx_take hk, playBackward, if_pos hkt, hl]
    rfl
  constructor
  · intro hlt
    obtain ⟨k', hk'⟩ := exists_getElem? hlt
    have hk'c : c < k'.ticks := not_le.mp ((h.le_iff hk').not.mpr (Nat.lt_irrefl _))
    obtain ⟨s', harrive, hstands⟩ := arrive_eq (t := t)
      (s := { s with aborted := false, lastKF := (upTo ks c : ℤ) }) h hs.keyFrames rfl
      (Or.inr ⟨upTo ks c, k', rfl, hk', fun hticks => by omega⟩)
    refine ⟨s', hplay.trans harrive, ⟨?_, hnone ▸ hlt⟩, hstands.curTicks, ?_⟩
    · rw [← hnone]
      exact hstands
    · rw [arrive_handled harrive, hs.curTicks, due_backward h htc, indexes_self (by omega)]
      exact (List.append_nil _).symm
  · intro hall
    refine ⟨.arrayIndexOutOfBounds, hplay.trans ?_⟩
    rw [arrive, if_neg Bool.false_ne_true]
    simp only [hs.keyFrames]
    rw [if_neg (by omega), arrayGet_length (by omega)]
    rfl

/-- Turning back between key frames, when some are crossed: the first one is left out. -/
theorem AtForward.back_crossing (h : Ordered ks) (hs : AtForward ks c s) (htc : t < c)
    (hbetween : upTo ks c = before ks c) (hcross : before ks t < upTo ks c)
    (hplay : playTo calm s t = .ok s') :
    s'.handled = s.handled ++ (indexes (before ks t) (upTo ks c - 1)).reverse := by
  obtain ⟨l, hl⟩ := Nat.exists_eq_succ_of_ne_zero (Nat.ne_of_gt (Nat.zero_lt_of_lt hcross))
  have hlen := upTo_le_length ks c
  obtain ⟨k, hk⟩ := exists_getElem? (show l < ks.length by omega)
  have hkt : ¬ k.ticks < t := (h.lt_iff hk).not.mpr (by omega)
  have hkc : k.ticks ≤ c := (h.le_iff hk).mpr (by omega)
  have hlast : ({ s with aborted := false } : TimelineClipCore).lastKF = (l : ℤ) := by
    show s.lastKF = _
    rw [hs.lastKF, hl]
    push_cast
    omega
  have hloop := playBackward_eq (t := t) h l { s with aborted := false } (by omega) (by omega) rfl
    hlast (fun i k' hi hk' => hs.curTicks ▸ (h.le_iff hk').mpr (by omega))
  rw [playTo_of_backward hs.keyFrames (hs.curTicks ▸ htc)
    (hs.backwardFrom_between h hl (hbetween ▸ hl) hk), zipIdx_take hk, playBackward, if_neg hkt,
    if_pos (hs.curTicks ▸ hkc), visit_suppressed k hlast] at hplay
  simp only [Bool.false_eq_true, if_false] at hplay
  rw [arrive_handled hplay, hloop.handled, hl]
  rfl

/-- Turning forwards at a key frame: the frames after the first one at `c` are visited. -/
theorem AtBackward.forth (h : Ordered ks) (hs : AtBackward ks c s) (hct : c ≤ t)
    (hat : before ks c < upTo ks c) :
    ∃ s', playTo calm s t = .ok s' ∧ AtForward ks t s' ∧
      s'.handled = s.handled ++ indexes (before ks c + 1) (upTo ks t) := by
  obtain ⟨hstands, hlt⟩ := hs
  obtain ⟨k, hk⟩ := exists_getElem? hlt
  have hkc : k.ticks ≤ c := (h.le_iff hk).mpr hat
  have hfrom : ({ s with aborted := false } : TimelineClipCore).forwardFrom =
      .ok ((before ks c + 1 : ℕ) : ℤ) := by
    rw [forwardFrom]
    simp only [hstands.lastKF, hstands.keyFrames, hstands.curTicks]
    rw [if_neg (by omega), arrayGet_keyFrame hk]
    show Except.ok (if k.ticks ≤ c then _ else _) = _
    rw [if_pos hkc]
    push_cast
    rfl
  refine playTo_forward h hstands.keyFrames hstands.curTicks hct
    (Nat.succ_le_of_lt (hat.trans_le (upTo_mono ks hct))) ?_ hfrom
    (fun i k' hi hk' => not_lt.mp ((h.lt_iff hk').not.mpr (by omega)))
    (fun i k' hi hk' => (h.le_iff hk').mpr (by omega))
  rw [hstands.lastKF]
  push_cast
  rw [Int.add_sub_cancel]

/-- Between key frames, before the frame `before ks c`: the loop forwards begins with that. -/
theorem AtBackward.forwardFrom_between (h : Ordered ks) (hs : AtBackward ks c s)
    (hbetween : upTo ks c = before ks c) :
    ({ s with aborted := false } : TimelineClipCore).forwardFrom = .ok ((before ks c : ℕ) : ℤ) := by
  obtain ⟨hstands, hlt⟩ := hs
  obtain ⟨k, hk⟩ := exists_getElem? hlt
  have hkc : ¬ k.ticks ≤ c := (h.le_iff hk).not.mpr (by omega)
  rw [forwardFrom]
  simp only [hstands.lastKF, hstands.keyFrames, hstands.curTicks]
  rw [if_neg (by omega), arrayGet_keyFrame hk]
  show Except.ok (if k.ticks ≤ c then _ else _) = _
  rw [if_neg hkc]

/-- Turning forwards between key frames, when none is crossed. -/
theorem AtBackward.forth_between (h : Ordered ks) (hs : AtBackward ks c s) (hct : c ≤ t)
    (hnone : upTo ks t = before ks c) :
    ∃ s', playTo calm s t = .ok s' ∧ AtForward ks t s' ∧ Right ks false s t s' := by
  have hbetween : upTo ks c = before ks c :=
    le_antisymm (hnone ▸ upTo_mono ks hct) (before_le_upTo ks c)
  have hfrom := hs.forwardFrom_between h hbetween
  obtain ⟨hstands, hlt⟩ := hs
  obtain ⟨k, hk⟩ := exists_getElem? hlt
  have hkt : t < k.ticks := not_le.mp ((h.le_iff hk).not.mpr (by omega))
  have hplay : playTo calm s t =
      ({ s with aborted := false, lastKF := (upTo ks t : ℤ) - 1 } : TimelineClipCore).arrive t := by
    rw [playTo_of_forward hstands.keyFrames (hstands.curTicks ▸ hct) hfrom, zipIdx_drop hk,
      playForward, if_pos hkt, hnone]
  obtain ⟨s', harrive, hstands'⟩ := arrive_eq (t := t)
    (s := { s with aborted := false, lastKF := (upTo ks t : ℤ) - 1 }) h hstands.keyFrames rfl (by
      rcases Nat.eq_zero_or_pos (upTo ks t) with hzero | hpos
      · exact Or.inl (by rw [hzero]; rfl)
      · obtain ⟨j, hj⟩ := Nat.exists_eq_succ_of_ne_zero hpos.ne'
        obtain ⟨k', hk'⟩ := exists_getElem? (show j < ks.length by omega)
        have hk'c : k'.ticks < c := (h.lt_iff hk').mpr (by omega)
        refine Or.inr ⟨j, k', ?_, hk', fun hticks => by omega⟩
        show (upTo ks t : ℤ) - 1 = _
        omega)
  refine ⟨s', hplay.trans harrive, hstands', hstands'.curTicks, ?_⟩
  rw [arrive_handled harrive, hstands.curTicks, due_forward h hct, indexes_self (by omega)]
  exact (List.append_nil _).symm

/-- Turning forwards between key frames, when some are crossed: the first one is left out. -/
theorem AtBackward.forth_crossing (h : Ordered ks) (hs : AtBackward ks c s) (hct : c ≤ t)
    (hbetween : upTo ks c = before ks c) (hcross : before ks c < upTo ks t)
    (hplay : playTo calm s t = .ok s') :
    s'.handled = s.handled ++ indexes (before ks c + 1) (upTo ks t) := by
  have hfrom := hs.forwardFrom_between h hbetween
  obtain ⟨hstands, hlt⟩ := hs
  obtain ⟨k, hk⟩ := exists_getElem? hlt
  have hkt : ¬ t < k.ticks := not_lt.mpr ((h.le_iff hk).mpr hcross)
  have hkc : c ≤ k.ticks := not_lt.mp ((h.lt_iff hk).not.mpr (Nat.lt_irrefl _))
  have hlast : ({ s with aborted := false } : TimelineClipCore).lastKF =
      ((before ks c + 1 : ℕ) : ℤ) - 1 := by
    show s.lastKF = _
    rw [hstands.lastKF]
    push_cast
    rw [Int.add_sub_cancel]
  have hloop := playForward_eq (t := t) h (ks.length - (before ks c + 1)) (before ks c + 1)
    { s with aborted := false } (by omega) hcross rfl hlast (fun i k' hi hk' =>
      hstands.curTicks ▸ not_lt.mp ((h.lt_iff hk').not.mpr (by omega)))
  rw [playTo_of_forward hstands.keyFrames (hstands.curTicks ▸ hct) hfrom, zipIdx_drop hk,
    playForward, if_neg hkt, if_pos (hstands.curTicks ▸ hkc),
    visit_suppressed (s := { s with aborted := false }) k hstands.lastKF] at hplay
  simp only [Bool.false_eq_true, if_false] at hplay
  rw [arrive_handled hplay, hloop.handled]
  rfl

end Steps

/-! ## Turns -/

section Turns

variable {ks : List KeyFrame} {s s' : TimelineClipCore} {c t : ℕ}

theorem Right.length_eq {first : Bool} {visits : List ℕ} (hright : Right ks first s t s')
    (hhandled : s'.handled = s.handled ++ visits) :
    visits.length = (due ks first s.curTicks t).length := by
  obtain ⟨-, hdue⟩ := hright
  rw [hhandled] at hdue
  rw [List.append_cancel_left hdue]

/-- **Turning back** goes right exactly where the timeline may do so. -/
theorem AtForward.turn (h : Ordered ks) (hs : AtForward ks c s) (htc : t < c)
    (hpos : 0 < upTo ks c) :
    (MayTurnBack ks c t → ∃ s', playTo calm s t = .ok s' ∧ AtBackward ks t s' ∧
      Right ks false s t s') ∧
    (¬ MayTurnBack ks c t → ∀ s', playTo calm s t = .ok s' → ¬ Right ks false s t s') := by
  have hle := upTo_le_length ks c
  have hbefore := (before_le_upTo ks t).trans (upTo_le_before ks htc)
  rw [MayTurnBack, aloneAt_iff, noneIn_iff h (le_of_lt htc), exists_after_iff h]
  rcases Nat.eq_or_lt_of_le (before_le_upTo ks c) with hbetween | hat
  · constructor
    · rintro (halone | ⟨hnone, hlt⟩)
      · omega
      · exact (hs.back_between h htc hpos hnone).1 hlt
    · intro hnot s' hplay hright
      by_cases hnone : upTo ks c = before ks t
      · -- no frame is crossed, but none is left to point to either
        obtain ⟨e, herror⟩ := (hs.back_between h htc hpos hnone).2 (by omega)
        rw [herror] at hplay
        cases hplay
      · have hlength := hright.length_eq (hs.back_crossing h htc hbetween.symm (by omega) hplay)
        rw [hs.curTicks, due_backward h htc, List.length_reverse, List.length_reverse,
          length_indexes, length_indexes] at hlength
        omega
  · obtain ⟨s', hplay, hs', hhandled⟩ := hs.back h htc hat
    constructor
    · rintro (halone | ⟨hnone, -⟩)
      · refine ⟨s', hplay, hs', hs'.1.curTicks, ?_⟩
        rw [hhandled, hs.curTicks, due_backward h htc, halone, Nat.add_sub_cancel]
      · omega
    · intro hnot s'' hplay' hright
      rw [hplay] at hplay'
      cases hplay'
      have hlength := hright.length_eq hhandled
      rw [hs.curTicks, due_backward h htc, List.length_reverse, List.length_reverse,
        length_indexes, length_indexes] at hlength
      omega

/-- **Turning forwards** goes right exactly where the timeline may do so. -/
theorem AtBackward.turn (h : Ordered ks) (hs : AtBackward ks c s) (hct : c ≤ t) :
    (MayTurnForward ks c t → ∃ s', playTo calm s t = .ok s' ∧ AtForward ks t s' ∧
      Right ks false s t s') ∧
    (¬ MayTurnForward ks c t → ∀ s', playTo calm s t = .ok s' → ¬ Right ks false s t s') := by
  have hmono := upTo_mono ks hct
  have hcur : s.curTicks = c := hs.1.curTicks
  rw [MayTurnForward, aloneAt_iff, noneIn_iff h hct]
  rcases Nat.eq_or_lt_of_le (before_le_upTo ks c) with hbetween | hat
  · constructor
    · rintro (halone | hnone)
      · omega
      · exact hs.forth_between h hct hnone
    · intro hnot s' hplay hright
      have hlength := hright.length_eq (hs.forth_crossing h hct hbetween.symm (by omega) hplay)
      rw [hcur, due_forward h hct, length_indexes, length_indexes] at hlength
      omega
  · obtain ⟨s', hplay, hs', hhandled⟩ := hs.forth h hct hat
    constructor
    · rintro (halone | hnone)
      · refine ⟨s', hplay, hs', hs'.curTicks, ?_⟩
        rw [hhandled, hcur, due_forward h hct, halone]
      · omega
    · intro hnot s'' hplay' hright
      rw [hplay] at hplay'
      cases hplay'
      have hlength := hright.length_eq hhandled
      rw [hcur, due_forward h hct, length_indexes, length_indexes] at hlength
      omega

end Turns

/-! ## Runs -/

section Runs

variable {ks : List KeyFrame} {s s' : TimelineClipCore} {c t : ℕ} {ts : List ℕ} {first : Bool}

theorem playsRight_cons (hplay : playTo calm s t = .ok s') :
    PlaysRight ks first s (t :: ts) ↔ Right ks first s t s' ∧ PlaysRight ks false s' ts := by
  rw [PlaysRight, hplay, Right, and_assoc]

theorem not_playsRight_cons (hnot : ∀ s', playTo calm s t = .ok s' → ¬ Right ks first s t s') :
    ¬ PlaysRight ks first s (t :: ts) := by
  cases hplay : playTo calm s t with
  | ok s' => exact fun hright => hnot s' hplay ((playsRight_cons hplay).mp hright).1
  | error e =>
      rw [PlaysRight, hplay]
      exact id

/-- **A run goes right** from either direction exactly when its turns are clean. -/
theorem playsRight_iff (h : Ordered ks) (ts : List ℕ) : ∀ {c : ℕ} {s : TimelineClipCore},
    (AtForward ks c s → (PlaysRight ks false s ts ↔ CleanTurns ks true c ts)) ∧
    (AtBackward ks c s → (PlaysRight ks false s ts ↔ CleanTurns ks false c ts)) := by
  induction ts with
  | nil =>
      intro c s
      exact ⟨fun _ => Iff.rfl, fun _ => Iff.rfl⟩
  | cons t ts ih =>
      intro c s
      constructor
      · intro hs
        rw [CleanTurns]
        split_ifs with hahead
        · have hstep : ∃ s', playTo calm s t = .ok s' ∧ AtForward ks t s' ∧
              Right ks false s t s' := by
            rcases Nat.lt_or_ge t c with htc | hct
            · have hafter := hahead.resolve_left (not_le.mpr htc)
              exact hs.outside h htc (all_after_iff.mp hafter)
            · exact hs.forward h hct
          obtain ⟨s', hplay, hs', hright⟩ := hstep
          rw [playsRight_cons hplay, and_iff_right hright, ih.1 hs']
        · obtain ⟨htc, hpos⟩ := not_or.mp hahead
          obtain ⟨hclean, hunclean⟩ := hs.turn h (not_le.mp htc)
            (Nat.pos_of_ne_zero fun hzero => hpos (all_after_iff.mpr hzero))
          by_cases hturn : MayTurnBack ks c t
          · obtain ⟨s', hplay, hs', hright⟩ := hclean hturn
            rw [playsRight_cons hplay, and_iff_right hright, and_iff_right hturn, ih.2 hs']
          · exact iff_of_false (not_playsRight_cons (hunclean hturn)) fun hand => hturn hand.1
      · intro hs
        rw [CleanTurns]
        split_ifs with htc
        · obtain ⟨s', hplay, hs', hright⟩ := hs.backward h htc
          rw [playsRight_cons hplay, and_iff_right hright, ih.2 hs']
        · obtain ⟨hclean, hunclean⟩ := hs.turn h (not_lt.mp htc)
          by_cases hturn : MayTurnForward ks c t
          · obtain ⟨s', hplay, hs', hright⟩ := hclean hturn
            rw [playsRight_cons hplay, and_iff_right hright, and_iff_right hturn, ih.1 hs']
          · exact iff_of_false (not_playsRight_cons (hunclean hturn)) fun hand => hturn hand.1

/-- **From the start** the timeline fires the key frames it crosses, in every call, exactly when
its turns are clean. -/
theorem fires_iff (h : Ordered ks) (ts : List ℕ) :
    PlaysRight ks true (start { keyFrames := ks }) ts ↔ CleanRun ks ts := by
  cases ts with
  | nil => exact Iff.rfl
  | cons t ts =>
      obtain ⟨s', hplay, hs', hright⟩ := forward_first h t
      rw [playsRight_cons hplay, and_iff_right hright, (playsRight_iff h ts).1 hs', CleanRun]

/-- A turn at a frame and one between two frames, without crossing any. -/
theorem fires_turns :
    PlaysRight [⟨0, true⟩, ⟨5, true⟩, ⟨10, true⟩] true
      (start { keyFrames := [⟨0, true⟩, ⟨5, true⟩, ⟨10, true⟩] }) [5, 2, 3, 10] :=
  (fires_iff ⟨by decide, by decide⟩ [5, 2, 3, 10]).mpr
    ⟨Or.inl (by decide), Or.inr (by decide), trivial⟩

/-- Turning back between two frames, the first one to be crossed is left out. -/
theorem turn_leaves_out :
    ¬ PlaysRight [⟨0, true⟩, ⟨5, true⟩, ⟨10, true⟩] true
      (start { keyFrames := [⟨0, true⟩, ⟨5, true⟩, ⟨10, true⟩] }) [8, 3] := by
  decide

end Runs

end TimelineClipCore

end JavaFx.Animation
