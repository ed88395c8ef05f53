import Mathlib.Data.List.Basic
import Mathlib.Tactic

/-!
# Edit scripts in coordinates of the new list

A *hunk* `⟨lo, hi, old⟩` says that the elements `old` of the old list were
replaced by the elements of the new list at positions `lo ≤ i < hi`. A script
is a list of hunks in ascending order. `Diff p O hs cur` relates the part `O`
of the old list to the part `cur` of the new list that starts at position `p`.

The relation is closed under concatenation (`Diff.append`) and can be cut at
every position that no hunk straddles (`Diff.split_at`). An operation on a
script is therefore verified where it happens: cut, change the middle piece,
shift the tail, and concatenate again.
-/

namespace EditScript

variable {α : Type*}

structure Hunk (α : Type*) where
  lo : ℕ
  hi : ℕ
  old : List α
deriving DecidableEq

/-- The hunk moved `k` positions to the right. -/
def Hunk.up (k : ℕ) (h : Hunk α) : Hunk α := ⟨h.lo + k, h.hi + k, h.old⟩

/-- The hunk moved `k` positions to the left. -/
def Hunk.down (k : ℕ) (h : Hunk α) : Hunk α := ⟨h.lo - k, h.hi - k, h.old⟩

/-- `Diff p O hs cur`: the hunks `hs` turn `O` into `cur`, where `cur` starts at
position `p` of the new list. Each hunk is preceded by a kept run `K`. -/
inductive Diff : ℕ → List α → List (Hunk α) → List α → Prop where
  | nil (p : ℕ) (K : List α) : Diff p K [] K
  | cons (p : ℕ) (K A O cur : List α) (h : Hunk α) (hs : List (Hunk α)) :
      h.lo = p + K.length → h.hi = h.lo + A.length → Diff h.hi O hs cur →
      Diff p (K ++ (h.old ++ O)) (h :: hs) (K ++ (A ++ cur))

/-! ## Concatenation and cutting -/

theorem Diff.prepend_kept {p : ℕ} {O cur : List α} {hs : List (Hunk α)}
    (K : List α) (h : Diff (p + K.length) O hs cur) :
    Diff p (K ++ O) hs (K ++ cur) := by
  cases h with
  | nil => exact Diff.nil p _
  | cons _ K' A O' cur' h hs hlo hhi htail =>
      rw [← List.append_assoc K K', ← List.append_assoc K K']
      refine Diff.cons p (K ++ K') A O' cur' h hs ?_ hhi htail
      rw [List.length_append]
      omega

theorem Diff.append {p : ℕ} {O₁ cur₁ O₂ cur₂ : List α}
    {pre post : List (Hunk α)} (h₁ : Diff p O₁ pre cur₁)
    (h₂ : Diff (p + cur₁.length) O₂ post cur₂) :
    Diff p (O₁ ++ O₂) (pre ++ post) (cur₁ ++ cur₂) := by
  induction h₁ with
  | nil p K => exact h₂.prepend_kept K
  | cons p K A O cur h hs hlo hhi _ ih =>
      have hlen : p + (K ++ (A ++ cur)).length = h.hi + cur.length := by
        simp only [List.length_append]
        omega
      rw [hlen] at h₂
      have := Diff.cons p K A (O ++ O₂) (cur ++ cur₂) h (hs ++ post) hlo hhi
        (ih h₂)
      simpa [List.append_assoc] using this

/-- A script may be cut at a position `q` that no hunk straddles: the hunks
before the cut end at or before `q`, the others start at or after it. -/
theorem Diff.split_at {p q : ℕ} {O cur : List α} {pre post : List (Hunk α)}
    (h : Diff p O (pre ++ post) cur) (hpq : p ≤ q)
    (hq : q ≤ p + cur.length) (hpre : ∀ x ∈ pre, x.hi ≤ q)
    (hpost : ∀ x ∈ post, q ≤ x.lo) :
    ∃ O₁ O₂ cur₁ cur₂, O = O₁ ++ O₂ ∧ cur = cur₁ ++ cur₂ ∧
      p + cur₁.length = q ∧ Diff p O₁ pre cur₁ ∧ Diff q O₂ post cur₂ := by
  induction pre generalizing p O cur with
  | nil =>
      rw [List.nil_append] at h
      cases h with
      | nil =>
          refine ⟨O.take (q - p), O.drop (q - p), O.take (q - p),
            O.drop (q - p), by simp, by simp, ?_, Diff.nil _ _, Diff.nil _ _⟩
          rw [List.length_take]
          omega
      | cons _ K A O' cur' x hs hlo hhi htail =>
          have hx := hpost x List.mem_cons_self
          have hcut : (K.take (q - p)).length = q - p := by
            rw [List.length_take]
            omega
          refine ⟨K.take (q - p), K.drop (q - p) ++ (x.old ++ O'),
            K.take (q - p), K.drop (q - p) ++ (A ++ cur'), ?_, ?_, by omega,
            Diff.nil _ _, ?_⟩
          · rw [← List.append_assoc (K.take _), List.take_append_drop]
          · rw [← List.append_assoc (K.take _), List.take_append_drop]
          · refine Diff.cons q _ A O' cur' x hs ?_ hhi htail
            rw [List.length_drop]
            omega
  | cons x pre ih =>
      rw [List.cons_append] at h
      cases h with
      | cons _ K A O' cur' _ _ hlo hhi htail =>
          have hx := hpre x List.mem_cons_self
          simp only [List.length_append] at hq
          obtain ⟨O₁, O₂, cur₁, cur₂, rfl, rfl, hlen, h₁, h₂⟩ :=
            ih htail hx (by omega)
              (fun y hy => hpre y (List.mem_cons_of_mem _ hy))
          refine ⟨K ++ (x.old ++ O₁), O₂, K ++ (A ++ cur₁), cur₂, by simp,
            by simp, ?_, Diff.cons p K A O₁ cur₁ x pre hlo hhi h₁, h₂⟩
          simp only [List.length_append]
          omega

/-! ## Bounds and order -/

theorem Diff.bounds {p : ℕ} {O cur : List α} {hs : List (Hunk α)}
    (h : Diff p O hs cur) :
    ∀ x ∈ hs, p ≤ x.lo ∧ x.lo ≤ x.hi ∧ x.hi ≤ p + cur.length := by
  induction h with
  | nil => simp
  | cons p K A O cur x hs hlo hhi _ ih =>
      intro y hy
      simp only [List.length_append]
      rcases List.mem_cons.mp hy with rfl | hy
      · omega
      · have := ih y hy
        omega

/-- Ascending, pairwise disjoint hunks; neighbours may touch. -/
def Ordered (hs : List (Hunk α)) : Prop :=
  hs.Pairwise (fun a b => a.hi ≤ b.lo)

theorem Diff.ordered {p : ℕ} {O cur : List α} {hs : List (Hunk α)}
    (h : Diff p O hs cur) : Ordered hs := by
  induction h with
  | nil => exact List.Pairwise.nil
  | cons p K A O cur x hs _ _ htail ih =>
      exact List.pairwise_cons.mpr ⟨fun y hy => (htail.bounds y hy).1, ih⟩

/-! ## Shifting -/

theorem Diff.up {p : ℕ} {O cur : List α} {hs : List (Hunk α)} (k : ℕ)
    (h : Diff p O hs cur) : Diff (p + k) O (hs.map (Hunk.up k)) cur := by
  induction h with
  | nil p K => exact Diff.nil _ _
  | cons p K A O cur x hs hlo hhi _ ih =>
      exact Diff.cons (p + k) K A O cur (x.up k) _
        (by simp only [Hunk.up]; omega) (by simp only [Hunk.up]; omega) ih

theorem Diff.down {p : ℕ} {O cur : List α} {hs : List (Hunk α)} (k : ℕ)
    (h : Diff (p + k) O hs cur) : Diff p O (hs.map (Hunk.down k)) cur := by
  generalize hq : p + k = q at h
  induction h generalizing p with
  | nil q K => exact Diff.nil _ _
  | cons q K A O cur x hs hlo hhi _ ih =>
      refine Diff.cons p K A O cur (x.down k) _ ?_ ?_ (ih ?_)
      · simp only [Hunk.down]; omega
      · simp only [Hunk.down]; omega
      · simp only [Hunk.down]; omega

/-! ## Single hunks and touching neighbours -/

/-- One hunk by itself: `old` becomes `A`. -/
theorem Diff.single (p : ℕ) (old A : List α) :
    Diff p old [⟨p, p + A.length, old⟩] A := by
  have := Diff.cons p [] A [] [] ⟨p, p + A.length, old⟩ [] (by simp) rfl
    (Diff.nil _ _)
  simpa using this

/-- Two touching hunks say the same as the hunk that joins them. -/
theorem Diff.join {p : ℕ} {O cur : List α} {a b : Hunk α}
    {post : List (Hunk α)} (pre : List (Hunk α))
    (h : Diff p O (pre ++ a :: b :: post) cur) (hab : a.hi = b.lo) :
    Diff p O (pre ++ ⟨a.lo, b.hi, a.old ++ b.old⟩ :: post) cur := by
  induction pre generalizing p O cur with
  | nil =>
      cases h with
      | cons _ K A O' cur' _ _ hlo hhi htail =>
          cases htail with
          | cons _ K' A' O'' cur'' _ _ hlo' hhi' htail' =>
              have hK' : K' = [] := List.eq_nil_of_length_eq_zero (by omega)
              subst hK'
              have := Diff.cons p K (A ++ A') O'' cur''
                ⟨a.lo, b.hi, a.old ++ b.old⟩ post hlo
                (by simp only [List.length_append]; simp at hlo'; omega) htail'
              simpa [List.append_assoc] using this
  | cons x pre ih =>
      cases h with
      | cons _ K A O' cur' _ _ hlo hhi htail =>
          exact Diff.cons p K A O' cur' x _ hlo hhi (ih htail)

/-! ## Editing the new list

The four ways a single edit of the new list is entered into a script that
starts at position `0`: in a kept run or inside a hunk, deleting one element or
inserting a block. -/

theorem Diff.kept_eq {p : ℕ} {O cur : List α} (h : Diff p O [] cur) :
    O = cur := by
  cases h
  rfl

theorem Diff.delete_kept {O cur : List α} {pre post : List (Hunk α)} {idx : ℕ}
    {x : α} (h : Diff 0 O (pre ++ post) cur) (hx : cur[idx]? = some x)
    (hpre : ∀ y ∈ pre, y.hi ≤ idx) (hpost : ∀ y ∈ post, idx < y.lo) :
    Diff 0 O (pre ++ ⟨idx, idx, [x]⟩ :: post.map (Hunk.down 1))
      (cur.eraseIdx idx) := by
  obtain ⟨hlt, hget⟩ := List.getElem?_eq_some_iff.mp hx
  obtain ⟨O₁, O₂, cur₁, cur₂, rfl, rfl, hlen, h₁, h₂⟩ :=
    h.split_at (Nat.zero_le _) (by omega) hpre
      (fun y hy => Nat.le_of_lt (hpost y hy))
  rw [Nat.zero_add] at hlen
  rw [List.length_append] at hlt
  -- the element itself is a kept run of length one at the front of the rest
  obtain ⟨K, O₃, K', cur₃, rfl, rfl, hK, hk, h₃⟩ :=
    (show Diff idx O₂ ([] ++ post) cur₂ from h₂).split_at (q := idx + 1)
      (by omega) (by omega) (by simp) (fun y hy => hpost y hy)
  have hKK := hk.kept_eq
  subst hKK
  have hKlen : K.length = 1 := by omega
  obtain ⟨z, rfl⟩ := List.length_eq_one_iff.mp hKlen
  have hz : z = x := by
    rw [← hget]
    simp [← hlen]
  subst hz
  have herase : (cur₁ ++ ([z] ++ cur₃)).eraseIdx idx = cur₁ ++ ([] ++ cur₃) := by
    rw [← hlen, List.eraseIdx_append_of_length_le (Nat.le_refl _)]
    simp
  rw [herase]
  refine h₁.append ?_
  rw [Nat.zero_add, hlen]
  exact (Diff.single idx [z] []).append h₃.down

theorem Diff.delete_added {O cur : List α} {pre post : List (Hunk α)} {idx : ℕ}
    {h : Hunk α} (hd : Diff 0 O (pre ++ h :: post) cur) (hlo : h.lo ≤ idx)
    (hhi : idx < h.hi) :
    Diff 0 O (pre ++ ⟨h.lo, h.hi - 1, h.old⟩ :: post.map (Hunk.down 1))
      (cur.eraseIdx idx) := by
  have hb := hd.bounds h (by simp)
  have hord := List.pairwise_append.mp hd.ordered
  obtain ⟨O₁, O₂, cur₁, cur₂, rfl, rfl, hlen, h₁, h₂⟩ :=
    hd.split_at (Nat.zero_le _) (by omega)
      (fun y hy => hord.2.2 y hy h List.mem_cons_self)
      (fun y hy => by
        rcases List.mem_cons.mp hy with rfl | hy
        · exact Nat.le_refl _
        · exact Nat.le_trans hb.2.1
            ((List.pairwise_cons.mp hord.2.1).1 y hy))
  rw [Nat.zero_add] at hlen
  cases h₂ with
  | cons _ K A O₃ cur₃ _ _ hK hA h₃ =>
      have hKnil : K = [] := List.eq_nil_of_length_eq_zero (by omega)
      subst hKnil
      have hin : idx - h.lo < A.length := by omega
      have herase : (cur₁ ++ ([] ++ (A ++ cur₃))).eraseIdx idx =
          cur₁ ++ (A.eraseIdx (idx - h.lo) ++ cur₃) := by
        rw [List.eraseIdx_append_of_length_le (by omega), hlen,
          List.nil_append, List.eraseIdx_append_of_lt_length hin]
      rw [herase]
      refine h₁.append ?_
      rw [Nat.zero_add, hlen, List.nil_append]
      have hA' : (A.eraseIdx (idx - h.lo)).length = h.hi - 1 - h.lo := by
        rw [List.length_eraseIdx_of_lt hin]
        omega
      refine Diff.cons h.lo [] _ O₃ cur₃ ⟨h.lo, h.hi - 1, h.old⟩ _ rfl
        (by rw [hA']; simp only; omega) (Diff.down 1 ?_)
      rw [Nat.sub_add_cancel (by omega)]
      exact h₃

theorem Diff.insert_kept {O cur : List α} {pre post : List (Hunk α)} {idx : ℕ}
    (h : Diff 0 O (pre ++ post) cur) (xs : List α) (hidx : idx ≤ cur.length)
    (hpre : ∀ y ∈ pre, y.hi ≤ idx) (hpost : ∀ y ∈ post, idx ≤ y.lo) :
    Diff 0 O
      (pre ++ ⟨idx, idx + xs.length, []⟩ :: post.map (Hunk.up xs.length))
      (cur.take idx ++ (xs ++ cur.drop idx)) := by
  obtain ⟨O₁, O₂, cur₁, cur₂, rfl, rfl, hlen, h₁, h₂⟩ :=
    h.split_at (Nat.zero_le _) (by omega) hpre hpost
  rw [Nat.zero_add] at hlen
  rw [← hlen, List.take_left, List.drop_left]
  refine h₁.append ?_
  rw [Nat.zero_add]
  subst hlen
  exact (Diff.single _ [] xs).append (h₂.up _)

theorem Diff.insert_added {O cur : List α} {pre post : List (Hunk α)} {idx : ℕ}
    {h : Hunk α} (hd : Diff 0 O (pre ++ h :: post) cur) (xs : List α)
    (hlo : h.lo ≤ idx) (hhi : idx ≤ h.hi) :
    Diff 0 O
      (pre ++ ⟨h.lo, h.hi + xs.length, h.old⟩ :: post.map (Hunk.up xs.length))
      (cur.take idx ++ (xs ++ cur.drop idx)) := by
  have hb := hd.bounds h (by simp)
  have hord := List.pairwise_append.mp hd.ordered
  obtain ⟨O₁, O₂, cur₁, cur₂, rfl, rfl, hlen, h₁, h₂⟩ :=
    hd.split_at (Nat.zero_le _) (by omega)
      (fun y hy => hord.2.2 y hy h List.mem_cons_self)
      (fun y hy => by
        rcases List.mem_cons.mp hy with rfl | hy
        · exact Nat.le_refl _
        · exact Nat.le_trans hb.2.1
            ((List.pairwise_cons.mp hord.2.1).1 y hy))
  rw [Nat.zero_add] at hlen
  cases h₂ with
  | cons _ K A O₃ cur₃ _ _ hK hA h₃ =>
      have hKnil : K = [] := List.eq_nil_of_length_eq_zero (by omega)
      subst hKnil
      have hin : idx - cur₁.length ≤ A.length := by omega
      have htake : (cur₁ ++ ([] ++ (A ++ cur₃))).take idx =
          cur₁ ++ A.take (idx - cur₁.length) := by
        rw [List.take_append, List.take_of_length_le (by omega),
          List.nil_append, List.take_append_of_le_length hin]
      have hdrop : (cur₁ ++ ([] ++ (A ++ cur₃))).drop idx =
          A.drop (idx - cur₁.length) ++ cur₃ := by
        rw [List.drop_append, List.drop_of_length_le (by omega),
          List.nil_append, List.nil_append, List.drop_append_of_le_length hin]
      have hcur : cur₁ ++ A.take (idx - cur₁.length) ++
          (xs ++ (A.drop (idx - cur₁.length) ++ cur₃)) =
          cur₁ ++ ((A.take (idx - cur₁.length) ++
            (xs ++ A.drop (idx - cur₁.length))) ++ cur₃) := by
        simp only [List.append_assoc]
      rw [htake, hdrop, hcur]
      refine h₁.append ?_
      rw [Nat.zero_add, hlen, List.nil_append]
      refine Diff.cons h.lo [] _ O₃ cur₃ ⟨h.lo, h.hi + xs.length, h.old⟩ _ rfl
        ?_ (h₃.up xs.length)
      simp only [List.length_append, List.length_take, List.length_drop]
      omega

/-- A hunk that changes nothing may be left out. -/
theorem Diff.erase_trivial {p : ℕ} {O cur : List α} {h : Hunk α}
    {post : List (Hunk α)} (pre : List (Hunk α))
    (hd : Diff p O (pre ++ h :: post) cur) (hlo : h.lo = h.hi)
    (hold : h.old = []) : Diff p O (pre ++ post) cur := by
  induction pre generalizing p O cur with
  | nil =>
      cases hd with
      | cons _ K A O' cur' _ _ hK hA htail =>
          have hAnil : A = [] := List.eq_nil_of_length_eq_zero (by omega)
          subst hAnil
          rw [hold, List.nil_append, List.nil_append]
          refine Diff.prepend_kept K ?_
          rw [← hK, hlo]
          exact htail
  | cons x pre ih =>
      cases hd with
      | cons _ K A O' cur' _ _ hK hA htail =>
          exact Diff.cons p K A O' cur' x _ hK hA (ih htail)

/-! ## Replay -/

variable [DecidableEq α]

/-- Apply one hunk: the elements deleted at `lo` must be `old`; the elements of
`new` at `lo ≤ i < hi` take their place. -/
def Hunk.apply (new : List α) (h : Hunk α) (l : List α) : Option (List α) :=
  if h.lo ≤ l.length ∧ (l.drop h.lo).take h.old.length = h.old ∧
      h.hi - h.lo ≤ new.length - h.lo then
    some (l.take h.lo ++ ((new.drop h.lo).take (h.hi - h.lo) ++
      l.drop (h.lo + h.old.length)))
  else none

def applyAll (new : List α) : List (Hunk α) → List α → Option (List α)
  | [], l => some l
  | h :: hs, l => (h.apply new l).bind (applyAll new hs)

/-- **Soundness of scripts.** Walking the hunks in order turns the old list
into the new one; `P` is the part of both lists already walked over. -/
theorem Diff.applyAll_append {p : ℕ} {O cur : List α} {hs : List (Hunk α)}
    (h : Diff p O hs cur) (P : List α) (hP : P.length = p) :
    applyAll (P ++ cur) hs (P ++ O) = some (P ++ cur) := by
  induction h generalizing P with
  | nil p K => rfl
  | cons p K A O cur x hs hlo hhi _ ih =>
      have hPK : (P ++ K).length = x.lo := by simp; omega
      have hold : ((P ++ (K ++ (x.old ++ O))).drop x.lo).take x.old.length
          = x.old := by
        rw [← List.append_assoc, ← hPK, List.drop_left, List.take_left]
      have hnew : ((P ++ (K ++ (A ++ cur))).drop x.lo).take (x.hi - x.lo)
          = A := by
        have hA : x.hi - x.lo = A.length := by omega
        rw [hA, ← List.append_assoc, ← hPK, List.drop_left, List.take_left]
      have htake : (P ++ (K ++ (x.old ++ O))).take x.lo = P ++ K := by
        rw [← List.append_assoc, ← hPK, List.take_left]
      have hdrop : (P ++ (K ++ (x.old ++ O))).drop (x.lo + x.old.length)
          = O := by
        rw [← List.drop_drop, ← List.append_assoc P K, ← hPK, List.drop_left,
          List.drop_left]
      have hstep : x.apply (P ++ (K ++ (A ++ cur))) (P ++ (K ++ (x.old ++ O)))
          = some ((P ++ K ++ A) ++ O) := by
        unfold Hunk.apply
        rw [if_pos, hnew, htake, hdrop]
        · simp [List.append_assoc]
        · refine ⟨?_, hold, ?_⟩
          · simp only [List.length_append] at hPK ⊢
            omega
          · simp only [List.length_append] at hPK ⊢
            omega
      have hih := ih (P ++ K ++ A) (by
        rw [List.length_append, hPK]
        omega)
      rw [applyAll, hstep, Option.bind_some]
      simpa [List.append_assoc] using hih

/-- A script from the whole old list to the whole new list replays. -/
theorem Diff.applyAll_eq {O cur : List α} {hs : List (Hunk α)}
    (h : Diff 0 O hs cur) : applyAll cur hs O = some cur := by
  simpa using h.applyAll_append [] rfl

end EditScript
