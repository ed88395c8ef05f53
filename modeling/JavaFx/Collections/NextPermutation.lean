import JavaFx.Collections.Rehome

/-!
# `nextPermutation` as a whole

Composing the recorded permutation with a new one, and what `nextPermutation`
does to the two parts of the builder's record: the permutation of the original
list and the script from the permuted list to the current one.
-/

namespace JavaFx.Collections

open EditScript Weave IndexPerm

variable {α : Type}

/-! ## Composing two permutations -/

/-- The recorded permutation is one of its range. -/
structure SubChange.IsPermutation (s : SubChange α) : Prop where
  isPerm : IsPerm s.from_ s.perm
  to_eq : s.to_ = s.from_ + s.perm.length
  removed : s.removed = none
  updated : s.updated = false

/-- There is a position between the two ranges that belongs to neither. -/
def leavesGap (old : SubChange α) (prePermFrom prePermTo : ℕ) : Bool :=
  decide (old.to_ < prePermFrom) || decide (prePermTo < old.from_)

theorem arrayGet_target {lo : ℕ} {perm : List ℕ} {i : ℕ} (hlo : lo ≤ i)
    (hi : i < lo + perm.length) :
    arrayGet perm ((i : ℤ) - lo) = .ok (target lo perm i) := by
  obtain ⟨k, rfl⟩ := Nat.exists_eq_add_of_le hlo
  have hk : k < perm.length := by omega
  have hsub : ((lo + k : ℕ) : ℤ) - lo = (k : ℤ) := by omega
  rw [hsub, arrayGet_of_lt hk, target_of_mem hk]

theorem map_target_range' (lo : ℕ) (perm : List ℕ) :
    (List.range' lo perm.length).map (target lo perm) = perm := by
  refine List.ext_getElem (by simp) fun k hk hk' => ?_
  rw [List.getElem_map, List.getElem_range', Nat.one_mul, target_of_mem hk']

/-- The list form of a map of positions, read back. -/
theorem target_map_range' {lo n : ℕ} {f : ℕ → ℕ}
    (hout : ∀ j, ¬(lo ≤ j ∧ j < lo + n) → f j = j) (j : ℕ) :
    target lo ((List.range' lo n).map f) j = f j := by
  by_cases hj : lo ≤ j ∧ j < lo + n
  · obtain ⟨k, rfl⟩ := Nat.exists_eq_add_of_le hj.1
    rw [target_of_mem (by simp; omega), List.getElem_map, List.getElem_range',
      Nat.one_mul]
  · rw [target_of_not (by simpa using hj), hout j hj]

/-- The in-place loop for equal ranges. -/
theorem mergeLoop_eq {lo : ℕ} {prePerm : List ℕ} (f : ℕ → ℕ) :
    ∀ (done todo : List ℕ),
      (∀ p ∈ todo, arrayGet prePerm ((p : ℤ) - lo) = .ok (f p)) →
      (List.range' done.length todo.length).foldlM
        (fun (perm : List ℕ) (i : ℕ) => do
          let p ← arrayGet perm i
          let q ← arrayGet prePerm ((p : ℤ) - lo)
          arraySet perm i q) (done ++ todo) =
        (.ok (done ++ todo.map f) : Except Exn (List ℕ)) := by
  intro done todo
  induction todo generalizing done with
  | nil => intro _; rfl
  | cons p todo ih =>
      intro h
      have hlen : done.length < (done ++ p :: todo).length := by simp
      have hget : (done ++ p :: todo)[done.length] = p := by simp
      have hset : (done ++ p :: todo).set done.length (f p) =
          (done ++ [f p]) ++ todo := by simp
      have hih := ih (done ++ [f p]) fun q hq => h q (List.mem_cons_of_mem _ hq)
      rw [List.length_append, List.length_singleton] at hih
      rw [List.length_cons, List.range'_succ, List.foldlM_cons,
        arrayGet_of_lt hlen, except_ok_bind, hget, h p List.mem_cons_self,
        except_ok_bind, arraySet_of_lt _ hlen, except_ok_bind, hset, hih]
      simp

section Merge

variable {old : SubChange α} {lo : ℕ} {prePerm : List ℕ}

/-- The composed permutation. -/
def composed (old : SubChange α) (lo : ℕ) (prePerm : List ℕ) : SubChange α :=
  let newFrom := min old.from_ lo
  let newTo := max old.to_ (lo + prePerm.length)
  { old with
    from_ := newFrom
    to_ := newTo
    perm := (List.range' newFrom (newTo - newFrom)).map
      fun i => target lo prePerm (target old.from_ old.perm i) }

theorem mergePermutation_eq (hold : old.IsPermutation) (hpre : IsPerm lo prePerm)
    (hgap : leavesGap old lo (lo + prePerm.length) = false) :
    mergePermutation old lo (lo + prePerm.length) prePerm =
      .ok (composed old lo prePerm) := by
  have hto := hold.to_eq
  simp only [leavesGap, Bool.or_eq_false_iff, decide_eq_false_iff_not] at hgap
  rw [mergePermutation]
  by_cases hsame : lo = old.from_ ∧ lo + prePerm.length = old.to_
  · obtain ⟨rfl, hto'⟩ := hsame
    have hlen : prePerm.length = old.perm.length := by omega
    rw [if_pos ⟨rfl, hto'⟩]
    have hloop := @mergeLoop_eq old.from_ prePerm
      (target old.from_ prePerm) [] old.perm fun p hp => by
        have := hold.isPerm.mem_iff.mp hp
        exact arrayGet_target this.1 (by omega)
    rw [List.length_nil, List.nil_append, List.nil_append, ← hlen,
      ← List.range_eq_range'] at hloop
    rw [hloop, except_ok_bind, composed]
    have hmin : min old.from_ old.from_ = old.from_ := Nat.min_self _
    have hmax : max old.to_ (old.from_ + prePerm.length) = old.to_ := by omega
    have hsub : old.to_ - old.from_ = old.perm.length := by omega
    have hcomp := congrArg (List.map (target old.from_ prePerm))
      (map_target_range' old.from_ old.perm)
    rw [List.map_map] at hcomp
    simp only [hmin, hmax, hsub]
    rw [← hcomp]
    rfl
  · rw [if_neg hsame]
    have hmap : (List.range' (min old.from_ lo)
        (max old.to_ (lo + prePerm.length) - min old.from_ lo)).mapM (fun (i : ℕ) =>
          if i < old.from_ ∨ old.to_ ≤ i then
            arrayGet prePerm ((i : ℤ) - lo)
          else do
            let p ← arrayGet old.perm ((i : ℤ) - old.from_)
            if p < lo ∨ lo + prePerm.length ≤ p then return p
            else arrayGet prePerm ((p : ℤ) - lo)) =
        (.ok ((List.range' (min old.from_ lo)
          (max old.to_ (lo + prePerm.length) - min old.from_ lo)).map
          fun i => target lo prePerm (target old.from_ old.perm i)) :
            Except Exn (List ℕ)) := by
      refine mapM_eq_ok fun i hi => ?_
      have hi' := List.mem_range'_1.mp hi
      by_cases hout : i < old.from_ ∨ old.to_ ≤ i
      · -- no gap: what lies outside the old range lies in the new one
        rw [if_pos hout, @target_of_not old.from_ old.perm i (by omega),
          arrayGet_target (by omega) (by omega)]
      · rw [if_neg hout, arrayGet_target (by omega) (by omega), except_ok_bind]
        by_cases hp : target old.from_ old.perm i < lo ∨
            lo + prePerm.length ≤ target old.from_ old.perm i
        · rw [if_pos hp, @target_of_not lo prePerm _ (by omega)]
          rfl
        · rw [if_neg hp, arrayGet_target (by omega) (by omega)]
    simp only
    rw [hmap, except_ok_bind]
    rfl

theorem composed_isPermutation (hold : old.IsPermutation)
    (hpre : IsPerm lo prePerm) : (composed old lo prePerm).IsPermutation := by
  have hto := hold.to_eq
  refine ⟨?_, ?_, hold.removed, hold.updated⟩
  · refine isPerm_map_range'
      (hpre.target_injective.comp hold.isPerm.target_injective) ?_
    intro j h₁ h₂
    have h₃ : min old.from_ lo ≤ target old.from_ old.perm j ∧
        target old.from_ old.perm j < max old.to_ (lo + prePerm.length) := by
      by_cases hj : old.from_ ≤ j ∧ j < old.from_ + old.perm.length
      · have := hold.isPerm.target_mem.mpr hj
        omega
      · rw [target_of_not hj]
        simp only [composed] at h₁ h₂
        omega
    simp only [composed]
    by_cases hj : lo ≤ target old.from_ old.perm j ∧
        target old.from_ old.perm j < lo + prePerm.length
    · have := hpre.target_mem.mpr hj
      omega
    · rw [target_of_not hj]
      omega
  · simp only [composed, List.length_map, List.length_range']
    omega

/-- The composition moves elements as the two permutations do in turn. -/
theorem composed_target (hold : old.IsPermutation) (j : ℕ) :
    target (composed old lo prePerm).from_ (composed old lo prePerm).perm j =
      target lo prePerm (target old.from_ old.perm j) := by
  have hto := hold.to_eq
  refine target_map_range' (f := fun i =>
    target lo prePerm (target old.from_ old.perm i)) (fun i hi => ?_) j
  simp only [composed] at hi
  rw [@target_of_not old.from_ old.perm i (by omega),
    @target_of_not lo prePerm i (by omega)]

end Merge

/-! ## The record of the builder -/

/-- Where the recorded permutation moves the element at `j`. -/
def recordedTarget (b : ListChangeBuilder α) : ℕ → ℕ :=
  match b.permutationChange with
  | none => id
  | some s => target s.from_ s.perm

/-- The builder holds a permutation and a script from `O` to the current list
`cur`; the updates are kept apart. -/
structure Record (b : ListChangeBuilder α) (O cur : List α) : Prop where
  script : Diff 0 O (hunks b.addRemoveChanges) cur
  addRemove : ∀ c ∈ b.addRemoveChanges, c.IsAddRemove
  updates : ∀ c ∈ b.updateChanges, c.IsUpdate
  permutation : ∀ s, b.permutationChange = some s → s.IsPermutation

/-- The record is about the original list `L0`: `O` is `L0` permuted. -/
structure Permuted (b : ListChangeBuilder α) (L0 O : List α) : Prop where
  moves : Moves (recordedTarget b) L0 O
  within : ∀ s, b.permutationChange = some s → s.to_ ≤ L0.length

/-- The size of the list the script starts from. -/
def originalSize (size : ℕ) (changes : List (SubChange α)) : ℕ :=
  size + (changes.map SubChange.removedSize).sum -
    (changes.map fun c => c.to_ - c.from_).sum

/-- Merging a new permutation of `[from, to)` into the recorded one meets a
position that belongs to neither range. -/
def mergeLeavesGap (b : ListChangeBuilder α) (size from_ to_ : ℕ) : Bool :=
  match b.permutationChange with
  | none => false
  | some old =>
      if b.addRemoveChanges.isEmpty then leavesGap old from_ to_
      else leavesGap old 0 (originalSize size b.addRemoveChanges)

theorem Diff.length_balance {p : ℕ} {O cur : List α} {hs : List (Hunk α)}
    (h : Diff p O hs cur) :
    O.length + (hs.map fun x => x.hi - x.lo).sum =
      cur.length + (hs.map fun x => x.old.length).sum := by
  induction h with
  | nil p K => simp
  | cons p K A O cur x hs hlo hhi _ ih =>
      have hA : x.hi - x.lo = A.length := by omega
      simp only [List.length_append, List.map_cons, List.sum_cons, hA]
      omega

theorem originalSize_eq {O cur : List α} {cs : List (SubChange α)}
    (h : Diff 0 O (hunks cs) cur) : originalSize cur.length cs = O.length := by
  have := Diff.length_balance h
  simp only [hunks, List.map_map] at this
  have h₁ : (cs.map fun c => c.to_ - c.from_) =
      cs.map ((fun x : Hunk α => x.hi - x.lo) ∘ SubChange.hunk) := rfl
  have h₂ : cs.map SubChange.removedSize =
      cs.map ((fun x : Hunk α => x.old.length) ∘ SubChange.hunk) := rfl
  rw [originalSize, h₁, h₂]
  omega

/-- Recording a permutation, or composing it with the one that is there. -/
theorem recordPermutation_spec {permutationChange : Option (SubChange α)}
    {lo : ℕ} {prePerm : List ℕ} (hpre : IsPerm lo prePerm)
    (hperm : ∀ s, permutationChange = some s → s.IsPermutation)
    (hgap : ∀ old, permutationChange = some old →
      leavesGap old lo (lo + prePerm.length) = false) :
    ∃ s : SubChange α,
      recordPermutation permutationChange lo (lo + prePerm.length) prePerm =
        .ok s ∧ s.IsPermutation ∧
      (∀ j, target s.from_ s.perm j = target lo prePerm
        (recordedTarget { permutationChange := permutationChange } j)) ∧
      ∀ n, lo + prePerm.length ≤ n →
        (∀ old, permutationChange = some old → old.to_ ≤ n) → s.to_ ≤ n := by
  cases permutationChange with
  | none =>
      exact ⟨⟨lo, lo + prePerm.length, none, prePerm, false⟩, rfl,
        ⟨hpre, rfl, rfl, rfl⟩, fun j => rfl, fun n hn _ => hn⟩
  | some old =>
      have hold := hperm old rfl
      refine ⟨composed old lo prePerm,
        mergePermutation_eq hold hpre (hgap old rfl),
        composed_isPermutation hold hpre, composed_target hold, ?_⟩
      intro n hn hto
      have := hto old rfl
      simp only [composed]
      omega

section Spec

variable {b : ListChangeBuilder α} {O cur : List α} {from_ : ℕ} {perm : List ℕ}

/-- What the two halves of `nextPermutation` compute about the original list:
a permutation of it, and a script from a list `O'` to the permuted current
list. -/
theorem originalPermutation_spec (h : Diff 0 O (hunks b.addRemoveChanges) cur)
    (hperm : IsPerm from_ perm) (hto : from_ + perm.length ≤ cur.length) :
    ∃ (lo : ℕ) (prePerm : List ℕ) (cs' : List (SubChange α)) (O' : List α),
      originalPermutation cur.length from_ (from_ + perm.length) perm
        b.addRemoveChanges = .ok (lo, lo + prePerm.length, prePerm) ∧
      ifAny b.addRemoveChanges
        (rehome from_ (from_ + perm.length) perm) = .ok cs' ∧
      IsPerm lo prePerm ∧ lo + prePerm.length ≤ O.length ∧
      (lo, lo + prePerm.length) = (if b.addRemoveChanges.isEmpty then
        (from_, from_ + perm.length)
        else (0, originalSize cur.length b.addRemoveChanges)) ∧
      Diff 0 O' (hunks cs') (permute from_ perm cur) ∧
      ((∀ c ∈ b.addRemoveChanges, c.IsAddRemove) → ∀ c ∈ cs', c.IsAddRemove) ∧
      (Rehomes (target from_ perm) cur.length b.addRemoveChanges →
        Moves (target lo prePerm) O O') := by
  have hmov := permute_moves hperm hto
  cases harc : b.addRemoveChanges with
  | nil =>
      -- nothing added or removed: `cur` itself is the original list
      rw [harc] at h
      have hO := h.kept_eq
      subst hO
      exact ⟨from_, perm, [], permute from_ perm O, rfl, rfl, hperm, hto, rfl,
        Diff.nil _ _, fun h => h, fun _ => hmov⟩
  | cons c cs =>
      rw [harc] at h
      -- the added positions after the move
      let A' : ℕ → Bool := fun q => (List.range cur.length).any fun j =>
        decide (target from_ perm j = q) && covered (hunks (c :: cs)) j
      have hA : ∀ j, j < cur.length →
          A' (target from_ perm j) = covered (hunks (c :: cs)) j := by
        intro j hj
        rw [Bool.eq_iff_iff, List.any_eq_true]
        constructor
        · rintro ⟨k, -, hk⟩
          rw [Bool.and_eq_true, decide_eq_true_iff] at hk
          rw [← hperm.target_injective hk.1]
          exact hk.2
        · intro hcov
          exact ⟨j, List.mem_range.mpr hj, by rw [hcov, decide_eq_true rfl]; rfl⟩
      obtain ⟨newPerm, hrec, hlen, hnew, hmoves⟩ :=
        reconstruct_spec h hperm hto hmov hA
      obtain ⟨cs', hre, hdiff⟩ := rehome_spec h hperm hto hmov hA
      refine ⟨0, newPerm, cs', _, ?_, hre, hnew, by omega, ?_, hdiff,
        fun _ => rehome_isAddRemove hre, fun hr => ?_⟩
      · rw [originalPermutation, if_neg (by simp), hrec, except_ok_bind,
          Nat.zero_add]
        rfl
      · rw [if_neg (by simp), originalSize_eq h, hlen, Nat.zero_add]
      · rw [weave_rehomed h hperm hto hmov hA hr]
        exact hmoves

/-- **One permutation.** Unless its range leaves a gap to the recorded one,
`nextPermutation` succeeds and records a script onto the permuted list. If the
removals land where the permutation put them, the record stays about the
original list. -/
theorem nextPermutation_spec (h : Record b O cur) (hlock : b.changeLock ≠ 0)
    (hperm : IsPerm from_ perm) (hto : from_ + perm.length ≤ cur.length)
    (hgap : mergeLeavesGap b cur.length from_ (from_ + perm.length) = false) :
    ∃ b' O', b.nextPermutation cur.length from_ (from_ + perm.length) perm = .ok b' ∧
      b'.changeLock = b.changeLock ∧ Record b' O' (permute from_ perm cur) ∧
      (Rehomes (target from_ perm) cur.length b.addRemoveChanges →
        ∀ L0, Permuted b L0 O → Permuted b' L0 O') := by
  obtain ⟨lo, prePerm, cs', O', horig, hre, hpre, hle, hrange, hdiff, hkind,
    hmoves⟩ := originalPermutation_spec h.script hperm hto
  obtain ⟨s, hs, hsperm, htarget, hwithin⟩ := recordPermutation_spec hpre
    h.permutation (fun old hold => by
      simp only [mergeLeavesGap, hold] at hgap
      by_cases harc : b.addRemoveChanges.isEmpty = true
      · rw [if_pos harc] at hgap hrange
        obtain ⟨rfl, hto'⟩ := Prod.mk.inj hrange
        rw [hto']
        exact hgap
      · rw [if_neg harc] at hgap hrange
        obtain ⟨rfl, hto'⟩ := Prod.mk.inj hrange
        rw [hto']
        exact hgap)
  obtain ⟨us, hus, hupd⟩ : ∃ us, ifAny b.updateChanges
      (rehomeUpdates from_ (from_ + perm.length) perm) = .ok us ∧
        ∀ c ∈ us, c.IsUpdate := by
    rw [ifAny]
    split
    · exact ⟨_, rfl, h.updates⟩
    · exact rehomeUpdates_isUpdate from_ perm b.updateChanges
  refine ⟨{ b with
      addRemoveChanges := cs'
      updateChanges := us
      permutationChange := some s }, O', ?_, rfl,
    ⟨hdiff, hkind h.addRemove, hupd, fun s' hs' => ?_⟩, fun hr L0 hL0 => ?_⟩
  · rw [ListChangeBuilder.nextPermutation, ListChangeBuilder.checkState,
      if_neg hlock, except_ok_bind, horig, except_ok_bind]
    simp only [hs, hre, hus, except_ok_bind]
    rfl
  · cases hs'
    exact hsperm
  · refine ⟨(hL0.moves.trans (hmoves hr)).congr fun i _ => ?_, fun s' hs' => ?_⟩
    · exact htarget i
    · cases hs'
      refine hwithin _ ?_ hL0.within
      rw [← hL0.moves.length_eq]
      exact hle

end Spec

end JavaFx.Collections
