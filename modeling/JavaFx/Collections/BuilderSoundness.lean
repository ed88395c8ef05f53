import JavaFx.Collections.ChangeBlock

/-!
# What a block of changes fires

The results about `ListChangeBuilder`: when the fired `Change` replays the list
from before the block, without and with permutations, and when no call throws.
Each of the three follows from an invariant that one single step keeps, under a
condition on the builder before that step.
-/

namespace JavaFx.Collections

open EditScript IndexPerm Runs

variable {α : Type}

/-! ## Runs of calls -/

/-- A condition on single steps, asked of every step a call consists of. -/
def AtEachStep (P : Block α → Call α → Prop) (s : Block α) (c : Call α) : Prop :=
  Along step P s c.prims

instance (P : Block α → Call α → Prop) [∀ s c, Decidable (P s c)] (s : Block α)
    (c : Call α) : Decidable (AtEachStep P s c) :=
  inferInstanceAs (Decidable (Along step P s c.prims))

/-- `Inv` does not depend on the nesting depth, and every single step that meets
`P` succeeds and keeps it. -/
structure StepInvariant (Inv : Block α → Prop) (P : Block α → Call α → Prop) :
    Prop where
  lock : ∀ l (b : ListChangeBuilder α) n, Inv ⟨l, b⟩ →
    Inv ⟨l, { b with changeLock := n }⟩
  single : ∀ s c, c.single = true → Inv s → s.builder.changeLock ≠ 0 →
    c.Valid s.list → P s c →
    ∃ b', c.notify s.list s.builder = .ok b' ∧
      b'.changeLock = s.builder.changeLock ∧ Inv ⟨c.edit s.list, b'⟩

namespace StepInvariant

variable {Inv : Block α → Prop} {P : Block α → Call α → Prop}

theorem prims (h : StepInvariant Inv P) (ps : List (Call α)) :
    ∀ s : Block α, (∀ p ∈ ps, p.single = true) → Inv s →
      s.builder.changeLock ≠ 0 → ValidCalls s.list ps → Along step P s ps →
      ∃ s', runAll step s ps = .ok s' ∧ Inv s' ∧
        s'.builder.changeLock = s.builder.changeLock := by
  induction ps with
  | nil => intro s _ hinv _ _ _; exact ⟨s, rfl, hinv, rfl⟩
  | cons p ps ih =>
      intro s hps hinv hlock hvalid halong
      obtain ⟨b', hb', hlock', hinv'⟩ := h.single s p (hps p List.mem_cons_self)
        hinv hlock hvalid.1 halong.head
      have hstep : step s p = .ok ⟨p.edit s.list, b'⟩ := by
        rw [step, hb']
        rfl
      obtain ⟨s', hs', hinv'', hl⟩ := ih ⟨p.edit s.list, b'⟩
        (fun q hq => hps q (List.mem_cons_of_mem _ hq)) hinv'
        (by rw [hlock']; exact hlock) hvalid.2 (halong.tail hstep)
      exact ⟨s', by rw [runAll_cons_ok ps hstep, hs'], hinv'', hl.trans hlock'⟩

/-- One call that does not nest, as a whole. -/
theorem call (h : StepInvariant Inv P) {s : Block α} {c : Call α}
    (hc : c.nests = false) (hinv : Inv s) (hlock : s.builder.changeLock ≠ 0)
    (hvalid : c.Valid s.list) (halong : AtEachStep P s c) :
    ∃ b', step s c = .ok ⟨c.edit s.list, b'⟩ ∧ Inv ⟨c.edit s.list, b'⟩ ∧
      b'.changeLock = s.builder.changeLock := by
  obtain ⟨s', hs', hinv', hl⟩ := h.prims c.prims s (prims_single hc) hinv hlock
    (prims_valid hvalid) halong
  rw [← step_eq_prims hlock hvalid] at hs'
  have hstep := hs'
  rw [step] at hs'
  obtain ⟨b', -, hret⟩ := except_bind_eq_ok.mp hs'
  cases hret
  exact ⟨b', hstep, hinv', hl⟩

/-- Any call of a well-nested block, at nesting depth `d`. -/
theorem nested_call (h : StepInvariant Inv P) {d : ℕ} {s : Block α} {c : Call α}
    {cs : List (Call α)} (hlock : s.builder.changeLock = d + 1) (hinv : Inv s)
    (hbal : balanced d (c :: cs) = true) (hvalid : c.Valid s.list)
    (halong : AtEachStep P s c) :
    ∃ d' b', step s c = .ok ⟨c.edit s.list, b'⟩ ∧ b'.changeLock = d' + 1 ∧
      Inv ⟨c.edit s.list, b'⟩ ∧ balanced d' cs = true := by
  have hplain : c.nests = false → balanced d cs = true →
      ∃ d' b', step s c = .ok ⟨c.edit s.list, b'⟩ ∧ b'.changeLock = d' + 1 ∧
        Inv ⟨c.edit s.list, b'⟩ ∧ balanced d' cs = true := by
    intro hc hb
    obtain ⟨b', hstep, hi, hl⟩ := h.call hc hinv (by omega) hvalid halong
    exact ⟨d, b', hstep, hl.trans hlock, hi, hb⟩
  cases c with
  | beginChange =>
      refine ⟨d + 1, s.builder.beginChange, rfl, ?_, h.lock _ _ _ hinv, hbal⟩
      show s.builder.changeLock + 1 = _
      omega
  | endChange =>
      rw [balanced, Bool.and_eq_true, decide_eq_true_iff] at hbal
      obtain ⟨hd, hbal⟩ := hbal
      -- an inner `endChange` only lowers the nesting depth
      have hend : s.builder.endChange =
          .ok ({ s.builder with changeLock := d }, none) := by
        rw [ListChangeBuilder.endChange, if_neg (by omega),
          ListChangeBuilder.commit, if_neg (by simp only; omega)]
        simp only [hlock, Nat.add_sub_cancel]
      refine ⟨d - 1, { s.builder with changeLock := d }, ?_, ?_,
        h.lock _ _ _ hinv, hbal⟩
      · rw [step, Call.notify, hend]
        rfl
      · simp only
        omega
  | nextAdd _ _ => exact hplain rfl hbal
  | nextRemove _ => exact hplain rfl hbal
  | nextRemoveAll _ _ => exact hplain rfl hbal
  | nextSet _ _ => exact hplain rfl hbal
  | nextReplace _ _ _ => exact hplain rfl hbal
  | nextUpdate _ => exact hplain rfl hbal
  | nextPermutation _ _ => exact hplain rfl hbal

/-- **The block rule.** Along every well-nested sequence of valid calls whose
single steps meet `P`, no call throws, and `Inv` holds before the outermost
`endChange`. -/
theorem calls (h : StepInvariant Inv P) (cs : List (Call α)) :
    ∀ (d : ℕ) (s : Block α), s.builder.changeLock = d + 1 → Inv s →
      balanced d cs = true → ValidCalls s.list cs →
      Along step (AtEachStep P) s cs →
      ∃ b', runAll step s cs = .ok ⟨cs.foldl (fun l c => c.edit l) s.list, b'⟩ ∧
        Inv ⟨cs.foldl (fun l c => c.edit l) s.list, b'⟩ ∧ b'.changeLock = 1 := by
  induction cs with
  | nil =>
      intro d s hlock hinv hbal _ _
      have hd : d = 0 := by simpa [balanced] using hbal
      exact ⟨s.builder, rfl, hinv, by rw [hlock, hd]⟩
  | cons c cs ih =>
      intro d s hlock hinv hbal hvalid halong
      obtain ⟨d', b', hstep, hl, hi, hb⟩ := h.nested_call hlock hinv hbal hvalid.1
        halong.head
      obtain ⟨b'', hb'', hinv'', hone⟩ := ih d' ⟨c.edit s.list, b'⟩ hl hi hb
        hvalid.2 (halong.tail hstep)
      exact ⟨b'', by rw [runAll_cons_ok cs hstep, hb'']; rfl, hinv'', hone⟩

/-- The block rule for a property that a permutation brings about and every
other step keeps. -/
theorem calls_permuted {Inv' : Block α → Prop} (h : StepInvariant Inv P)
    (h' : StepInvariant Inv' P)
    (hmark : ∀ s from_ perm, Inv s → s.builder.changeLock ≠ 0 →
      (Call.nextPermutation from_ perm).Valid s.list →
      P s (.nextPermutation from_ perm) →
      ∃ b', (Call.nextPermutation from_ perm).notify s.list s.builder = .ok b' ∧
        b'.changeLock = s.builder.changeLock ∧
        Inv' ⟨permute from_ perm s.list, b'⟩) (cs : List (Call α)) :
    ∀ (d : ℕ) (s : Block α), s.builder.changeLock = d + 1 → Inv s →
      balanced d cs = true → ValidCalls s.list cs →
      Along step (AtEachStep P) s cs → (∃ c ∈ cs, c.isPermutation = true) →
      ∃ b', runAll step s cs = .ok ⟨cs.foldl (fun l c => c.edit l) s.list, b'⟩ ∧
        Inv' ⟨cs.foldl (fun l c => c.edit l) s.list, b'⟩ ∧ b'.changeLock = 1 := by
  induction cs with
  | nil => rintro d s _ _ _ _ _ ⟨c, hc, -⟩; cases hc
  | cons c cs ih =>
      intro d s hlock hinv hbal hvalid halong hex
      by_cases hc : c.isPermutation = true
      · cases c with
        | nextPermutation from_ perm =>
            obtain ⟨b', hb', hl, hi⟩ := hmark s from_ perm hinv (by omega)
              hvalid.1 (Along.head halong.head)
            have hstep : step s (.nextPermutation from_ perm) =
                .ok ⟨permute from_ perm s.list, b'⟩ := by
              rw [step, hb']
              rfl
            obtain ⟨b'', hb'', hinv'', hone⟩ := h'.calls cs d
              ⟨permute from_ perm s.list, b'⟩ (hl.trans hlock) hi hbal hvalid.2
              (halong.tail hstep)
            exact ⟨b'', by rw [runAll_cons_ok cs hstep, hb'']; rfl, hinv'', hone⟩
        | nextAdd _ _ => cases hc
        | nextRemove _ => cases hc
        | nextRemoveAll _ _ => cases hc
        | nextSet _ _ => cases hc
        | nextReplace _ _ _ => cases hc
        | nextUpdate _ => cases hc
        | beginChange => cases hc
        | endChange => cases hc
      · obtain ⟨d', b', hstep, hl, hi, hb⟩ := h.nested_call hlock hinv hbal
          hvalid.1 halong.head
        have hex' : ∃ c ∈ cs, c.isPermutation = true := by
          obtain ⟨e, he, hep⟩ := hex
          rcases List.mem_cons.mp he with rfl | he
          · exact absurd hep hc
          · exact ⟨e, he, hep⟩
        obtain ⟨b'', hb'', hinv'', hone⟩ := ih d' ⟨c.edit s.list, b'⟩ hl hi hb
          hvalid.2 (halong.tail hstep) hex'
        exact ⟨b'', by rw [runAll_cons_ok cs hstep, hb'']; rfl, hinv'', hone⟩

end StepInvariant

/-! ## Firing -/

theorem hunk_finalize (c : SubChange α) : (finalizeSubChange c).hunk = c.hunk := rfl

theorem hunks_finalize (cs : List (SubChange α)) :
    hunks (cs.map finalizeSubChange) = hunks cs := by
  simp [hunks, Function.comp_def, hunk_finalize]

theorem forall_finalize {P : SubChange α → Prop} {cs : List (SubChange α)}
    (hP : ∀ c, P c → P (finalizeSubChange c)) (h : ∀ c ∈ cs, P c) :
    ∀ c ∈ cs.map finalizeSubChange, P c := by
  intro c hc
  obtain ⟨d, hd, rfl⟩ := List.mem_map.mp hc
  exact hP d (h d hd)

/-- **The outermost `endChange`** fires the permutation, a script and the
updates, in this order, unless nothing was recorded; the builder is then as new. -/
theorem endChange_spec {b : ListChangeBuilder α} {O cur : List α}
    (h : Record b O cur) (hlock : b.changeLock = 1)
    (hnull : compressMeetsNull b.addRemoveChanges = false) :
    ∃ addRemoves updates, (∀ c ∈ addRemoves, c.IsAddRemove) ∧
      Diff 0 O (hunks addRemoves) cur ∧
      (b.updateChanges = [] → updates = []) ∧
      b.endChange = .ok ({},
        if b.addRemoveChanges = [] ∧ b.updateChanges = [] ∧
            b.permutationChange = none then none
        else some (b.permutationChange.toList.map finalizeSubChange ++
          addRemoves ++ updates)) := by
  obtain ⟨lock, arc, upd, pc⟩ := b
  simp only at hlock hnull
  subst hlock
  have hend : (⟨1, arc, upd, pc⟩ : ListChangeBuilder α).endChange =
      ListChangeBuilder.commit ⟨0, arc, upd, pc⟩ := rfl
  rw [hend, ListChangeBuilder.commit]
  simp only [true_and]
  by_cases hempty : arc = [] ∧ upd = [] ∧ pc = none
  · obtain ⟨rfl, rfl, rfl⟩ := hempty
    refine ⟨[], [], by simp, h.script, fun _ => rfl, ?_⟩
    simp
  · have htotal : upd.length + arc.length + pc.toList.length ≠ 0 := by
      intro hzero
      refine hempty ⟨List.eq_nil_of_length_eq_zero (by omega),
        List.eq_nil_of_length_eq_zero (by omega), ?_⟩
      cases pc with
      | none => rfl
      | some s => simp at hzero
    simp only [if_pos htotal, if_neg hempty]
    by_cases hone : upd.length + arc.length + pc.toList.length = 1
    · simp only [if_pos hone]
      refine ⟨arc.map finalizeSubChange, upd.map finalizeSubChange,
        forall_finalize (fun _ hc => hc) h.addRemove, ?_, ?_, ?_⟩
      · rw [hunks_finalize]
        exact h.script
      · intro hu
        rw [hu]
        rfl
      · rw [List.map_append, List.map_append]
    · simp only [if_neg hone]
      obtain ⟨updates, hupd, -⟩ := compress_isUpdate h.updates
      obtain ⟨addRemoves, harc, hdiff⟩ := compress_diff h.script hnull
      simp only at hupd harc
      refine ⟨addRemoves.map finalizeSubChange, updates.map finalizeSubChange,
        forall_finalize (fun _ hc => hc) (compress_isAddRemove h.addRemove harc),
        ?_, ?_, ?_⟩
      · rw [hunks_finalize]
        exact hdiff
      · intro hu
        subst hu
        cases hupd
        rfl
      · rw [hupd, except_ok_bind, harc, except_ok_bind, List.map_append,
          List.map_append]
        rfl

/-! ## Single steps on the record -/

section Steps

variable {b : ListChangeBuilder α} {O O' cur : List α}

theorem nextAdd_eq (hlock : b.changeLock ≠ 0) (from_ to_ : ℕ) :
    b.nextAdd from_ to_ = .ok { b with
      addRemoveChanges := ListChangeBuilder.addChange from_ to_ b.addRemoveChanges
      updateChanges := addToUpdates from_ to_ b.updateChanges } := by
  rw [ListChangeBuilder.nextAdd, checkState_of_ne hlock]
  rfl

theorem nextRemove_eq (hlock : b.changeLock ≠ 0) {idx : ℕ} {x : α}
    {cs' : List (SubChange α)}
    (h : ListChangeBuilder.removeChange idx x b.addRemoveChanges = .ok cs') :
    b.nextRemove idx x = .ok { b with
      addRemoveChanges := cs'
      updateChanges := removeFromUpdates idx b.updateChanges } := by
  rw [ListChangeBuilder.nextRemove, checkState_of_ne hlock, except_ok_bind, h]
  rfl

theorem notify_remove (hlock : b.changeLock ≠ 0) {idx : ℕ}
    (hidx : idx < cur.length) {cs' : List (SubChange α)}
    (h : ListChangeBuilder.removeChange idx cur[idx] b.addRemoveChanges =
      .ok cs') :
    (Call.nextRemove idx).notify cur b = .ok { b with
      addRemoveChanges := cs'
      updateChanges := removeFromUpdates idx b.updateChanges } := by
  simp only [Call.notify, List.getElem?_eq_getElem hidx]
  exact nextRemove_eq hlock h

theorem nextUpdate_spec (hlock : b.changeLock ≠ 0)
    (h : ∀ c ∈ b.updateChanges, c.IsUpdate) (idx : ℕ) :
    ∃ us, b.nextUpdate idx = .ok { b with updateChanges := us } ∧
      ∀ c ∈ us, c.IsUpdate := by
  rw [ListChangeBuilder.nextUpdate, checkState_of_ne hlock]
  refine ⟨_, rfl, ?_⟩
  cases hlast : b.updateChanges.getLast? with
  | none => exact insertUpdate_isUpdate h idx
  | some last =>
      have hl := h last (List.mem_of_getLast? hlast)
      simp only
      split
      · exact forall_mem_set h (d := { last with to_ := idx + 1 }) hl _
      · exact insertUpdate_isUpdate h idx

theorem Record.add (h : Record b O cur) {from_ : ℕ} (hf : from_ ≤ cur.length)
    (xs : List α) :
    Record { b with
      addRemoveChanges := ListChangeBuilder.addChange from_ (from_ + xs.length)
        b.addRemoveChanges
      updateChanges := addToUpdates from_ (from_ + xs.length) b.updateChanges }
      O (cur.take from_ ++ (xs ++ cur.drop from_)) where
  script := addChange_diff h.script xs hf
  addRemove := stable_isAddRemove.addChange h.addRemove _ _
  updates := addToUpdates_isUpdate h.updates _ _
  permutation := h.permutation

theorem Record.remove (h : Record b O cur) {idx : ℕ} {x : α}
    {cs' : List (SubChange α)}
    (hcs' : ListChangeBuilder.removeChange idx x b.addRemoveChanges = .ok cs')
    (hdiff : Diff 0 O' (hunks cs') (cur.eraseIdx idx)) :
    Record { b with
      addRemoveChanges := cs'
      updateChanges := removeFromUpdates idx b.updateChanges }
      O' (cur.eraseIdx idx) where
  script := hdiff
  addRemove := stable_isAddRemove.removeChange h.addRemove hcs'
  updates := removeFromUpdates_isUpdate h.updates _
  permutation := h.permutation

theorem Record.lock (h : Record b O cur) (n : ℕ) :
    Record { b with changeLock := n } O cur :=
  ⟨h.script, h.addRemove, h.updates, h.permutation⟩

theorem record_opened (L0 : List α) : Record (opened L0).builder L0 L0 where
  script := Diff.nil 0 L0
  addRemove := by simp [opened, ListChangeBuilder.beginChange]
  updates := by simp [opened, ListChangeBuilder.beginChange]
  permutation := by simp [opened, ListChangeBuilder.beginChange]

theorem permuted_opened (L0 : List α) : Permuted (opened L0).builder L0 L0 where
  moves := Moves.refl L0
  within := by simp [opened, ListChangeBuilder.beginChange]

end Steps

/-! ## Blocks without permutations -/

/-- `nextRemove` takes neither of the two branches that lose an edit: extending
the last sub-change over its neighbour, and dropping an addition whole. -/
def removesSoundly (s : Block α) : Call α → Prop
  | .nextRemove idx =>
      skipsNeighbour s.builder.addRemoveChanges idx = false ∧
        dropsAdded s.builder.addRemoveChanges idx = false
  | _ => True

instance (s : Block α) (c : Call α) : Decidable (removesSoundly s c) :=
  match c with
  | .nextRemove _ => inferInstanceAs (Decidable (_ ∧ _))
  | .nextAdd .. | .nextRemoveAll .. | .nextSet .. | .nextReplace .. | .nextUpdate _
  | .nextPermutation .. | .beginChange | .endChange => .isTrue trivial

/-- The record of a block that only adds and removes: a script from the list
before the block, and no `null` list in it. -/
structure AddRemoveRecord (L0 : List α) (s : Block α) : Prop where
  record : Record s.builder L0 s.list
  noPermutation : s.builder.permutationChange = none
  noUpdate : s.builder.updateChanges = []
  notNull : ∀ c ∈ s.builder.addRemoveChanges, c.removed.isSome = true

theorem addRemoveRecord_step (L0 : List α) :
    StepInvariant (AddRemoveRecord L0)
      (fun s c => removesSoundly s c ∧ c.addsOrRemoves = true) where
  lock := fun l b n h =>
    ⟨h.record.lock n, h.noPermutation, h.noUpdate, h.notNull⟩
  single := by
    rintro ⟨l, b⟩ c hc h hlock hvalid ⟨hsound, hkind⟩
    cases c with
    | nextAdd from_ elems =>
        refine ⟨_, nextAdd_eq hlock _ _, rfl, h.record.add hvalid elems,
          h.noPermutation, ?_,
          stable_removed_isSome.addChange h.notNull _ _⟩
        have := h.noUpdate
        simp only at this ⊢
        rw [this]
        rfl
    | nextRemove idx =>
        have hidx : idx < l.length := hvalid
        have hget : l[idx]? = some l[idx] := List.getElem?_eq_getElem hidx
        obtain ⟨cs', hcs', hdiff⟩ := removeChange_diff h.record.script hget
          hsound.1 hsound.2 (addsToNull_eq_false h.notNull idx)
        refine ⟨_, notify_remove hlock hidx hcs', rfl, h.record.remove hcs' hdiff,
          h.noPermutation, ?_,
          stable_removed_isSome.removeChange h.notNull hcs'⟩
        have := h.noUpdate
        simp only at this ⊢
        rw [this]
        rfl
    | nextUpdate _ => cases hkind
    | nextPermutation _ _ => cases hkind
    | nextRemoveAll _ _ => cases hc
    | nextSet _ _ => cases hc
    | nextReplace _ _ _ => cases hc
    | beginChange => cases hc
    | endChange => cases hc

theorem prims_addsOrRemoves {c : Call α} (h : c.addsOrRemoves = true) :
    ∀ p ∈ c.prims, p.addsOrRemoves = true := by
  cases c <;> simp_all [Call.prims, Call.addsOrRemoves]
  rintro p (⟨-, rfl⟩ | rfl) <;> rfl

/-- What a `Change` made of additions and removals says about the lists before
and after the block. -/
def ReplaysAddRemove [DecidableEq α] (L0 final : List α) :
    Option (List (SubChange α)) → Prop
  | none => final = L0
  | some subs => (∀ c ∈ subs, c.IsAddRemove) ∧
      applyAll final (hunks subs) L0 = some final

/-- **Soundness of additions and removals.** If no removal of the block takes a
branch that loses an edit, the fired `Change` replays the list from before the
block into the final one. -/
theorem addRemove_block_replays [DecidableEq α] (L0 : List α)
    (calls : List (Call α)) (hkind : ∀ c ∈ calls, c.addsOrRemoves = true)
    (hbal : balanced 0 calls = true) (hvalid : ValidCalls L0 calls)
    (hsound : Along step (AtEachStep removesSoundly) (opened L0) calls) :
    ∃ fired, runBlock L0 calls =
        .ok (calls.foldl (fun l c => c.edit l) L0, fired) ∧
      ReplaysAddRemove L0 (calls.foldl (fun l c => c.edit l) L0) fired := by
  have hstart : AddRemoveRecord L0 (opened L0) :=
    ⟨record_opened L0, rfl, rfl, by simp [opened, ListChangeBuilder.beginChange]⟩
  have halong : Along step (AtEachStep fun s c =>
      removesSoundly s c ∧ c.addsOrRemoves = true) (opened L0) calls := by
    have hkinds : Along step (fun _ c => c.addsOrRemoves = true) (opened L0)
        calls := along_of_forall hkind _
    refine (hsound.and hkinds).imp fun s c h => ?_
    exact Along.and h.1 (along_of_forall (prims_addsOrRemoves h.2) s)
  obtain ⟨b, hrun, hinv, hone⟩ := (addRemoveRecord_step L0).calls calls 0
    (opened L0) rfl hstart hbal hvalid halong
  obtain ⟨addRemoves, updates, hkinds, hdiff, hnone, hend⟩ :=
    endChange_spec hinv.record hone (compressMeetsNull_eq_false hinv.notNull)
  have hupd := hnone hinv.noUpdate
  subst hupd
  refine ⟨_, by rw [runBlock, hrun, except_ok_bind, hend]; rfl, ?_⟩
  have hpc := hinv.noPermutation
  simp only at hpc
  split
  · next hempty =>
      have hscript := hinv.record.script
      rw [hempty.1] at hscript
      exact hscript.kept_eq.symm
  · rw [hpc]
    refine ⟨by simpa using hkinds, ?_⟩
    have := hdiff.applyAll_eq
    simpa [opened] using this

/-- A block with an inner block, a `set` and a `replace`. -/
theorem addRemove_block_replays_nested :
    ∃ fired, runBlock [1, 2, 3, 4] [.nextAdd 1 [7, 8], .nextRemove 4,
        .nextSet 0 9, .beginChange, .nextReplace 1 2 [5], .endChange] =
        .ok ([9, 5, 2, 4], fired) ∧
      ReplaysAddRemove [1, 2, 3, 4] [9, 5, 2, 4] fired :=
  addRemove_block_replays [1, 2, 3, 4] [.nextAdd 1 [7, 8], .nextRemove 4,
    .nextSet 0 9, .beginChange, .nextReplace 1 2 [5], .endChange] (by decide)
    (by decide) (by decide) (by decide)

/-- Three elements are added and the first of them is removed again: the whole
addition is dropped and nothing is fired, although two of them stay. -/
theorem addition_dropped_with_its_first_element :
    (∀ c ∈ ([.nextAdd 0 [1, 2, 3], .nextRemove 0] : List (Call ℕ)),
        c.addsOrRemoves = true) ∧
      balanced 0 ([.nextAdd 0 [1, 2, 3], .nextRemove 0] : List (Call ℕ)) = true ∧
      ValidCalls [] ([.nextAdd 0 [1, 2, 3], .nextRemove 0] : List (Call ℕ)) ∧
      runBlock [] ([.nextAdd 0 [1, 2, 3], .nextRemove 0] : List (Call ℕ)) =
        .ok ([2, 3], none) ∧
      ¬ReplaysAddRemove ([] : List ℕ) [2, 3] none := by
  refine ⟨by decide, by decide, by decide, rfl, ?_⟩
  simp [ReplaysAddRemove]

/-! ## Blocks with permutations -/

/-- What a step must avoid for the record to stay one of the original list: a
removal that loses an edit or meets a `null` list, a permutation that leaves a
gap to the recorded one or moves a removal away from where it belongs, and a
final compression that meets a `null` list. -/
def keepsOriginal (s : Block α) : Call α → Prop
  | .nextRemove idx =>
      skipsNeighbour s.builder.addRemoveChanges idx = false ∧
        dropsAdded s.builder.addRemoveChanges idx = false ∧
        addsToNull s.builder.addRemoveChanges idx = false
  | .nextPermutation from_ perm =>
      mergeLeavesGap s.builder s.list.length from_ (from_ + perm.length) = false ∧
        Rehomes (target from_ perm) s.list.length s.builder.addRemoveChanges
  | .endChange =>
      s.builder.changeLock = 1 →
        compressMeetsNull s.builder.addRemoveChanges = false
  | _ => True

instance (s : Block α) (c : Call α) : Decidable (keepsOriginal s c) :=
  match c with
  | .nextRemove _ => inferInstanceAs (Decidable (_ ∧ _))
  | .nextPermutation .. => inferInstanceAs (Decidable (_ ∧ _))
  | .endChange => inferInstanceAs (Decidable (_ = 1 → _ = false))
  | .nextAdd .. | .nextRemoveAll .. | .nextSet .. | .nextReplace .. | .nextUpdate _
  | .beginChange => .isTrue trivial

/-- The record of a block: a permutation of the list before it, and a script
from the permuted list. -/
structure OriginalRecord (L0 : List α) (s : Block α) : Prop where
  original : ∃ O, Record s.builder O s.list ∧ Permuted s.builder L0 O
  noUpdate : s.builder.updateChanges = []

theorem addToUpdates_nil (from_ to_ : ℕ) :
    addToUpdates from_ to_ ([] : List (SubChange α)) = [] := rfl

theorem removeFromUpdates_nil (idx : ℕ) :
    removeFromUpdates idx ([] : List (SubChange α)) = [] := rfl

/-- A permutation keeps the record and leaves a recorded permutation behind. -/
theorem originalRecord_permutation {L0 : List α} {s : Block α} {from_ : ℕ}
    {perm : List ℕ} (h : OriginalRecord L0 s) (hlock : s.builder.changeLock ≠ 0)
    (hvalid : (Call.nextPermutation from_ perm).Valid s.list)
    (hkeep : keepsOriginal s (.nextPermutation from_ perm)) :
    ∃ b', (Call.nextPermutation from_ perm).notify s.list s.builder = .ok b' ∧
      b'.changeLock = s.builder.changeLock ∧
      OriginalRecord L0 ⟨permute from_ perm s.list, b'⟩ ∧
      b'.permutationChange.isSome = true := by
  obtain ⟨O, hrec, hperm⟩ := h.original
  obtain ⟨b', O', hb', hl, hrec', hperm'⟩ := nextPermutation_spec hrec hlock
    hvalid.1 hvalid.2 hkeep.1
  have hrest : b'.updateChanges = [] ∧ b'.permutationChange.isSome = true := by
    have hb := hb'
    rw [ListChangeBuilder.nextPermutation, checkState_of_ne hlock,
      except_ok_bind] at hb
    obtain ⟨pre, -, hb⟩ := except_bind_eq_ok.mp hb
    obtain ⟨pc, -, hb⟩ := except_bind_eq_ok.mp hb
    obtain ⟨arc, -, hb⟩ := except_bind_eq_ok.mp hb
    obtain ⟨upd, hupd, hb⟩ := except_bind_eq_ok.mp hb
    rw [ifAny, h.noUpdate] at hupd
    cases hupd
    cases hb
    exact ⟨rfl, rfl⟩
  exact ⟨b', hb', hl, ⟨⟨O', hrec', hperm' hkeep.2 L0 hperm⟩, hrest.1⟩, hrest.2⟩

theorem originalRecord_single {L0 : List α} {s : Block α} {c : Call α}
    (hc : c.single = true) (h : OriginalRecord L0 s)
    (hlock : s.builder.changeLock ≠ 0) (hvalid : c.Valid s.list)
    (hkeep : keepsOriginal s c) (hkind : c.addsRemovesOrPermutes = true) :
    ∃ b', c.notify s.list s.builder = .ok b' ∧
      b'.changeLock = s.builder.changeLock ∧
      OriginalRecord L0 ⟨c.edit s.list, b'⟩ ∧
      (s.builder.permutationChange.isSome = true →
        b'.permutationChange.isSome = true) := by
  obtain ⟨l, b⟩ := s
  have hupd := h.noUpdate
  simp only at hupd
  cases c with
  | nextAdd from_ elems =>
      obtain ⟨O, hrec, hperm⟩ := h.original
      refine ⟨_, nextAdd_eq hlock _ _, rfl,
        ⟨⟨O, hrec.add hvalid elems, ⟨hperm.moves, hperm.within⟩⟩, ?_⟩, id⟩
      simp only [hupd, addToUpdates_nil]
  | nextRemove idx =>
      obtain ⟨O, hrec, hperm⟩ := h.original
      have hidx : idx < l.length := hvalid
      obtain ⟨cs', hcs', hdiff⟩ := removeChange_diff hrec.script
        (List.getElem?_eq_getElem hidx) hkeep.1 hkeep.2.1 hkeep.2.2
      refine ⟨_, notify_remove hlock hidx hcs', rfl,
        ⟨⟨O, hrec.remove hcs' hdiff, ⟨hperm.moves, hperm.within⟩⟩, ?_⟩, id⟩
      simp only [hupd, removeFromUpdates_nil]
  | nextPermutation from_ perm =>
      obtain ⟨b', hb', hl, hinv, hsome⟩ := originalRecord_permutation h hlock
        hvalid hkeep
      exact ⟨b', hb', hl, hinv, fun _ => hsome⟩
  | nextUpdate _ => cases hkind
  | nextRemoveAll _ _ => cases hc
  | nextSet _ _ => cases hc
  | nextReplace _ _ _ => cases hc
  | beginChange => cases hc
  | endChange => cases hc

theorem OriginalRecord.lock {L0 l : List α} {b : ListChangeBuilder α}
    (h : OriginalRecord L0 ⟨l, b⟩) (n : ℕ) :
    OriginalRecord L0 ⟨l, { b with changeLock := n }⟩ := by
  obtain ⟨O, hrec, hperm⟩ := h.original
  exact ⟨⟨O, hrec.lock n, ⟨hperm.moves, hperm.within⟩⟩, h.noUpdate⟩

theorem originalRecord_step (L0 : List α) :
    StepInvariant (OriginalRecord L0)
      (fun s c => keepsOriginal s c ∧ c.addsRemovesOrPermutes = true) where
  lock := fun _ _ n h => h.lock n
  single := by
    rintro s c hc h hlock hvalid ⟨hkeep, hkind⟩
    obtain ⟨b', hb', hl, hinv, -⟩ :=
      originalRecord_single hc h hlock hvalid hkeep hkind
    exact ⟨b', hb', hl, hinv⟩

theorem permutedRecord_step (L0 : List α) :
    StepInvariant (fun s => OriginalRecord L0 s ∧
        s.builder.permutationChange.isSome = true)
      (fun s c => keepsOriginal s c ∧ c.addsRemovesOrPermutes = true) where
  lock := fun _ _ n h => ⟨h.1.lock n, h.2⟩
  single := by
    rintro s c hc ⟨h, hsome⟩ hlock hvalid ⟨hkeep, hkind⟩
    obtain ⟨b', hb', hl, hinv, hsome'⟩ :=
      originalRecord_single hc h hlock hvalid hkeep hkind
    exact ⟨b', hb', hl, hinv, hsome' hsome⟩

theorem prims_addsRemovesOrPermutes {c : Call α}
    (h : c.addsRemovesOrPermutes = true) :
    ∀ p ∈ c.prims, p.addsRemovesOrPermutes = true := by
  cases c <;> simp_all [Call.prims, Call.addsRemovesOrPermutes]
  rintro p (⟨-, rfl⟩ | rfl) <;> rfl

/-- **Soundness with permutations.** A block with a permutation, none of whose
steps takes a branch that loses track of the original list, fires one
permutation followed by additions and removals. Permuting the list from before
the block and applying the rest in order gives the final list. -/
theorem permuted_block_replays [DecidableEq α] (L0 : List α)
    (calls : List (Call α))
    (hkind : ∀ c ∈ calls, c.addsRemovesOrPermutes = true)
    (hpermutes : ∃ c ∈ calls, c.isPermutation = true)
    (hbal : balanced 0 calls = true) (hvalid : ValidCalls L0 calls)
    (hkeep : Along step (AtEachStep keepsOriginal) (opened L0)
      (calls ++ [.endChange])) :
    ∃ p rest, runBlock L0 calls =
        .ok (calls.foldl (fun l c => c.edit l) L0, some (p :: rest)) ∧
      IsPerm p.from_ p.perm ∧ p.to_ = p.from_ + p.perm.length ∧
      p.to_ ≤ L0.length ∧ (∀ c ∈ rest, c.IsAddRemove) ∧
      applyAll (calls.foldl (fun l c => c.edit l) L0) (hunks rest)
        (permute p.from_ p.perm L0) =
          some (calls.foldl (fun l c => c.edit l) L0) := by
  have hstart : OriginalRecord L0 (opened L0) :=
    ⟨⟨L0, record_opened L0, permuted_opened L0⟩, rfl⟩
  have halong : Along step (AtEachStep fun s c =>
      keepsOriginal s c ∧ c.addsRemovesOrPermutes = true) (opened L0) calls := by
    have hkinds : Along step (fun _ c => c.addsRemovesOrPermutes = true)
        (opened L0) calls := along_of_forall hkind _
    refine (hkeep.append_left.and hkinds).imp fun s c h => ?_
    exact Along.and h.1 (along_of_forall (prims_addsRemovesOrPermutes h.2) s)
  obtain ⟨b, hrun, ⟨hinv, hsome⟩, hone⟩ :=
    (originalRecord_step L0).calls_permuted (permutedRecord_step L0)
      (fun s from_ perm h hlock hv hk => by
        obtain ⟨b', hb', hl, hi, hs⟩ := originalRecord_permutation h hlock hv hk.1
        exact ⟨b', hb', hl, hi, hs⟩)
      calls 0 (opened L0) rfl hstart hbal hvalid halong hpermutes
  -- the condition on the outermost `endChange`
  have hend := hkeep.append_right hrun
  have hnull := (Along.head hend.head) hone
  obtain ⟨O, hrec, hperm⟩ := hinv.original
  obtain ⟨addRemoves, updates, hkinds, hdiff, hnone, hfire⟩ :=
    endChange_spec hrec hone hnull
  have hupd := hnone hinv.noUpdate
  subst hupd
  obtain ⟨s, hs⟩ := Option.isSome_iff_exists.mp hsome
  simp only at hs
  have hsperm := hrec.permutation s hs
  refine ⟨finalizeSubChange s, addRemoves, ?_, hsperm.isPerm, hsperm.to_eq,
    hperm.within s hs, hkinds, ?_⟩
  · rw [runBlock, hrun, except_ok_bind, hfire]
    simp [hs]
    rfl
  · -- the recorded permutation carried out is the list the script starts from
    have hO : permute s.from_ s.perm L0 = O := by
      refine (permute_moves hsperm.isPerm ?_).unique hsperm.isPerm.target_injective ?_
      · rw [← hsperm.to_eq]
        exact hperm.within s hs
      · have := hperm.moves
        simp only [recordedTarget, hs] at this
        exact this
    have hall := hdiff.applyAll_eq
    rw [← hO] at hall
    exact hall

/-- A removal in the middle, then two permutations around an addition. -/
theorem permuted_block_replays_around_removal :
    ∃ p rest, runBlock [1, 2, 3, 4, 5] [.nextRemove 2, .nextPermutation 0 [1, 0],
        .nextAdd 4 [7]] = .ok ([2, 1, 4, 5, 7], some (p :: rest)) ∧
      IsPerm p.from_ p.perm ∧ p.to_ = p.from_ + p.perm.length ∧ p.to_ ≤ 5 ∧
      (∀ c ∈ rest, c.IsAddRemove) ∧
      applyAll [2, 1, 4, 5, 7] (hunks rest)
        (permute p.from_ p.perm [1, 2, 3, 4, 5]) = some [2, 1, 4, 5, 7] :=
  permuted_block_replays [1, 2, 3, 4, 5] [.nextRemove 2,
    .nextPermutation 0 [1, 0], .nextAdd 4 [7]] (by decide)
    ⟨.nextPermutation 0 [1, 0], by decide, rfl⟩ (by decide) (by decide)
    (by decide)

/-- The first of four elements is removed and the other three are reversed. The
permutation leaves the removed element where it was, at index 0, but its removal
is reported at index 2. -/
theorem removal_moved_away_by_permutation :
    (∀ c ∈ ([.nextRemove 0, .nextPermutation 0 [2, 1, 0]] : List (Call ℕ)),
        c.addsRemovesOrPermutes = true) ∧
      balanced 0 ([.nextRemove 0, .nextPermutation 0 [2, 1, 0]] :
        List (Call ℕ)) = true ∧
      ValidCalls [1, 2, 3, 4] [.nextRemove 0, .nextPermutation 0 [2, 1, 0]] ∧
      runBlock [1, 2, 3, 4] [.nextRemove 0, .nextPermutation 0 [2, 1, 0]] =
        .ok ([4, 3, 2], some [⟨0, 4, some [], [0, 3, 2, 1], false⟩,
          ⟨2, 2, some [1], [], false⟩]) ∧
      applyAll [4, 3, 2] (hunks [(⟨2, 2, some [1], [], false⟩ : SubChange ℕ)])
        (permute 0 [0, 3, 2, 1] [1, 2, 3, 4]) = none := by
  refine ⟨by decide, by decide, by decide, rfl, by decide⟩

/-! ## No call throws -/

/-- What a step must avoid for the sub-changes to stay in order and no `null`
list to be dereferenced. -/
def keepsOrder (s : Block α) : Call α → Prop
  | .nextRemove idx =>
      skipsNeighbour s.builder.addRemoveChanges idx = false ∧
        dropsInner s.builder.addRemoveChanges idx = false ∧
        asksNull s.builder.addRemoveChanges idx = false ∧
        addsToNull s.builder.addRemoveChanges idx = false
  | .nextPermutation from_ perm =>
      mergeLeavesGap s.builder s.list.length from_ (from_ + perm.length) = false
  | .endChange =>
      s.builder.changeLock = 1 →
        compressMeetsNull s.builder.addRemoveChanges = false
  | _ => True

instance (s : Block α) (c : Call α) : Decidable (keepsOrder s c) :=
  match c with
  | .nextRemove _ => inferInstanceAs (Decidable (_ ∧ _))
  | .nextPermutation .. => inferInstanceAs (Decidable (_ = false))
  | .endChange => inferInstanceAs (Decidable (_ = 1 → _ = false))
  | .nextAdd .. | .nextRemoveAll .. | .nextSet .. | .nextReplace .. | .nextUpdate _
  | .beginChange => .isTrue trivial

theorem record_step :
    StepInvariant (fun s : Block α => ∃ O, Record s.builder O s.list)
      keepsOrder where
  lock := fun _ _ n ⟨O, h⟩ => ⟨O, h.lock n⟩
  single := by
    rintro ⟨l, b⟩ c hc ⟨O, hrec⟩ hlock hvalid hkeep
    cases c with
    | nextAdd from_ elems =>
        exact ⟨_, nextAdd_eq hlock _ _, rfl, O, hrec.add hvalid elems⟩
    | nextRemove idx =>
        have hidx : idx < l.length := hvalid
        obtain ⟨hskip, hinner, hask, hnull⟩ := hkeep
        obtain ⟨cs', O', hcs', hdiff⟩ := removeChange_ordered hrec.script
          (List.getElem?_eq_getElem hidx) hskip hinner hask hnull
        exact ⟨_, notify_remove hlock hidx hcs', rfl, O', hrec.remove hcs' hdiff⟩
    | nextUpdate idx =>
        obtain ⟨us, hus, hupd⟩ := nextUpdate_spec hlock hrec.updates idx
        exact ⟨_, hus, rfl, O, ⟨hrec.script, hrec.addRemove, hupd,
          hrec.permutation⟩⟩
    | nextPermutation from_ perm =>
        obtain ⟨b', O', hb', hl, hrec', -⟩ := nextPermutation_spec hrec hlock
          hvalid.1 hvalid.2 hkeep
        exact ⟨b', hb', hl, O', hrec'⟩
    | nextRemoveAll _ _ => cases hc
    | nextSet _ _ => cases hc
    | nextReplace _ _ _ => cases hc
    | beginChange => cases hc
    | endChange => cases hc

/-- **No call throws.** In a block none of whose steps brings the sub-changes
out of order, dereferences a `null` list or merges permutations across a gap,
neither a call nor the outermost `endChange` throws. -/
theorem block_does_not_throw (L0 : List α) (calls : List (Call α))
    (hbal : balanced 0 calls = true) (hvalid : ValidCalls L0 calls)
    (hkeep : Along step (AtEachStep keepsOrder) (opened L0)
      (calls ++ [.endChange])) :
    ∃ fired, runBlock L0 calls =
      .ok (calls.foldl (fun l c => c.edit l) L0, fired) := by
  obtain ⟨b, hrun, ⟨O, hrec⟩, hone⟩ := record_step.calls calls 0 (opened L0) rfl
    ⟨L0, record_opened L0⟩ hbal hvalid hkeep.append_left
  have hend := hkeep.append_right hrun
  have hnull := (Along.head hend.head) hone
  obtain ⟨_, _, -, -, -, hfire⟩ := endChange_spec hrec hone hnull
  exact ⟨_, by rw [runBlock, hrun, except_ok_bind, hfire]; rfl⟩

theorem block_does_not_throw_mixed :
    ∃ fired, runBlock [1, 2, 3, 4, 5] [.nextRemove 2, .nextPermutation 0 [1, 0],
        .nextAdd 4 [7], .nextPermutation 0 [0, 1, 3, 2], .nextRemove 4,
        .nextUpdate 1] = .ok ([2, 1, 5, 4], fired) :=
  block_does_not_throw [1, 2, 3, 4, 5] [.nextRemove 2, .nextPermutation 0 [1, 0],
    .nextAdd 4 [7], .nextPermutation 0 [0, 1, 3, 2], .nextRemove 4,
    .nextUpdate 1] (by decide) (by decide) (by decide)

/-- After a permutation the runs of added elements have a `null` list of removed
elements, and a removal next to such a run dereferences it. -/
theorem removal_after_permutation_throws :
    balanced 0 ([.nextAdd 0 [8, 9], .nextPermutation 0 [0, 2, 1],
        .nextRemove 3] : List (Call ℕ)) = true ∧
      ValidCalls [1, 2] [.nextAdd 0 [8, 9], .nextPermutation 0 [0, 2, 1],
        .nextRemove 3] ∧
      runBlock [1, 2] [.nextAdd 0 [8, 9], .nextPermutation 0 [0, 2, 1],
        .nextRemove 3] = .error .nullPointer := by
  refine ⟨by decide, by decide, rfl⟩

end JavaFx.Collections
