import JavaFx.Collections.NextPermutation
import JavaFx.Lib.Runs

/-!
# A block of changes

An observable list edits itself and notifies its `ListChangeBuilder` of each
edit, between `beginChange` and the outermost `endChange`. A `Call` is one such
notification together with the edit it reports; a block is any sequence of
them. The fired `Change` should replay the list as it was before the block into
the list as it is afterwards.

`nextSet` and `nextReplace` are a series of removals followed by an addition
(`step_eq_prims`), so everything is proved for single removals, additions,
updates and permutations.
-/

namespace JavaFx.Collections

open EditScript IndexPerm Runs

variable {α : Type}

/-- A notification with the edit of the list that it reports. The elements that
leave the list are read off the list itself. -/
inductive Call (α : Type) where
  | nextAdd (from_ : ℕ) (elems : List α)
  | nextRemove (idx : ℕ)
  | nextRemoveAll (idx count : ℕ)
  | nextSet (idx : ℕ) (elem : α)
  | nextReplace (from_ count : ℕ) (elems : List α)
  | nextUpdate (idx : ℕ)
  | nextPermutation (from_ : ℕ) (perm : List ℕ)
  | beginChange
  | endChange
deriving DecidableEq, Repr

/-- The list and its builder. -/
structure Block (α : Type) where
  list : List α
  builder : ListChangeBuilder α
deriving DecidableEq, Repr

namespace Call

def edit : Call α → List α → List α
  | nextAdd from_ elems, l => l.take from_ ++ (elems ++ l.drop from_)
  | nextRemove idx, l => l.eraseIdx idx
  | nextRemoveAll idx count, l => l.take idx ++ l.drop (idx + count)
  | nextSet idx elem, l => l.set idx elem
  | nextReplace from_ count elems, l =>
      l.take from_ ++ (elems ++ l.drop (from_ + count))
  | nextUpdate _, l => l
  | nextPermutation from_ perm, l => permute from_ perm l
  | beginChange, l => l
  | endChange, l => l

/-- The indexes are in range and `perm` is a bijection of its range. -/
def Valid (l : List α) : Call α → Prop
  | nextAdd from_ _ => from_ ≤ l.length
  | nextRemove idx => idx < l.length
  | nextRemoveAll idx count => idx + count ≤ l.length
  | nextSet idx _ => idx < l.length
  | nextReplace from_ count _ => from_ + count ≤ l.length
  | nextUpdate idx => idx < l.length
  | nextPermutation from_ perm =>
      IsPerm from_ perm ∧ from_ + perm.length ≤ l.length
  | beginChange => True
  | endChange => True

instance (l : List α) (c : Call α) : Decidable (c.Valid l) := by
  cases c <;> unfold Valid <;> infer_instance

/-- The call of the builder; `l` is the list before the edit. -/
def notify (l : List α) (b : ListChangeBuilder α) :
    Call α → Except Exn (ListChangeBuilder α)
  | nextAdd from_ elems => b.nextAdd from_ (from_ + elems.length)
  | nextRemove idx =>
      match l[idx]? with
      | some removed => b.nextRemove idx removed
      | none => .error .indexOutOfBounds
  | nextRemoveAll idx count => b.nextRemoveAll idx ((l.drop idx).take count)
  | nextSet idx _ =>
      match l[idx]? with
      | some old => b.nextSet idx old
      | none => .error .indexOutOfBounds
  | nextReplace from_ count elems =>
      b.nextReplace from_ (from_ + elems.length) ((l.drop from_).take count)
  | nextUpdate idx => b.nextUpdate idx
  | nextPermutation from_ perm =>
      b.nextPermutation l.length from_ (from_ + perm.length) perm
  | beginChange => .ok b.beginChange
  | endChange => do
      let (b, _) ← b.endChange
      return b

/-- The single steps a call consists of. -/
def prims : Call α → List (Call α)
  | nextRemoveAll idx count => List.replicate count (nextRemove idx)
  | nextSet idx elem => [nextRemove idx, nextAdd idx [elem]]
  | nextReplace from_ count elems =>
      List.replicate count (nextRemove from_) ++ [nextAdd from_ elems]
  | c => [c]

/-- Calls that add and remove elements, and the nesting of blocks. -/
def addsOrRemoves : Call α → Bool
  | nextUpdate _ => false
  | nextPermutation _ _ => false
  | _ => true

/-- Additions, removals and permutations, and the nesting of blocks. -/
def addsRemovesOrPermutes : Call α → Bool
  | nextUpdate _ => false
  | _ => true

def isPermutation : Call α → Bool
  | nextPermutation _ _ => true
  | _ => false

end Call

/-- Each call is valid for the list at that moment. -/
def ValidCalls : List α → List (Call α) → Prop
  | _, [] => True
  | l, c :: cs => c.Valid l ∧ ValidCalls (c.edit l) cs

instance ValidCalls.decidable : ∀ (l : List α) (cs : List (Call α)),
    Decidable (ValidCalls l cs)
  | _, [] => .isTrue trivial
  | l, c :: cs =>
      have := ValidCalls.decidable (c.edit l) cs
      inferInstanceAs (Decidable (_ ∧ _))

/-- Inner blocks are closed, at nesting depth `d`. -/
def balanced : ℕ → List (Call α) → Bool
  | d, [] => d == 0
  | d, .beginChange :: cs => balanced (d + 1) cs
  | d, .endChange :: cs => 0 < d && balanced (d - 1) cs
  | d, _ :: cs => balanced d cs

def step (s : Block α) (c : Call α) : Except Exn (Block α) := do
  let b ← c.notify s.list s.builder
  return ⟨c.edit s.list, b⟩

/-- The list `L0` right after `beginChange`. -/
def opened (L0 : List α) : Block α :=
  ⟨L0, ListChangeBuilder.beginChange {}⟩

/-- The whole block: the final list, and the sub-changes fired by the outermost
`endChange`. -/
def runBlock (L0 : List α) (calls : List (Call α)) :
    Except Exn (List α × Option (List (SubChange α))) := do
  let s ← runAll step (opened L0) calls
  let (_, fired) ← s.builder.endChange
  return (s.list, fired)

/-! ## Calls as series of single steps -/

/-- A single step that goes to the builder's record. -/
def Call.single : Call α → Bool
  | .nextAdd _ _ => true
  | .nextRemove _ => true
  | .nextUpdate _ => true
  | .nextPermutation _ _ => true
  | _ => false

/-- `beginChange` or `endChange` of an inner block. -/
def Call.nests : Call α → Bool
  | .beginChange => true
  | .endChange => true
  | _ => false

theorem checkState_of_ne {b : ListChangeBuilder α} (h : b.changeLock ≠ 0) :
    b.checkState = .ok () := by
  rw [ListChangeBuilder.checkState, if_neg h]

theorem eraseIdx_take_drop (l : List α) (idx n : ℕ) (h : idx < l.length) :
    (l.eraseIdx idx).take idx ++ (l.eraseIdx idx).drop (idx + n) =
      l.take idx ++ l.drop (idx + (n + 1)) := by
  have hlen : (l.take idx).length = idx := by rw [List.length_take]; omega
  have hdrop : (l.take idx ++ l.drop (idx + 1)).drop (idx + n) =
      (l.drop (idx + 1)).drop n := by
    rw [List.drop_append, hlen, List.drop_of_length_le (by omega), List.nil_append,
      Nat.add_sub_cancel_left]
  rw [List.eraseIdx_eq_take_drop_succ, List.take_left' hlen, hdrop,
    List.drop_drop]
  congr 2
  omega

/-- A bulk removal is a loop of single removals at the same index. -/
theorem runAll_removes (idx : ℕ) : ∀ (n : ℕ) (l : List α)
    (b : ListChangeBuilder α), idx + n ≤ l.length →
      runAll step ⟨l, b⟩ (List.replicate n (.nextRemove idx)) =
        (((l.drop idx).take n).foldlM (fun b x => b.nextRemove idx x) b >>=
          fun b' => .ok ⟨l.take idx ++ l.drop (idx + n), b'⟩) := by
  intro n
  induction n with
  | zero =>
      intro l b _
      simp [runAll]
  | succ n ih =>
      intro l b h
      have hidx : idx < l.length := by omega
      have htake : (l.drop idx).take (n + 1) =
          l[idx] :: (l.drop (idx + 1)).take n := by
        rw [List.drop_eq_getElem_cons hidx, List.take_succ_cons]
      have hrest : (l.eraseIdx idx).drop idx = l.drop (idx + 1) := by
        rw [List.eraseIdx_eq_take_drop_succ,
          List.drop_left' (by rw [List.length_take]; omega)]
      rw [List.replicate_succ, runAll, htake, List.foldlM_cons]
      simp only [step, Call.notify, Call.edit, List.getElem?_eq_getElem hidx]
      cases hb : b.nextRemove idx l[idx] with
      | error e => rfl
      | ok b' =>
          have hlen : idx + n ≤ (l.eraseIdx idx).length := by
            rw [List.length_eraseIdx_of_lt hidx]
            omega
          have hih := ih (l.eraseIdx idx) b' hlen
          rw [hrest, eraseIdx_take_drop l idx n hidx] at hih
          simp only [except_ok_bind]
          exact hih

theorem step_add (s : Block α) (from_ : ℕ) (elems : List α) :
    step s (.nextAdd from_ elems) =
      (s.builder.nextAdd from_ (from_ + elems.length) >>=
        fun b => .ok ⟨s.list.take from_ ++ (elems ++ s.list.drop from_), b⟩) :=
  rfl

/-- **A call is the series of its single steps.** -/
theorem step_eq_prims {s : Block α} {c : Call α} (hlock : s.builder.changeLock ≠ 0)
    (hvalid : c.Valid s.list) : step s c = runAll step s c.prims := by
  obtain ⟨l, b⟩ := s
  have hcheck := checkState_of_ne hlock
  simp only at hcheck hvalid
  cases c with
  | nextRemoveAll idx count =>
      rw [Call.prims, runAll_removes idx count l b hvalid]
      simp only [step, Call.notify, Call.edit, ListChangeBuilder.nextRemoveAll,
        hcheck, except_ok_bind]
      rfl
  | nextSet idx elem =>
      have hidx : idx < l.length := hvalid
      have hedit : (l.eraseIdx idx).take idx ++
          ([elem] ++ (l.eraseIdx idx).drop idx) = l.set idx elem := by
        have hlen : (l.take idx).length = idx := by rw [List.length_take]; omega
        rw [List.eraseIdx_eq_take_drop_succ, List.take_left' hlen,
          List.drop_left' hlen, List.set_eq_take_append_cons_drop, if_pos hidx]
        rfl
      rw [Call.prims, runAll]
      simp only [step, Call.notify, Call.edit, List.getElem?_eq_getElem hidx,
        ListChangeBuilder.nextSet]
      cases hb : b.nextRemove idx l[idx] with
      | error e => rfl
      | ok b' =>
          simp only [except_ok_bind]
          have : runAll step ⟨l.eraseIdx idx, b'⟩ [.nextAdd idx [elem]] = _ :=
            runAll_singleton _ _
          rw [step_add] at this
          simp only [hedit] at this
          exact this.symm
  | nextReplace from_ count elems =>
      have hle : from_ + count ≤ l.length := hvalid
      have hlen : (l.take from_).length = from_ := by rw [List.length_take]; omega
      have hremoves := runAll_removes from_ count l b hvalid
      simp only [step, Call.notify, Call.edit, Call.prims,
        ListChangeBuilder.nextReplace, ListChangeBuilder.nextRemoveAll, hcheck,
        except_ok_bind]
      cases hb : ((l.drop from_).take count).foldlM
          (fun b x => b.nextRemove from_ x) b with
      | error e =>
          rw [hb] at hremoves
          rw [runAll_append_error _ hremoves]
          rfl
      | ok b' =>
          rw [hb, except_ok_bind] at hremoves
          rw [runAll_append _ hremoves, runAll_singleton, step_add]
          simp only [List.take_left' hlen, List.drop_left' hlen, except_ok_bind]
          rfl
  | nextAdd _ _ => exact (runAll_singleton _ _).symm
  | nextRemove _ => exact (runAll_singleton _ _).symm
  | nextUpdate _ => exact (runAll_singleton _ _).symm
  | nextPermutation _ _ => exact (runAll_singleton _ _).symm
  | beginChange => exact (runAll_singleton _ _).symm
  | endChange => exact (runAll_singleton _ _).symm

theorem validCalls_replicate_remove (idx : ℕ) : ∀ (n : ℕ) (l : List α),
    idx + n ≤ l.length → ∀ ps, ValidCalls (l.take idx ++ l.drop (idx + n)) ps →
      ValidCalls l (List.replicate n (.nextRemove idx) ++ ps) := by
  intro n
  induction n with
  | zero => intro l _ ps h; simpa using h
  | succ n ih =>
      intro l hl ps h
      have hidx : idx < l.length := by omega
      refine ⟨hidx, ih _ ?_ ps ?_⟩
      · simp only [Call.edit]
        rw [List.length_eraseIdx_of_lt hidx]
        omega
      · simp only [Call.edit]
        rw [eraseIdx_take_drop l idx n hidx]
        exact h

theorem prims_valid {l : List α} {c : Call α} (h : c.Valid l) :
    ValidCalls l c.prims := by
  cases c with
  | nextRemoveAll idx count =>
      have := validCalls_replicate_remove idx count l h [] trivial
      rwa [List.append_nil] at this
  | nextSet idx elem =>
      have hidx : idx < l.length := h
      refine ⟨hidx, ?_, trivial⟩
      simp only [Call.edit, Call.Valid]
      rw [List.length_eraseIdx_of_lt hidx]
      omega
  | nextReplace from_ count elems =>
      have hle : from_ + count ≤ l.length := h
      refine validCalls_replicate_remove from_ count l h _ ⟨?_, trivial⟩
      simp only [Call.Valid, List.length_append, List.length_take]
      omega
  | nextAdd _ _ => exact ⟨h, trivial⟩
  | nextRemove _ => exact ⟨h, trivial⟩
  | nextUpdate _ => exact ⟨h, trivial⟩
  | nextPermutation _ _ => exact ⟨h, trivial⟩
  | beginChange => exact ⟨h, trivial⟩
  | endChange => exact ⟨h, trivial⟩

theorem prims_single {c : Call α} (h : c.nests = false) :
    ∀ p ∈ c.prims, p.single = true := by
  cases c <;> simp_all [Call.prims, Call.nests, Call.single]
  rintro p (⟨-, rfl⟩ | rfl) <;> rfl

end JavaFx.Collections
