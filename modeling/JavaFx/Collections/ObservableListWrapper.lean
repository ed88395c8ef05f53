import JavaFx.Collections.BuilderSoundness
import JavaFx.Collections.ListViews

/-!
# `ObservableListWrapper`

The mutators of an observable list over an `ArrayList`, as the edits they make and the
notifications they send to the list's `ListChangeBuilder`. Each mutator is a block of
its own, with an idle builder before it and after it. An index out of range throws;
`remove(from, to)` throws half way then, and only that it throws is said here, since
every caller modelled on top has looked at the elements of the range before.

What a listener is told is summed up in `Reported`: which elements have gone, which
have come and where the change begins.
-/

namespace JavaFx.Collections

open EditScript Runs

variable {α : Type}

/-- The mutators of `ObservableList`. A collection that is only asked for its elements
is the predicate `contains`. -/
inductive ListMutator (α : Type) where
  | add (e : α)
  | addAt (index : ℤ) (e : α)
  | addAll (c : List α)
  | addAllAt (index : ℤ) (c : List α)
  | set (index : ℤ) (e : α)
  | setAll (c : List α)
  | remove (o : α)
  | removeAt (index : ℤ)
  | removeRange (fromIndex toIndex : ℤ)
  | removeAll (contains : α → Bool)
  | retainAll (contains : α → Bool)
  | clear

/-- The list after a mutator, and the sub-changes that its listeners are told of. -/
abbrev Mutated (α : Type) := List α × Option (List (SubChange α))

namespace ObservableListWrapper

/-! ## The code -/

/-- `add(index, element)` inside a block. -/
def addCalls (index : ℕ) (e : α) : List (Call α) :=
  [.beginChange, .nextAdd index [e], .endChange]

/-- `remove(index)` inside a block. -/
def removeCalls (index : ℕ) : List (Call α) :=
  [.beginChange, .nextRemove index, .endChange]

/-- `for (E e : c) add(index++, e)` -/
def addLoop : ℕ → List α → List (Call α)
  | _, [] => []
  | index, e :: c => addCalls index e ++ addLoop (index + 1) c

/-- The loop of `removeAll` and `retainAll` over the rest of the list, from position
`i` on. -/
def removeLoop (test : α → Bool) : ℕ → List α → List (Call α)
  | _, [] => []
  | i, e :: rest =>
      if test e = true then removeCalls i ++ removeLoop test i rest
      else removeLoop test (i + 1) rest

def clear (l : List α) : Except Exn (Mutated α) := runBlock l [.nextRemoveAll 0 l.length]

/-- `add(index, element)` -/
def addAt (l : List α) (index : ℤ) (e : α) : Except Exn (Mutated α) := do
  let i ← positionIn l index
  runBlock l [.nextAdd i [e]]

/-- `addAll(index, c)` -/
def addAllAt (l : List α) (index : ℤ) (c : List α) : Except Exn (Mutated α) := do
  let i ← positionIn l index
  runBlock l (addLoop i c)

/-- `set(index, element)` -/
def set (l : List α) (index : ℤ) (e : α) : Except Exn (Mutated α) := do
  let _ ← elementAt l index
  runBlock l [.nextSet index.toNat e]

/-- `setAll(c)`: `clear()` and `addAll(c)` in one block. -/
def setAll (l : List α) (c : List α) : Except Exn (Mutated α) :=
  runBlock l ([.beginChange, .nextRemoveAll 0 l.length, .endChange] ++
    ([.beginChange] ++ addLoop 0 c ++ [.endChange]))

/-- `remove(index)` -/
def removeAt (l : List α) (index : ℤ) : Except Exn (Mutated α) := do
  let _ ← elementAt l index
  runBlock l [.nextRemove index.toNat]

/-- `for (int i = fromIndex; i < toIndex; ++i) remove(fromIndex)` -/
def removeRange (l : List α) (fromIndex toIndex : ℤ) : Except Exn (Mutated α) :=
  if toIndex ≤ fromIndex then runBlock l []
  else do
    let (lo, hi) ← rangeIn l.length fromIndex toIndex
    runBlock l (List.replicate (hi - lo) (removeCalls lo)).flatten

/-- `removeAll` and `retainAll` -/
def removeWhere (l : List α) (test : α → Bool) : Except Exn (Mutated α) :=
  runBlock l (removeLoop test 0 l)

/-- A mutator. -/
def mutate [BEq α] (l : List α) : ListMutator α → Except Exn (Mutated α)
  | .add e => addAt l l.length e
  | .addAt index e => addAt l index e
  | .addAll c => addAllAt l l.length c
  | .addAllAt index c => addAllAt l index c
  | .set index e => set l index e
  | .setAll c => setAll l c
  | .remove o => if indexOf l o ≠ -1 then removeAt l (indexOf l o) else .ok (l, none)
  | .removeAt index => removeAt l index
  | .removeRange fromIndex toIndex => removeRange l fromIndex toIndex
  | .removeAll contains => removeWhere l contains
  | .retainAll contains => removeWhere l fun e => !contains e
  | .clear => clear l

/-! ## Runs of the builder -/

/-- A block at nesting depth `d` that has recorded only additions and removals. -/
abbrev recording (l : List α) (d : ℕ) (cs : List (SubChange α)) : Block α :=
  ⟨l, ⟨d + 1, cs, [], none⟩⟩

theorem opened_eq (l : List α) : opened l = recording l 0 [] := rfl

theorem step_add (l : List α) (d i : ℕ) (c : List α) (cs : List (SubChange α)) :
    step (recording l d cs) (.nextAdd i c) =
      .ok (recording (l.take i ++ (c ++ l.drop i)) d
        (ListChangeBuilder.addChange i (i + c.length) cs)) := by
  rw [step, Call.notify, nextAdd_eq (Nat.succ_ne_zero d)]
  rfl

theorem step_remove {l : List α} {i : ℕ} {x : α} {cs cs' : List (SubChange α)} (d : ℕ)
    (hx : l[i]? = some x) (h : ListChangeBuilder.removeChange i x cs = .ok cs') :
    step (recording l d cs) (.nextRemove i) = .ok (recording (l.eraseIdx i) d cs') := by
  rw [step, Call.notify]
  simp only [hx]
  rw [nextRemove_eq (Nat.succ_ne_zero d) h]
  rfl

theorem step_begin (l : List α) (d : ℕ) (cs : List (SubChange α)) :
    step (recording l d cs) .beginChange = .ok (recording l (d + 1) cs) := rfl

/-- An inner `endChange` fires nothing. -/
theorem step_end (l : List α) (d : ℕ) (cs : List (SubChange α)) :
    step (recording l (d + 1) cs) .endChange = .ok (recording l d cs) := rfl

theorem run_addCalls (l : List α) (d i : ℕ) (e : α) (cs : List (SubChange α)) :
    runAll step (recording l d cs) (addCalls i e) =
      .ok (recording (l.take i ++ (e :: l.drop i)) d
        (ListChangeBuilder.addChange i (i + 1) cs)) := by
  rw [addCalls, runAll_cons_ok _ (step_begin l d cs), runAll_cons_ok _ (step_add _ _ i [e] cs),
    runAll_cons_ok _ (step_end _ _ _)]
  rfl

theorem run_removeCalls {l : List α} {i : ℕ} {x : α} {cs cs' : List (SubChange α)} (d : ℕ)
    (hx : l[i]? = some x) (h : ListChangeBuilder.removeChange i x cs = .ok cs') :
    runAll step (recording l d cs) (removeCalls i) =
      .ok (recording (l.eraseIdx i) d cs') := by
  rw [removeCalls, runAll_cons_ok _ (step_begin l d cs),
    runAll_cons_ok _ (step_remove (d + 1) hx h), runAll_cons_ok _ (step_end _ _ _)]
  rfl

/-- A single sub-change that has replaced `removed` at `lo` by the elements up to `hi`. -/
abbrev replaced (lo hi : ℕ) (removed : List α) : SubChange α := ⟨lo, hi, some removed, [], false⟩

/-- Elements added where the only sub-change ends make it longer. -/
theorem run_addLoop (d lo : ℕ) (removed c : List α) : ∀ (i : ℕ) (l : List α), i ≤ l.length →
    runAll step (recording l d [replaced lo i removed]) (addLoop i c) =
      .ok (recording (l.take i ++ (c ++ l.drop i)) d [replaced lo (i + c.length) removed]) := by
  induction c with
  | nil =>
      intro i l _
      rw [addLoop, List.nil_append, List.take_append_drop]
      rfl
  | cons e c ih =>
      intro i l hi
      have hadd : ListChangeBuilder.addChange i (i + 1) [replaced lo i removed] =
          [replaced lo (i + 1) removed] := by
        simp [ListChangeBuilder.addChange]
      have hlen : (l.take i ++ (e :: l.drop i)).length = l.length + 1 := by
        rw [List.length_append, List.length_take, List.length_cons, List.length_drop]
        omega
      have htake : (l.take i ++ (e :: l.drop i)).take (i + 1) = l.take i ++ [e] := by
        rw [List.take_append, List.length_take, Nat.min_eq_left hi,
          List.take_of_length_le (by rw [List.length_take]; omega), Nat.add_sub_cancel_left]
        rfl
      have hdrop : (l.take i ++ (e :: l.drop i)).drop (i + 1) = l.drop i := by
        rw [List.drop_append, List.length_take, Nat.min_eq_left hi,
          List.drop_of_length_le (by rw [List.length_take]; omega), Nat.add_sub_cancel_left]
        rfl
      rw [addLoop, runAll_append _ (run_addCalls l d i e _), hadd, ih (i + 1) _ (by omega),
        htake, hdrop]
      simp only [List.append_assoc, List.length_cons, List.cons_append, List.nil_append]
      rw [Nat.add_assoc, Nat.add_comm 1]

/-- The first element added to an idle builder opens a sub-change. -/
theorem run_addLoop_cons (d i : ℕ) (e : α) (c : List α) {l : List α} (hi : i ≤ l.length) :
    runAll step (recording l d []) (addLoop i (e :: c)) =
      .ok (recording (l.take i ++ ((e :: c) ++ l.drop i)) d
        [replaced i (i + (e :: c).length) []]) := by
  -- an empty sub-change at `i` would be extended in the same way
  have hfirst : runAll step (recording l d []) (addLoop i (e :: c)) =
      runAll step (recording l d [replaced i i []]) (addLoop i (e :: c)) := by
    have hadd : ListChangeBuilder.addChange i (i + 1) [replaced i i ([] : List α)] =
        [replaced i (i + 1) []] := by
      simp [ListChangeBuilder.addChange]
    have hnew : ListChangeBuilder.addChange i (i + 1) ([] : List (SubChange α)) =
        [replaced i (i + 1) []] := rfl
    rw [addLoop, runAll_append _ (run_addCalls l d i e _),
      runAll_append _ (run_addCalls l d i e _), hadd, hnew]
  rw [hfirst, run_addLoop d i [] (e :: c) i l hi]

/-- Removals at one position end up in one sub-change. -/
theorem run_removes (d i n : ℕ) : ∀ (l removed : List α), i + n ≤ l.length →
    runAll step (recording l d [replaced i i removed])
        (List.replicate n (.nextRemove i)) =
      .ok (recording (l.take i ++ l.drop (i + n)) d
        [replaced i i (removed ++ (l.drop i).take n)]) := by
  induction n with
  | zero =>
      intro l removed _
      rw [List.take_zero, List.append_nil, Nat.add_zero, List.take_append_drop]
      rfl
  | succ n ih =>
      intro l removed hn
      have hi : i < l.length := by omega
      have hx : l[i]? = some l[i] := List.getElem?_eq_getElem hi
      have hrem : ListChangeBuilder.removeChange i l[i] [replaced i i removed] =
          .ok [replaced i i (removed ++ [l[i]])] := by
        simp [ListChangeBuilder.removeChange, changeAt, SubChange.addRemoved]
      have herase : (l.eraseIdx i).length = l.length - 1 := List.length_eraseIdx_of_lt hi
      rw [List.replicate_succ, runAll_cons_ok _ (step_remove d hx hrem),
        ih _ _ (by omega)]
      rw [List.eraseIdx_eq_take_drop_succ]
      have htake : (l.take i ++ l.drop (i + 1)).take i = l.take i := by
        rw [List.take_append_of_le_length (by rw [List.length_take]; omega),
          List.take_take, Nat.min_self]
      have hdrop (k : ℕ) : (l.take i ++ l.drop (i + 1)).drop (i + k) = l.drop (i + (k + 1)) := by
        rw [List.drop_append, List.length_take, Nat.min_eq_left hi.le,
          List.drop_of_length_le (by rw [List.length_take]; omega), Nat.add_sub_cancel_left,
          List.nil_append, List.drop_drop, Nat.add_right_comm, Nat.add_assoc]
      have hcons : (l.drop i).take (n + 1) = l[i] :: (l.drop (i + 1)).take n := by
        rw [List.drop_eq_getElem_cons hi, List.take_succ_cons]
      have hdrop0 := hdrop 0
      rw [Nat.add_zero, Nat.zero_add] at hdrop0
      rw [htake, hdrop n, hdrop0, hcons, List.append_assoc]
      rfl

/-- Removals at one position of an idle builder. -/
theorem run_removes_first (d i n : ℕ) {l : List α} (hn : i + (n + 1) ≤ l.length) :
    runAll step (recording l d []) (List.replicate (n + 1) (.nextRemove i)) =
      .ok (recording (l.take i ++ l.drop (i + (n + 1))) d
        [replaced i i ((l.drop i).take (n + 1))]) := by
  have hi : i < l.length := by omega
  have hx : l[i]? = some l[i] := List.getElem?_eq_getElem hi
  -- an empty sub-change at `i` would take the first element in the same way
  have hnew : ListChangeBuilder.removeChange i l[i] [] = .ok [replaced i i [l[i]]] := rfl
  have hadd : ListChangeBuilder.removeChange i l[i] [replaced i i []] =
      .ok [replaced i i [l[i]]] := by
    simp [ListChangeBuilder.removeChange, changeAt, SubChange.addRemoved]
  have hall := run_removes d i (n + 1) l [] hn
  rw [List.replicate_succ, runAll_cons_ok _ (step_remove d hx hadd)] at hall
  rw [List.replicate_succ, runAll_cons_ok _ (step_remove d hx hnew), hall, List.nil_append]

/-- Removals one by one, each in a block of its own, are the same removals. -/
theorem run_removeCalls_flatten (d i n : ℕ) : ∀ {s t : Block α},
    s.builder.changeLock = d + 1 → s.builder.updateChanges = [] →
    s.builder.permutationChange = none →
    runAll step s (List.replicate n (.nextRemove i)) = .ok t →
    runAll step s (List.replicate n (removeCalls i)).flatten = .ok t := by
  induction n with
  | zero =>
      intro s t _ _ _ h
      exact h
  | succ n ih =>
      rintro ⟨l, lock, cs, upd, perm⟩ t hlock hupd hperm h
      simp only at hlock hupd hperm
      subst hlock hupd hperm
      rw [List.replicate_succ, runAll] at h
      cases hs : step (recording l d cs) (.nextRemove i) with
      | error e =>
          rw [hs] at h
          cases h
      | ok s' =>
          rw [hs] at h
          cases hx : l[i]? with
          | none =>
              rw [step, Call.notify] at hs
              simp only [hx] at hs
              cases hs
          | some x =>
              cases hc : ListChangeBuilder.removeChange i x cs with
              | error e =>
                  rw [step, Call.notify] at hs
                  simp only [hx, ListChangeBuilder.nextRemove, hc] at hs
                  cases hs
              | ok cs' =>
                  rw [step_remove d hx hc] at hs
                  cases hs
                  rw [List.replicate_succ, List.flatten_cons,
                    runAll_append _ (run_removeCalls d hx hc)]
                  exact ih rfl rfl rfl h

theorem runBlock_single {l l' : List α} {calls : List (Call α)} {lo hi : ℕ} {removed : List α}
    (h : runAll step (recording l 0 []) calls = .ok (recording l' 0 [replaced lo hi removed])) :
    runBlock l calls = .ok (l', some [replaced lo hi removed]) := by
  rw [runBlock, opened_eq, h]
  rfl

/-! ## The loop of `removeAll` and `retainAll` -/

/-- Sub-changes that only remove, in order and not beyond position `i`: they have
removed `removed`, the first of it at `first`. -/
structure Removals (cs : List (SubChange α)) (removed : List α) (first i : ℕ) : Prop where
  point : ∀ c ∈ cs, c.from_ = c.to_ ∧ c.removed.isSome = true
  ordered : cs.Pairwise fun a b => a.to_ < b.from_
  le : ∀ c ∈ cs, c.to_ ≤ i
  removed_eq : cs.flatMap (fun c => c.removed.getD []) = removed
  head : ∀ c ∈ cs.head?, c.from_ = first

theorem removals_nil (first i : ℕ) : Removals ([] : List (SubChange α)) [] first i where
  point := by simp
  ordered := List.Pairwise.nil
  le := by simp
  removed_eq := rfl
  head := by simp

theorem Removals.mono {cs : List (SubChange α)} {removed : List α} {first i j : ℕ}
    (h : Removals cs removed first i) (hij : i ≤ j) : Removals cs removed first j :=
  ⟨h.point, h.ordered, fun c hc => (h.le c hc).trans hij, h.removed_eq, h.head⟩

theorem Removals.inOrder {cs : List (SubChange α)} {removed : List α} {first i : ℕ}
    (h : Removals cs removed first i) : InOrder cs where
  le := fun c hc => (h.point c hc).1.le
  pairwise := h.ordered.imp fun hab => hab.le

/-- A removal at `i` goes to the last sub-change, or to a new one behind it. -/
theorem Removals.removeChange {cs : List (SubChange α)} {removed : List α} {first i : ℕ}
    (h : Removals cs removed first i) (x : α) :
    ∃ cs', ListChangeBuilder.removeChange i x cs = .ok cs' ∧ cs' ≠ [] ∧
      Removals cs' (removed ++ [x]) (if cs = [] then i else first) i := by
  rcases List.eq_nil_or_concat cs with rfl | ⟨front, last, rfl⟩
  · have hrem := h.removed_eq
    simp only [List.flatMap_nil] at hrem
    subst hrem
    refine ⟨[replaced i i [x]], rfl, by simp, ⟨?_, List.pairwise_singleton _ _, ?_, rfl, ?_⟩⟩
    · simp
    · simp
    · simp
  · rw [List.concat_eq_append] at *
    have hlast : (front ++ [last]).getLast? = some last := List.getLast?_concat
    obtain ⟨hpoint, hsome⟩ := h.point last (by simp)
    obtain ⟨r, hr⟩ := Option.isSome_iff_exists.mp hsome
    have hremoved : front.flatMap (fun c => c.removed.getD []) ++ r = removed := by
      have := h.removed_eq
      rw [List.flatMap_append, List.flatMap_singleton, hr] at this
      exact this
    rw [if_neg (by simp)]
    by_cases hto : last.to_ = i
    · -- the last sub-change stands at `i`: the element joins those it has removed
      refine ⟨front ++ [{ last with removed := some (r ++ [x]) }], ?_, by simp, ?_, ?_, ?_, ?_, ?_⟩
      · simp only [ListChangeBuilder.removeChange, hlast, if_pos hto]
        rw [List.length_append, List.length_singleton, Nat.add_sub_cancel, changeAt_append,
          SubChange.addRemoved, hr]
        rfl
      · intro c hc
        rcases List.mem_append.mp hc with hc | hc
        · exact h.point c (List.mem_append_left _ hc)
        · rw [List.mem_singleton.mp hc]
          exact ⟨hpoint, rfl⟩
      · have := h.ordered
        rw [List.pairwise_append] at this ⊢
        refine ⟨this.1, List.pairwise_singleton _ _, fun a ha b hb => ?_⟩
        rw [List.mem_singleton.mp hb]
        exact this.2.2 a ha last (by simp)
      · intro c hc
        rcases List.mem_append.mp hc with hc | hc
        · exact h.le c (List.mem_append_left _ hc)
        · rw [List.mem_singleton.mp hc]
          exact hto.le
      · rw [List.flatMap_append, List.flatMap_singleton, Option.getD_some, ← List.append_assoc,
          hremoved]
      · intro c hc
        cases front with
        | nil =>
            cases hc
            exact h.head last (by simp)
        | cons a front =>
            cases hc
            exact h.head _ (by simp)
    · -- it ends before `i`: a new sub-change is put behind it
      have hlt : last.to_ < i := lt_of_le_of_ne (h.le last (by simp)) hto
      have hbelow : ∀ c ∈ front ++ [last], c.to_ < i := by
        intro c hc
        rcases List.mem_append.mp hc with hc | hc
        · have h1 := (List.pairwise_append.mp h.ordered).2.2 c hc last (by simp)
          omega
        · rw [List.mem_singleton.mp hc]
          exact hlt
      have hfind : findSubChange i (front ++ [last]) = .negSucc (front ++ [last]).length := by
        have hf := findSubChange_spec h.inOrder i
        generalize findSubChange i (front ++ [last]) = found at hf
        cases hf with
        | inside pre post c hcs hfrom hto' =>
            have := hbelow c (by rw [hcs]; simp)
            omega
        | between pre post hcs hpre hpost =>
            cases post with
            | nil =>
                rw [List.append_nil] at hcs
                rw [hcs]
            | cons c post =>
                have h1 := hbelow c (by rw [hcs]; simp)
                have h2 := hpost c (by simp)
                have h3 := (h.point c (by rw [hcs]; simp)).1
                omega
      refine ⟨(front ++ [last]) ++ [replaced i i [x]], ?_, by simp, ?_, ?_, ?_, ?_, ?_⟩
      · simp only [ListChangeBuilder.removeChange, hlast, if_neg hto]
        rw [if_neg (by omega), insertRemoved, hfind]
        have hends : endsBefore (front ++ [last]) (front ++ [last]).length i = false := by
          rw [List.length_append, List.length_singleton, endsBefore_append_singleton]
          simpa using hto
        have hins := insertIdx_length_append (front ++ [last]) [] (replaced i i [x])
        have hfor := forFrom_append_cons SubChange.moveDown (front ++ [last]) [] (replaced i i [x])
        rw [List.append_nil] at hins
        simp only [hends, startsAt_length, Bool.false_eq_true, if_false, hins, hfor]
        rfl
      · intro c hc
        rcases List.mem_append.mp hc with hc | hc
        · exact h.point c hc
        · rw [List.mem_singleton.mp hc]
          exact ⟨rfl, rfl⟩
      · rw [List.pairwise_append]
        refine ⟨h.ordered, List.pairwise_singleton _ _, fun a ha b hb => ?_⟩
        rw [List.mem_singleton.mp hb]
        exact hbelow a ha
      · intro c hc
        rcases List.mem_append.mp hc with hc | hc
        · exact h.le c hc
        · rw [List.mem_singleton.mp hc]
      · rw [List.flatMap_append, h.removed_eq, List.flatMap_singleton]
        rfl
      · intro c hc
        cases front with
        | nil =>
            cases hc
            exact h.head last (by simp)
        | cons a front =>
            cases hc
            exact h.head _ (by simp)

/-- The loop removes what passes the test, in order. -/
theorem run_removeLoop (test : α → Bool) (rest : List α) : ∀ (pre : List α) (removed : List α)
    (first : ℕ) (cs : List (SubChange α)), Removals cs removed first pre.length →
    ∃ cs' first', runAll step (recording (pre ++ rest) 0 cs) (removeLoop test pre.length rest) =
        .ok (recording (pre ++ rest.filter fun e => !test e) 0 cs') ∧
      Removals cs' (removed ++ rest.filter test) first'
        (pre ++ rest.filter fun e => !test e).length ∧
      (cs ≠ [] → first' = first) ∧ (cs = [] → first' ≤ pre.length +
        (rest.takeWhile fun e => !test e).length) ∧
      (cs' = [] ↔ cs = [] ∧ rest.filter test = []) := by
  induction rest with
  | nil =>
      intro pre removed first cs h
      refine ⟨cs, if cs = [] then 0 else first, by simp [removeLoop, runAll], ?_,
        fun hne => if_neg hne, fun hnil => by rw [if_pos hnil]; exact Nat.zero_le _, by simp⟩
      rw [List.filter_nil, List.append_nil, List.filter_nil, List.append_nil]
      split
      · next hnil =>
          subst hnil
          have hrem := h.removed_eq
          simp only [List.flatMap_nil] at hrem
          subst hrem
          exact removals_nil _ _
      · exact h
  | cons e rest ih =>
      intro pre removed first cs h
      rw [removeLoop]
      by_cases he : test e = true
      · obtain ⟨cs₁, hcs₁, hne₁, h₁⟩ := h.removeChange e
        have hx : (pre ++ e :: rest)[pre.length]? = some e := by simp
        obtain ⟨cs', first', hrun, h', hfirst, -, hnil⟩ := ih pre (removed ++ [e]) _ cs₁ h₁
        refine ⟨cs', first', ?_, ?_, ?_, ?_, ?_⟩
        · rw [if_pos he, runAll_append _ (run_removeCalls 0 hx hcs₁),
            List.eraseIdx_append_of_length_le (le_refl _), Nat.sub_self, List.eraseIdx_cons_zero,
            hrun]
          simp [he]
        · simpa [he] using h'
        · intro hne
          rw [hfirst hne₁, if_neg hne]
        · intro hcs
          rw [hfirst hne₁, if_pos hcs]
          exact Nat.le_add_right _ _
        · simp [hnil, hne₁, he]
      · have hpre : (pre ++ [e]).length = pre.length + 1 := by simp
        have h₁ : Removals cs removed first (pre ++ [e]).length := h.mono (by omega)
        obtain ⟨cs', first', hrun, h', hfirst, hbound, hnil⟩ := ih (pre ++ [e]) removed first cs h₁
        rw [hpre, List.append_assoc, List.singleton_append] at hrun
        refine ⟨cs', first', ?_, ?_, hfirst, ?_, ?_⟩
        · rw [if_neg he, hrun]
          simp [he]
        · simpa [he] using h'
        · intro hcs
          have := hbound hcs
          simp only [he, List.takeWhile_cons] at this ⊢
          simp only [Bool.not_false, if_true, List.length_cons]
          simp at this ⊢
          omega
        · simpa [he] using hnil

/-- Sub-changes that only remove never touch, so `compress` leaves them as they are. -/
theorem compressFrom_removals (rest : List (SubChange α)) : ∀ prev : SubChange α,
    (prev :: rest).Pairwise (fun a b => a.to_ < b.from_) →
    compressFrom prev rest = .ok (prev :: rest) := by
  induction rest with
  | nil =>
      intro prev _
      rfl
  | cons cur rest ih =>
      intro prev h
      have hlt : prev.to_ < cur.from_ := (List.pairwise_cons.mp h).1 cur (by simp)
      rw [compressFrom, if_neg hlt.ne, ih cur (List.pairwise_cons.mp h).2]
      rfl

theorem endChange_removals {l removed : List α} {cs : List (SubChange α)} {first i : ℕ}
    (h : Removals cs removed first i) (hne : cs ≠ []) :
    (recording l 0 cs).builder.endChange = .ok ({}, some (cs.map finalizeSubChange)) := by
  cases cs with
  | nil => exact absurd rfl hne
  | cons prev rest =>
      cases rest with
      | nil => rfl
      | cons cur rest =>
          have hcompress : compress (prev :: cur :: rest) = .ok (prev :: cur :: rest) :=
            compressFrom_removals _ _ h.ordered
          show ListChangeBuilder.commit ⟨0, prev :: cur :: rest, [], none⟩ = _
          have hnil : compress ([] : List (SubChange α)) = .ok [] := rfl
          simp [ListChangeBuilder.commit, hcompress, hnil]

end ObservableListWrapper

/-! ## What the listeners are told -/

/-- The sub-changes `subs` tell how `l` has become `l'`: `removed` has gone and `added`
has come. Only a change of one part both adds and removes. -/
structure Told (l l' removed added : List α) (subs : List (SubChange α)) : Prop where
  ne_nil : subs ≠ []
  shape : (∃ c, subs = [c]) ∨ ∀ c ∈ subs, c.from_ = c.to_
  removed_eq : subs.flatMap (fun c => c.removed.getD []) = removed
  added_eq : subs.flatMap (fun c => Splice.slice c.from_ c.to_ l') = added
  within : ∀ c ∈ subs, c.from_ ≤ c.to_ ∧ c.to_ ≤ l'.length
  agree : ∀ c ∈ subs.head?, c.from_ ≤ l.length ∧ l'.take c.from_ = l.take c.from_
  kept : ∃ kept, l.Perm (kept ++ removed) ∧ l'.Perm (kept ++ added)

/-- The listeners are told of the change, or there is none. -/
structure Reported (l l' removed added : List α) (fired : Option (List (SubChange α))) :
    Prop where
  quiet : fired = none → l' = l ∧ removed = [] ∧ added = []
  told : ∀ subs, fired = some subs → Told l l' removed added subs

namespace ListMutator

/-- The elements a mutator takes out. -/
def gone (l : List α) : ListMutator α → List α
  | set index _ => Splice.slice index.toNat (index.toNat + 1) l
  | setAll _ => l
  | removeAt index => Splice.slice index.toNat (index.toNat + 1) l
  | removeRange fromIndex toIndex => Splice.slice fromIndex.toNat toIndex.toNat l
  | removeAll contains => l.filter contains
  | retainAll contains => l.filter fun e => !contains e
  | clear => l
  | _ => []

/-- The elements a mutator puts in. -/
def come : ListMutator α → List α
  | add e => [e]
  | addAt _ e => [e]
  | addAll c => c
  | addAllAt _ c => c
  | set _ e => [e]
  | setAll c => c
  | _ => []

/-- The indexes are ones of the list. -/
def InRange (l : List α) : ListMutator α → Prop
  | addAt index _ => 0 ≤ index ∧ index ≤ l.length
  | addAllAt index _ => 0 ≤ index ∧ index ≤ l.length
  | set index _ => 0 ≤ index ∧ index < l.length
  | removeAt index => 0 ≤ index ∧ index < l.length
  | removeRange fromIndex toIndex =>
      toIndex ≤ fromIndex ∨ (0 ≤ fromIndex ∧ toIndex ≤ l.length)
  | _ => True

instance (l : List α) (m : ListMutator α) : Decidable (m.InRange l) := by
  cases m <;> unfold InRange <;> infer_instance

end ListMutator

namespace ObservableListWrapper

open ListMutator

theorem perm_splice {l : List α} {lo n : ℕ} (c : List α) :
    ∃ kept, l.Perm (kept ++ Splice.slice lo (lo + n) l) ∧
      (Splice.splice lo n c l).Perm (kept ++ c) := by
  refine ⟨l.take lo ++ l.drop (lo + n), ?_, ?_⟩
  · have hsplit := @Splice.take_slice_drop α lo n l
    calc l = l.take lo ++ (Splice.slice lo (lo + n) l ++ l.drop (lo + n)) := hsplit
      _ |>.Perm (l.take lo ++ (l.drop (lo + n) ++ Splice.slice lo (lo + n) l)) :=
        List.Perm.append_left _ List.perm_append_comm
      _ = _ := (List.append_assoc _ _ _).symm
  · rw [Splice.splice, List.append_assoc]
    exact List.Perm.append_left _ List.perm_append_comm

/-- One part is replaced. -/
theorem told_replaced {l : List α} {lo n : ℕ} (h : lo + n ≤ l.length) (c : List α) :
    Told l (Splice.splice lo n c l) (Splice.slice lo (lo + n) l) c
      [replaced lo (lo + c.length) (Splice.slice lo (lo + n) l)] where
  ne_nil := by simp
  shape := Or.inl ⟨_, rfl⟩
  removed_eq := by simp
  added_eq := by
    rw [List.flatMap_singleton, Splice.slice, Nat.add_sub_cancel_left, Splice.splice]
    have hlo : (l.take lo).length = lo := by
      rw [List.length_take]
      omega
    rw [List.drop_left' hlo, List.take_left]
  within := by
    intro d hd
    rw [List.mem_singleton.mp hd]
    refine ⟨Nat.le_add_right _ _, ?_⟩
    simp only [Splice.length_splice h]
    omega
  agree := by
    intro d hd
    cases hd
    refine ⟨by simp only; omega, ?_⟩
    have hlo : (l.take lo).length = lo := by
      rw [List.length_take]
      omega
    simp only [Splice.splice]
    rw [List.take_left' hlo]
  kept := perm_splice c

theorem reported_replaced (l : List α) (lo n : ℕ) (h : lo + n ≤ l.length) (c : List α) :
    Reported l (Splice.splice lo n c l) (Splice.slice lo (lo + n) l) c
      (some [replaced lo (lo + c.length) (Splice.slice lo (lo + n) l)]) where
  quiet := fun h => nomatch h
  told := by
    intro subs hsubs
    cases hsubs
    exact told_replaced h c

theorem reported_nothing (l : List α) : Reported l l [] [] none where
  quiet := fun _ => ⟨rfl, rfl, rfl⟩
  told := fun _ h => nomatch h

theorem slice_self (lo : ℕ) (l : List α) : Splice.slice lo lo l = [] := by
  rw [Splice.slice, Nat.sub_self, List.take_zero]

/-- Elements added at `i`. -/
theorem addAll_reported {l : List α} {i : ℕ} (hi : i ≤ l.length) (c : List α) :
    ∃ l' fired, runBlock l (addLoop i c) = .ok (l', fired) ∧ Reported l l' [] c fired := by
  cases c with
  | nil => exact ⟨l, none, rfl, reported_nothing l⟩
  | cons e c =>
      refine ⟨_, _, runBlock_single (run_addLoop_cons 0 i e c hi), ?_⟩
      have h := reported_replaced l i 0 (by omega) (e :: c)
      rw [Nat.add_zero, slice_self] at h
      exact h

/-- One element added at `i`. -/
theorem add_reported {l : List α} {i : ℕ} (hi : i ≤ l.length) (e : α) :
    ∃ l' fired, runBlock l [.nextAdd i [e]] = .ok (l', fired) ∧ Reported l l' [] [e] fired := by
  have hrun : runAll step (recording l 0 []) [.nextAdd i [e]] =
      .ok (recording (l.take i ++ ([e] ++ l.drop i)) 0 [replaced i (i + 1) []]) := by
    rw [runAll_cons_ok _ (step_add l 0 i [e] [])]
    rfl
  refine ⟨_, _, runBlock_single hrun, ?_⟩
  have h := reported_replaced l i 0 (by omega) [e]
  rw [Nat.add_zero, slice_self] at h
  exact h

theorem slice_eq_drop_take (lo n : ℕ) (l : List α) :
    Splice.slice lo (lo + n) l = (l.drop lo).take n := by
  rw [Splice.slice, Nat.add_sub_cancel_left]

/-- `n` elements removed at `lo`. -/
theorem removes_reported (l : List α) (lo n : ℕ) (h : lo + n ≤ l.length)
    (calls : List (Call α))
    (hcalls : ∀ t, runAll step (recording l 0 []) (List.replicate n (.nextRemove lo)) = .ok t →
      runAll step (recording l 0 []) calls = .ok t) :
    ∃ l' fired, runBlock l calls = .ok (l', fired) ∧
      Reported l l' (Splice.slice lo (lo + n) l) [] fired := by
  cases n with
  | zero =>
      refine ⟨l, none, ?_, ?_⟩
      · rw [runBlock, opened_eq, hcalls _ rfl]
        rfl
      · rw [Nat.add_zero, slice_self]
        exact reported_nothing l
  | succ n =>
      refine ⟨_, _, runBlock_single (hcalls _ (run_removes_first 0 lo n h)), ?_⟩
      have hrep := reported_replaced l lo (n + 1) h []
      rw [slice_eq_drop_take] at hrep ⊢
      exact hrep

/-- One element replaced. -/
theorem set_reported {l : List α} {i : ℕ} (hi : i < l.length) (e : α) :
    ∃ l' fired, runBlock l [.nextSet i e] = .ok (l', fired) ∧
      Reported l l' (Splice.slice i (i + 1) l) [e] fired := by
  have hvalid : (Call.nextSet i e).Valid l := hi
  have hrun : runAll step (recording l 0 []) [.nextSet i e] =
      .ok (recording (Splice.splice i 1 [e] l) 0 [replaced i (i + 1) [l[i]]]) := by
    have hx : l[i]? = some l[i] := List.getElem?_eq_getElem hi
    have hrem : ListChangeBuilder.removeChange i l[i] [] = .ok [replaced i i [l[i]]] := rfl
    have hadd : ListChangeBuilder.addChange i (i + 1) [replaced i i [l[i]]] =
        [replaced i (i + 1) [l[i]]] := by
      simp [ListChangeBuilder.addChange]
    rw [runAll_singleton, step_eq_prims (Nat.succ_ne_zero 0) hvalid, Call.prims,
      runAll_cons_ok _ (step_remove 0 hx hrem), runAll_cons_ok _ (step_add _ 0 i [e] _),
      List.length_singleton, hadd]
    have htake : (l.eraseIdx i).take i = l.take i := by
      rw [List.eraseIdx_eq_take_drop_succ,
        List.take_append_of_le_length (by rw [List.length_take]; omega), List.take_take,
        Nat.min_self]
    have hdrop : (l.eraseIdx i).drop i = l.drop (i + 1) := by
      rw [List.eraseIdx_eq_take_drop_succ, List.drop_left' (by rw [List.length_take]; omega)]
    rw [htake, hdrop]
    rfl
  refine ⟨_, _, runBlock_single hrun, ?_⟩
  have hslice : Splice.slice i (i + 1) l = [l[i]] := by
    rw [slice_eq_drop_take, List.drop_eq_getElem_cons hi]
    rfl
  have hrep := reported_replaced l i 1 (by omega) [e]
  rw [hslice] at hrep ⊢
  exact hrep

theorem slice_all (l : List α) : Splice.slice 0 l.length l = l := by
  rw [Splice.slice, List.drop_zero, Nat.sub_zero, List.take_length]

theorem splice_all (l c : List α) : Splice.splice 0 l.length c l = c := by
  rw [Splice.splice, Nat.zero_add, List.drop_length, List.take_zero, List.append_nil,
    List.nil_append]

theorem clear_reported (l : List α) :
    ∃ l' fired, clear l = .ok (l', fired) ∧ Reported l l' l [] fired := by
  have hvalid : (Call.nextRemoveAll 0 l.length).Valid l := (Nat.zero_add _).le
  obtain ⟨l', fired, hrun, hrep⟩ := removes_reported l 0 l.length
    (Nat.zero_add _).le [.nextRemoveAll 0 l.length] fun t ht => by
      rw [runAll_singleton, step_eq_prims (Nat.succ_ne_zero 0) hvalid]
      exact ht
  rw [Nat.zero_add, slice_all] at hrep
  exact ⟨l', fired, hrun, hrep⟩

/-- `clear()` inside the block of `setAll`. -/
theorem run_clear {x : α} {l : List α} (d : ℕ) :
    runAll step (recording (x :: l) d [])
        [.beginChange, .nextRemoveAll 0 (x :: l).length, .endChange] =
      .ok (recording [] d [replaced 0 0 (x :: l)]) := by
  have hvalid : (Call.nextRemoveAll 0 (x :: l).length).Valid (x :: l) := (Nat.zero_add _).le
  have hremoves := run_removes_first (d + 1) 0 l.length (l := x :: l) (Nat.zero_add _).le
  have hstep : step (recording (x :: l) (d + 1) []) (.nextRemoveAll 0 (x :: l).length) =
      .ok (recording [] (d + 1) [replaced 0 0 (x :: l)]) := by
    rw [step_eq_prims (Nat.succ_ne_zero _) hvalid]
    refine hremoves.trans ?_
    rw [Nat.zero_add, ← List.length_cons (a := x), List.drop_length, List.drop_zero,
      List.take_length]
    rfl
  rw [runAll_cons_ok _ (step_begin _ _ _), runAll_cons_ok _ hstep,
    runAll_cons_ok _ (step_end _ _ _)]
  rfl

/-- An inner block leaves what its calls have recorded. -/
theorem run_nested {l l' : List α} {d : ℕ} {cs cs' : List (SubChange α)} {calls : List (Call α)}
    (h : runAll step (recording l (d + 1) cs) calls = .ok (recording l' (d + 1) cs')) :
    runAll step (recording l d cs) ([.beginChange] ++ calls ++ [.endChange]) =
      .ok (recording l' d cs') := by
  rw [List.singleton_append, List.cons_append, runAll_cons_ok _ (step_begin _ _ _),
    runAll_append _ h, runAll_cons_ok _ (step_end _ _ _)]
  rfl

theorem setAll_reported (l c : List α) :
    ∃ l' fired, setAll l c = .ok (l', fired) ∧ Reported l l' l c fired := by
  cases l with
  | nil =>
      -- nothing to clear: the elements are added to an idle builder
      have hclear : runAll step (recording ([] : List α) 0 [])
          [.beginChange, .nextRemoveAll 0 ([] : List α).length, .endChange] =
          .ok (recording [] 0 []) := rfl
      cases c with
      | nil => exact ⟨[], none, rfl, reported_nothing []⟩
      | cons e c =>
          have hadd := run_addLoop_cons 1 0 e c (l := []) (Nat.zero_le _)
          refine ⟨_, _, runBlock_single ((runAll_append _ hclear).trans (run_nested hadd)), ?_⟩
          exact reported_replaced [] 0 0 (Nat.le_refl 0) (e :: c)
  | cons x l =>
      have hadd := run_addLoop 1 0 (x :: l) c 0 [] (Nat.zero_le _)
      refine ⟨_, _, runBlock_single ((runAll_append _ (run_clear 0)).trans (run_nested hadd)), ?_⟩
      have hrep := reported_replaced (x :: l) 0 (x :: l).length (Nat.zero_add _).le c
      rw [splice_all, Nat.zero_add, slice_all] at hrep
      simpa using hrep

/-- The sub-changes the loop of `removeAll` has recorded. -/
theorem told_removals {l : List α} (test : α → Bool) {cs : List (SubChange α)} {first : ℕ}
    (h : Removals cs (l.filter test) first (l.filter fun e => !test e).length) (hne : cs ≠ [])
    (hfirst : first ≤ (l.takeWhile fun e => !test e).length) :
    Told l (l.filter fun e => !test e) (l.filter test) [] (cs.map finalizeSubChange) where
  ne_nil := by simpa using hne
  shape := by
    refine Or.inr fun c hc => ?_
    obtain ⟨d, hd, rfl⟩ := List.mem_map.mp hc
    exact (h.point d hd).1
  removed_eq := by
    rw [List.flatMap_map]
    exact h.removed_eq
  added_eq := by
    rw [List.flatMap_eq_nil_iff]
    intro c hc
    obtain ⟨d, hd, rfl⟩ := List.mem_map.mp hc
    have hpoint : (finalizeSubChange d).from_ = (finalizeSubChange d).to_ := (h.point d hd).1
    rw [hpoint, slice_self]
  within := by
    intro c hc
    obtain ⟨d, hd, rfl⟩ := List.mem_map.mp hc
    exact ⟨(h.point d hd).1.le, h.le d hd⟩
  agree := by
    intro c hc
    rw [List.head?_map] at hc
    obtain ⟨d, hd, rfl⟩ := Option.map_eq_some_iff.mp hc
    have hfrom : (finalizeSubChange d).from_ = first := h.head d hd
    have hprefix : (l.takeWhile fun e => !test e) <+: l := List.takeWhile_prefix _
    have hkeep : (l.filter fun e => !test e) =
        (l.takeWhile fun e => !test e) ++
          (l.dropWhile fun e => !test e).filter fun e => !test e := by
      conv_lhs => rw [← List.takeWhile_append_dropWhile (p := fun e => !test e) (l := l)]
      rw [List.filter_append, List.filter_eq_self.mpr fun e he =>
        List.all_eq_true.mp List.all_takeWhile e he]
    rw [hfrom]
    refine ⟨hfirst.trans hprefix.length_le, ?_⟩
    rw [hkeep, List.take_append_of_le_length hfirst]
    conv_rhs => rw [← List.takeWhile_append_dropWhile (p := fun e => !test e) (l := l)]
    rw [List.take_append_of_le_length hfirst]
  kept := by
    refine ⟨l.filter fun e => !test e, ?_, ?_⟩
    · exact ((List.filter_append_perm test l).symm).trans List.perm_append_comm
    · rw [List.append_nil]

theorem removeWhere_reported (l : List α) (test : α → Bool) :
    ∃ l' fired, removeWhere l test = .ok (l', fired) ∧
      Reported l l' (l.filter test) [] fired := by
  obtain ⟨cs, first, hrun, hrem, -, hbound, hnil⟩ := run_removeLoop test l [] [] 0 []
    (removals_nil 0 0)
  rw [List.nil_append, List.length_nil] at hrun
  rw [List.nil_append, List.nil_append] at hrem
  have hfirst := hbound rfl
  rw [List.length_nil, Nat.zero_add] at hfirst
  by_cases hcs : cs = []
  · -- nothing passes the test, and nothing is fired
    have hnone := (hnil.mp hcs).2
    have hsame : (l.filter fun e => !test e) = l := by
      rw [List.filter_eq_self]
      intro e he
      have := List.filter_eq_nil_iff.mp hnone e he
      simpa using this
    refine ⟨l, none, ?_, ?_⟩
    · rw [removeWhere, runBlock, opened_eq, hrun, hcs, hsame]
      rfl
    · rw [hnone]
      exact reported_nothing l
  · refine ⟨l.filter fun e => !test e, some (cs.map finalizeSubChange), ?_,
      (fun h => by cases h), ?_⟩
    · rw [removeWhere, runBlock, opened_eq, hrun, except_ok_bind, endChange_removals hrem hcs]
      rfl
    · intro subs hsubs
      cases hsubs
      exact told_removals test hrem hcs hfirst

theorem positionIn_of {l : List α} {index : ℤ} (h : 0 ≤ index ∧ index ≤ l.length) :
    positionIn l index = .ok index.toNat := if_pos h

theorem elementAt_of {l : List α} {index : ℤ} (h : 0 ≤ index ∧ index < l.length) :
    ∃ x, elementAt l index = .ok x := by
  have hlt : index.toNat < l.length := by omega
  refine ⟨l[index.toNat], ?_⟩
  rw [elementAt, if_pos h.1, listGet, List.getElem?_eq_getElem hlt]

theorem elementAt_error {l : List α} {index : ℤ} (h : ¬ (0 ≤ index ∧ index < l.length)) :
    elementAt l index = .error .indexOutOfBounds := by
  rw [elementAt]
  by_cases hpos : 0 ≤ index
  · have hge : l.length ≤ index.toNat := by omega
    rw [if_pos hpos, listGet, List.getElem?_eq_none hge]
  · rw [if_neg hpos]

theorem removeRange_reported {l : List α} {fromIndex toIndex : ℤ}
    (h : (ListMutator.removeRange (α := α) fromIndex toIndex).InRange l) :
    ∃ l' fired, removeRange l fromIndex toIndex = .ok (l', fired) ∧
      Reported l l' (Splice.slice fromIndex.toNat toIndex.toNat l) [] fired := by
  rw [removeRange]
  by_cases hle : toIndex ≤ fromIndex
  · rw [if_pos hle]
    have hslice : Splice.slice fromIndex.toNat toIndex.toNat l = [] := by
      rw [Splice.slice, Nat.sub_eq_zero_of_le (by omega), List.take_zero]
    rw [hslice]
    exact ⟨l, none, rfl, reported_nothing l⟩
  · obtain ⟨hfrom, hto⟩ := Or.resolve_left h hle
    have hrange : rangeIn l.length fromIndex toIndex =
        .ok (fromIndex.toNat, toIndex.toNat) := by
      rw [rangeIn, if_neg (by omega), if_neg (by omega)]
    have hsum : fromIndex.toNat + (toIndex.toNat - fromIndex.toNat) = toIndex.toNat := by omega
    obtain ⟨l', fired, hrun, hrep⟩ := removes_reported l fromIndex.toNat
      (toIndex.toNat - fromIndex.toNat) (by omega) _
      fun t ht => run_removeCalls_flatten 0 _ _ rfl rfl rfl ht
    rw [hsum] at hrep
    refine ⟨l', fired, ?_, hrep⟩
    rw [if_neg hle, hrange]
    exact hrun

variable [BEq α]

/-- **What a mutator tells its listeners.** With indexes of the list it does not throw. -/
theorem mutate_reported {l : List α} {m : ListMutator α} (h : m.InRange l)
    (hm : ∀ o, m ≠ .remove o) :
    ∃ l' fired, mutate l m = .ok (l', fired) ∧ Reported l l' (m.gone l) m.come fired := by
  cases m with
  | add e =>
      obtain ⟨l', fired, hrun, hrep⟩ := add_reported (Nat.le_refl l.length) e
      refine ⟨l', fired, ?_, hrep⟩
      rw [mutate, addAt, positionIn_of ⟨Int.natCast_nonneg _, le_refl _⟩]
      exact hrun
  | addAt index e =>
      have hi : index.toNat ≤ l.length := by
        have : 0 ≤ index ∧ index ≤ l.length := h
        omega
      obtain ⟨l', fired, hrun, hrep⟩ := add_reported hi e
      refine ⟨l', fired, ?_, hrep⟩
      rw [mutate, addAt, positionIn_of h]
      exact hrun
  | addAll c =>
      obtain ⟨l', fired, hrun, hrep⟩ := addAll_reported (Nat.le_refl l.length) c
      refine ⟨l', fired, ?_, hrep⟩
      rw [mutate, addAllAt, positionIn_of ⟨Int.natCast_nonneg _, le_refl _⟩]
      exact hrun
  | addAllAt index c =>
      have hi : index.toNat ≤ l.length := by
        have : 0 ≤ index ∧ index ≤ l.length := h
        omega
      obtain ⟨l', fired, hrun, hrep⟩ := addAll_reported hi c
      refine ⟨l', fired, ?_, hrep⟩
      rw [mutate, addAllAt, positionIn_of h]
      exact hrun
  | set index e =>
      have hi : index.toNat < l.length := by
        have : 0 ≤ index ∧ index < l.length := h
        omega
      obtain ⟨x, hx⟩ := elementAt_of h
      obtain ⟨l', fired, hrun, hrep⟩ := set_reported hi e
      refine ⟨l', fired, ?_, hrep⟩
      rw [mutate, set, hx]
      exact hrun
  | setAll c => exact setAll_reported l c
  | remove o => exact absurd rfl (hm o)
  | removeAt index =>
      have hi : index.toNat < l.length := by
        have : 0 ≤ index ∧ index < l.length := h
        omega
      obtain ⟨x, hx⟩ := elementAt_of h
      obtain ⟨l', fired, hrun, hrep⟩ := removes_reported l index.toNat 1 hi _
        fun t ht => ht
      refine ⟨l', fired, ?_, hrep⟩
      rw [mutate, removeAt, hx]
      exact hrun
  | removeRange fromIndex toIndex => exact removeRange_reported h
  | removeAll contains => exact removeWhere_reported l contains
  | retainAll contains => exact removeWhere_reported l fun e => !contains e
  | clear => exact clear_reported l

/-- With other indexes it throws. -/
theorem mutate_error {l : List α} {m : ListMutator α} (h : ¬ m.InRange l) :
    mutate l m = .error .indexOutOfBounds := by
  cases m with
  | addAt index e =>
      have hpos : ¬ (0 ≤ index ∧ index ≤ l.length) := h
      rw [mutate, addAt, positionIn, if_neg hpos]
      rfl
  | addAllAt index c =>
      have hpos : ¬ (0 ≤ index ∧ index ≤ l.length) := h
      rw [mutate, addAllAt, positionIn, if_neg hpos]
      rfl
  | set index e =>
      rw [mutate, set, elementAt_error h]
      rfl
  | removeAt index =>
      rw [mutate, removeAt, elementAt_error h]
      rfl
  | removeRange fromIndex toIndex =>
      have hnot : ¬ toIndex ≤ fromIndex ∧ ¬ (0 ≤ fromIndex ∧ toIndex ≤ l.length) :=
        not_or.mp h
      rw [mutate, removeRange, if_neg hnot.1, rangeIn, if_pos (by omega)]
      rfl
  | _ => exact absurd trivial h

end ObservableListWrapper

end JavaFx.Collections
