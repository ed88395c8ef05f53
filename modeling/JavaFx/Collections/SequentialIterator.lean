import JavaFx.Collections.ListChangeBuilder
import Mathlib.Data.List.InsertIdx

/-!
# The list iterator of `ObservableSequentialListWrapper`

The iterator passes each call on to an iterator of the backing list and tells the builder what has
changed. It takes the position from `previousIndex()` and the element that goes from
`lastReturned`, which `next()` and `previous()` set. The one is right after `next()` only, the
other until `set()` puts another element there.
-/

namespace JavaFx.Collections

variable {α : Type}

/-- A `ListIterator` of the backing list, with the index of the element that it returned last, if
that may still be set or removed. -/
structure BackingIterator (α : Type) where
  list : List α
  cursor : ℕ
  lastRet : Option ℕ
  cursor_le : cursor ≤ list.length
  lastRet_lt : ∀ i ∈ lastRet, i < list.length
  lastRet_near : ∀ i ∈ lastRet, i + 1 = cursor ∨ i = cursor

namespace BackingIterator

def next (it : BackingIterator α) : Option (α × BackingIterator α) :=
  if h : it.cursor < it.list.length then
    some (it.list[it.cursor], { it with
      cursor := it.cursor + 1
      lastRet := some it.cursor
      cursor_le := h
      lastRet_lt := fun i hi => Option.mem_some_iff.mp hi ▸ h
      lastRet_near := fun i hi => Or.inl (by rw [Option.mem_some_iff.mp hi]) })
  else none

def previous (it : BackingIterator α) : Option (α × BackingIterator α) :=
  if h : 0 < it.cursor then
    have hlt : it.cursor - 1 < it.list.length := by
      have := it.cursor_le
      omega
    some (it.list[it.cursor - 1], { it with
      cursor := it.cursor - 1
      lastRet := some (it.cursor - 1)
      cursor_le := hlt.le
      lastRet_lt := fun i hi => Option.mem_some_iff.mp hi ▸ hlt
      lastRet_near := fun i hi => Or.inr (Option.mem_some_iff.mp hi).symm })
  else none

/-- `remove()`; without an element that was returned it is an `IllegalStateException`. -/
def remove (it : BackingIterator α) : Option (BackingIterator α) :=
  match h : it.lastRet with
  | none => none
  | some i => some {
      list := it.list.eraseIdx i
      cursor := if i < it.cursor then it.cursor - 1 else it.cursor
      lastRet := none
      cursor_le := by
        have hlt := it.lastRet_lt i h
        have hle := it.cursor_le
        rw [List.length_eraseIdx_of_lt hlt]
        rcases it.lastRet_near i h with hnear | hnear
        · rw [if_pos (by omega)]
          omega
        · rw [if_neg (by omega)]
          omega
      lastRet_lt := nofun
      lastRet_near := nofun }

/-- `set(e)`; without an element that was returned it is an `IllegalStateException`. -/
def set (it : BackingIterator α) (e : α) : Option (BackingIterator α) :=
  match it.lastRet with
  | none => none
  | some i => some { it with
      list := it.list.set i e
      cursor_le := by
        rw [List.length_set]
        exact it.cursor_le
      lastRet_lt := fun j hj => by
        rw [List.length_set]
        exact it.lastRet_lt j hj }

def add (it : BackingIterator α) (e : α) : BackingIterator α where
  list := it.list.insertIdx it.cursor e
  cursor := it.cursor + 1
  lastRet := none
  cursor_le := by
    rw [List.length_insertIdx_of_le_length it.cursor_le]
    exact Nat.succ_le_succ it.cursor_le
  lastRet_lt := nofun
  lastRet_near := nofun

section

variable {it it' : BackingIterator α}

theorem remove_spec (h : it.remove = some it') :
    ∃ i, it.lastRet = some i ∧ it'.list = it.list.eraseIdx i ∧ it'.lastRet = none := by
  rw [remove] at h
  split at h
  · cases h
  next i hi =>
    cases h
    exact ⟨i, hi, rfl, rfl⟩

theorem set_spec {e : α} (h : it.set e = some it') :
    ∃ i, it.lastRet = some i ∧ it'.list = it.list.set i e ∧ it'.lastRet = some i := by
  rw [set] at h
  split at h
  · cases h
  next i hi =>
    cases h
    exact ⟨i, hi, rfl, hi⟩

end

def nextIndex (it : BackingIterator α) : ℤ := it.cursor

def previousIndex (it : BackingIterator α) : ℤ := it.cursor - 1

end BackingIterator

/-- The one sub-change that an idle builder fires. A position may be `-1`. -/
structure FiredChange (α : Type) where
  from_ : ℤ
  to_ : ℤ
  removed : List α
deriving DecidableEq

namespace FiredChange

/-- `beginChange(); nextRemove(idx, removed); endChange()` -/
def nextRemove (idx : ℤ) (removed : List α) : FiredChange α := ⟨idx, idx, removed⟩

/-- `beginChange(); nextSet(idx, old); endChange()` -/
def nextSet (idx : ℤ) (old : List α) : FiredChange α := ⟨idx, idx + 1, old⟩

/-- `beginChange(); nextAdd(from, to); endChange()` -/
def nextAdd (from_ to_ : ℤ) : FiredChange α := ⟨from_, to_, []⟩

def ofSubChange (c : SubChange α) : FiredChange α := ⟨c.from_, c.to_, c.removed.getD []⟩

end FiredChange

/-- What the builder fires for a block with one call. -/
def ListChangeBuilder.firedBy (call : ListChangeBuilder α → Except Exn (ListChangeBuilder α)) :
    Except Exn (Option (List (FiredChange α))) := do
  let b ← call (beginChange {})
  let (_, fired) ← b.endChange
  return fired.map (List.map FiredChange.ofSubChange)

/-- At the positions of the list the idle builder fires just these sub-changes. -/
theorem firedBy_eq (idx : ℕ) (old : α) :
    ListChangeBuilder.firedBy (fun b => b.nextRemove idx old) =
        .ok (some [FiredChange.nextRemove idx [old]]) ∧
      ListChangeBuilder.firedBy (fun b => b.nextSet idx old) =
        .ok (some [FiredChange.nextSet idx [old]]) ∧
      ListChangeBuilder.firedBy (fun b : ListChangeBuilder α => b.nextAdd idx (idx + 1)) =
        .ok (some [FiredChange.nextAdd idx (idx + 1)]) := by
  refine ⟨rfl, ?_, rfl⟩
  have hadd : ListChangeBuilder.addChange idx (idx + 1)
      [⟨idx, idx, some [old], [], false⟩] = [⟨idx, idx + 1, some [old], [], false⟩] := by
    rw [ListChangeBuilder.addChange]
    exact if_pos rfl
  have hset : (ListChangeBuilder.beginChange {}).nextSet idx old =
      .ok { changeLock := 1, addRemoveChanges := ListChangeBuilder.addChange idx (idx + 1)
              [⟨idx, idx, some [old], [], false⟩] } := rfl
  rw [ListChangeBuilder.firedBy, hset, hadd]
  rfl

/-! ## The iterator -/

structure SequentialIterator (α : Type) where
  backingIt : BackingIterator α
  lastReturned : Option α

inductive IteratorCall (α : Type) where
  | next
  | previous
  | remove
  | set (e : α)
  | add (e : α)

/-- The calls that change the list. -/
def IteratorCall.mutates : IteratorCall α → Prop
  | next | previous => False
  | remove | set _ | add _ => True

namespace SequentialIterator

def next (it : SequentialIterator α) : Option (SequentialIterator α) :=
  it.backingIt.next.map fun (e, backingIt) => { backingIt := backingIt, lastReturned := some e }

def previous (it : SequentialIterator α) : Option (SequentialIterator α) :=
  it.backingIt.previous.map fun (e, backingIt) => { backingIt := backingIt, lastReturned := some e }

def remove (it : SequentialIterator α) : Option (SequentialIterator α × FiredChange α) :=
  let idx := it.backingIt.previousIndex
  it.backingIt.remove.map fun backingIt =>
    ({ it with backingIt := backingIt }, .nextRemove idx it.lastReturned.toList)

def set (e : α) (it : SequentialIterator α) : Option (SequentialIterator α × FiredChange α) :=
  let idx := it.backingIt.previousIndex
  (it.backingIt.set e).map fun backingIt =>
    ({ it with backingIt := backingIt }, .nextSet idx it.lastReturned.toList)

def add (e : α) (it : SequentialIterator α) : SequentialIterator α × FiredChange α :=
  let idx := it.backingIt.nextIndex
  ({ it with backingIt := it.backingIt.add e }, .nextAdd idx (idx + 1))

/-- A call, with the change that it fires; `none` if it throws. -/
def call (it : SequentialIterator α) :
    IteratorCall α → Option (SequentialIterator α × Option (FiredChange α))
  | .next => it.next.map fun it => (it, none)
  | .previous => it.previous.map fun it => (it, none)
  | .remove => it.remove.map fun (it, fired) => (it, some fired)
  | .set e => (it.set e).map fun (it, fired) => (it, some fired)
  | .add e => some ((it.add e).1, some (it.add e).2)

/-- The iterator after some calls, all of which are legal. -/
def afterCalls (it : SequentialIterator α) (calls : List (IteratorCall α)) :
    Option (SequentialIterator α) :=
  calls.foldlM (fun it c => (it.call c).map Prod.fst) it

end SequentialIterator

/-- `listIterator(index)` -/
def listIterator (l : List α) (index : ℕ) (h : index ≤ l.length) : SequentialIterator α where
  backingIt :=
    { list := l, cursor := index, lastRet := none, cursor_le := h, lastRet_lt := nofun,
      lastRet_near := nofun }
  lastReturned := none

namespace SequentialIterator

variable {s t : SequentialIterator α} {c : IteratorCall α} {fired : FiredChange α}

/-! ## Exact events -/

theorem insertIdx_eq_append {l : List α} {i : ℕ} (hi : i ≤ l.length) (e : α) :
    l.insertIdx i e = l.take i ++ ([e] ++ l.drop i) := by
  induction i generalizing l with
  | zero => rfl
  | succ i ih =>
      cases l with
      | nil => exact absurd hi (Nat.not_succ_le_zero i)
      | cons a l =>
          rw [List.insertIdx_succ_cons, ih (Nat.le_of_succ_le_succ hi)]
          rfl

/-- The change leads from one content to the other. -/
def Replays (before after : List α) (fired : FiredChange α) : Prop :=
  ∃ pre added post, before = pre ++ (fired.removed ++ post) ∧ after = pre ++ (added ++ post) ∧
    fired.from_ = pre.length ∧ fired.to_ = pre.length + added.length

/-- The index of the element that a call is about. -/
def affected (s : SequentialIterator α) : IteratorCall α → Option ℕ
  | .next => none
  | .previous => none
  | .remove => s.backingIt.lastRet
  | .set _ => s.backingIt.lastRet
  | .add _ => some s.backingIt.cursor

def Exact (s t : SequentialIterator α) (c : IteratorCall α) (fired : FiredChange α) : Prop :=
  Replays s.backingIt.list t.backingIt.list fired ∧
    (s.affected c).map (Int.ofNat) = some fired.from_

/-- The last move was `next()`, and the element is still the one that it returned. -/
def Current (s : SequentialIterator α) : Prop :=
  ∃ i ∈ s.backingIt.lastRet, i + 1 = s.backingIt.cursor ∧ s.backingIt.list[i]? = s.lastReturned

/-- An element that may be set or removed has been returned. -/
def Remembers (s : SequentialIterator α) : Prop :=
  s.backingIt.lastRet ≠ none → ∃ e, s.lastReturned = some e

theorem Remembers.call (hs : s.Remembers) {o : Option (FiredChange α)}
    (ht : s.call c = some (t, o)) : t.Remembers := by
  cases c with
  | next | previous =>
      obtain ⟨u, hu, heq⟩ := Option.map_eq_some_iff.mp ht
      obtain ⟨⟨e, it⟩, -, rfl⟩ := Option.map_eq_some_iff.mp hu
      cases heq
      exact fun _ => ⟨e, rfl⟩
  | remove =>
      obtain ⟨⟨u, f⟩, hu, heq⟩ := Option.map_eq_some_iff.mp ht
      obtain ⟨it, hit, heq'⟩ := Option.map_eq_some_iff.mp hu
      cases heq
      cases heq'
      obtain ⟨i, -, -, hnone⟩ := BackingIterator.remove_spec hit
      exact fun hsome => absurd hnone hsome
  | set e =>
      obtain ⟨⟨u, f⟩, hu, heq⟩ := Option.map_eq_some_iff.mp ht
      obtain ⟨it, hit, heq'⟩ := Option.map_eq_some_iff.mp hu
      cases heq
      cases heq'
      obtain ⟨i, hi, -⟩ := BackingIterator.set_spec hit
      exact fun _ => hs (by rw [hi]; exact Option.some_ne_none i)
  | add e =>
      cases ht
      exact fun hnone => absurd rfl hnone

theorem exact_add (e : α) : Exact s (s.add e).1 (.add e) (s.add e).2 := by
  have hle := s.backingIt.cursor_le
  have hlength : (s.backingIt.list.take s.backingIt.cursor).length = s.backingIt.cursor := by
    rw [List.length_take, min_eq_left hle]
  refine ⟨⟨s.backingIt.list.take s.backingIt.cursor, [e],
    s.backingIt.list.drop s.backingIt.cursor, ?_, ?_, ?_, ?_⟩, rfl⟩
  · exact (List.take_append_drop _ _).symm
  · exact insertIdx_eq_append hle e
  · rw [hlength]
    rfl
  · rw [hlength]
    rfl

/-- A change that names the affected index replays the content when it has the right element. -/
theorem exact_iff {i : ℕ} {x y : α} (added : List α) (hi : s.affected c = some i)
    (hx : s.backingIt.list[i]? = some x)
    (hafter : t.backingIt.list = s.backingIt.list.take i ++ (added ++ s.backingIt.list.drop (i + 1)))
    (hremoved : fired.removed = [y]) (hto : fired.to_ = fired.from_ + added.length) :
    Exact s t c fired ↔ fired.from_ = i ∧ x = y := by
  obtain ⟨hlt, hget⟩ := List.getElem?_eq_some_iff.mp hx
  have hlength : (s.backingIt.list.take i).length = i := by
    rw [List.length_take, min_eq_left (le_of_lt hlt)]
  have hbefore : s.backingIt.list =
      s.backingIt.list.take i ++ ([x] ++ s.backingIt.list.drop (i + 1)) := by
    rw [← hget, List.singleton_append, List.getElem_cons_drop, List.take_append_drop]
  constructor
  · rintro ⟨⟨pre, added', post, hpre, -, hfrom, -⟩, haffected⟩
    rw [hi, Option.map_some, Option.some_inj] at haffected
    have hpos : pre.length = i := by
      have := haffected.trans hfrom
      exact (Int.ofNat_inj.mp this).symm
    refine ⟨haffected.symm, ?_⟩
    rw [hremoved] at hpre
    rw [hpre, ← hpos, List.getElem?_append_right le_rfl, Nat.sub_self] at hx
    exact (Option.some_inj.mp hx).symm
  · rintro ⟨hfrom, rfl⟩
    refine ⟨⟨s.backingIt.list.take i, added, s.backingIt.list.drop (i + 1), ?_, hafter, ?_, ?_⟩, ?_⟩
    · rw [hremoved]
      exact hbefore
    · rw [hlength, hfrom]
    · rw [hlength, hto, hfrom]
    · rw [hi, hfrom]
      rfl

/-- `previousIndex()` is the index of the last element after `next()` only. -/
theorem current_iff {i : ℕ} {x y : α} (hi : s.backingIt.lastRet = some i)
    (hx : s.backingIt.list[i]? = some x) (hy : s.lastReturned = some y) :
    s.Current ↔ s.backingIt.previousIndex = i ∧ x = y := by
  rw [Current, hy, BackingIterator.previousIndex]
  constructor
  · rintro ⟨j, hj, hcursor, hget⟩
    rw [hi, Option.mem_some_iff] at hj
    subst hj
    rw [hx, Option.some_inj] at hget
    exact ⟨by omega, hget⟩
  · rintro ⟨hindex, rfl⟩
    exact ⟨i, hi, by omega, hx⟩

theorem exact_set_iff {e : α} (hs : s.Remembers) (ht : s.set e = some (t, fired)) :
    Exact s t (.set e) fired ↔ s.Current := by
  obtain ⟨it, hit, heq⟩ := Option.map_eq_some_iff.mp ht
  obtain ⟨i, hi, hlist, -⟩ := BackingIterator.set_spec hit
  obtain ⟨y, hy⟩ := hs (by rw [hi]; exact Option.some_ne_none i)
  have hlt := s.backingIt.lastRet_lt i hi
  have hx := List.getElem?_eq_getElem hlt
  cases heq
  rw [current_iff hi hx hy]
  refine exact_iff [e] hi hx ?_ ?_ rfl
  · change it.list = _
    rw [hlist, List.set_eq_take_append_cons_drop, if_pos hlt]
    rfl
  · change s.lastReturned.toList = [y]
    rw [hy]
    rfl

theorem exact_remove_iff (hs : s.Remembers) (ht : s.remove = some (t, fired)) :
    Exact s t .remove fired ↔ s.Current := by
  obtain ⟨it, hit, heq⟩ := Option.map_eq_some_iff.mp ht
  obtain ⟨i, hi, hlist, -⟩ := BackingIterator.remove_spec hit
  obtain ⟨y, hy⟩ := hs (by rw [hi]; exact Option.some_ne_none i)
  have hlt := s.backingIt.lastRet_lt i hi
  have hx := List.getElem?_eq_getElem hlt
  cases heq
  rw [current_iff hi hx hy]
  refine exact_iff [] hi hx ?_ ?_ ?_
  · change it.list = _
    rw [hlist, List.eraseIdx_eq_take_drop_succ]
    rfl
  · change s.lastReturned.toList = [y]
    rw [hy]
    rfl
  · exact (Int.add_zero _).symm

/-! ## Whole runs -/

/-- A call that sets or removes an element is made for the current one. -/
def Admits (s : SequentialIterator α) : IteratorCall α → Prop
  | .remove | .set _ => s.Current
  | .next | .previous | .add _ => True

/-- **One call.** A call that changes the list fires a change, which is exact if and only if the
call is made for the current element. -/
theorem fires_exact_iff (hs : s.Remembers) {o : Option (FiredChange α)}
    (ht : s.call c = some (t, o)) (hc : c.mutates) :
    (∃ fired, o = some fired ∧ Exact s t c fired) ↔ s.Admits c := by
  cases c with
  | next => exact hc.elim
  | previous => exact hc.elim
  | remove =>
      obtain ⟨⟨u, fired⟩, hu, heq⟩ := Option.map_eq_some_iff.mp ht
      cases heq
      rw [Admits, ← exact_remove_iff hs hu]
      simp
  | set e =>
      obtain ⟨⟨u, fired⟩, hu, heq⟩ := Option.map_eq_some_iff.mp ht
      cases heq
      rw [Admits, ← exact_set_iff hs hu]
      simp
  | add e =>
      cases ht
      exact iff_of_true ⟨_, rfl, exact_add e⟩ trivial

theorem Remembers.afterCalls (hs : s.Remembers) {calls : List (IteratorCall α)}
    (ht : s.afterCalls calls = some t) : t.Remembers := by
  induction calls generalizing s with
  | nil =>
      cases ht
      exact hs
  | cons c calls ih =>
      obtain ⟨u, hu, hrest⟩ := Option.bind_eq_some_iff.mp ht
      obtain ⟨⟨u', o⟩, hcall, rfl⟩ := Option.map_eq_some_iff.mp hu
      exact ih (hs.call hcall) hrest

/-- The calls before the last of a legal run are a legal run, and the last one is legal. -/
theorem afterCalls_append {done rest : List (IteratorCall α)}
    (ht : s.afterCalls (done ++ c :: rest) = some t) :
    ∃ u v o, s.afterCalls done = some u ∧ u.call c = some (v, o) := by
  rw [afterCalls, List.foldlM_append] at ht
  obtain ⟨u, hu, hrest⟩ := Option.bind_eq_some_iff.mp ht
  obtain ⟨v, hv, -⟩ := Option.bind_eq_some_iff.mp hrest
  obtain ⟨⟨v', o⟩, hcall, rfl⟩ := Option.map_eq_some_iff.mp hv
  exact ⟨u, v', o, hu, hcall⟩

/-- **Iterator events.** Over a legal sequence of calls every call that changes the list fires the
exact change, if and only if each call of `set` and `remove` comes when the last move was `next()`
and the element is still the one that `next()` returned. -/
theorem iterator_events_exact_iff (l : List α) (index : ℕ) (hindex : index ≤ l.length)
    (calls : List (IteratorCall α))
    (hlegal : ∃ s, (listIterator l index hindex).afterCalls calls = some s) :
    (∀ done c rest, calls = done ++ c :: rest → c.mutates →
        ∀ s t o, (listIterator l index hindex).afterCalls done = some s → s.call c = some (t, o) →
          ∃ fired, o = some fired ∧ Exact s t c fired) ↔
      ∀ done c rest, calls = done ++ c :: rest →
        ∀ s, (listIterator l index hindex).afterCalls done = some s → s.Admits c := by
  have hstart : (listIterator l index hindex).Remembers := fun hsome => absurd rfl hsome
  constructor
  · intro h done c rest heq s hs
    obtain ⟨final, hfinal⟩ := hlegal
    obtain ⟨u, v, o, hu, hcall⟩ := afterCalls_append (heq ▸ hfinal)
    obtain rfl := Option.some_inj.mp (hu.symm.trans hs)
    have hmutates : c.mutates → u.Admits c := fun hc =>
      (fires_exact_iff (hstart.afterCalls hu) hcall hc).mp (h done c rest heq hc u v o hu hcall)
    cases c with
    | next => trivial
    | previous => trivial
    | remove => exact hmutates trivial
    | set e => exact hmutates trivial
    | add e => trivial
  · intro h done c rest heq hc s t o hs hcall
    exact (fires_exact_iff (hstart.afterCalls hs) hcall hc).mpr (h done c rest heq s hs)

/-- Each call of `set` and `remove`, one after the other. -/
def AdmitsAll (s : SequentialIterator α) : List (IteratorCall α) → Prop
  | [] => True
  | c :: calls => s.Admits c ∧ ∀ t ∈ s.call c, t.1.AdmitsAll calls

theorem AdmitsAll.admits {calls : List (IteratorCall α)} (h : s.AdmitsAll calls)
    {done rest : List (IteratorCall α)} (heq : calls = done ++ c :: rest)
    (ht : s.afterCalls done = some t) : t.Admits c := by
  induction done generalizing s calls with
  | nil =>
      cases ht
      rw [heq] at h
      exact h.1
  | cons first done ih =>
      rw [heq] at h
      obtain ⟨u, hu, hrest⟩ := Option.bind_eq_some_iff.mp ht
      obtain ⟨r, hcall, rfl⟩ := Option.map_eq_some_iff.mp hu
      exact ih (h.2 r hcall) rfl hrest

/-- `next()`, `set(7)`, `add(8)`, `next()`, `remove()` on a list of two. -/
def ordinaryCalls : List (IteratorCall ℕ) := [.next, .set 7, .add 8, .next, .remove]

theorem ordinary_events_exact :
    ((listIterator [1, 2] 0 (by decide)).afterCalls ordinaryCalls).map
        (fun s => s.backingIt.list) = some [7, 8] ∧
      ∀ done c rest, ordinaryCalls = done ++ c :: rest → c.mutates →
        ∀ s t o, (listIterator [1, 2] 0 (by decide)).afterCalls done = some s →
          s.call c = some (t, o) → ∃ fired, o = some fired ∧ Exact s t c fired := by
  refine ⟨rfl, (iterator_events_exact_iff [1, 2] 0 (by decide) ordinaryCalls ⟨_, rfl⟩).mpr
    fun done c rest heq s hs => AdmitsAll.admits ?_ heq hs⟩
  refine ⟨trivial, fun t₁ h₁ => ?_⟩
  obtain rfl := Option.some_inj.mp h₁
  refine ⟨⟨0, rfl, rfl, rfl⟩, fun t₂ h₂ => ?_⟩
  obtain rfl := Option.some_inj.mp h₂
  refine ⟨trivial, fun t₃ h₃ => ?_⟩
  obtain rfl := Option.some_inj.mp h₃
  refine ⟨trivial, fun t₄ h₄ => ?_⟩
  obtain rfl := Option.some_inj.mp h₄
  exact ⟨⟨2, rfl, rfl, rfl⟩, fun _ _ => trivial⟩

/-- After `previous()` the element before is named. -/
theorem set_after_previous :
    (((listIterator [1, 2] 2 (by decide)).previous).bind fun s => s.set 7).map
        (fun r => (r.1.backingIt.list, r.2)) =
      some ([1, 7], { from_ := 0, to_ := 1, removed := [2] }) := rfl

end SequentialIterator

end JavaFx.Collections
