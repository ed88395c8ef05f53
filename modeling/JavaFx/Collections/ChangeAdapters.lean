import JavaFx.Collections.Change

/-!
# Adapters of a `Change`

`SourceAdapterChange`, `MappingChange` and `ListExpressionHelper.MappedChange`
present a change of one list as a change of another one. All three share the
cursor of the change they wrap. They differ in what they override:
`MappingChange` overrides everything that matters, the other two leave
`wasUpdated` to the base class, which answers `false`, and `MappedChange` keeps
the first permutation array it computes.
-/

namespace JavaFx.Collections

variable {α β : Type}

/-! ## The adapters -/

namespace SourceAdapterChange

def ask (change : IterableChange α) : Accessor → Except Exn (Answer α)
  | .getFrom => change.getFrom.map .int
  | .getTo => change.getTo.map .int
  | .getRemoved => change.getRemoved.map .list
  | .wasPermutated => change.wasPermutated.map .bool
  | .getPermutation i => (change.getPermutationAt i).map .int
  | .wasUpdated => .ok (.bool false)
  | .wasAdded => (Change.wasAdded change.wasPermutated (.ok false) change.getFrom
      change.getTo).map .bool
  | .wasRemoved => (Change.wasRemoved change.getRemoved).map .bool

end SourceAdapterChange

namespace MappingChange

/-- The view returned by `getRemoved()`, read when it is asked for. -/
def getRemoved (map : α → β) (original : IterableChange α) :
    Except Exn (List β) := do
  let removed ← original.getRemoved
  return removed.map map

def ask (map : α → β) (original : IterableChange α) :
    Accessor → Except Exn (Answer β)
  | .getFrom => original.getFrom.map .int
  | .getTo => original.getTo.map .int
  | .getRemoved => (getRemoved map original).map .list
  | .wasPermutated => original.wasPermutated.map .bool
  | .getPermutation i => (original.getPermutationAt i).map .int
  | .wasUpdated => original.wasUpdated.map .bool
  | .wasAdded => (Change.wasAdded original.wasPermutated original.wasUpdated
      original.getFrom original.getTo).map .bool
  | .wasRemoved => (Change.wasRemoved (getRemoved map original)).map .bool

end MappingChange

/-- `ListExpressionHelper.MappedChange`; `perm` is the cached array. -/
structure MappedChange (α : Type) where
  source : IterableChange α
  perm : Option (List ℕ) := none

namespace MappedChange

/-- The array `getPermutation()` returns. -/
def getPermutation (m : MappedChange α) : Except Exn (List ℕ) :=
  match m.perm with
  | some perm => .ok perm
  | none => do
      if ← m.source.wasPermutated then
        let from_ ← m.source.getFrom
        let to_ ← m.source.getTo
        (List.range (to_ - from_)).mapM fun (i : ℕ) =>
          m.source.getPermutationAt ((from_ : ℤ) + i)
      else return []

def wasPermutated (m : MappedChange α) : Except Exn Bool :=
  Change.wasPermutated m.getPermutation

def ask (m : MappedChange α) : Accessor → Except Exn (Answer α)
  | .getFrom => m.source.getFrom.map .int
  | .getTo => m.source.getTo.map .int
  | .getRemoved => m.source.getRemoved.map .list
  | .wasPermutated => m.wasPermutated.map .bool
  | .getPermutation i => (Change.getPermutationAt m.wasPermutated
      m.getPermutation m.source.getFrom i).map .int
  | .wasUpdated => .ok (.bool false)
  | .wasAdded => (Change.wasAdded m.wasPermutated (.ok false) m.source.getFrom
      m.source.getTo).map .bool
  | .wasRemoved => (Change.wasRemoved m.source.getRemoved).map .bool

/-- `getPermutation()` stores the array it has computed. -/
def cache (m : MappedChange α) : MappedChange α :=
  match m.getPermutation with
  | .ok perm => { m with perm := some perm }
  | .error _ => m

/-- The accessors that call `getPermutation()` leave its array behind. -/
def handle (m : MappedChange α) : ChangeEvent → MappedChange α
  | .next => { m with source := m.source.next }
  | .reset => { m with source := m.source.reset }
  | .ask .wasPermutated => m.cache
  | .ask (.getPermutation _) => m.cache
  | .ask .wasAdded => m.cache
  | .ask _ => m

def after (m : MappedChange α) (history : List ChangeEvent) : MappedChange α :=
  history.foldl handle m

end MappedChange

/-! ## Answers on a sub-change -/

section OnSubChange

variable {c : IterableChange α} {s : SubChange α}

theorem wasPermutated_of_current (h : c.current = .ok s) :
    c.wasPermutated = .ok (s.perm.length != 0) := by
  unfold IterableChange.wasPermutated IterableChange.getPermutation
    Change.wasPermutated
  rw [h]
  rfl

theorem getPermutationAt_of_current (h : c.current = .ok s) (i : ℤ) :
    c.getPermutationAt i =
      if s.perm.length != 0 then arrayGet s.perm (i - s.from_)
      else .error (.illegalState "Not a permutation change") := by
  unfold IterableChange.getPermutationAt Change.getPermutationAt
  rw [wasPermutated_of_current h, except_ok_bind]
  unfold IterableChange.getPermutation IterableChange.getFrom
  rw [h]
  rfl

theorem wellFormed_of_current (h : c.current = .ok s) : s.WellFormed :=
  c.wellFormed s (IterableChange.current_mem h)

/-- Without a cached array the adapter copies the one of the sub-change. -/
theorem getPermutation_fresh {m : MappedChange α} (hm : m.perm = none)
    (h : m.source.current = .ok s) : m.getPermutation = .ok s.perm := by
  unfold MappedChange.getPermutation
  rw [hm]
  simp only [wasPermutated_of_current h, except_ok_bind]
  by_cases hperm : s.perm.length = 0
  · rw [if_neg (by simpa using hperm), List.eq_nil_of_length_eq_zero hperm]
    rfl
  · rw [if_pos (by simpa using hperm)]
    have hlen : s.to_ - s.from_ = s.perm.length := by
      rcases (wellFormed_of_current h).2 with hnil | hlen
      · rw [hnil] at hperm
        exact absurd rfl hperm
      · exact hlen.symm
    have hfrom : m.source.getFrom = .ok s.from_ := by
      unfold IterableChange.getFrom
      rw [h]
      rfl
    have hto : m.source.getTo = .ok s.to_ := by
      unfold IterableChange.getTo
      rw [h]
      rfl
    rw [hfrom, except_ok_bind, hto, except_ok_bind, hlen]
    have hcopy : (List.range s.perm.length).mapM (fun (i : ℕ) =>
        m.source.getPermutationAt ((s.from_ : ℤ) + i)) =
          (.ok ((List.range s.perm.length).map fun i => s.perm.getD i 0) :
            Except Exn (List ℕ)) := by
      refine mapM_eq_ok fun i hi => ?_
      have hi' := List.mem_range.mp hi
      rw [getPermutationAt_of_current h, if_pos (by simpa using hperm),
        add_sub_cancel_left, arrayGet_of_lt hi']
      simp [hi']
    rw [hcopy]
    congr 1
    apply List.ext_getElem
    · simp
    · intro k h₁ h₂
      simp [h₂]

end OnSubChange

/-! ## Which changes the adapters present faithfully -/

/-- After every history of calls that leaves the cursor on a sub-change, all
three adapters answer every accessor as the change itself does. -/
def Transparent (c : IterableChange α) : Prop :=
  ∀ (history : List ChangeEvent) (a : Accessor),
    (c.after history).cursor.isSome = true →
    SourceAdapterChange.ask (c.after history) a = (c.after history).ask a ∧
    MappingChange.ask id (c.after history) a = (c.after history).ask a ∧
    (MappedChange.after { source := c } history).ask a = (c.after history).ask a

theorem MappingChange.ask_id (c : IterableChange α) (a : Accessor) :
    MappingChange.ask id c a = c.ask a := by
  have hremoved : MappingChange.getRemoved id c = c.getRemoved := by
    unfold MappingChange.getRemoved
    cases c.getRemoved with
    | error e => rfl
    | ok removed =>
        rw [except_ok_bind, List.map_id]
        rfl
  cases a with
  | getRemoved | wasRemoved =>
      unfold MappingChange.ask
      rw [hremoved]
      rfl
  | getFrom => rfl
  | getTo => rfl
  | wasPermutated => rfl
  | getPermutation i => rfl
  | wasUpdated => rfl
  | wasAdded => rfl

theorem SourceAdapterChange.ask_eq {c : IterableChange α} {s : SubChange α}
    (h : c.current = .ok s) (hu : s.updated = false) (a : Accessor) :
    SourceAdapterChange.ask c a = c.ask a := by
  have hupdated : c.wasUpdated = .ok false := by
    unfold IterableChange.wasUpdated
    rw [h, except_ok_bind, hu]
    rfl
  cases a with
  | wasUpdated =>
      show _ = c.wasUpdated.map Answer.bool
      rw [hupdated]
      rfl
  | wasAdded =>
      show _ = (Change.wasAdded c.wasPermutated c.wasUpdated c.getFrom
        c.getTo).map Answer.bool
      rw [hupdated]
      rfl
  | getFrom => rfl
  | getTo => rfl
  | getRemoved => rfl
  | wasPermutated => rfl
  | getPermutation i => rfl
  | wasRemoved => rfl

theorem MappedChange.ask_eq {m : MappedChange α} {s : SubChange α}
    (h : m.source.current = .ok s) (hp : m.getPermutation = .ok s.perm)
    (hu : s.updated = false) (a : Accessor) : m.ask a = m.source.ask a := by
  have hperm : m.source.getPermutation = .ok s.perm := by
    unfold IterableChange.getPermutation
    rw [h]
    rfl
  have hwas : m.wasPermutated = m.source.wasPermutated := by
    unfold MappedChange.wasPermutated IterableChange.wasPermutated
    rw [hp, hperm]
  rw [← SourceAdapterChange.ask_eq h hu a]
  cases a with
  | wasPermutated =>
      show m.wasPermutated.map Answer.bool = m.source.wasPermutated.map Answer.bool
      rw [hwas]
  | getPermutation i =>
      show (Change.getPermutationAt m.wasPermutated m.getPermutation
        m.source.getFrom i).map Answer.int =
          (m.source.getPermutationAt i).map Answer.int
      unfold IterableChange.getPermutationAt
      rw [hwas, hp, hperm]
  | wasAdded =>
      show (Change.wasAdded m.wasPermutated (.ok false) m.source.getFrom
        m.source.getTo).map Answer.bool =
          (Change.wasAdded m.source.wasPermutated (.ok false) m.source.getFrom
            m.source.getTo).map Answer.bool
      rw [hwas]
  | getFrom => rfl
  | getTo => rfl
  | getRemoved => rfl
  | wasUpdated => rfl
  | wasRemoved => rfl

namespace MappedChange

/-- What a history keeps: the adapter follows the cursor of the change, and a
cached array is the one of some sub-change. -/
structure Follows (c : IterableChange α) (history : List ChangeEvent)
    (m : MappedChange α) : Prop where
  source : m.source = c.after history
  cached : ∀ perm, m.perm = some perm → ∃ s ∈ c.changes, perm = s.perm

theorem cache_cached {m : MappedChange α}
    (h : ∀ perm, m.perm = some perm → ∃ s ∈ m.source.changes, perm = s.perm) :
    ∀ perm, m.cache.perm = some perm → ∃ s ∈ m.source.changes, perm = s.perm := by
  intro perm hperm
  unfold cache at hperm
  cases hget : m.getPermutation with
  | error e =>
      rw [hget] at hperm
      exact h perm hperm
  | ok p =>
      rw [hget] at hperm
      cases hperm
      cases hm : m.perm with
      | some q =>
          unfold getPermutation at hget
          rw [hm] at hget
          cases hget
          exact h _ hm
      | none =>
          cases hcur : m.source.current with
          | ok s =>
              rw [getPermutation_fresh hm hcur] at hget
              cases hget
              exact ⟨s, IterableChange.current_mem hcur, rfl⟩
          | error e =>
              -- off a sub-change the accessor throws and stores nothing
              unfold getPermutation IterableChange.wasPermutated
                IterableChange.getPermutation Change.wasPermutated at hget
              rw [hm, hcur] at hget
              cases hget

theorem cache_source (m : MappedChange α) : m.cache.source = m.source := by
  unfold cache
  cases m.getPermutation <;> rfl

theorem follows_after (c : IterableChange α) (history : List ChangeEvent) :
    Follows c history (after { source := c } history) := by
  induction history using List.reverseRecOn with
  | nil => exact ⟨rfl, fun _ h => by cases h⟩
  | append_singleton history e ih =>
      have hm : after ({ source := c } : MappedChange α) (history ++ [e]) =
          (after { source := c } history).handle e := by
        unfold after
        rw [List.foldl_append]
        rfl
      have hc : c.after (history ++ [e]) = (c.after history).handle e := by
        unfold IterableChange.after
        rw [List.foldl_append]
        rfl
      rw [hm]
      generalize after ({ source := c } : MappedChange α) history = m at ih
      have hcached : ∀ perm, m.cache.perm = some perm →
          ∃ s ∈ c.changes, perm = s.perm := by
        have hch : m.source.changes = c.changes := by rw [ih.source]; simp
        have := cache_cached (m := m) (by rw [hch]; exact ih.cached)
        rwa [hch] at this
      have hask : ∀ a, (c.after history).handle (.ask a) = c.after history :=
        fun _ => rfl
      cases e with
      | next | reset => exact ⟨by rw [hc, ← ih.source]; rfl, ih.cached⟩
      | ask a =>
          have hkeep : Follows c (history ++ [.ask a]) m :=
            ⟨by rw [hc, hask, ih.source], ih.cached⟩
          have hstore : Follows c (history ++ [.ask a]) m.cache :=
            ⟨by rw [cache_source, hc, hask, ih.source], hcached⟩
          cases a with
          | wasPermutated => exact hstore
          | getPermutation i => exact hstore
          | wasAdded => exact hstore
          | getFrom => exact hkeep
          | getTo => exact hkeep
          | getRemoved => exact hkeep
          | wasUpdated => exact hkeep
          | wasRemoved => exact hkeep

end MappedChange

theorem current_of_isSome {c : IterableChange α} (h : c.cursor.isSome = true) :
    ∃ s, c.current = .ok s := by
  obtain ⟨i, hi⟩ := Option.isSome_iff_exists.mp h
  exact ⟨_, IterableChange.current_of_cursor hi (c.cursor_lt i hi)⟩

theorem MappedChange.perm_after_goTo (m : MappedChange α) (i : ℕ) :
    (m.after (IterableChange.goTo i)).perm = m.perm := by
  have hsteps : ∀ (n : ℕ) (m : MappedChange α),
      (m.after (List.replicate n .next)).perm = m.perm := by
    intro n
    induction n with
    | zero => intro m; rfl
    | succ n ih => intro m; exact ih (m.handle .next)
  exact hsteps (i + 1) (m.handle .reset)

/-- Asking on the sub-change `i` and going on to `j` takes the array of `i`
along. -/
theorem MappedChange.stale_permutation (c : IterableChange α) {i j : ℕ}
    (hi : i < c.changes.length) :
    (MappedChange.after { source := c } (IterableChange.goTo i ++
      .ask .wasPermutated :: IterableChange.goTo j)).getPermutation =
        .ok c.changes[i].perm := by
  have hsplit : MappedChange.after { source := c } (IterableChange.goTo i ++
      .ask .wasPermutated :: IterableChange.goTo j) =
        ((MappedChange.after { source := c }
          (IterableChange.goTo i)).cache).after (IterableChange.goTo j) := by
    unfold MappedChange.after
    rw [List.foldl_append]
    rfl
  have hf := MappedChange.follows_after c (IterableChange.goTo i)
  have hcur : (MappedChange.after { source := c }
      (IterableChange.goTo i)).source.current = .ok c.changes[i] := by
    rw [hf.source, IterableChange.current_of_cursor (c.after_goTo hi)
      (by simpa using hi)]
    simp
  have hfresh := getPermutation_fresh
    (MappedChange.perm_after_goTo { source := c } i) hcur
  have hcache : (MappedChange.after { source := c }
      (IterableChange.goTo i)).cache.perm = some c.changes[i].perm := by
    unfold MappedChange.cache
    rw [hfresh]
  rw [hsplit]
  unfold MappedChange.getPermutation
  rw [MappedChange.perm_after_goTo, hcache]

/-- The answers after the cached array of `s` was taken to the sub-change `t`
determine that array. -/
theorem perm_eq_of_answers {s t : List ℕ} (from_ : ℕ)
    (hwas : (s.length != 0) = (t.length != 0))
    (hget : ∀ i : ℤ,
      (if s.length != 0 then arrayGet s (i - from_)
        else .error (.illegalState "Not a permutation change")) =
      (if t.length != 0 then arrayGet t (i - from_)
        else .error (.illegalState "Not a permutation change"))) : s = t := by
  by_cases hs : s.length = 0
  · have ht : t.length = 0 := by simpa [hs] using hwas
    rw [List.eq_nil_of_length_eq_zero hs, List.eq_nil_of_length_eq_zero ht]
  · have ht : t.length ≠ 0 := by
      intro ht
      simp [ht] at hwas
      exact hs (by rw [hwas]; rfl)
    apply List.ext_getElem?
    intro k
    have hk := hget ((from_ : ℤ) + k)
    rw [if_pos (by simpa using hs), if_pos (by simpa using ht),
      add_sub_cancel_left] at hk
    unfold arrayGet at hk
    rw [if_pos (Int.natCast_nonneg k), if_pos (Int.natCast_nonneg k),
      Int.toNat_natCast] at hk
    cases hsk : s[k]? with
    | none =>
        rw [hsk] at hk
        cases htk : t[k]? with
        | none => rfl
        | some y => rw [htk] at hk; cases hk
    | some x =>
        rw [hsk] at hk
        cases htk : t[k]? with
        | none => rw [htk] at hk; cases hk
        | some y => rw [htk] at hk; cases hk; rfl

/-- **Transparency.** The adapters present a change faithfully if and only if it
has no update among its sub-changes and all its sub-changes have the same
permutation array. -/
theorem transparent_iff (c : IterableChange α) :
    Transparent c ↔ (∀ s ∈ c.changes, s.updated = false) ∧
      ∀ s ∈ c.changes, ∀ t ∈ c.changes, s.perm = t.perm := by
  constructor
  · intro h
    constructor
    · intro s hs
      obtain ⟨i, hi, rfl⟩ := List.mem_iff_getElem.mp hs
      have hcur := c.after_goTo hi
      have hget := IterableChange.current_of_cursor hcur (by simpa using hi)
      have := (h (IterableChange.goTo i) .wasUpdated (by rw [hcur]; rfl)).1
      unfold SourceAdapterChange.ask IterableChange.ask
        IterableChange.wasUpdated at this
      rw [hget] at this
      simp only [IterableChange.after_changes] at this
      injection this with this
      injection this with this
      exact this.symm
    · intro s hs t ht
      obtain ⟨i, hi, rfl⟩ := List.mem_iff_getElem.mp hs
      obtain ⟨j, hj, rfl⟩ := List.mem_iff_getElem.mp ht
      let history := IterableChange.goTo i ++
        .ask .wasPermutated :: IterableChange.goTo j
      have hafter : c.after history =
          (c.after (IterableChange.goTo i)).after (IterableChange.goTo j) := by
        show IterableChange.after c (_ ++ _) = _
        unfold IterableChange.after
        rw [List.foldl_append]
        rfl
      have hcur : (c.after history).cursor = some j := by
        rw [hafter]
        exact IterableChange.after_goTo _ (by simpa using hj)
      have hget : (c.after history).current = .ok c.changes[j] := by
        rw [IterableChange.current_of_cursor hcur (by simpa using hj)]
        simp
      have hstale : (MappedChange.after { source := c } history).getPermutation =
          .ok c.changes[i].perm := MappedChange.stale_permutation c hi
      have hsource := (MappedChange.follows_after c history).source
      have hwas : (MappedChange.after { source := c } history).wasPermutated =
          .ok (c.changes[i].perm.length != 0) := by
        unfold MappedChange.wasPermutated Change.wasPermutated
        rw [hstale]
        rfl
      have hall := fun a => (h history a (by rw [hcur]; rfl)).2.2
      refine perm_eq_of_answers c.changes[j].from_ ?_ fun k => ?_
      · have := hall .wasPermutated
        unfold MappedChange.ask IterableChange.ask at this
        rw [hwas, wasPermutated_of_current hget] at this
        injection this with this
        injection this
      · have : (Change.getPermutationAt
            (MappedChange.after { source := c } history).wasPermutated
            (MappedChange.after { source := c } history).getPermutation
            (MappedChange.after { source := c } history).source.getFrom k).map
              Answer.int = ((c.after history).getPermutationAt k).map Answer.int :=
          hall (.getPermutation k)
        unfold Change.getPermutationAt at this
        rw [hwas, hstale, hsource, getPermutationAt_of_current hget] at this
        have hfrom : (c.after history).getFrom = .ok c.changes[j].from_ := by
          unfold IterableChange.getFrom
          rw [hget]
          rfl
        rw [hfrom] at this
        simp only [except_ok_bind] at this
        exact except_map_injective (fun _ _ h => by injection h) this
  · rintro ⟨hupd, hperm⟩ history a hcur
    obtain ⟨s, hs⟩ := current_of_isSome hcur
    have hmem : s ∈ c.changes := by
      have := IterableChange.current_mem hs
      rwa [IterableChange.after_changes] at this
    have hf := MappedChange.follows_after c history
    refine ⟨SourceAdapterChange.ask_eq hs (hupd s hmem) a,
      MappingChange.ask_id _ a, ?_⟩
    rw [← hf.source]
    have hs' := hs
    rw [← hf.source] at hs'
    refine MappedChange.ask_eq hs' ?_ (hupd s hmem) a
    cases hm : (MappedChange.after { source := c } history).perm with
    | none => exact getPermutation_fresh hm hs'
    | some p =>
        obtain ⟨t, ht, rfl⟩ := hf.cached p hm
        unfold MappedChange.getPermutation
        rw [hm, hperm t ht s hmem]

/-- The change of a list whose only element was updated. -/
def updateOfFirst : IterableChange ℕ where
  changes := [⟨0, 1, some [], [], true⟩]
  cursor := none
  wellFormed := by decide
  cursor_lt := fun _ h => by cases h

/-- An update reaches the listeners of an adapter as an addition. -/
theorem update_reported_as_addition :
    ¬ Transparent updateOfFirst ∧
    SourceAdapterChange.ask updateOfFirst.next .wasUpdated = .ok (.bool false) ∧
    SourceAdapterChange.ask updateOfFirst.next .wasAdded = .ok (.bool true) ∧
    updateOfFirst.next.ask .wasUpdated = .ok (.bool true) ∧
    updateOfFirst.next.ask .wasAdded = .ok (.bool false) := by
  refine ⟨?_, rfl, rfl, rfl, rfl⟩
  intro h
  have hask := (h [.next] .wasUpdated rfl).1
  cases hask

end JavaFx.Collections
