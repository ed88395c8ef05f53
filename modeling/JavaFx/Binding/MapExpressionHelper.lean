import JavaFx.Lib.MapDiff
import Mathlib.Data.List.Basic

/-!
# `MapExpressionHelper`

When the value of the observable is another map, the listeners of its content are told of the
difference. A pass over the entries of the old map tells what is removed or replaced, a pass over
those of the new one what is added. Both passes write into one change object, which is handed to
each listener in turn, so an event is what the object holds when the listener is called.

A map has an identity, and a value for each of its keys, which may be `null`. A listener is known
by its slot in the array.
-/

set_option linter.unusedSectionVars false

namespace JavaFx.Binding

variable {K V : Type} [DecidableEq K] [DecidableEq V]

/-- An `ObservableMap`, with its entries in the order of iteration. -/
structure MapValue (K V : Type) where
  identity : ℕ
  entries : List (K × Option V)
  nodup : (entries.map Prod.fst).Nodup

namespace MapValue

/-- What is at a key, if the map has it. -/
def entryAt (m : MapValue K V) (key : K) : Option (Option V) :=
  (m.entries.find? fun e => e.1 = key).map Prod.snd

def containsKey (m : MapValue K V) (key : K) : Bool := (m.entryAt key).isSome

def get (m : MapValue K V) (key : K) : Option V := (m.entryAt key).join

end MapValue

/-- The reference of a value: `!=` of maps compares references. -/
def reference (value : Option (MapValue K V)) : Option ℕ := value.map MapValue.identity

/-- The change object. Each of the setters overwrites every field. -/
structure SimpleChange (K V : Type) where
  key : K
  old : Option V
  added : Option V
  removeOp : Bool
  addOp : Bool
deriving DecidableEq

namespace SimpleChange

def setRemoved (key : K) (old : Option V) : SimpleChange K V :=
  { key := key, old := old, added := none, addOp := false, removeOp := true }

def setAdded (key : K) (added : Option V) : SimpleChange K V :=
  { key := key, old := none, added := added, addOp := true, removeOp := false }

def setPut (key : K) (old added : Option V) : SimpleChange K V :=
  { key := key, old := old, added := added, addOp := true, removeOp := true }

end SimpleChange

/-- A call of a listener, with what it can read of the change at the time. -/
inductive MapNotification (K V : Type) where
  | invalidated (slot : ℕ)
  | changed (slot : ℕ) (oldValue newValue : Option (MapValue K V))
  | onChanged (slot : ℕ) (change : SimpleChange K V)

structure MapGeneric (K V : Type) where
  invalidationSize : ℕ := 0
  changeSize : ℕ := 0
  mapChangeSize : ℕ := 0
  currentValue : Option (MapValue K V) := none

/-- A notification: the calls so far, and whether a `NullPointerException` has ended it. -/
structure MapRound (K V : Type) where
  calls : List (MapNotification K V) := []
  thrown : Bool := false

namespace MapRound

/-- The loop over the map change listeners. -/
def send (listeners : ℕ) (change : SimpleChange K V) (r : MapRound K V) : MapRound K V :=
  { r with calls := r.calls ++ (List.range listeners).map (.onChanged · change) }

/-- `oldEntry == null ? newEntry != null : !newEntry.equals(oldEntry)`; `none` when it throws. -/
def differs : Option V → Option V → Option Bool
  | none, newEntry => some (newEntry ≠ none)
  | some oldEntry, some newEntry => some (newEntry ≠ oldEntry)
  | some _, none => none

/-- The first pass at an entry of the old map. -/
def visitOld (listeners : ℕ) (currentValue : MapValue K V) (r : MapRound K V)
    (element : K × Option V) : MapRound K V :=
  if r.thrown then r
  else
    let (key, oldEntry) := element
    if currentValue.containsKey key then
      let newEntry := currentValue.get key
      match differs oldEntry newEntry with
      | none => { r with thrown := true }
      | some true => r.send listeners (.setPut key oldEntry newEntry)
      | some false => r
    else r.send listeners (.setRemoved key oldEntry)

/-- The second pass at an entry of the new map. -/
def visitNew (listeners : ℕ) (oldValue : MapValue K V) (r : MapRound K V)
    (element : K × Option V) : MapRound K V :=
  if r.thrown then r
  else
    let (key, value) := element
    if !oldValue.containsKey key then
      r.send listeners (.setAdded key value)
    else r

def sendRemoved (listeners : ℕ) (r : MapRound K V) (element : K × Option V) : MapRound K V :=
  r.send listeners (.setRemoved element.1 element.2)

def sendAdded (listeners : ℕ) (r : MapRound K V) (element : K × Option V) : MapRound K V :=
  r.send listeners (.setAdded element.1 element.2)

/-- The difference of the old value and the current one. -/
def sendDifference (listeners : ℕ) (oldValue currentValue : Option (MapValue K V))
    (r : MapRound K V) : MapRound K V :=
  match oldValue, currentValue with
  | some oldValue, none => oldValue.entries.foldl (sendRemoved listeners) r
  | none, some currentValue => currentValue.entries.foldl (sendAdded listeners) r
  | some oldValue, some currentValue =>
    currentValue.entries.foldl (visitNew listeners oldValue)
      (oldValue.entries.foldl (visitOld listeners currentValue) r)
  | none, none => { r with thrown := true }

end MapRound

namespace MapGeneric

def notifyListeners (g : MapGeneric K V) (oldValue : Option (MapValue K V))
    (change : Option (SimpleChange K V)) : MapRound K V :=
  let r : MapRound K V := { calls := (List.range g.invalidationSize).map .invalidated }
  if reference g.currentValue ≠ reference oldValue ∨ change ≠ none then
    let r := { r with calls := r.calls ++
      (List.range g.changeSize).map (.changed · oldValue g.currentValue) }
    if 0 < g.mapChangeSize then
      match change with
      | some change => r.send g.mapChangeSize change
      | none => r.sendDifference g.mapChangeSize oldValue g.currentValue
    else r
  else r

/-- `fireValueChangedEvent()`, when `observable.getValue()` is `value`. -/
def fireValueChangedEvent (g : MapGeneric K V) (value : Option (MapValue K V)) :
    MapGeneric K V × MapRound K V :=
  if g.changeSize = 0 ∧ g.mapChangeSize = 0 then (g, g.notifyListeners g.currentValue none)
  else
    let oldValue := g.currentValue
    let g := { g with currentValue := value }
    (g, g.notifyListeners oldValue none)

/-- `fireValueChangedEvent(change)` -/
def fireChange (g : MapGeneric K V) (change : SimpleChange K V) : MapRound K V :=
  let mappedChange := if g.mapChangeSize = 0 then none else some change
  g.notifyListeners g.currentValue mappedChange

end MapGeneric

/-! ## What a listener is told -/

namespace MapRound

/-- The changes that a map change listener is handed. -/
def received (slot : ℕ) (r : MapRound K V) : List (SimpleChange K V) :=
  r.calls.filterMap fun call => match call with
    | .onChanged s change => if s = slot then some change else none
    | _ => none

variable {r : MapRound K V} {listeners slot : ℕ} {old new : MapValue K V}

theorem filterMap_range_eq {α : Type} (a : α) (h : slot < listeners) :
    (List.range listeners).filterMap (fun s => if s = slot then some a else none) = [a] := by
  induction listeners with
  | zero => exact absurd h (Nat.not_lt_zero _)
  | succ n ih =>
      rw [List.range_succ, List.filterMap_append]
      by_cases hslot : slot = n
      · have hnil : (List.range n).filterMap (fun s => if s = slot then some a else none) = [] := by
          rw [List.filterMap_eq_nil_iff]
          intro s hs
          rw [if_neg (by rw [hslot]; exact Nat.ne_of_lt (List.mem_range.mp hs))]
        rw [hnil, hslot]
        simp
      · rw [ih (by omega)]
        simp [Ne.symm hslot]

theorem received_send (h : slot < listeners) (change : SimpleChange K V) :
    (r.send listeners change).received slot = r.received slot ++ [change] := by
  rw [received, send, List.filterMap_append, List.filterMap_map]
  exact congrArg _ (filterMap_range_eq change h)

/-- What the first pass tells of an entry. -/
def changeOfOld (new : MapValue K V) (element : K × Option V) : Option (SimpleChange K V) :=
  match new.entryAt element.1 with
  | some newEntry =>
    if newEntry = element.2 then none else some (.setPut element.1 element.2 newEntry)
  | none => some (.setRemoved element.1 element.2)

/-- What the second pass tells of an entry. -/
def changeOfNew (old : MapValue K V) (element : K × Option V) : Option (SimpleChange K V) :=
  match old.entryAt element.1 with
  | some _ => none
  | none => some (.setAdded element.1 element.2)

/-- The first pass can compare the entry with what replaces it. -/
def Comparable (new : MapValue K V) (element : K × Option V) : Prop :=
  element.2 ≠ none → new.entryAt element.1 ≠ some none

theorem visitOld_of_absent (hr : r.thrown = false) {key : K} {oldEntry : Option V}
    (hat : new.entryAt key = none) :
    r.visitOld listeners new (key, oldEntry) = r.send listeners (.setRemoved key oldEntry) := by
  simp [visitOld, hr, MapValue.containsKey, hat]

theorem visitOld_of_present (hr : r.thrown = false) {key : K} {oldEntry newEntry : Option V}
    (hat : new.entryAt key = some newEntry) :
    r.visitOld listeners new (key, oldEntry) = match differs oldEntry newEntry with
      | none => { r with thrown := true }
      | some true => r.send listeners (.setPut key oldEntry newEntry)
      | some false => r := by
  simp [visitOld, hr, MapValue.containsKey, MapValue.get, hat]

theorem differs_of_comparable {oldEntry newEntry : Option V}
    (h : oldEntry ≠ none → newEntry ≠ none) :
    differs oldEntry newEntry = some (decide (newEntry ≠ oldEntry)) := by
  cases oldEntry with
  | none => rfl
  | some v =>
      cases newEntry with
      | none => exact absurd rfl (h (by simp))
      | some w => simp [differs]

theorem visitOld_of_comparable (hr : r.thrown = false) (hslot : slot < listeners)
    {element : K × Option V} (h : Comparable new element) :
    (r.visitOld listeners new element).thrown = false ∧
      (r.visitOld listeners new element).received slot =
        r.received slot ++ (changeOfOld new element).toList := by
  obtain ⟨key, oldEntry⟩ := element
  rw [changeOfOld]
  cases hat : new.entryAt key with
  | none =>
      rw [visitOld_of_absent hr hat]
      exact ⟨hr, received_send hslot _⟩
  | some newEntry =>
      have hboth : oldEntry ≠ none → newEntry ≠ none := by
        intro hold hnone
        exact h hold (by rw [hat, hnone])
      rw [visitOld_of_present hr hat, differs_of_comparable hboth]
      by_cases heq : newEntry = oldEntry
      · simp [heq, hr]
      · have hdec : decide (newEntry ≠ oldEntry) = true := decide_eq_true heq
        simp only [hdec, if_neg heq]
        exact ⟨hr, received_send hslot _⟩

theorem visitOld_of_not_comparable (hr : r.thrown = false) {element : K × Option V}
    (h : ¬ Comparable new element) : (r.visitOld listeners new element).thrown = true := by
  obtain ⟨key, oldEntry⟩ := element
  rw [Comparable, not_forall, exists_prop, not_not] at h
  obtain ⟨hold, hat⟩ := h
  obtain ⟨v, rfl⟩ := Option.ne_none_iff_exists'.mp hold
  rw [visitOld_of_present hr hat]
  rfl

theorem visitOld_thrown (hr : r.thrown = true) (es : List (K × Option V)) :
    es.foldl (visitOld listeners new) r = r := by
  induction es with
  | nil => rfl
  | cons e es ih => rw [List.foldl_cons, visitOld, if_pos hr, ih]

theorem visitNew_thrown (hr : r.thrown = true) (es : List (K × Option V)) :
    es.foldl (visitNew listeners old) r = r := by
  induction es with
  | nil => rfl
  | cons e es ih => rw [List.foldl_cons, visitNew, if_pos hr, ih]

/-- **The first pass** over entries that can be compared. -/
theorem foldl_visitOld (hr : r.thrown = false) (hslot : slot < listeners) {es : List (K × Option V)}
    (h : ∀ e ∈ es, Comparable new e) :
    (es.foldl (visitOld listeners new) r).thrown = false ∧
      (es.foldl (visitOld listeners new) r).received slot =
        r.received slot ++ es.filterMap (changeOfOld new) := by
  induction es generalizing r with
  | nil => exact ⟨hr, (List.append_nil _).symm⟩
  | cons e es ih =>
      obtain ⟨hthrown, htold⟩ := visitOld_of_comparable hr hslot (h e List.mem_cons_self)
      obtain ⟨hthrown', htold'⟩ := ih hthrown fun e' he' => h e' (List.mem_cons_of_mem e he')
      refine ⟨hthrown', ?_⟩
      rw [List.foldl_cons, htold', htold, List.append_assoc, List.filterMap_cons]
      cases changeOfOld new e with
      | none => rfl
      | some change => rfl

/-- An entry that cannot be compared ends the first pass. -/
theorem foldl_visitOld_thrown {es : List (K × Option V)} (h : ∃ e ∈ es, ¬ Comparable new e) :
    (es.foldl (visitOld listeners new) r).thrown = true := by
  induction es generalizing r with
  | nil =>
      obtain ⟨e, he, -⟩ := h
      cases he
  | cons e es ih =>
      rw [List.foldl_cons]
      by_cases hr : r.thrown = true
      · have hsame : r.visitOld listeners new e = r := by rw [visitOld, if_pos hr]
        rw [hsame, visitOld_thrown hr]
        exact hr
      · by_cases he : Comparable new e
        · apply ih
          obtain ⟨e', he', hnot⟩ := h
          rcases List.mem_cons.mp he' with rfl | hmem
          · exact absurd he hnot
          · exact ⟨e', hmem, hnot⟩
        · have hthrown : (r.visitOld listeners new e).thrown = true :=
            visitOld_of_not_comparable (Bool.not_eq_true _ ▸ hr) he
          rw [visitOld_thrown hthrown]
          exact hthrown

/-- **The second pass.** -/
theorem foldl_visitNew (old : MapValue K V) (hr : r.thrown = false) (hslot : slot < listeners)
    (es : List (K × Option V)) :
    (es.foldl (visitNew listeners old) r).thrown = false ∧
      (es.foldl (visitNew listeners old) r).received slot =
        r.received slot ++ es.filterMap (changeOfNew old) := by
  induction es generalizing r with
  | nil => exact ⟨hr, (List.append_nil _).symm⟩
  | cons e es ih =>
      have hstep : (r.visitNew listeners old e).thrown = false ∧
          (r.visitNew listeners old e).received slot =
            r.received slot ++ (changeOfNew old e).toList := by
        cases hat : old.entryAt e.1 with
        | none =>
            have heq : r.visitNew listeners old e = r.send listeners (.setAdded e.1 e.2) := by
              simp [visitNew, hr, MapValue.containsKey, hat]
            rw [heq, changeOfNew, hat]
            exact ⟨hr, received_send hslot _⟩
        | some v =>
            have heq : r.visitNew listeners old e = r := by
              simp [visitNew, MapValue.containsKey, hat]
            rw [heq, changeOfNew, hat]
            exact ⟨hr, (List.append_nil _).symm⟩
      obtain ⟨hthrown', htold'⟩ := ih hstep.1
      refine ⟨hthrown', ?_⟩
      rw [List.foldl_cons, htold', hstep.2, List.append_assoc, List.filterMap_cons]
      cases changeOfNew old e with
      | none => rfl
      | some change => rfl

end MapRound

/-! ## The difference of two maps -/

namespace MapValue

variable {m : MapValue K V}

theorem entryAt_eq_some_iff {key : K} {value : Option V} :
    m.entryAt key = some value ↔ (key, value) ∈ m.entries := by
  constructor
  · intro h
    obtain ⟨e, he, rfl⟩ := Option.map_eq_some_iff.mp h
    have hkey : e.1 = key := by simpa using List.find?_some he
    rw [← hkey]
    exact List.mem_of_find?_eq_some he
  · intro h
    cases hfind : m.entries.find? fun e => e.1 = key with
    | none => simpa using List.find?_eq_none.mp hfind _ h
    | some e =>
        have hkey : e.1 = key := by simpa using List.find?_some hfind
        have he : e = (key, value) :=
          List.inj_on_of_nodup_map m.nodup (List.mem_of_find?_eq_some hfind) h hkey
        rw [entryAt, hfind, he]
        rfl

theorem entryAt_eq_none_iff {key : K} : m.entryAt key = none ↔ key ∉ m.entries.map Prod.fst := by
  rw [Option.eq_none_iff_forall_ne_some]
  constructor
  · intro h hmem
    obtain ⟨e, he, rfl⟩ := List.mem_map.mp hmem
    exact h e.2 (entryAt_eq_some_iff.mpr he)
  · intro h value hvalue
    exact h (List.mem_map.mpr ⟨_, entryAt_eq_some_iff.mp hvalue, rfl⟩)

end MapValue

/-- What is at a key of a value; there is nothing at the keys of a map that is missing. -/
def contentAt (value : Option (MapValue K V)) (key : K) : Option (Option V) :=
  value.bind fun m => m.entryAt key

/-- What an event writes at its key. -/
def SimpleChange.entry (c : SimpleChange K V) : K × Option (Option V) :=
  (c.key, if c.addOp then some c.added else none)

/-- The events have each key at most once, lead from the old content to the new one, and tell
nothing of a key that has the same value. -/
def ExactDifference (old new : Option (MapValue K V)) (events : List (SimpleChange K V)) : Prop :=
  (events.map SimpleChange.key).Nodup ∧
    MapDiff.applyTo (contentAt old) (events.map SimpleChange.entry) = contentAt new ∧
    ∀ c ∈ events, contentAt old c.key ≠ contentAt new c.key

theorem exactDifference_of_sound {old new : Option (MapValue K V)}
    {events : List (SimpleChange K V)} (hnodup : (events.map SimpleChange.key).Nodup)
    (hsound : ∀ c ∈ events, c.entry.2 = contentAt new c.key ∧
      contentAt old c.key ≠ contentAt new c.key)
    (hcovers : ∀ k, contentAt old k ≠ contentAt new k → ∃ c ∈ events, c.key = k) :
    ExactDifference old new events := by
  refine ⟨hnodup, MapDiff.applyTo_eq ?_ ?_ ?_, fun c hc => (hsound c hc).2⟩
  · rw [List.map_map]
    exact hnodup
  · intro e he
    obtain ⟨c, hc, rfl⟩ := List.mem_map.mp he
    exact (hsound c hc).1
  · intro k hk
    obtain ⟨c, hc, rfl⟩ := hcovers k hk
    rw [List.map_map]
    exact List.mem_map.mpr ⟨c, hc, rfl⟩

section Passes

open MapRound

variable {old new : MapValue K V} {e : K × Option V} {c : SimpleChange K V}

theorem changeOfOld_eq_some (h : changeOfOld new e = some c) :
    c.key = e.1 ∧ c.entry.2 = new.entryAt e.1 ∧ new.entryAt e.1 ≠ some e.2 := by
  rw [changeOfOld] at h
  cases hat : new.entryAt e.1 with
  | none =>
      rw [hat] at h
      cases h
      exact ⟨rfl, rfl, nofun⟩
  | some newEntry =>
      rw [hat] at h
      simp only [] at h
      split at h
      · cases h
      next hne =>
        cases h
        exact ⟨rfl, rfl, fun heq => hne (Option.some_inj.mp heq)⟩

theorem changeOfOld_eq_none (h : changeOfOld new e = none) : new.entryAt e.1 = some e.2 := by
  rw [changeOfOld] at h
  cases hat : new.entryAt e.1 with
  | none =>
      rw [hat] at h
      cases h
  | some newEntry =>
      rw [hat] at h
      simp only [] at h
      split at h
      next heq => rw [heq]
      next => cases h

theorem changeOfNew_eq_some (h : changeOfNew old e = some c) :
    c.key = e.1 ∧ c.entry.2 = some e.2 ∧ old.entryAt e.1 = none := by
  rw [changeOfNew] at h
  cases hat : old.entryAt e.1 with
  | none =>
      rw [hat] at h
      cases h
      exact ⟨rfl, rfl, rfl⟩
  | some v =>
      rw [hat] at h
      cases h

/-- The events of a pass come in the order of the entries. -/
theorem keys_sublist {tell : K × Option V → Option (SimpleChange K V)}
    (htell : ∀ e c, tell e = some c → c.key = e.1) (es : List (K × Option V)) :
    ((es.filterMap tell).map SimpleChange.key).Sublist (es.map Prod.fst) := by
  induction es with
  | nil => exact List.Sublist.refl _
  | cons e es ih =>
      rw [List.filterMap_cons, List.map_cons]
      cases htold : tell e with
      | none => exact ih.cons _
      | some c =>
          rw [List.map_cons, htell e c htold]
          exact ih.cons_cons _

/-- **The two passes** tell the difference. -/
theorem exactDifference_passes (old new : MapValue K V) :
    ExactDifference (some old) (some new)
      (old.entries.filterMap (changeOfOld new) ++ new.entries.filterMap (changeOfNew old)) := by
  have hold : ((old.entries.filterMap (changeOfOld new)).map SimpleChange.key).Sublist
      (old.entries.map Prod.fst) := keys_sublist (fun e c h => (changeOfOld_eq_some h).1) _
  have hnew : ((new.entries.filterMap (changeOfNew old)).map SimpleChange.key).Sublist
      (new.entries.map Prod.fst) := keys_sublist (fun e c h => (changeOfNew_eq_some h).1) _
  apply exactDifference_of_sound
  · rw [List.map_append, List.nodup_append]
    refine ⟨hold.nodup old.nodup, hnew.nodup new.nodup, ?_⟩
    rintro k hk _ hk' rfl
    obtain ⟨c, hc, hkey⟩ := List.mem_map.mp hk'
    obtain ⟨e, -, htold⟩ := List.mem_filterMap.mp hc
    obtain ⟨hke, -, hnone⟩ := changeOfNew_eq_some htold
    rw [← hke, hkey] at hnone
    exact MapValue.entryAt_eq_none_iff.mp hnone (hold.subset hk)
  · intro c hc
    rcases List.mem_append.mp hc with hc | hc
    · obtain ⟨e, he, htold⟩ := List.mem_filterMap.mp hc
      obtain ⟨hke, hentry, hne⟩ := changeOfOld_eq_some htold
      rw [hke]
      refine ⟨hentry, fun heq => hne (heq.symm.trans ?_)⟩
      exact MapValue.entryAt_eq_some_iff.mpr he
    · obtain ⟨e, he, htold⟩ := List.mem_filterMap.mp hc
      obtain ⟨hke, hentry, hnone⟩ := changeOfNew_eq_some htold
      have hat : new.entryAt e.1 = some e.2 := MapValue.entryAt_eq_some_iff.mpr he
      rw [hke]
      refine ⟨hentry.trans hat.symm, fun heq => ?_⟩
      have hsome : old.entryAt e.1 = some e.2 := heq.trans hat
      rw [hnone] at hsome
      cases hsome
  · intro k hk
    cases hat : old.entryAt k with
    | some v =>
        have he := MapValue.entryAt_eq_some_iff.mp hat
        cases htold : changeOfOld new (k, v) with
        | none => exact absurd (hat.trans (changeOfOld_eq_none htold).symm) hk
        | some c =>
            exact ⟨c, List.mem_append_left _ (List.mem_filterMap.mpr ⟨_, he, htold⟩),
              (changeOfOld_eq_some htold).1⟩
    | none =>
        have hsome : new.entryAt k ≠ none := fun hnone => hk (hat.trans hnone.symm)
        obtain ⟨v, hv⟩ := Option.ne_none_iff_exists'.mp hsome
        have htold : changeOfNew old (k, v) = some (.setAdded k v) := by
          rw [changeOfNew, hat]
        exact ⟨_, List.mem_append_right _ (List.mem_filterMap.mpr
          ⟨_, MapValue.entryAt_eq_some_iff.mp hv, htold⟩), rfl⟩

end Passes

/-! ## A value that is replaced -/

/-- A map without entries. -/
def MapValue.empty : MapValue K V := { identity := 0, entries := [], nodup := List.nodup_nil }

/-- A missing map has the content of an empty one. -/
def orEmpty (value : Option (MapValue K V)) : MapValue K V := value.getD .empty

theorem contentAt_orEmpty (value : Option (MapValue K V)) :
    contentAt (some (orEmpty value)) = contentAt value := by
  cases value with
  | none => rfl
  | some m => rfl

theorem ExactDifference.orEmpty_iff {old new : Option (MapValue K V)}
    {events : List (SimpleChange K V)} :
    ExactDifference (some (orEmpty old)) (some (orEmpty new)) events ↔
      ExactDifference old new events := by
  rw [ExactDifference, ExactDifference, contentAt_orEmpty, contentAt_orEmpty]

namespace MapRound

variable {r : MapRound K V} {listeners slot : ℕ} {old new : Option (MapValue K V)}

/-- Each case of the difference is that of two maps, of which one may be empty. -/
theorem sendDifference_eq (hr : r.thrown = false) (hsome : old ≠ none ∨ new ≠ none) :
    r.sendDifference listeners old new =
      (orEmpty new).entries.foldl (visitNew listeners (orEmpty old))
        ((orEmpty old).entries.foldl (visitOld listeners (orEmpty new)) r) := by
  cases old with
  | none =>
      cases new with
      | none => simp at hsome
      | some new =>
          change new.entries.foldl (sendAdded listeners) r =
            new.entries.foldl (visitNew listeners .empty) r
          induction new.entries generalizing r with
          | nil => rfl
          | cons e es ih =>
              have hstep : r.visitNew listeners .empty e = r.sendAdded listeners e := by
                rw [visitNew, hr]
                rfl
              rw [List.foldl_cons, List.foldl_cons, hstep]
              exact ih hr
  | some old =>
      cases new with
      | none =>
          change old.entries.foldl (sendRemoved listeners) r =
            old.entries.foldl (visitOld listeners .empty) r
          induction old.entries generalizing r with
          | nil => rfl
          | cons e es ih =>
              have hstep : r.visitOld listeners .empty e = r.sendRemoved listeners e := by
                rw [visitOld, hr]
                rfl
              rw [List.foldl_cons, List.foldl_cons, hstep]
              exact ih hr
      | some new => rfl

end MapRound

/-- No key has a value that is replaced by `null`. -/
def NoValueBecomesNull (old new : Option (MapValue K V)) : Prop :=
  ∀ k v, contentAt old k = some (some v) → contentAt new k ≠ some none

theorem comparable_iff {old new : Option (MapValue K V)} :
    (∀ e ∈ (orEmpty old).entries, MapRound.Comparable (orEmpty new) e) ↔
      NoValueBecomesNull old new := by
  have hcontent : ∀ value : Option (MapValue K V), ∀ k,
      (orEmpty value).entryAt k = contentAt value k := fun value k =>
    congrFun (contentAt_orEmpty value) k
  constructor
  · intro h k v hk
    rw [← hcontent] at hk ⊢
    exact h (k, some v) (MapValue.entryAt_eq_some_iff.mp hk) (by simp)
  · rintro h ⟨k, oldEntry⟩ he hold
    obtain ⟨v, rfl⟩ := Option.ne_none_iff_exists'.mp hold
    rw [hcontent]
    exact h k v (by rw [← hcontent]; exact MapValue.entryAt_eq_some_iff.mpr he)

/-- The round before the difference is told. -/
def MapGeneric.announce (g : MapGeneric K V) (value : Option (MapValue K V)) : MapRound K V :=
  { calls := (List.range g.invalidationSize).map .invalidated ++
      (List.range g.changeSize).map (.changed · g.currentValue value) }

theorem MapGeneric.received_announce (g : MapGeneric K V) (value : Option (MapValue K V))
    (slot : ℕ) : (g.announce value).received slot = [] := by
  rw [MapRound.received, MapGeneric.announce, List.filterMap_eq_nil_iff]
  intro call hcall
  rcases List.mem_append.mp hcall with hcall | hcall
  · obtain ⟨i, -, rfl⟩ := List.mem_map.mp hcall
    rfl
  · obtain ⟨i, -, rfl⟩ := List.mem_map.mp hcall
    rfl

theorem MapGeneric.fireValueChangedEvent_eq (g : MapGeneric K V) {value : Option (MapValue K V)}
    (hlisteners : 0 < g.mapChangeSize) (hchanged : reference value ≠ reference g.currentValue) :
    (g.fireValueChangedEvent value).2 =
      (g.announce value).sendDifference g.mapChangeSize g.currentValue value := by
  rw [fireValueChangedEvent, if_neg (by omega)]
  change MapGeneric.notifyListeners { g with currentValue := value } g.currentValue none = _
  simp only [notifyListeners]
  rw [if_pos (Or.inl hchanged), if_pos hlisteners]
  rfl

/-- **A value that is replaced** reaches every map change listener as the exact difference, without
an exception, if and only if no key has a value that is replaced by `null`. -/
theorem difference_exact_iff (g : MapGeneric K V) (value : Option (MapValue K V)) (slot : ℕ)
    (hslot : slot < g.mapChangeSize) (hchanged : reference value ≠ reference g.currentValue) :
    (g.fireValueChangedEvent value).2.thrown = false ∧
        ExactDifference g.currentValue value ((g.fireValueChangedEvent value).2.received slot) ↔
      NoValueBecomesNull g.currentValue value := by
  have hsome : g.currentValue ≠ none ∨ value ≠ none := by
    by_contra hnone
    rw [not_or, not_not, not_not] at hnone
    exact hchanged (by rw [hnone.1, hnone.2])
  have hquiet : (g.announce value).thrown = false := rfl
  rw [g.fireValueChangedEvent_eq (Nat.zero_lt_of_lt hslot) hchanged,
    MapRound.sendDifference_eq hquiet hsome]
  constructor
  · rintro ⟨hthrown, -⟩
    rw [← comparable_iff]
    by_contra hnot
    simp only [not_forall] at hnot
    obtain ⟨e, he, hincomparable⟩ := hnot
    have hends : ((orEmpty g.currentValue).entries.foldl
        (MapRound.visitOld g.mapChangeSize (orEmpty value)) (g.announce value)).thrown = true :=
      MapRound.foldl_visitOld_thrown ⟨e, he, hincomparable⟩
    rw [MapRound.visitNew_thrown hends, hends] at hthrown
    cases hthrown
  · intro hcomparable
    obtain ⟨hfirst, htold⟩ := MapRound.foldl_visitOld hquiet hslot (comparable_iff.mpr hcomparable)
    obtain ⟨hsecond, htold'⟩ := MapRound.foldl_visitNew (orEmpty g.currentValue) hfirst hslot
      (orEmpty value).entries
    refine ⟨hsecond, ?_⟩
    rw [htold', htold, g.received_announce, List.nil_append, ← ExactDifference.orEmpty_iff]
    exact exactDifference_passes _ _

/-- A map of one entry. -/
def singleEntry (identity : ℕ) (value : Option ℕ) : MapValue ℕ ℕ :=
  { identity := identity, entries := [(0, value)], nodup := List.nodup_singleton 0 }

/-- A helper for two map change listeners and a map of one entry. -/
def twoListeners (value : Option ℕ) : MapGeneric ℕ ℕ :=
  { mapChangeSize := 2, currentValue := some (singleEntry 1 value) }

/-- A `null` is replaced by a value. -/
theorem difference_of_null :
    ((twoListeners none).fireValueChangedEvent (some (singleEntry 2 (some 5)))).2.received 1 =
        [.setPut 0 none (some 5)] ∧
      ExactDifference (some (singleEntry 1 none)) (some (singleEntry 2 (some 5)))
        (((twoListeners none).fireValueChangedEvent
          (some (singleEntry 2 (some 5)))).2.received 1) := by
  refine ⟨by decide, ((difference_exact_iff (twoListeners none) _ 1 (by decide)
    (by decide)).mpr fun k v hk => ?_).2⟩
  have hmem := MapValue.entryAt_eq_some_iff.mp hk
  simp [singleEntry] at hmem

/-- A value is replaced by `null`. -/
theorem null_for_value_throws :
    ((twoListeners (some 5)).fireValueChangedEvent (some (singleEntry 2 none))).2.thrown = true := by
  decide

end JavaFx.Binding
