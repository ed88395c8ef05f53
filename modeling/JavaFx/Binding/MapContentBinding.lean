import JavaFx.Collections.MapEvents
import JavaFx.Binding.ListContentBinding

/-!
# Content bindings of maps

The listeners of the two content bindings turn an event into one operation on the
other map: a removal if `wasRemoved()`, else a `put` of the added value. An event
that replaces a value has both flags set, so the key is removed and not put back.

The events of an operation are delivered while it runs. The listener changes the
other map only and reads nothing but the event, so the model delivers them when
the operation is over.
-/

set_option linter.unusedSectionVars false

namespace JavaFx.Binding

open JavaFx.Collections JavaFx.Collections.ObservableMap Runs

variable {K V : Type} [DecidableEq K] [BEq V]

/-! ## `ContentBinding.MapContentBinding` -/

/-- The operation a listener performs on the other map. -/
def follow (change : MapChange K V) (map : ObservableMap K V) : Result K V :=
  if change.wasRemoved then map.remove change.key
  else map.put change.key change.valueAdded

structure BoundMaps (K V : Type) where
  source : ObservableMap K V
  map : ObservableMap K V

namespace ContentBinding

/-- `MapContentBinding.onChanged(change)` -/
def onMapChanged (map : ObservableMap K V) (change : MapChange K V) :
    ObservableMap K V :=
  (follow change map).1

/-- `map.putAll(source)`, which visits the entries of `source`. -/
def copyInto (map source : ObservableMap K V) : ObservableMap K V :=
  (map.clear.1.putAll (source.table.filterMap (source.entries[·]?))).1

/-- `bind(map1, map2)` -/
def bindMaps (map1 map2 : ObservableMap K V) : BoundMaps K V :=
  ⟨map2, copyInto map1 map2⟩

/-- An operation on the source, with its events. -/
def mapStep (s : BoundMaps K V) (op : MapOp K V) : Except Exn (BoundMaps K V) :=
  .ok ⟨(s.source.perform op).1, (s.source.perform op).2.foldl onMapChanged s.map⟩

end ContentBinding

/-! ## `BidirectionalContentBinding.MapContentBinding` -/

structure BidirectionalMaps (K V : Type) where
  map1 : ObservableMap K V
  map2 : ObservableMap K V
  updating : Bool

namespace BidirectionalMaps

def get (s : BidirectionalMaps K V) : Side → ObservableMap K V
  | .first => s.map1
  | .second => s.map2

def set (s : BidirectionalMaps K V) (side : Side) (m : ObservableMap K V) :
    BidirectionalMaps K V :=
  match side with
  | .first => { s with map1 := m }
  | .second => { s with map2 := m }

end BidirectionalMaps

namespace BidirectionalContentBinding

/-- `onChanged(change)` for a change of the map `side`. The operation on the other
map fires its own events at the same listener; `stack` bounds their nesting. -/
def onMapChanged : ℕ → Side → BidirectionalMaps K V → MapChange K V →
    Except Exn (BidirectionalMaps K V)
  | 0, _, _, _ => .error .stackOverflow
  | stack + 1, side, s, change =>
      if s.updating then .ok s
      else do
        let r := follow change (s.get side.other)
        let s ← r.2.foldlM (onMapChanged stack side.other)
          ({ s with updating := true }.set side.other r.1)
        return { s with updating := false }

/-- `bind(map1, map2)` copies before it adds the listener. -/
def bindMaps (map1 map2 : ObservableMap K V) : BidirectionalMaps K V :=
  ⟨ContentBinding.copyInto map1 map2, map2, false⟩

/-- An operation on one of the maps, with its events. -/
def mapStep (stack : ℕ) (s : BidirectionalMaps K V) (x : Side × MapOp K V) :
    Except Exn (BidirectionalMaps K V) :=
  ((s.get x.1).perform x.2).2.foldlM (onMapChanged stack x.1)
    (s.set x.1 ((s.get x.1).perform x.2).1)

end BidirectionalContentBinding

/-! ## The condition -/

/-- The key is new, or has a value equal to the one it gets. -/
def PutsWithoutReplacing (s : ObservableMap K V) (e : MapEntry K V) : Prop :=
  s.content e.key = none ∨ SameMapping (s.content e.key) (some e.value)

/-- The same for each `put` of a `putAll`. -/
def PutsAllWithoutReplacing (s : ObservableMap K V) : List (MapEntry K V) → Prop
  | [] => True
  | e :: m => PutsWithoutReplacing s e ∧
      PutsAllWithoutReplacing (s.put e.key e.value).1 m

/-- The operation replaces no value by a different one. -/
def ReplacesNothing (s : ObservableMap K V) : MapOp K V → Prop
  | .put k v => PutsWithoutReplacing s ⟨k, v⟩
  | .putAll m => PutsAllWithoutReplacing s m
  | _ => True

/-- All operations but the `setValue` of an entry. -/
def IsMapOrViewOp : MapOp K V → Prop
  | .setValue _ _ => False
  | _ => True

/-! ## What the listener does to the other map -/

section Follow

variable [EquivBEq V] {s map : ObservableMap K V}

theorem content_put (h : s.WellFormed) (k : K) (v : Option V) :
    (s.put k v).1.content = Function.update s.content k (some v) := by
  unfold ObservableMap.put
  cases hf : s.find k with
  | none => exact content_addEntry h hf
  | some n =>
      obtain ⟨hn, hk⟩ := mem_of_find hf
      exact content_writeValue h hn hk

theorem content_remove (h : s.WellFormed) (k : K) :
    (s.remove k).1.content = Function.update s.content k none := by
  unfold ObservableMap.remove
  cases hf : s.find k with
  | none =>
      have hnone : s.content k = none := by
        rw [ObservableMap.content, hf]
        rfl
      show s.content = _
      rw [← hnone, Function.update_eq_self]
  | some n =>
      obtain ⟨hn, hk⟩ := mem_of_find hf
      exact content_removeEntry h hn hk

theorem wellFormed_onMapChanged (h : map.WellFormed) (e : MapChange K V) :
    (ContentBinding.onMapChanged map e).WellFormed := by
  unfold ContentBinding.onMapChanged follow
  split
  · exact (explained_remove h e.key).wellFormed
  · exact (explained_put h e.key e.valueAdded).wellFormed

theorem content_onMapChanged (h : map.WellFormed) (e : MapChange K V) :
    (ContentBinding.onMapChanged map e).content =
      Function.update map.content e.key
        (if e.wasRemoved then none else some e.valueAdded) := by
  unfold ContentBinding.onMapChanged follow
  cases e.wasRemoved with
  | true => exact content_remove h e.key
  | false => exact content_put h e.key e.valueAdded

theorem wellFormed_deliver (h : map.WellFormed) (es : List (MapChange K V)) :
    (es.foldl ContentBinding.onMapChanged map).WellFormed := by
  induction es generalizing map with
  | nil => exact h
  | cons e es ih => exact ih (wellFormed_onMapChanged h e)

/-- An event with one flag set is followed to the letter. -/
theorem content_deliver_plain (h : map.WellFormed) {es : List (MapChange K V)}
    (hplain : ∀ e ∈ es, e.wasAdded = !e.wasRemoved) :
    (es.foldl ContentBinding.onMapChanged map).content =
      es.foldl (fun c e => e.apply c) map.content := by
  induction es generalizing map with
  | nil => rfl
  | cons e es ih =>
      have hone : (ContentBinding.onMapChanged map e).content =
          e.apply map.content := by
        rw [content_onMapChanged h]
        unfold MapChange.apply
        rw [hplain e List.mem_cons_self]
        cases e.wasRemoved <;> rfl
      rw [List.foldl_cons, List.foldl_cons,
        ih (wellFormed_onMapChanged h e) fun e' he' =>
          hplain e' (List.mem_cons_of_mem _ he'), hone]

theorem foldl_apply_congr {c d : Content K V} (h : SameContent c d)
    (es : List (MapChange K V)) :
    SameContent (es.foldl (fun c e => e.apply c) c)
      (es.foldl (fun c e => e.apply c) d) := by
  induction es generalizing c d with
  | nil => exact h
  | cons e es ih => exact ih (e.apply_congr h)

theorem foldl_apply_of_reproduces {c c' : Content K V} {es : List (MapChange K V)}
    (h : Reproduces c es c') : SameContent (es.foldl (fun c e => e.apply c) c) c' := by
  induction es generalizing c with
  | nil => exact h
  | cons e es ih => exact ih h.2

end Follow

/-! ## Operations that only remove -/

section Removals

variable [EquivBEq V] {s : ObservableMap K V}

def OnlyRemovals (es : List (MapChange K V)) : Prop :=
  ∀ e ∈ es, e.wasRemoved = true ∧ e.wasAdded = false

theorem onlyRemovals_nil : OnlyRemovals ([] : List (MapChange K V)) :=
  fun _ he => by cases he

theorem onlyRemovals_one (k : K) (v : Option V) :
    OnlyRemovals [(⟨k, v, none, false, true⟩ : MapChange K V)] := by
  intro e he
  rw [List.mem_singleton] at he
  subst he
  exact ⟨rfl, rfl⟩

theorem onlyRemovals_remove (k : K) : OnlyRemovals (s.remove k).2 := by
  unfold ObservableMap.remove
  cases s.find k with
  | none => exact onlyRemovals_nil
  | some n => exact onlyRemovals_one k _

theorem onlyRemovals_removeIf (test : K → Option V → Bool) (n : ℕ) :
    OnlyRemovals (removeIf test s n).2 := by
  unfold removeIf
  cases s.entries[n]? with
  | none => exact onlyRemovals_nil
  | some e =>
      by_cases htest : test e.key e.value = true
      · simp only [htest, if_true]
        exact onlyRemovals_one _ _
      · simp only [htest]
        exact onlyRemovals_nil

theorem onlyRemovals_removeLoop (test : K → Option V → Bool) :
    OnlyRemovals (removeLoop test s).2 := by
  have hloop : ∀ (ns : List ℕ) (r : Result K V), OnlyRemovals r.2 →
      OnlyRemovals (ns.foldl (fun r n =>
        ObservableMap.andThen r (removeIf test · n)) r).2 := by
    intro ns
    induction ns with
    | nil => intro r hr; exact hr
    | cons n ns ih =>
        intro r hr
        refine ih _ fun e he => ?_
        rcases List.mem_append.mp he with he | he
        · exact hr e he
        · exact onlyRemovals_removeIf test n e he
  exact hloop s.table _ onlyRemovals_nil

theorem onlyRemovals_entrySetRemove (o : Option (MapEntry K V)) :
    OnlyRemovals (s.entrySetRemove o).2 := by
  unfold entrySetRemove
  cases o with
  | none => exact onlyRemovals_nil
  | some e =>
      cases hf : s.find e.key with
      | none => simp only [hf]; exact onlyRemovals_nil
      | some n =>
          simp only [hf]
          split
          · exact onlyRemovals_one _ _
          · exact onlyRemovals_nil

/-- Apart from `put`, `putAll` and `setValue` every operation only removes. -/
theorem onlyRemovals_step (h : s.WellFormed) {op : MapOp K V} {r : Result K V}
    (hr : s.step op = .ok r) (hput : ∀ k v, op ≠ .put k v)
    (hputAll : ∀ m, op ≠ .putAll m) (hset : IsMapOrViewOp op) :
    OnlyRemovals r.2 := by
  unfold step at hr
  cases op with
  | put k v => exact absurd rfl (hput k v)
  | putAll m => exact absurd rfl (hputAll m)
  | setValue n v => exact hset.elim
  | remove k => cases hr; exact onlyRemovals_remove k
  | clear => cases hr; exact onlyRemovals_removeLoop _
  | keySetRemove k => cases hr; exact onlyRemovals_remove k
  | keySetRemoveRetain c b => cases hr; exact onlyRemovals_removeLoop _
  | valuesRemove o =>
      simp only [valuesRemove] at hr
      obtain ⟨found, -, hr⟩ := except_bind_eq_ok.mp hr
      cases found with
      | none => cases hr; exact onlyRemovals_nil
      | some n => cases hr; exact onlyRemovals_removeIf _ n
  | valuesRemoveRetain c b => cases hr; exact onlyRemovals_removeLoop _
  | entrySetRemove o => cases hr; exact onlyRemovals_entrySetRemove o
  | entrySetRemoveRetain c b => cases hr; exact onlyRemovals_removeLoop _
  | iterator => cases hr; exact onlyRemovals_nil
  | next j =>
      simp only [next] at hr
      split at hr
      · cases hr
      · split at hr
        · cases hr
        · split at hr
          · cases hr
          · cases hr
            exact onlyRemovals_nil
  | iteratorRemove j =>
      obtain ⟨-, it, n, k, -, -, -, -, -, hev, -⟩ := iteratorRemove_spec h hr
      rw [hev]
      exact onlyRemovals_one _ _
  | rehash table =>
      simp only at hr
      split at hr <;> cases hr <;> exact onlyRemovals_nil

/-- The flags of the events are right even where a reported value is stale. -/
theorem foldl_apply_step (h : s.WellFormed) {op : MapOp K V} {r : Result K V}
    (hr : s.step op = .ok r) (hset : IsMapOrViewOp op) :
    SameContent (r.2.foldl (fun c e => e.apply c) s.content) r.1.content := by
  by_cases hit : ∃ j, op = .iteratorRemove j
  · obtain ⟨j, rfl⟩ := hit
    obtain ⟨-, it, n, k, -, -, -, -, -, hev, hcontent⟩ := iteratorRemove_spec h hr
    rw [hev, hcontent]
    exact .refl _
  · refine foldl_apply_of_reproduces ((explained_step h hr).2.mpr ?_)
    cases op with
    | iteratorRemove j => exact absurd ⟨j, rfl⟩ hit
    | setValue n v => exact hset.elim
    | _ => trivial

end Removals

/-! ## Operations that put -/

section Puts

variable [EquivBEq V] {s map : ObservableMap K V}

/-- A key of the source that the other map has lost. -/
def Lost (k : K) (s map : ObservableMap K V) : Prop :=
  s.content k ≠ none ∧ map.content k = none

theorem not_sameContent_of_lost {k : K} (h : Lost k s map) :
    ¬SameContent s.content map.content := by
  intro hsame
  have hk := hsame k
  obtain ⟨hs, hm⟩ := h
  rw [hm] at hk
  cases hc : s.content k with
  | none => exact hs hc
  | some v => rw [hc] at hk; exact hk

theorem put_events (h : s.WellFormed) (e : MapEntry K V) :
    (s.content e.key = none ∧
      (s.put e.key e.value).2 = [⟨e.key, none, e.value, true, false⟩]) ∨
    (SameMapping (s.content e.key) (some e.value) ∧
      (s.put e.key e.value).2 = []) ∨
    (¬PutsWithoutReplacing s e ∧ ∃ old, (s.put e.key e.value).2 =
      [⟨e.key, old, e.value, true, true⟩]) := by
  unfold ObservableMap.put PutsWithoutReplacing
  cases hf : s.find e.key with
  | none =>
      have hnone : s.content e.key = none := by
        rw [ObservableMap.content, hf]
        rfl
      exact Or.inl ⟨hnone, rfl⟩
  | some n =>
      obtain ⟨hn, hk⟩ := mem_of_find hf
      obtain ⟨e', -, -, hv⟩ := exists_entry h hn
      have hcontent := content_eq h hn hk
      rw [hv] at hcontent
      refine Or.inr ?_
      simp only [hv, Option.getD_some, valueChanged_eq, hcontent]
      by_cases hsame : sameValue e'.value e.value = true
      · exact Or.inl ⟨hsame, by rw [if_neg (by simp [hsame])]⟩
      · refine Or.inr ⟨?_, e'.value, by rw [if_pos (by simp [hsame])]⟩
        rintro (hnone | hsame')
        · cases hnone
        · exact hsame hsame'

/-- After one `put` the maps are still equal unless it replaced a value, and then
the key is lost. -/
theorem deliver_put (hs : s.WellFormed) (hm : map.WellFormed)
    (hsame : SameContent s.content map.content) (e : MapEntry K V) :
    (PutsWithoutReplacing s e → SameContent (s.put e.key e.value).1.content
      ((s.put e.key e.value).2.foldl ContentBinding.onMapChanged map).content) ∧
    (¬PutsWithoutReplacing s e → Lost e.key (s.put e.key e.value).1
      ((s.put e.key e.value).2.foldl ContentBinding.onMapChanged map)) := by
  rcases put_events hs e with ⟨hnone, hev⟩ | ⟨hval, hev⟩ | ⟨hrep, old, hev⟩
  · refine ⟨fun _ => ?_, fun hrep => absurd (Or.inl hnone) hrep⟩
    rw [hev, content_put hs]
    show SameContent _ (ContentBinding.onMapChanged map _).content
    rw [content_onMapChanged hm]
    exact hsame.update _ _
  · refine ⟨fun _ => ?_, fun hrep => absurd (Or.inr hval) hrep⟩
    rw [hev, content_put hs]
    intro k
    by_cases hk : k = e.key
    · subst hk
      rw [Function.update_self]
      exact hval.symm.trans (hsame e.key)
    · rw [Function.update_of_ne hk]
      exact hsame k
  · refine ⟨fun h => absurd h hrep, fun _ => ?_⟩
    rw [hev]
    refine ⟨?_, ?_⟩
    · rw [content_put hs, Function.update_self]
      exact Option.some_ne_none _
    · show (ContentBinding.onMapChanged map _).content e.key = none
      rw [content_onMapChanged hm, Function.update_self]
      rfl

/-- A lost key stays lost, whatever is put. -/
theorem lost_put (hs : s.WellFormed) (hm : map.WellFormed) {k : K}
    (hlost : Lost k s map) (e : MapEntry K V) :
    Lost k (s.put e.key e.value).1
      ((s.put e.key e.value).2.foldl ContentBinding.onMapChanged map) := by
  obtain ⟨hk, hmk⟩ := hlost
  constructor
  · rw [content_put hs]
    by_cases hkk : k = e.key
    · subst hkk
      rw [Function.update_self]
      exact Option.some_ne_none _
    · rw [Function.update_of_ne hkk]
      exact hk
  · rcases put_events hs e with ⟨hnone, hev⟩ | ⟨-, hev⟩ | ⟨-, old, hev⟩
    · have hkk : k ≠ e.key := fun heq => hk (heq ▸ hnone)
      rw [hev]
      show (ContentBinding.onMapChanged map _).content k = none
      rw [content_onMapChanged hm, Function.update_of_ne hkk]
      exact hmk
    · rw [hev]
      exact hmk
    · rw [hev]
      show (ContentBinding.onMapChanged map _).content k = none
      rw [content_onMapChanged hm]
      by_cases hkk : k = e.key
      · subst hkk
        rw [Function.update_self]
        rfl
      · rw [Function.update_of_ne hkk]
        exact hmk

theorem putAll_cons (s : ObservableMap K V) (e : MapEntry K V)
    (m : List (MapEntry K V)) :
    s.putAll (e :: m) = (((s.put e.key e.value).1.putAll m).1,
      (s.put e.key e.value).2 ++ ((s.put e.key e.value).1.putAll m).2) :=
  foldl_andThen_cons (fun (e : MapEntry K V) t => t.put e.key e.value) s e m

theorem lost_putAll (hs : s.WellFormed) (hm : map.WellFormed) {k : K}
    (hlost : Lost k s map) (m : List (MapEntry K V)) :
    Lost k (s.putAll m).1
      ((s.putAll m).2.foldl ContentBinding.onMapChanged map) := by
  induction m generalizing s map with
  | nil => exact hlost
  | cons e m ih =>
      rw [putAll_cons, List.foldl_append]
      exact ih (explained_put hs e.key e.value).wellFormed (wellFormed_deliver hm _)
        (lost_put hs hm hlost e)

theorem deliver_putAll (hs : s.WellFormed) (hm : map.WellFormed)
    (hsame : SameContent s.content map.content) (m : List (MapEntry K V)) :
    SameContent (s.putAll m).1.content
      ((s.putAll m).2.foldl ContentBinding.onMapChanged map).content ↔
        PutsAllWithoutReplacing s m := by
  induction m generalizing s map with
  | nil => exact iff_of_true hsame trivial
  | cons e m ih =>
      have hs' := (explained_put hs e.key e.value).wellFormed
      have hm' := wellFormed_deliver hm (s.put e.key e.value).2
      rw [putAll_cons, List.foldl_append]
      by_cases hrep : PutsWithoutReplacing s e
      · rw [ih hs' hm' ((deliver_put hs hm hsame e).1 hrep)]
        exact ⟨fun h => ⟨hrep, h⟩, fun h => h.2⟩
      · refine iff_of_false ?_ fun h => hrep h.1
        exact not_sameContent_of_lost
          (lost_putAll hs' hm' ((deliver_put hs hm hsame e).2 hrep) m)

end Puts

/-! ## Every operation -/

section Steps

variable [EquivBEq V] {s map : ObservableMap K V}

/-- **One operation.** The other map follows it if and only if it replaces no
value by a different one. -/
theorem deliver_perform (hs : s.WellFormed) (hm : map.WellFormed)
    (hsame : SameContent s.content map.content) {op : MapOp K V}
    (hop : IsMapOrViewOp op) :
    (s.perform op).1.WellFormed ∧
      ((s.perform op).2.foldl ContentBinding.onMapChanged map).WellFormed ∧
      (SameContent (s.perform op).1.content
        ((s.perform op).2.foldl ContentBinding.onMapChanged map).content ↔
          ReplacesNothing s op) := by
  refine ⟨(perform_spec hs op).1, wellFormed_deliver hm _, ?_⟩
  by_cases hput : ∃ k v, op = .put k v
  · obtain ⟨k, v, rfl⟩ := hput
    have hone := deliver_put hs hm hsame ⟨k, v⟩
    exact ⟨fun h => by_contra fun hrep => not_sameContent_of_lost (hone.2 hrep) h,
      hone.1⟩
  by_cases hputAll : ∃ m, op = .putAll m
  · obtain ⟨m, rfl⟩ := hputAll
    exact deliver_putAll hs hm hsame m
  have hright : ReplacesNothing s op := by
    cases op with
    | put k v => exact absurd ⟨k, v, rfl⟩ hput
    | putAll m => exact absurd ⟨m, rfl⟩ hputAll
    | _ => trivial
  refine iff_of_true ?_ hright
  unfold perform
  cases hr : s.step op with
  | error e => exact hsame
  | ok r =>
      have hremovals := onlyRemovals_step hs hr (fun k v h => hput ⟨k, v, h⟩)
        (fun m h => hputAll ⟨m, h⟩) hop
      have hplain : ∀ e ∈ r.2, e.wasAdded = !e.wasRemoved := fun e he => by
        rw [(hremovals e he).1, (hremovals e he).2]
        rfl
      show SameContent r.1.content _
      rw [content_deliver_plain hm hplain]
      exact (foldl_apply_step hs hr hop).symm.trans (foldl_apply_congr hsame r.2)

/-! ## Binding -/

/-- What a `put` does to the mapping. -/
def putInto (c : Content K V) (e : MapEntry K V) : Content K V :=
  Function.update c e.key (some e.value)

theorem table_clear (hs : s.WellFormed) : s.clear.1.table = [] := by
  have hloop : ∀ (ns : List ℕ) (r : Result K V), r.1.WellFormed → r.1.table = ns →
      (ns.foldl (fun r n => ObservableMap.andThen r
        (removeIf (fun _ _ => true) · n)) r).1.table = [] := by
    intro ns
    induction ns with
    | nil => intro r _ htable; exact htable
    | cons n ns ih =>
        intro r hr htable
        have hn : n ∈ r.1.table := by rw [htable]; exact List.mem_cons_self
        obtain ⟨e, he, -, -⟩ := exists_entry hr hn
        have hremove : (removeIf (fun _ _ => true) r.1 n).1 = r.1.removeEntry n := by
          unfold removeIf
          simp only [he, if_true]
        refine ih _ ?_ ?_
        · show (removeIf (fun _ _ => true) r.1 n).1.WellFormed
          rw [hremove]
          exact hr.removeEntry
        · show (removeIf (fun _ _ => true) r.1 n).1.table = ns
          rw [hremove]
          show r.1.table.erase n = ns
          rw [htable, List.erase_cons_head]
  exact hloop s.table _ hs rfl

theorem content_clear (hs : s.WellFormed) (k : K) : s.clear.1.content k = none := by
  have hnone : s.clear.1.find k = none := by
    rw [find_eq_none_iff, table_clear hs]
    intro n hn
    cases hn
  rw [ObservableMap.content, hnone]
  rfl

theorem content_putAll (hs : s.WellFormed) (m : List (MapEntry K V)) :
    (s.putAll m).1.content =
      m.foldl putInto s.content := by
  induction m generalizing s with
  | nil => rfl
  | cons e m ih =>
      rw [putAll_cons, List.foldl_cons,
        ih (explained_put hs e.key e.value).wellFormed, content_put hs]
      rfl

theorem foldl_update_of_ne {m : List (MapEntry K V)} {k : K}
    (h : ∀ e ∈ m, e.key ≠ k) (c : Content K V) :
    m.foldl putInto c k = c k := by
  induction m generalizing c with
  | nil => rfl
  | cons e m ih =>
      rw [List.foldl_cons, ih fun e' he' => h e' (List.mem_cons_of_mem _ he'),
        putInto, Function.update_of_ne (h e List.mem_cons_self).symm]

theorem foldl_update_of_mem {m : List (MapEntry K V)} {e : MapEntry K V} (he : e ∈ m)
    (hkeys : m.Pairwise fun a b => a.key ≠ b.key) (c : Content K V) :
    m.foldl putInto c e.key =
      some e.value := by
  induction m generalizing c with
  | nil => cases he
  | cons e' m ih =>
      obtain ⟨hhead, htail⟩ := List.pairwise_cons.mp hkeys
      rw [List.foldl_cons]
      rcases List.mem_cons.mp he with rfl | he
      · rw [foldl_update_of_ne (fun e'' he'' => (hhead e'' he'').symm),
          putInto, Function.update_self]
      · exact ih he htail _

/-- The copy has the content of the source. -/
theorem content_copyInto (hm : map.WellFormed) (hs : s.WellFormed) :
    (ContentBinding.copyInto map s).WellFormed ∧
      (ContentBinding.copyInto map s).content = s.content := by
  have hclear : map.clear.1.WellFormed := (explained_removeLoop hm _).wellFormed
  refine ⟨(explained_putAll hclear _).wellFormed, funext fun k => ?_⟩
  unfold ContentBinding.copyInto
  rw [content_putAll hclear]
  have hmem : ∀ e, e ∈ s.table.filterMap (s.entries[·]?) ↔
      ∃ n ∈ s.table, s.entries[n]? = some e := fun e => List.mem_filterMap
  have hkeyOf : ∀ {n e}, s.entries[n]? = some e → s.keyOf n = some e.key := by
    intro n e he
    rw [keyOf, he]
    rfl
  cases hf : s.find k with
  | some n =>
      obtain ⟨hn, hk⟩ := mem_of_find hf
      obtain ⟨e, he, hke, hv⟩ := exists_entry hs hn
      obtain rfl : e.key = k := Option.some.inj (hke.symm.trans hk)
      rw [content_eq hs hn hk, hv]
      refine foldl_update_of_mem ((hmem e).mpr ⟨n, hn, he⟩) ?_ _
      refine List.pairwise_filterMap.mpr (List.Pairwise.imp_of_mem ?_ hs.nodup)
      intro n₁ n₂ hn₁ hn₂ hne e₁ he₁ e₂ he₂ heq
      exact hne (hs.keys n₁ hn₁ n₂ hn₂ (by rw [hkeyOf he₁, hkeyOf he₂, heq]))
  | none =>
      have hnone : s.content k = none := by
        rw [ObservableMap.content, hf]
        rfl
      rw [hnone, foldl_update_of_ne, content_clear hm]
      intro e he heq
      obtain ⟨n, hn, he⟩ := (hmem e).mp he
      exact find_eq_none_iff.mp hf n hn (by rw [hkeyOf he, heq])

end Steps

/-! ## The guard of the bidirectional binding -/

namespace BidirectionalMaps

theorem get_set (s : BidirectionalMaps K V) (side : Side) (m : ObservableMap K V) :
    (s.set side m).get side = m := by
  cases side <;> rfl

theorem get_set_other (s : BidirectionalMaps K V) (side : Side)
    (m : ObservableMap K V) : (s.set side m).get side.other = s.get side.other := by
  cases side <;> rfl

theorem set_updating (s : BidirectionalMaps K V) (side : Side)
    (m : ObservableMap K V) : (s.set side m).updating = s.updating := by
  cases side <;> rfl

theorem set_set (s : BidirectionalMaps K V) (side : Side)
    (m m' : ObservableMap K V) : (s.set side m).set side m' = s.set side m' := by
  cases side <;> rfl

theorem set_get (s : BidirectionalMaps K V) (side : Side) :
    s.set side (s.get side) = s := by
  cases side <;> rfl

end BidirectionalMaps

namespace BidirectionalContentBinding

variable {s : BidirectionalMaps K V}

/-- The events of the listener's own operation are ignored. -/
theorem foldlM_onMapChanged_busy (stack : ℕ) (side : Side) (hbusy : s.updating = true)
    (es : List (MapChange K V)) :
    es.foldlM (onMapChanged (stack + 1) side) s = .ok s := by
  induction es with
  | nil => rfl
  | cons e es ih =>
      rw [List.foldlM_cons, onMapChanged, if_pos hbusy]
      exact ih

theorem onMapChanged_idle (stack : ℕ) (side : Side) (hidle : s.updating = false)
    (e : MapChange K V) :
    onMapChanged (stack + 2) side s e =
      .ok (s.set side.other (ContentBinding.onMapChanged (s.get side.other) e)) := by
  have hbusy : (BidirectionalMaps.set { s with updating := true } side.other
      (follow e (s.get side.other)).1).updating = true :=
    BidirectionalMaps.set_updating _ _ _
  rw [onMapChanged, if_neg (by rw [hidle]; exact Bool.false_ne_true)]
  simp only
  rw [foldlM_onMapChanged_busy stack side.other hbusy]
  show Except.ok _ = Except.ok _
  congr 1
  cases side <;>
    simp [BidirectionalMaps.set, Side.other, hidle, ContentBinding.onMapChanged]

/-- One side follows the events of the other as in the plain binding. -/
theorem foldlM_onMapChanged_idle (stack : ℕ) (side : Side)
    (hidle : s.updating = false) (es : List (MapChange K V)) :
    es.foldlM (onMapChanged (stack + 2) side) s =
      .ok (s.set side.other
        (es.foldl ContentBinding.onMapChanged (s.get side.other))) := by
  induction es generalizing s with
  | nil =>
      rw [List.foldl_nil, BidirectionalMaps.set_get]
      rfl
  | cons e es ih =>
      rw [List.foldlM_cons, onMapChanged_idle stack side hidle]
      show es.foldlM _ _ = _
      rw [ih (by rw [BidirectionalMaps.set_updating]; exact hidle),
        BidirectionalMaps.set_set, BidirectionalMaps.get_set, List.foldl_cons]

end BidirectionalContentBinding

/-! ## Runs -/

section Runs

variable [EquivBEq V]

/-- After every operation of the run the bound map has the keys and values of its
source. -/
def ContentBinding.MapsMirror (map1 map2 : ObservableMap K V)
    (ops : List (MapOp K V)) : Prop :=
  ∀ pre, pre <+: ops → ∃ s,
    runAll ContentBinding.mapStep (ContentBinding.bindMaps map1 map2) pre = .ok s ∧
      SameContent s.source.content s.map.content

/-- After every operation of the run, on either side, the two maps have the same
keys and values. -/
def BidirectionalContentBinding.MapsMirror (stack : ℕ) (map1 map2 : ObservableMap K V)
    (ops : List (Side × MapOp K V)) : Prop :=
  ∀ pre, pre <+: ops → ∃ s,
    runAll (BidirectionalContentBinding.mapStep stack)
        (BidirectionalContentBinding.bindMaps map1 map2) pre = .ok s ∧
      SameContent s.map1.content s.map2.content

/-- Along the run no operation on the source replaces a value. -/
def ContentBinding.NeverReplaces (map1 map2 : ObservableMap K V)
    (ops : List (MapOp K V)) : Prop :=
  Along ContentBinding.mapStep (fun s op => ReplacesNothing s.source op)
    (ContentBinding.bindMaps map1 map2) ops

/-- Along the run no operation replaces a value of the map it is performed on. -/
def BidirectionalContentBinding.NeverReplaces (stack : ℕ)
    (map1 map2 : ObservableMap K V) (ops : List (Side × MapOp K V)) : Prop :=
  Along (BidirectionalContentBinding.mapStep stack)
    (fun s x => ReplacesNothing (s.get x.1) x.2)
    (BidirectionalContentBinding.bindMaps map1 map2) ops

variable {map1 map2 : ObservableMap K V}

theorem ContentBinding.mapsMirror_iff (h1 : map1.WellFormed) (h2 : map2.WellFormed)
    {ops : List (MapOp K V)} (hops : ∀ op ∈ ops, IsMapOrViewOp op) :
    ContentBinding.MapsMirror map1 map2 ops ↔
      ContentBinding.NeverReplaces map1 map2 ops := by
  obtain ⟨hcopy, hcontent⟩ := content_copyInto h1 h2
  refine prefixes_iff_along
    (W := fun s : BoundMaps K V => s.source.WellFormed ∧ s.map.WellFormed)
    (G := fun s : BoundMaps K V => SameContent s.source.content s.map.content)
    (V := IsMapOrViewOp) ?_ ⟨h2, hcopy⟩ ?_ hops
  · rintro s op ⟨hs, hm⟩ hsame hop
    obtain ⟨hs', hm', hiff⟩ := deliver_perform hs hm hsame hop
    exact ⟨_, rfl, ⟨hs', hm'⟩, hiff⟩
  · show SameContent map2.content (ContentBinding.copyInto map1 map2).content
    rw [hcontent]
    exact .refl _

theorem BidirectionalContentBinding.mapsMirror_iff (stack : ℕ)
    (h1 : map1.WellFormed) (h2 : map2.WellFormed) {ops : List (Side × MapOp K V)}
    (hops : ∀ x ∈ ops, IsMapOrViewOp x.2) :
    BidirectionalContentBinding.MapsMirror (stack + 2) map1 map2 ops ↔
      BidirectionalContentBinding.NeverReplaces (stack + 2) map1 map2 ops := by
  obtain ⟨hcopy, hcontent⟩ := content_copyInto h1 h2
  refine prefixes_iff_along
    (W := fun s : BidirectionalMaps K V =>
      s.map1.WellFormed ∧ s.map2.WellFormed ∧ s.updating = false)
    (G := fun s : BidirectionalMaps K V =>
      SameContent s.map1.content s.map2.content)
    (V := fun x : Side × MapOp K V => IsMapOrViewOp x.2)
    ?_ ⟨hcopy, h2, rfl⟩ ?_ hops
  · rintro s ⟨side, op⟩ ⟨hs1, hs2, hidle⟩ hsame hop
    refine ⟨_, foldlM_onMapChanged_idle stack side
      (by rw [BidirectionalMaps.set_updating]; exact hidle) _, ?_⟩
    rw [BidirectionalMaps.get_set_other]
    cases side with
    | first =>
        obtain ⟨hs', hm', hiff⟩ := deliver_perform hs1 hs2 hsame hop
        exact ⟨⟨hs', hm', hidle⟩, hiff⟩
    | second =>
        obtain ⟨hs', hm', hiff⟩ := deliver_perform hs2 hs1 hsame.symm hop
        exact ⟨⟨hm', hs', hidle⟩, ⟨fun h => hiff.mp h.symm, fun h => (hiff.mpr h).symm⟩⟩
  · show SameContent (ContentBinding.copyInto map1 map2).content map2.content
    rw [hcontent]
    exact .refl _

/-- **Map content bindings.** Along every run of operations on the map and its
views, a map bound by `ContentBinding` has the keys and values of its source after
every operation if and only if no operation replaces a value by a different one;
the same for two maps bound by `BidirectionalContentBinding`, whichever side an
operation is performed on. -/
theorem map_content_bindings_mirror_iff (stack : ℕ) (map1 map2 : ObservableMap K V)
    (h1 : map1.WellFormed) (h2 : map2.WellFormed) (ops : List (MapOp K V))
    (sided : List (Side × MapOp K V)) (hops : ∀ op ∈ ops, IsMapOrViewOp op)
    (hsided : ∀ x ∈ sided, IsMapOrViewOp x.2) :
    (ContentBinding.MapsMirror map1 map2 ops ↔
      ContentBinding.NeverReplaces map1 map2 ops) ∧
    (BidirectionalContentBinding.MapsMirror (stack + 2) map1 map2 sided ↔
      BidirectionalContentBinding.NeverReplaces (stack + 2) map1 map2 sided) :=
  ⟨ContentBinding.mapsMirror_iff h1 h2 hops,
    BidirectionalContentBinding.mapsMirror_iff stack h1 h2 hsided⟩

end Runs

/-- A key is put, put again with the same value, another is put from the other
side, and the first is removed through an iterator. -/
theorem map_content_bindings_mirror_iterated :
    ContentBinding.MapsMirror ({} : ObservableMap ℕ ℕ) {}
        [.put 1 (some 10), .put 1 (some 10), .iterator, .next 0, .iteratorRemove 0] ∧
      BidirectionalContentBinding.MapsMirror 2 ({} : ObservableMap ℕ ℕ) {}
        [(.first, .put 1 (some 10)), (.second, .put 2 none), (.second, .remove 1),
          (.first, .clear)] := by
  obtain ⟨hplain, hsided⟩ := map_content_bindings_mirror_iff 0 ({} : ObservableMap ℕ ℕ)
    {} wellFormed_empty wellFormed_empty
    [.put 1 (some 10), .put 1 (some 10), .iterator, .next 0, .iteratorRemove 0]
    [(.first, .put 1 (some 10)), (.second, .put 2 none), (.second, .remove 1),
      (.first, .clear)]
    (by simp [IsMapOrViewOp]) (by simp [IsMapOrViewOp])
  refine ⟨hplain.mpr ?_, hsided.mpr ?_⟩
  · refine ⟨Or.inl rfl, Or.inr rfl, trivial, trivial, trivial, trivial⟩
  · refine ⟨Or.inl rfl, Or.inl rfl, trivial, trivial, trivial⟩

/-- A `put` over an existing key removes the key from the bound map. -/
theorem replaced_key_lost :
    (∃ s, runAll ContentBinding.mapStep
        (ContentBinding.bindMaps ({} : ObservableMap ℕ ℕ) {})
        [.put 1 (some 10), .put 1 (some 20)] = .ok s ∧
      s.source.content 1 = some (some 20) ∧ s.map.content 1 = none) ∧
    ¬ContentBinding.MapsMirror ({} : ObservableMap ℕ ℕ) {}
        [.put 1 (some 10), .put 1 (some 20)] ∧
    ¬BidirectionalContentBinding.MapsMirror 2 ({} : ObservableMap ℕ ℕ) {}
        [(.second, .put 1 (some 10)), (.second, .put 1 (some 20))] := by
  refine ⟨⟨_, rfl, by decide, by decide⟩, ?_, ?_⟩
  · intro h
    obtain ⟨s, hs, hsame⟩ := h _ (List.prefix_refl _)
    cases hs
    exact hsame 1
  · intro h
    obtain ⟨s, hs, hsame⟩ := h _ (List.prefix_refl _)
    cases hs
    exact hsame 1

end JavaFx.Binding
