import JavaFx.Collections.MapEntries

/-!
# The events of an `ObservableMapWrapper`

Replaying the events of a run on the content the map started with has to give
the content it ends with, up to `equals` of the values. `Reproduces` is this
replay. Every operation is a sequence of writes, additions and removals of
entries, and each of these changes the content at one key.
-/

set_option linter.unusedSectionVars false

namespace JavaFx.Collections

variable {K V : Type} [DecidableEq K] [BEq V]

/-! ## Replaying events -/

/-- What a map holds: for each key its value, or `none`. -/
abbrev Content (K V : Type) := K → Option (Option V)

/-- Equal up to `equals` of the values. -/
def SameMapping : Option (Option V) → Option (Option V) → Prop
  | none, none => True
  | some a, some b => sameValue a b = true
  | _, _ => False

def SameContent (c c' : Content K V) : Prop := ∀ k, SameMapping (c k) (c' k)

namespace MapChange

/-- A removal deletes the key, an addition then stores the value. -/
def apply (e : MapChange K V) (c : Content K V) : Content K V :=
  let c := if e.wasRemoved then Function.update c e.key none else c
  if e.wasAdded then Function.update c e.key (some e.valueAdded) else c

/-- A removal reports the value the key has immediately before. -/
def Fits (e : MapChange K V) (c : Content K V) : Prop :=
  e.wasRemoved = true → SameMapping (c e.key) (some e.valueRemoved)

end MapChange

/-- The events, applied in order, fit and turn `c` into `c'`. -/
def Reproduces : Content K V → List (MapChange K V) → Content K V → Prop
  | c, [], c' => SameContent c c'
  | c, e :: es, c' => e.Fits c ∧ Reproduces (e.apply c) es c'

section Equivalence

variable [EquivBEq V]

theorem sameValue_refl (a : Option V) : sameValue a a = true := by
  cases a with
  | none => rfl
  | some a => exact BEq.refl a

theorem sameValue_symm {a b : Option V} (h : sameValue a b = true) :
    sameValue b a = true := by
  cases a <;> cases b <;> simp_all [sameValue, BEq.comm]

theorem sameValue_trans {a b c : Option V} (hab : sameValue a b = true)
    (hbc : sameValue b c = true) : sameValue a c = true := by
  cases a with
  | none => cases b <;> cases c <;> simp_all [sameValue]
  | some a =>
      cases b with
      | none => simp [sameValue] at hab
      | some b =>
          cases c with
          | none => simp [sameValue] at hbc
          | some c => exact BEq.trans hab hbc

theorem SameMapping.refl (a : Option (Option V)) : SameMapping a a := by
  cases a with
  | none => trivial
  | some a => exact sameValue_refl a

theorem SameMapping.symm {a b : Option (Option V)} (h : SameMapping a b) :
    SameMapping b a := by
  cases a <;> cases b <;> first | exact h | exact sameValue_symm h

theorem SameMapping.trans {a b c : Option (Option V)} (hab : SameMapping a b)
    (hbc : SameMapping b c) : SameMapping a c := by
  cases a <;> cases b <;> cases c <;>
    first | trivial | exact hab.elim | exact hbc.elim | exact sameValue_trans hab hbc

theorem SameContent.refl (c : Content K V) : SameContent c c := fun _ => .refl _

theorem SameContent.symm {c d : Content K V} (h : SameContent c d) :
    SameContent d c := fun k => (h k).symm

theorem SameContent.trans {c d e : Content K V} (h : SameContent c d)
    (h' : SameContent d e) : SameContent c e := fun k => (h k).trans (h' k)

theorem SameContent.update {c d : Content K V} (h : SameContent c d) (k : K)
    (v : Option (Option V)) :
    SameContent (Function.update c k v) (Function.update d k v) := by
  intro k'
  by_cases hk : k' = k
  · subst hk
    rw [Function.update_self, Function.update_self]
    exact .refl v
  · rw [Function.update_of_ne hk, Function.update_of_ne hk]
    exact h k'

theorem MapChange.apply_congr {c d : Content K V} (h : SameContent c d)
    (e : MapChange K V) : SameContent (e.apply c) (e.apply d) := by
  unfold MapChange.apply
  cases e.wasRemoved <;> cases e.wasAdded <;>
    simp only [if_true, Bool.false_eq_true, if_false]
  · exact h
  · exact h.update _ _
  · exact h.update _ _
  · exact (h.update _ _).update _ _

theorem MapChange.Fits.congr {c d : Content K V} (h : SameContent c d)
    {e : MapChange K V} (he : e.Fits c) : e.Fits d :=
  fun hrem => (h _).symm.trans (he hrem)

theorem Reproduces.congr {c d c' d' : Content K V} {es : List (MapChange K V)}
    (h : Reproduces c es c') (hc : SameContent c d) (hc' : SameContent c' d') :
    Reproduces d es d' := by
  induction es generalizing c d with
  | nil => exact hc.symm.trans (SameContent.trans h hc')
  | cons e es ih => exact ⟨h.1.congr hc, ih h.2 (e.apply_congr hc)⟩

/-- After events that reproduce a content the replay goes on from there. -/
theorem Reproduces.append_iff {c m c' : Content K V}
    {es es' : List (MapChange K V)} (h : Reproduces c es m) :
    Reproduces c (es ++ es') c' ↔ Reproduces m es' c' := by
  induction es generalizing c with
  | nil =>
      exact ⟨fun h' => Reproduces.congr h' h (.refl _),
        fun h' => h'.congr (SameContent.symm h) (.refl _)⟩
  | cons e es ih =>
      rw [← ih h.2]
      exact ⟨fun h' => h'.2, fun h' => ⟨h.1, h'⟩⟩

end Equivalence

/-! ## The operations of the map and its views -/

namespace ObservableMap

/-- The events of an operation on `s` reproduce the content it leaves. -/
structure Explained (s : ObservableMap K V) (r : Result K V) : Prop where
  wellFormed : r.1.WellFormed
  reproduces : Reproduces s.content r.2 r.1.content

section Operations

variable [EquivBEq V] {s : ObservableMap K V}

theorem Explained.unchanged (h : s.WellFormed) : Explained s (s, []) :=
  ⟨h, .refl _⟩

theorem Explained.andThen {r : Result K V} {f : ObservableMap K V → Result K V}
    (hr : Explained s r) (hf : Explained r.1 (f r.1)) :
    Explained s (andThen r f) :=
  ⟨hf.wellFormed, hr.reproduces.append_iff.mpr hf.reproduces⟩

/-- The removal of an entry, reported with an equal value. -/
theorem explained_removeEntry (h : s.WellFormed) {n : ℕ} {k : K} {v w : Option V}
    (hn : n ∈ s.table) (hk : s.keyOf n = some k) (hv : s.valueOf n = some v)
    (hsame : sameValue v w = true) :
    Explained s (s.removeEntry n, [⟨k, w, none, false, true⟩]) := by
  refine ⟨h.removeEntry, fun _ => ?_, ?_⟩
  · show SameMapping (s.content k) (some w)
    rw [content_eq h hn hk, hv]
    exact hsame
  · rw [content_removeEntry h hn hk]
    exact .refl _

theorem valueChanged_eq (ret value : Option V) :
    valueChanged ret value = !sameValue ret value := by
  cases ret <;> cases value <;> rfl

theorem explained_put (h : s.WellFormed) (k : K) (v : Option V) :
    Explained s (s.put k v) := by
  unfold put
  cases hf : s.find k with
  | none =>
      refine ⟨h.addEntry hf, fun hrem => Bool.noConfusion hrem, ?_⟩
      show SameContent _ _
      rw [content_addEntry h hf]
      exact .refl _
  | some n =>
      obtain ⟨hn, hk⟩ := mem_of_find hf
      obtain ⟨e, -, hke, hv⟩ := exists_entry h hn
      have hcontent := content_eq h hn hk
      simp only [hv, Option.getD_some, valueChanged_eq]
      refine ⟨h.writeValue, ?_⟩
      rw [content_writeValue h hn hk]
      by_cases hsame : sameValue e.value v = true
      · rw [if_neg (by simp [hsame])]
        intro k'
        by_cases hkk : k' = k
        · subst hkk
          rw [Function.update_self, hcontent, hv]
          exact hsame
        · rw [Function.update_of_ne hkk]
          exact .refl _
      · rw [if_pos (by simp [hsame])]
        refine ⟨fun _ => ?_, ?_⟩
        · show SameMapping (s.content k) (some e.value)
          rw [hcontent, hv]
          exact sameValue_refl _
        · show SameContent (Function.update (Function.update s.content k none) k _) _
          rw [Function.update_idem]
          exact .refl _

theorem explained_remove (h : s.WellFormed) (k : K) : Explained s (s.remove k) := by
  unfold remove
  cases hf : s.find k with
  | none => exact .unchanged h
  | some n =>
      obtain ⟨hn, hk⟩ := mem_of_find hf
      obtain ⟨e, -, -, hv⟩ := exists_entry h hn
      simp only [hv, Option.getD_some]
      exact explained_removeEntry h hn hk hv (sameValue_refl _)

/-- The result of a sequence of operations, the first one taken apart. -/
theorem foldl_andThen_cons {β : Type}
    (f : β → ObservableMap K V → Result K V) (s : ObservableMap K V) (x : β)
    (xs : List β) :
    (x :: xs).foldl (fun r x => ObservableMap.andThen r (f x)) (s, []) =
      ((xs.foldl (fun r x => ObservableMap.andThen r (f x)) ((f x s).1, [])).1,
        (f x s).2 ++
          (xs.foldl (fun r x => ObservableMap.andThen r (f x)) ((f x s).1, [])).2) := by
  have hacc : ∀ (xs : List β) (t : ObservableMap K V) (es : List (MapChange K V)),
      xs.foldl (fun r x => ObservableMap.andThen r (f x)) (t, es) =
        ((xs.foldl (fun r x => ObservableMap.andThen r (f x)) (t, [])).1,
          es ++ (xs.foldl (fun r x => ObservableMap.andThen r (f x)) (t, [])).2) := by
    intro xs
    induction xs with
    | nil => intro t es; simp
    | cons y xs ih =>
        intro t es
        rw [List.foldl_cons, List.foldl_cons, ObservableMap.andThen, ih,
          ObservableMap.andThen, ih _ ([] ++ _)]
        simp
  rw [List.foldl_cons, ObservableMap.andThen, hacc]
  simp

theorem explained_putAll (h : s.WellFormed) (m : List (MapEntry K V)) :
    Explained s (s.putAll m) := by
  have hloop : ∀ (m : List (MapEntry K V)) (r : Result K V), Explained s r →
      Explained s (m.foldl (fun r e => andThen r (put e.key e.value)) r) := by
    intro m
    induction m with
    | nil => intro r hr; exact hr
    | cons e m ih =>
        intro r hr
        exact ih _ (hr.andThen (explained_put hr.wellFormed e.key e.value))
  exact hloop m _ (.unchanged h)

theorem explained_removeIf (h : s.WellFormed) (test : K → Option V → Bool) {n : ℕ}
    (hn : n ∈ s.table) : Explained s (removeIf test s n) := by
  obtain ⟨e, he, hk, hv⟩ := exists_entry h hn
  unfold removeIf
  simp only [he]
  by_cases htest : test e.key e.value = true
  · rw [if_pos htest]
    exact explained_removeEntry h hn hk hv (sameValue_refl _)
  · rw [if_neg htest]
    exact .unchanged h

theorem mem_table_removeIf (h : s.WellFormed) (test : K → Option V → Bool)
    {n m : ℕ} (hm : m ∈ s.table) (hne : m ≠ n) :
    m ∈ (removeIf test s n).1.table := by
  unfold removeIf
  cases s.entries[n]? with
  | none => exact hm
  | some e =>
      by_cases htest : test e.key e.value = true
      · simp only [htest, if_true]
        exact (mem_table_removeEntry h).mpr ⟨hne, hm⟩
      · simp only [htest]
        exact hm

theorem explained_removeLoop (h : s.WellFormed) (test : K → Option V → Bool) :
    Explained s (removeLoop test s) := by
  -- the entries still to be visited are in the map
  have hloop : ∀ (ns : List ℕ) (r : Result K V), ns.Nodup →
      (∀ n ∈ ns, n ∈ r.1.table) → Explained s r →
      Explained s (ns.foldl (fun r n => andThen r (removeIf test · n)) r) := by
    intro ns
    induction ns with
    | nil => intro r _ _ hr; exact hr
    | cons n ns ih =>
        intro r hnodup hmem hr
        obtain ⟨hn, hns⟩ := List.nodup_cons.mp hnodup
        refine ih _ hns (fun m hm => ?_) (hr.andThen
          (explained_removeIf hr.wellFormed test (hmem n List.mem_cons_self)))
        exact mem_table_removeIf hr.wellFormed test
          (hmem m (List.mem_cons_of_mem _ hm)) fun heq => hn (heq ▸ hm)
  exact hloop s.table _ h.nodup (fun _ hn => hn) (.unchanged h)

theorem firstWithValue_mem {o : Option V} {ns : List ℕ} {n : ℕ}
    (h : s.firstWithValue o ns = .ok (some n)) : n ∈ ns := by
  induction ns with
  | nil => cases h
  | cons m ns ih =>
      unfold firstWithValue at h
      split at h
      · split at h
        · cases h
          exact List.mem_cons_self
        · exact List.mem_cons_of_mem _ (ih h)
      · cases h

theorem explained_valuesRemove (h : s.WellFormed) {o : Option V} {r : Result K V}
    (hr : s.valuesRemove o = .ok r) : Explained s r := by
  unfold valuesRemove at hr
  obtain ⟨found, hfound, hr⟩ := except_bind_eq_ok.mp hr
  cases found with
  | none => cases hr; exact .unchanged h
  | some n =>
      cases hr
      exact explained_removeIf h _ (firstWithValue_mem hfound)

theorem explained_entrySetRemove (h : s.WellFormed) (o : Option (MapEntry K V)) :
    Explained s (s.entrySetRemove o) := by
  unfold entrySetRemove
  cases o with
  | none => exact .unchanged h
  | some e =>
      cases hf : s.find e.key with
      | none => simp only [hf]; exact .unchanged h
      | some n =>
          obtain ⟨hn, hk⟩ := mem_of_find hf
          obtain ⟨e', -, -, hv⟩ := exists_entry h hn
          simp only [hf, hv, Option.getD_some]
          by_cases hsame : sameValue e'.value e.value = true
          · rw [if_pos hsame]
            exact explained_removeEntry h hn hk hv hsame
          · rw [if_neg hsame]
            exact .unchanged h

/-! ## Iterators -/

theorem wellFormed_iterator (h : s.WellFormed) : s.iterator.WellFormed where
  nodup := h.nodup
  lt := h.lt
  keys := h.keys
  valid := fun it hit => by
    rcases List.mem_append.mp hit with hit | hit
    · obtain ⟨hle, hnodup, hrest, hlast⟩ := h.valid it hit
      exact ⟨hle, hnodup, hrest, hlast⟩
    · rw [List.mem_singleton] at hit
      subst hit
      exact ⟨le_rfl, fun _ => h.nodup, fun _ _ hn => hn, fun _ _ hn => by cases hn⟩

theorem WellFormed.setIterator (h : s.WellFormed) {it : MapIterator K V} (j : ℕ)
    (hit : it.Valid s) : (s.setIterator j it).WellFormed where
  nodup := h.nodup
  lt := h.lt
  keys := h.keys
  valid := fun it' hit' => by
    have hvalid : it'.Valid s := by
      rcases List.mem_or_eq_of_mem_set hit' with hmem | rfl
      · exact h.valid it' hmem
      · exact hit
    exact ⟨hvalid.le, hvalid.nodup, hvalid.rest, hvalid.last⟩

theorem explained_next (h : s.WellFormed) {j : ℕ} {r : Result K V}
    (hr : s.next j = .ok r) : Explained s r := by
  unfold next at hr
  cases hj : s.iterators[j]? with
  | none => rw [hj] at hr; cases hr
  | some it =>
      simp only [hj] at hr
      have hvalid := h.valid it (List.mem_of_getElem? hj)
      by_cases hmod : s.modCount ≠ it.expectedModCount
      · rw [if_pos hmod] at hr
        cases hr
      · rw [if_neg hmod] at hr
        have hcur : it.expectedModCount = s.modCount := by omega
        cases hrest : it.rest with
        | nil => rw [hrest] at hr; cases hr
        | cons n rest =>
            rw [hrest] at hr
            cases hr
            have hnodup := hvalid.nodup hcur
            have hmem := hvalid.rest hcur
            rw [hrest] at hnodup hmem
            refine ⟨h.setIterator j ⟨hvalid.le, fun _ => (List.nodup_cons.mp hnodup).2,
              fun _ m hm => hmem m (List.mem_cons_of_mem _ hm), fun _ m hm => ?_⟩,
              .refl _⟩
            cases hm
            exact ⟨hmem n List.mem_cons_self, (List.nodup_cons.mp hnodup).1, rfl⟩

/-- An iterator may remove an entry: the value it has cached is still the one of
the entry. -/
def CachedValueCurrent (s : ObservableMap K V) (j : ℕ) : Prop :=
  ∀ it, s.iterators[j]? = some it → it.expectedModCount = s.modCount →
    ∀ n, it.lastReturned = some n →
      SameMapping (s.valueOf n) (some it.lastValue)

theorem iteratorRemove_spec (h : s.WellFormed) {j : ℕ} {r : Result K V}
    (hr : s.iteratorRemove j = .ok r) :
    r.1.WellFormed ∧ ∃ it n k, s.iterators[j]? = some it ∧
      it.expectedModCount = s.modCount ∧ it.lastReturned = some n ∧ n ∈ s.table ∧
      s.keyOf n = some k ∧ r.2 = [⟨k, it.lastValue, none, false, true⟩] ∧
      r.1.content = Function.update s.content k none := by
  unfold iteratorRemove at hr
  cases hj : s.iterators[j]? with
  | none => rw [hj] at hr; cases hr
  | some it =>
      simp only [hj] at hr
      have hvalid := h.valid it (List.mem_of_getElem? hj)
      cases hlast : it.lastReturned with
      | none => rw [hlast] at hr; cases hr
      | some n =>
          cases hk : s.keyOf n with
          | none => simp [hlast, hk] at hr
          | some k =>
              cases hkey : it.lastKey with
              | none => simp [hlast, hk, hkey] at hr
              | some lastKey =>
                  simp only [hlast, Option.bind_some, hk, hkey] at hr
                  by_cases hmod : s.modCount ≠ it.expectedModCount
                  · rw [if_pos hmod] at hr
                    cases hr
                  · rw [if_neg hmod] at hr
                    cases hr
                    have hcur : it.expectedModCount = s.modCount := by omega
                    obtain ⟨hn, hnrest, hkn⟩ := hvalid.last hcur n hlast
                    have hremoved : s.removeKey k = s.removeEntry n := by
                      rw [removeKey, find_eq_some h hn hk]
                    obtain rfl : lastKey = k := by
                      rw [hkey, hk] at hkn
                      exact Option.some.inj hkn
                    rw [hremoved]
                    refine ⟨h.removeEntry.setIterator j ⟨le_rfl, fun _ =>
                      hvalid.nodup hcur, fun _ m hm => ?_, fun _ m hm => by cases hm⟩,
                      it, n, lastKey, rfl, hcur, hlast, hn, hk, rfl,
                      content_removeEntry h hn hk⟩
                    exact (mem_table_removeEntry h).mpr
                      ⟨fun heq => hnrest (heq ▸ hm), hvalid.rest hcur m hm⟩

theorem iteratorRemove_reproduces_iff (h : s.WellFormed) {j : ℕ} {r : Result K V}
    (hr : s.iteratorRemove j = .ok r) :
    Reproduces s.content r.2 r.1.content ↔ CachedValueCurrent s j := by
  obtain ⟨-, it, n, k, hj, hcur, hlast, hn, hk, hev, hcontent⟩ :=
    iteratorRemove_spec h hr
  rw [hev, hcontent]
  constructor
  · rintro ⟨hfits, -⟩ it' hj' _ n' hlast'
    rw [hj] at hj'
    cases hj'
    rw [hlast] at hlast'
    cases hlast'
    rw [← content_eq h hn hk]
    exact hfits rfl
  · intro hcached
    refine ⟨fun _ => ?_, .refl _⟩
    show SameMapping (s.content k) (some it.lastValue)
    rw [content_eq h hn hk]
    exact hcached it hj hcur n hlast

/-! ## Entries -/

/-- An entry may be written to: it is still in the map, or the map has, for its
key, a value equal to both the old and the new value of the entry. -/
def EntryAttached (s : ObservableMap K V) (n : ℕ) (value : Option V) : Prop :=
  ∀ e, s.entries[n]? = some e → n ∈ s.table ∨
    SameMapping (s.content e.key) (some e.value) ∧
      SameMapping (s.content e.key) (some value)

theorem setValue_reproduces_iff (h : s.WellFormed) {n : ℕ} {value : Option V}
    {r : Result K V} (hr : s.setValue n value = .ok r) :
    Reproduces s.content r.2 r.1.content ↔ EntryAttached s n value := by
  unfold setValue at hr
  cases he : s.entries[n]? with
  | none => rw [he] at hr; cases hr
  | some e =>
      rw [he] at hr
      cases hr
      have hkey : s.keyOf n = some e.key := by rw [keyOf, he]; rfl
      have hval : s.valueOf n = some e.value := by rw [valueOf, he]; rfl
      have happly : MapChange.apply ⟨e.key, e.value, value, true, true⟩ s.content =
          Function.update s.content e.key (some value) := by
        show Function.update (Function.update s.content e.key none) e.key _ = _
        rw [Function.update_idem]
      have hattached : EntryAttached s n value ↔ (n ∈ s.table ∨
          SameMapping (s.content e.key) (some e.value) ∧
            SameMapping (s.content e.key) (some value)) :=
        ⟨fun hall => hall e he, fun hone e' he' => by
          rw [he] at he'
          cases he'
          exact hone⟩
      rw [hattached]
      by_cases hn : n ∈ s.table
      · refine iff_of_true ⟨fun _ => ?_, ?_⟩ (Or.inl hn)
        · show SameMapping (s.content e.key) (some e.value)
          rw [content_eq h hn hkey, hval]
          exact sameValue_refl _
        · rw [happly, content_writeValue h hn hkey]
          exact .refl _
      · rw [content_writeValue_detached hn, or_iff_right hn]
        constructor
        · rintro ⟨hfits, hsame⟩
          refine ⟨hfits rfl, ?_⟩
          have := SameContent.symm hsame e.key
          rwa [happly, Function.update_self] at this
        · rintro ⟨hold, hnew⟩
          refine ⟨fun _ => hold, ?_⟩
          rw [happly]
          intro k
          by_cases hk : k = e.key
          · subst hk
            rw [Function.update_self]
            exact hnew.symm
          · rw [Function.update_of_ne hk]
            exact .refl _

/-! ## Every operation -/

/-- What an operation needs for its events to be right. -/
def EventsRight (s : ObservableMap K V) : MapOp K V → Prop
  | .iteratorRemove j => CachedValueCurrent s j
  | .setValue n value => EntryAttached s n value
  | _ => True

theorem explained_step (h : s.WellFormed) {op : MapOp K V} {r : Result K V}
    (hr : s.step op = .ok r) :
    r.1.WellFormed ∧
      (Reproduces s.content r.2 r.1.content ↔ EventsRight s op) := by
  have always : Explained s r → EventsRight s op →
      r.1.WellFormed ∧ (Reproduces s.content r.2 r.1.content ↔ EventsRight s op) :=
    fun hexp hright => ⟨hexp.wellFormed, iff_of_true hexp.reproduces hright⟩
  unfold step at hr
  cases op with
  | put k v => cases hr; exact always (explained_put h k v) trivial
  | remove k => cases hr; exact always (explained_remove h k) trivial
  | putAll m => cases hr; exact always (explained_putAll h m) trivial
  | clear => cases hr; exact always (explained_removeLoop h _) trivial
  | keySetRemove k => cases hr; exact always (explained_remove h k) trivial
  | keySetRemoveRetain c b => cases hr; exact always (explained_removeLoop h _) trivial
  | valuesRemove o => exact always (explained_valuesRemove h hr) trivial
  | valuesRemoveRetain c b => cases hr; exact always (explained_removeLoop h _) trivial
  | entrySetRemove o => cases hr; exact always (explained_entrySetRemove h o) trivial
  | entrySetRemoveRetain c b =>
      cases hr
      exact always (explained_removeLoop h _) trivial
  | iterator => cases hr; exact always ⟨wellFormed_iterator h, .refl _⟩ trivial
  | next j => exact always (explained_next h hr) trivial
  | iteratorRemove j =>
      exact ⟨(iteratorRemove_spec h hr).1, iteratorRemove_reproduces_iff h hr⟩
  | setValue n v =>
      refine ⟨?_, setValue_reproduces_iff h hr⟩
      simp only [setValue] at hr
      split at hr
      · cases hr
      · cases hr
        exact h.writeValue
  | rehash table =>
      simp only at hr
      split at hr
      · next hperm =>
          cases hr
          obtain ⟨hwf, hcontent⟩ := content_rehash h hperm
          refine always ⟨hwf, ?_⟩ trivial
          show SameContent _ _
          rw [hcontent]
          exact .refl _
      · cases hr
        exact always (.unchanged h) trivial

/-- An operation that throws is right as far as events go. -/
theorem eventsRight_of_error (h : s.WellFormed) {op : MapOp K V} {e : Exn}
    (he : s.step op = .error e) : EventsRight s op := by
  cases op with
  | iteratorRemove j =>
      intro it hj hcur n hlast
      obtain ⟨hn, -, hkey⟩ := (h.valid it (List.mem_of_getElem? hj)).last hcur n hlast
      obtain ⟨e', -, hk, -⟩ := exists_entry h hn
      rw [hk] at hkey
      simp only [step, iteratorRemove, hj, hlast, Option.bind_some, hk, hkey] at he
      rw [if_neg (by omega)] at he
      cases he
  | setValue n v =>
      intro e' he'
      simp only [step, setValue, he'] at he
      cases he
  | put k v => trivial
  | remove k => trivial
  | putAll m => trivial
  | clear => trivial
  | keySetRemove k => trivial
  | keySetRemoveRetain c b => trivial
  | valuesRemove o => trivial
  | valuesRemoveRetain c b => trivial
  | entrySetRemove o => trivial
  | entrySetRemoveRetain c b => trivial
  | iterator => trivial
  | next j => trivial
  | rehash table => trivial

theorem perform_spec (h : s.WellFormed) (op : MapOp K V) :
    (s.perform op).1.WellFormed ∧
      (Reproduces s.content (s.perform op).2 (s.perform op).1.content ↔
        EventsRight s op) := by
  unfold perform
  cases hr : s.step op with
  | ok r => exact explained_step h hr
  | error e => exact ⟨h, iff_of_true (.refl _) (eventsRight_of_error h hr)⟩

/-! ## Runs -/

/-- `P` holds before every operation of a sequence. -/
def AlongOps (P : ObservableMap K V → MapOp K V → Prop) :
    ObservableMap K V → List (MapOp K V) → Prop
  | _, [] => True
  | s, op :: ops => P s op ∧ AlongOps P (s.perform op).1 ops

theorem performAll_cons (s : ObservableMap K V) (op : MapOp K V)
    (ops : List (MapOp K V)) :
    s.performAll (op :: ops) = (((s.perform op).1.performAll ops).1,
      (s.perform op).2 ++ ((s.perform op).1.performAll ops).2) :=
  foldl_andThen_cons (fun op s => perform s op) s op ops

/-- **Event replay.** Along every sequence of operations on the map, its views,
their iterators and entries, the events fired so far reproduce the content of the
map after every operation if and only if every `remove()` of an iterator finds
the value it has cached and every `setValue` is made on an entry of the map. -/
theorem events_replay_iff (s : ObservableMap K V) (h : s.WellFormed)
    (ops : List (MapOp K V)) :
    (∀ pre, pre <+: ops →
      Reproduces s.content (s.performAll pre).2 (s.performAll pre).1.content) ↔
      AlongOps EventsRight s ops := by
  induction ops generalizing s with
  | nil =>
      refine iff_of_true (fun pre hpre => ?_) trivial
      rw [List.prefix_nil.mp hpre]
      exact .refl _
  | cons op ops ih =>
      obtain ⟨hwf, hstep⟩ := perform_spec h op
      have hone : (s.performAll [op]).2 = (s.perform op).2 ∧
          (s.performAll [op]).1 = (s.perform op).1 := by
        rw [performAll_cons]
        simp [performAll]
      constructor
      · intro hall
        have hfirst := hall [op] (List.prefix_append [op] ops)
        rw [hone.1, hone.2] at hfirst
        refine ⟨hstep.mp hfirst, (ih _ hwf).mp fun pre hpre => ?_⟩
        have hpre' := hall (op :: pre) (List.cons_prefix_cons.mpr ⟨rfl, hpre⟩)
        rw [performAll_cons] at hpre'
        exact hfirst.append_iff.mp hpre'
      · rintro ⟨hright, hrest⟩ pre hpre
        cases pre with
        | nil => exact .refl _
        | cons op' pre =>
            obtain ⟨rfl, hpre'⟩ := List.cons_prefix_cons.mp hpre
            rw [performAll_cons]
            exact (hstep.mpr hright).append_iff.mpr ((ih _ hwf).mpr hrest pre hpre')

theorem wellFormed_empty : ({} : ObservableMap K V).WellFormed where
  nodup := List.nodup_nil
  lt := fun _ hn => by cases hn
  keys := fun _ hn => by cases hn
  valid := fun _ hit => by cases hit

end Operations

/-- A value is replaced, changed through its entry, visited and removed. -/
theorem events_replay_iterated :
    ({} : ObservableMap ℕ ℕ).WellFormed ∧
    ∀ pre, pre <+: [MapOp.put 1 (some 10), .put 1 none, .setValue 0 (some 20),
        .iterator, .next 0, .put 1 (some 20), .iteratorRemove 0] →
      Reproduces ({} : ObservableMap ℕ ℕ).content
        (({} : ObservableMap ℕ ℕ).performAll pre).2
        (({} : ObservableMap ℕ ℕ).performAll pre).1.content := by
  refine ⟨wellFormed_empty, ?_⟩
  apply (events_replay_iff ({} : ObservableMap ℕ ℕ) wellFormed_empty _).mpr
  refine ⟨trivial, trivial, ?_, trivial, trivial, trivial, ?_, trivial⟩
  · intro e he
    cases he
    exact Or.inl (by decide)
  · intro it hj _ n hlast
    cases hj
    cases hlast
    exact rfl

/-- `setValue` on the entry an iterator stands on, followed by the iterator's
`remove()`: the removal is reported with the value from before. -/
theorem removal_reports_stale_value :
    (({} : ObservableMap ℕ ℕ).performAll [.put 1 (some 10), .iterator, .next 0,
        .setValue 0 (some 20), .iteratorRemove 0]).2 =
      [⟨1, none, some 10, true, false⟩, ⟨1, some 10, some 20, true, true⟩,
        ⟨1, some 10, none, false, true⟩] ∧
    ¬Reproduces ({} : ObservableMap ℕ ℕ).content
      (({} : ObservableMap ℕ ℕ).performAll [.put 1 (some 10), .iterator, .next 0,
        .setValue 0 (some 20), .iteratorRemove 0]).2
      (({} : ObservableMap ℕ ℕ).performAll [.put 1 (some 10), .iterator, .next 0,
        .setValue 0 (some 20), .iteratorRemove 0]).1.content := by
  refine ⟨by decide, ?_⟩
  rintro ⟨-, -, hfits, -⟩
  have hvalue := hfits rfl
  cases hvalue

end ObservableMap

end JavaFx.Collections
