import JavaFx.Collections.VetoableListDecorator

/-!
# The wrappers of a decorator follow the views they wrap

A view may be used as long as it and the lists it lies in have not been overtaken by
a structural change made elsewhere (`Usable`). The wrappers of the decorator then have
its modification count, the offset of the view, and a cursor that is the distance from
where the iterator was created, less the elements it has removed after `previous`
(`Tracks`).
-/

namespace JavaFx.Collections

variable {α : Type}

/-! ## Views that may still be used -/

/-- The list and all lists it lies in may still be used. -/
def PlainList.Usable (p : PlainList α) : ListRef → Prop
  | .top => True
  | .sub id outer =>
      (∃ v, p.subs id = some v ∧ v.outer = outer ∧ v.fresh = true) ∧ p.Usable outer

/-- Where a list starts. -/
def PlainList.start (p : PlainList α) : ListRef → ℕ
  | .top => 0
  | .sub id _ => (p.subs id).elim 0 SubView.lo

/-- The list that is called may still be used. -/
def PlainList.legalReceiver (p : PlainList α) : Option ℕ → Bool
  | none => true
  | some id => (p.subs id).any SubView.fresh

/-- The view that is called may still be used. -/
def PlainList.legal (p : PlainList α) : ListCall α → Bool
  | .list r _ => p.legalReceiver r
  | .observable _ => true
  | .view r _ => p.legalReceiver r
  | .iter id _ => (p.iters id).any IterView.fresh

namespace PlainList

variable {p : PlainList α} {r : ListRef}

theorem Usable.of_mem (h : p.Usable r) {id : ℕ} (hid : id ∈ r.ids) :
    ∃ v, p.subs id = some v ∧ v.fresh = true ∧ p.Usable v.outer ∧ v.outer.ids ⊆ r.ids := by
  induction r with
  | top => cases hid
  | sub k outer ih =>
      obtain ⟨⟨v, hv, hvo, hfresh⟩, houter⟩ := h
      rcases List.mem_cons.mp hid with rfl | hid
      · subst hvo
        exact ⟨v, hv, hfresh, houter, List.subset_cons_self _ _⟩
      · obtain ⟨v', hv', hfresh', hu, hsub⟩ := ih houter hid
        exact ⟨v', hv', hfresh', hu, fun x hx => List.mem_cons_of_mem _ (hsub hx)⟩

/-- What keeps the sub-lists of a list keeps it usable. -/
theorem Usable.congr {q : PlainList α} (h : p.Usable r)
    (hsame : ∀ id ∈ r.ids, ∀ v, p.subs id = some v →
      ∃ v', q.subs id = some v' ∧ v'.outer = v.outer ∧ v'.fresh = v.fresh) : q.Usable r := by
  induction r with
  | top => trivial
  | sub k outer ih =>
      obtain ⟨⟨v, hv, hvo, hfresh⟩, houter⟩ := h
      obtain ⟨v', hv', ho', hf'⟩ := hsame k List.mem_cons_self v hv
      refine ⟨⟨v', hv', ho'.trans hvo, hf'.trans hfresh⟩, ih houter fun id hid => ?_⟩
      exact hsame id (List.mem_cons_of_mem _ hid)

theorem Usable.window (h : p.Usable r) : ∃ size, p.window r = .ok (p.start r, size) := by
  cases r with
  | top => exact ⟨_, rfl⟩
  | sub id outer =>
      obtain ⟨⟨v, hv, -, hfresh⟩, -⟩ := h
      refine ⟨v.size, ?_⟩
      simp only [PlainList.window, hv, hfresh, if_true, start, Option.elim]

theorem resize_eq {id size n : ℕ} {v : SubView} (hv : p.subs id = some v) (hid : id ∈ r.ids) :
    p.resize r size n id = some { v with size := v.size - size + n } := by
  rw [resize, hv, Option.map_some, if_pos hid]

theorem store_of_structural {lo size : ℕ} {e : Effect α} (h : e.structural = true) :
    p.store r lo size e = { p with
      elements := Splice.splice lo size e.elements p.elements
      subs := p.resize r size e.elements.length
      iters := fun id => (p.iters id).map fun v => { v with fresh := false } } := by
  rw [store, if_pos h]

theorem store_of_not_structural {lo size : ℕ} {e : Effect α} (h : e.structural = false) :
    p.store r lo size e = { p with
      elements := Splice.splice lo size e.elements p.elements } := by
  rw [store, if_neg (by rw [h]; exact Bool.false_ne_true)]

/-- The list that has changed, and those it lies in, stay usable. -/
theorem Usable.store {lo size : ℕ} {e : Effect α} {r' : ListRef} (h : p.Usable r')
    (hsub : r'.ids ⊆ r.ids) : (p.store r lo size e).Usable r' := by
  apply h.congr
  intro id hid v hv
  cases hs : e.structural with
  | true =>
      rw [store_of_structural hs]
      exact ⟨_, resize_eq hv (hsub hid), rfl, rfl⟩
  | false =>
      rw [store_of_not_structural hs]
      exact ⟨v, hv, rfl, rfl⟩

theorem start_store {lo size : ℕ} {e : Effect α} (r' : ListRef) :
    (p.store r lo size e).start r' = p.start r' := by
  cases r' with
  | top => rfl
  | sub id outer =>
      cases hs : e.structural with
      | false =>
          rw [store_of_not_structural hs]
          rfl
      | true =>
          rw [store_of_structural hs]
          show (p.resize r size _ id).elim 0 SubView.lo = (p.subs id).elim 0 SubView.lo
          unfold resize
          cases p.subs id with
          | none => rfl
          | some v =>
              rw [Option.map_some]
              split <;> rfl

end PlainList

namespace VetoableListDecorator

variable {d : VetoableListDecorator α}

/-! ## Counting modifications -/

theorem incrementAndGet_eq (d : VetoableListDecorator α) (r : ListRef) :
    (d.incrementAndGet r).2 = d.modCount + 1 ∧
      (d.incrementAndGet r).1.modCount = d.modCount + 1 ∧
      (d.incrementAndGet r).1.list = d.list ∧ (d.incrementAndGet r).1.iters = d.iters := by
  induction r with
  | top => exact ⟨rfl, rfl, rfl, rfl⟩
  | sub id outer ih => exact ⟨ih.1, ih.2.1, ih.2.2.1, ih.2.2.2⟩

/-- The count of the list, and of those it lies in, is the new one. -/
theorem incrementAndGet_subs (d : VetoableListDecorator α) (r : ListRef) (id : ℕ) :
    (d.incrementAndGet r).1.subs id =
      if id ∈ r.ids then (d.subs id).map fun s => { s with modCount := d.modCount + 1 }
      else d.subs id := by
  induction r with
  | top => rfl
  | sub k outer ih =>
      have hn := (d.incrementAndGet_eq outer).1
      show Function.update (d.incrementAndGet outer).1.subs k _ id = _
      by_cases hk : id = k
      · subst hk
        rw [Function.update_self, ListRef.ids, if_pos List.mem_cons_self, ih, hn]
        split
        · rw [Option.map_map]
          rfl
        · rfl
      · rw [Function.update_of_ne hk, ih, ListRef.ids]
        by_cases ho : id ∈ outer.ids
        · rw [if_pos ho, if_pos (List.mem_cons_of_mem _ ho)]
        · rw [if_neg ho, if_neg]
          intro hm
          rcases List.mem_cons.mp hm with h | h
          · exact hk h
          · exact ho h

/-! ## The wrappers follow the views -/

/-- What the wrapper of an iterator knows of it. -/
structure IterTracks (d : VetoableListDecorator α) (v : IterView) (it : IterWrap) : Prop where
  accessor : it.accessor = v.owner
  cursor : it.cursor = v.cursor - v.start - v.removedBack
  lastReturned : ∀ i, v.lastRet = some i → it.lastReturned = i - v.start - v.removedBack
  fresh : v.fresh = true → it.modCount = d.modCount ∧ d.list.Usable v.owner ∧
    it.offset = d.list.start v.owner + v.start

/-- What the wrapper of a sub-list knows of it. -/
structure SubTracks (d : VetoableListDecorator α) (v : SubView) (s : SubWrap) : Prop where
  accessor : s.accessor = v.outer
  offset : s.offset = v.lo
  fresh : v.fresh = true → s.modCount = d.modCount ∧ d.list.Usable v.outer

/-- **The wrappers follow the views they wrap.** -/
structure Tracks (d : VetoableListDecorator α) : Prop where
  unused : ∀ id, d.list.nextSub ≤ id → d.list.subs id = none
  sub : ∀ id v, d.list.subs id = some v → ∃ s, d.subs id = some s ∧ d.SubTracks v s
  iter : ∀ id v, d.list.iters id = some v → ∃ it, d.iters id = some it ∧ d.IterTracks v it

theorem tracks_new (elements : List α) : Tracks { list := { elements := elements } } :=
  ⟨fun _ _ => rfl, (fun _ _ h => nomatch h), (fun _ _ h => nomatch h)⟩

theorem Tracks.getModCount (h : d.Tracks) {r : ListRef} (hr : d.list.Usable r) :
    d.getModCount r = some d.modCount := by
  cases r with
  | top => rfl
  | sub id outer =>
      obtain ⟨⟨v, hv, -, hfresh⟩, -⟩ := hr
      obtain ⟨s, hs, hst⟩ := h.sub id v hv
      rw [VetoableListDecorator.getModCount, hs, Option.map_some, (hst.fresh hfresh).1]

theorem Tracks.check (h : d.Tracks) {r : ListRef} (hr : d.list.Usable r) :
    d.checkForComodification d.modCount r = .ok () := by
  rw [checkForComodification, h.getModCount hr, if_neg (fun hn => hn rfl)]

/-- The decorator after the decorated list has changed the list `r`. -/
def stored (d : VetoableListDecorator α) (r : ListRef) (lo size : ℕ) (e : Effect α) :
    VetoableListDecorator α :=
  let d' : VetoableListDecorator α := { d with list := d.list.store r lo size e }
  if e.structural then (d'.incrementAndGet r).1 else d'

theorem stored_list (d : VetoableListDecorator α) (r : ListRef) (lo size : ℕ) (e : Effect α) :
    (d.stored r lo size e).list = d.list.store r lo size e := by
  unfold stored
  cases e.structural with
  | true => exact (incrementAndGet_eq _ r).2.2.1
  | false => rfl

/-- A change of a list keeps the wrappers in step. -/
theorem Tracks.stored (h : d.Tracks) {r : ListRef} (hr : d.list.Usable r) (lo size : ℕ)
    (e : Effect α) : (d.stored r lo size e).Tracks := by
  have hlist := d.stored_list r lo size e
  unfold VetoableListDecorator.stored at hlist ⊢
  cases hs : e.structural with
  | false =>
      have hstore : d.list.store r lo size e = _ := PlainList.store_of_not_structural hs
      have husable : ∀ r', d.list.Usable r' → (d.list.store r lo size e).Usable r' := by
        intro r' hr'
        rw [hstore]
        exact hr'.congr fun id _ v hv => ⟨v, hv, rfl, rfl⟩
      refine ⟨fun id hid => ?_, fun id v hv => ?_, fun id v hv => ?_⟩
      · change (d.list.store r lo size e).subs id = none
        rw [hstore]
        apply h.unused
        change (d.list.store r lo size e).nextSub ≤ id at hid
        rw [hstore] at hid
        exact hid
      · change (d.list.store r lo size e).subs id = some v at hv
        rw [hstore] at hv
        obtain ⟨s, hs', hst⟩ := h.sub id v hv
        exact ⟨s, hs', hst.accessor, hst.offset, fun hf =>
          ⟨(hst.fresh hf).1, husable _ (hst.fresh hf).2⟩⟩
      · change (d.list.store r lo size e).iters id = some v at hv
        rw [hstore] at hv
        obtain ⟨it, hit, hitt⟩ := h.iter id v hv
        refine ⟨it, hit, hitt.accessor, hitt.cursor, hitt.lastReturned, fun hf => ?_⟩
        obtain ⟨hm, hu, ho⟩ := hitt.fresh hf
        refine ⟨hm, husable _ hu, ?_⟩
        rw [ho]
        exact congrArg (fun n : ℕ => (n : ℤ) + v.start) (PlainList.start_store v.owner).symm
  | true =>
      let d₁ : VetoableListDecorator α := { d with list := d.list.store r lo size e }
      obtain ⟨-, hcount, hlist₁, hiters⟩ := d₁.incrementAndGet_eq r
      have hstore : d.list.store r lo size e = _ := PlainList.store_of_structural hs
      show (d₁.incrementAndGet r).1.Tracks
      refine ⟨fun id hid => ?_, fun id v hv => ?_, fun id v hv => ?_⟩
      · rw [hlist₁] at hid ⊢
        change (d.list.store r lo size e).subs id = none
        change (d.list.store r lo size e).nextSub ≤ id at hid
        rw [hstore] at hid ⊢
        show (d.list.subs id).map _ = none
        rw [h.unused id hid]
        rfl
      · rw [hlist₁] at hv
        change (d.list.store r lo size e).subs id = some v at hv
        rw [hstore] at hv
        change (d.list.subs id).map _ = some v at hv
        obtain ⟨v₀, hv₀, hvv⟩ := Option.map_eq_some_iff.mp hv
        obtain ⟨s, hs', hst⟩ := h.sub id v₀ hv₀
        rw [incrementAndGet_subs]
        by_cases hid : id ∈ r.ids
        · rw [if_pos hid] at hvv ⊢
          subst hvv
          obtain ⟨v₁, hv₁, -, hu, hsub⟩ := hr.of_mem hid
          rw [hv₀] at hv₁
          cases hv₁
          refine ⟨{ s with modCount := d.modCount + 1 }, ?_, hst.accessor, hst.offset,
            fun _ => ⟨hcount.symm, ?_⟩⟩
          · show (d.subs id).map _ = _
            rw [hs']
            rfl
          · rw [hlist₁]
            exact hu.store hsub
        · rw [if_neg hid] at hvv ⊢
          subst hvv
          exact ⟨s, hs', hst.accessor, hst.offset, fun hf => (nomatch hf)⟩
      · rw [hlist₁] at hv
        change (d.list.store r lo size e).iters id = some v at hv
        rw [hstore] at hv
        obtain ⟨v₀, hv₀, rfl⟩ := Option.map_eq_some_iff.mp hv
        obtain ⟨it, hit, hitt⟩ := h.iter id v₀ hv₀
        rw [hiters]
        exact ⟨it, hit, hitt.accessor, hitt.cursor, hitt.lastReturned, fun hf => (nomatch hf)⟩

/-- An iterator and its wrapper are put in. -/
theorem Tracks.setIter (h : d.Tracks) {id : ℕ} {v : IterView} {it : IterWrap}
    (hit : d.IterTracks v it) {l : PlainList α} (hsubs : l.subs = d.list.subs)
    (hnext : l.nextSub = d.list.nextSub)
    (hiters : l.iters = Function.update d.list.iters id (some v)) :
    (({ d with list := l } : VetoableListDecorator α).setIter id it).Tracks := by
  have husable : ∀ r, d.list.Usable r → l.Usable r := fun r hr =>
    hr.congr fun id _ v hv => ⟨v, (congrFun hsubs id).trans hv, rfl, rfl⟩
  have hstart : ∀ r, l.start r = d.list.start r := by
    intro r
    cases r with
    | top => rfl
    | sub id outer =>
        show (l.subs id).elim 0 SubView.lo = _
        rw [hsubs]
        rfl
  have hiter : ∀ w it', d.IterTracks w it' →
      (({ d with list := l } : VetoableListDecorator α).setIter id it).IterTracks w it' := by
    intro w it' hw
    refine ⟨hw.accessor, hw.cursor, hw.lastReturned, fun hf => ?_⟩
    obtain ⟨hm, hu, ho⟩ := hw.fresh hf
    refine ⟨hm, husable _ hu, ho.trans ?_⟩
    exact congrArg (fun n : ℕ => (n : ℤ) + w.start) (hstart _).symm
  refine ⟨fun k hk => ?_, fun k w hw => ?_, fun k w hw => ?_⟩
  · change l.subs k = none
    rw [hsubs]
    apply h.unused
    rw [← hnext]
    exact hk
  · change l.subs k = some w at hw
    rw [hsubs] at hw
    obtain ⟨s, hs, hst⟩ := h.sub k w hw
    exact ⟨s, hs, hst.accessor, hst.offset, fun hf => ⟨(hst.fresh hf).1, husable _ (hst.fresh hf).2⟩⟩
  · change l.iters k = some w at hw
    rw [hiters] at hw
    by_cases hk : k = id
    · subst hk
      rw [Function.update_self] at hw
      cases hw
      exact ⟨it, Function.update_self _ _ _, hiter _ _ hit⟩
    · rw [Function.update_of_ne hk] at hw
      obtain ⟨it', hit', hitt⟩ := h.iter k w hw
      exact ⟨it', (Function.update_of_ne hk _ _).trans hit', hiter _ _ hitt⟩

end VetoableListDecorator

end JavaFx.Collections
