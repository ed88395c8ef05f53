import JavaFx.Collections.DecoratorTracking

/-!
# Without vetoes, a decorator is the list

When `onProposedChange` never throws, the decorator answers as the decorated list
does, in every legal sequence of calls, exactly when the sequence keeps away from two
defects (`decorator_answers_as_list_iff`): `lastIndexOf` of the top-level list calls
itself; and an iterator takes the relative position `-1` for "nothing returned yet",
although `previous` reaches it when it returns the element in front of the position
the iterator was created at.
-/

namespace JavaFx.Collections

variable {α : Type}

/-- Nothing is vetoed. -/
def noVeto : Veto α := fun _ _ => none

/-- The decorator does what the decorated list does. -/
def Agrees (o : Outcome α) (plain : Except Exn (PlainList α × Reply α)) : Prop :=
  match plain with
  | .error e => o.result = .error e
  | .ok (p, a) => ∃ d, o.result = .ok (d, a) ∧ d.list = p ∧ d.Tracks

theorem positionIn_eq {w : List α} {index : ℤ} {i : ℕ} (h : positionIn w index = .ok i) :
    index = i ∧ i ≤ w.length := by
  unfold positionIn at h
  split at h
  · next hi =>
      cases h
      omega
  · cases h

theorem rangeIn_eq {size a b : ℕ} {fromIndex toIndex : ℤ}
    (h : rangeIn size fromIndex toIndex = .ok (a, b)) :
    fromIndex = a ∧ toIndex = b ∧ a ≤ b ∧ b ≤ size := by
  unfold rangeIn at h
  split at h
  · cases h
  · split at h
    · cases h
    · cases h
      omega

namespace VetoableListDecorator

variable {d : VetoableListDecorator α} {receiver : Option ℕ} {r : ListRef}

theorem Tracks.usable_sub (h : d.Tracks) {id : ℕ} {v : SubView} (hv : d.list.subs id = some v)
    (hfresh : v.fresh = true) : d.list.Usable (.sub id v.outer) := by
  obtain ⟨s, -, hst⟩ := h.sub id v hv
  exact ⟨⟨v, hv, rfl, hfresh⟩, (hst.fresh hfresh).2⟩

/-- A sub-list that may be used, with its wrapper. -/
theorem Tracks.legal_sub (h : d.Tracks) {id : ℕ}
    (hlegal : d.list.legalReceiver (some id) = true) :
    ∃ v, d.list.subs id = some v ∧ ∃ s, d.subs id = some s ∧ d.SubTracks v s ∧
      d.list.Usable (.sub id s.accessor) ∧ d.list.ref (some id) = .ok (.sub id s.accessor) ∧
      d.checkForComodification s.modCount s.accessor = .ok () := by
  obtain ⟨v, hv, hfresh⟩ := (Option.any_eq_true _ _).mp hlegal
  obtain ⟨s, hs, hst⟩ := h.sub id v hv
  obtain ⟨hcount, hu⟩ := hst.fresh hfresh
  refine ⟨v, hv, s, hs, hst, ?_, ?_, ?_⟩
  · rw [hst.accessor]
    exact h.usable_sub hv hfresh
  · rw [PlainList.ref, hv, hst.accessor]
  · rw [hcount, hst.accessor]
    exact h.check hu

/-- An iterator that may be used, with its wrapper. -/
theorem Tracks.legal_iter (h : d.Tracks) {id : ℕ} (hlegal : (d.list.iters id).any IterView.fresh) :
    ∃ v it, d.list.iters id = some v ∧ v.fresh = true ∧ d.IterTracks v it ∧
      ∀ veto op, d.iter veto id op = d.iterMethod veto id it op := by
  obtain ⟨v, hv, hfresh⟩ := (Option.any_eq_true _ _).mp hlegal
  obtain ⟨it, hit, hitt⟩ := h.iter id v hv
  obtain ⟨hcount, hu, -⟩ := hitt.fresh hfresh
  have hcheck : d.checkForComodification it.modCount it.accessor = .ok () := by
    rw [hcount, hitt.accessor]
    exact h.check hu
  refine ⟨v, it, hv, hfresh, hitt, fun veto op => ?_⟩
  simp only [VetoableListDecorator.iter, hit, hcheck]

/-! ## Lists -/

theorem call_eq (hr : d.list.ref receiver = .ok r) {lo size : ℕ}
    (hw : d.list.window r = .ok (lo, size)) (f : List α → Except Exn (Effect α)) :
    d.list.call receiver f =
      (f (Splice.slice lo (lo + size) d.list.elements)).map
        fun e => (d.list.store r lo size e, e.answer) := by
  rw [PlainList.call, hr, except_ok_bind, hw, except_ok_bind]
  show (f (Splice.slice lo (lo + size) d.list.elements) >>= _) = _
  cases f (Splice.slice lo (lo + size) d.list.elements) <;> rfl

/-- Calling the decorated list and counting the change. -/
theorem forward_eq (hr : d.list.ref receiver = .ok r) {lo size : ℕ}
    (hw : d.list.window r = .ok (lo, size)) {f : List α → Except Exn (Effect α)}
    {increments : Reply α → Bool}
    (hinc : ∀ w e, f w = .ok e → increments e.answer = e.structural) :
    d.forward receiver r f increments =
      (f (Splice.slice lo (lo + size) d.list.elements)).map
        fun e => (d.stored r lo size e, e.answer) := by
  rw [forward, call_eq hr hw]
  cases hf : f (Splice.slice lo (lo + size) d.list.elements) with
  | error e => rfl
  | ok e =>
      show Except.ok (if increments e.answer = true then _ else _, e.answer) = _
      rw [hinc _ e hf]
      rfl

theorem forward_agrees (h : d.Tracks) (hr : d.list.ref receiver = .ok r)
    (hu : d.list.Usable r) {f : List α → Except Exn (Effect α)} {increments : Reply α → Bool}
    (hinc : ∀ w e, f w = .ok e → increments e.answer = e.structural)
    (proposals : List (List α × List ℤ)) :
    Agrees ⟨proposals, d.forward receiver r f increments⟩ (d.list.call receiver f) := by
  obtain ⟨size, hw⟩ := hu.window
  rw [forward_eq hr hw hinc, call_eq hr hw]
  cases f (Splice.slice (d.list.start r) (d.list.start r + size) d.list.elements) with
  | error e => rfl
  | ok e => exact ⟨_, rfl, d.stored_list r _ size e, h.stored hu _ size e⟩

/-- Putting the elements of a window back changes nothing. -/
theorem store_self {lo size : ℕ} {w : List α} {answer : Reply α}
    (hw : Splice.slice lo (lo + size) d.list.elements = w) :
    d.list.store r lo size ⟨w, false, answer⟩ = d.list := by
  rw [PlainList.store_of_not_structural rfl, ← hw]
  have hsplice : Splice.splice lo size (Splice.slice lo (lo + size) d.list.elements)
      d.list.elements = d.list.elements := Splice.take_slice_drop.symm
  rw [hsplice]

theorem contents_eq {lo size : ℕ} (hw : d.list.window r = .ok (lo, size)) :
    d.list.contents r = .ok (Splice.slice lo (lo + size) d.list.elements) := by
  rw [PlainList.contents, hw]
  rfl

/-- The size and the elements can be looked at. -/
theorem proposal_ok (op : ListOp α) (offset : ℤ) (w : List α) :
    ∃ proposal, op.proposal offset (.ok w) = .ok proposal := by
  cases op with
  | removeAll c => exact ⟨_, removeFromList_eq w offset c false⟩
  | retainAll c => exact ⟨_, removeFromList_eq w offset c true⟩
  | _ => exact ⟨_, rfl⟩

theorem observableMethod_agrees (h : d.Tracks) (op : ObservableListOp α) :
    Agrees (d.observableMethod noVeto op) (d.list.call none fun w => op.apply w) := by
  cases op with
  | setAll c =>
      refine forward_agrees h (show d.list.ref none = .ok .top from rfl) trivial
        (fun w e he => ?_) _
      cases he
      rfl
  | remove fromIndex toIndex =>
      refine forward_agrees h (show d.list.ref none = .ok .top from rfl) trivial
        (fun w e he => ?_) _
      obtain ⟨x, -, hx⟩ := except_bind_eq_ok.mp he
      cases hx
      rfl

section Methods

variable [BEq α]

/-- A method counts a modification when it makes one. -/
theorem increments_eq {op : ListOp α} (hop : ∀ o, op ≠ .remove o) (w : List α) (e : Effect α)
    (he : op.apply w = .ok e) : op.increments e.answer = e.structural := by
  cases op with
  | remove o => exact absurd rfl (hop o)
  | get i | set i a | removeAt i | addAt i a | addAllAt i c =>
      obtain ⟨x, -, hx⟩ := except_bind_eq_ok.mp he
      cases hx
      rfl
  | _ =>
      cases he
      rfl

theorem listMethod_agrees (h : d.Tracks) (hr : d.list.ref receiver = .ok r)
    (hu : d.list.Usable r) {op : ListOp α} (hop : ∀ o, op ≠ .remove o) (offset : ℤ) :
    Agrees (d.listMethod noVeto receiver r offset op)
      (d.list.call receiver fun w => op.apply w) := by
  obtain ⟨size, hw⟩ := hu.window
  obtain ⟨proposal, hp⟩ := proposal_ok op offset
    (Splice.slice (d.list.start r) (d.list.start r + size) d.list.elements)
  rw [listMethod, contents_eq hw, hp]
  cases proposal with
  | none => exact forward_agrees h hr hu (increments_eq hop) []
  | some change => exact forward_agrees h hr hu (increments_eq hop) _

theorem removeObject_agrees (h : d.Tracks) (hr : d.list.ref receiver = .ok r)
    (hu : d.list.Usable r) (o : α) (offset : ℤ) :
    Agrees (d.removeObject noVeto receiver r offset o)
      (d.list.call receiver fun w => (ListOp.remove o).apply w) := by
  obtain ⟨size, hw⟩ := hu.window
  generalize hlo : d.list.start r = lo at hw
  rw [removeObject, contents_eq hw, call_eq hr hw]
  generalize hc : Splice.slice lo (lo + size) d.list.elements = w
  cases hfind : w.findIdx? (o == ·) with
  | none =>
      have hidx : indexOf w o = -1 := by rw [indexOf, hfind]
      have happly : (ListOp.remove o).apply w = .ok ⟨w, false, .bool false⟩ := by
        rw [ListOp.apply, hfind]
      rw [happly]
      show Agrees (if _ then _ else _) (.ok (d.list.store r lo size ⟨w, false, _⟩, _))
      rw [if_neg (fun hn => hn hidx)]
      exact ⟨d, rfl, (store_self hc).symm, h⟩
  | some i =>
      have hidx : indexOf w o = i := by rw [indexOf, hfind]
      have happly : (ListOp.remove o).apply w =
          .ok ⟨Splice.splice i 1 [] w, true, .bool true⟩ := by
        rw [ListOp.apply, hfind]
      obtain ⟨hi, -⟩ := List.findIdx?_eq_some_iff_getElem.mp hfind
      have hremove : (ListOp.removeAt (i : ℤ)).apply w =
          .ok ⟨Splice.splice i 1 [] w, true, .element w[i]⟩ := by
        rw [ListOp.apply, elementAt, if_pos (Int.natCast_nonneg i), Int.toNat_natCast, listGet,
          List.getElem?_eq_getElem hi]
        rfl
      have hforward : d.forward receiver r (fun w => (ListOp.removeAt (i : ℤ)).apply w)
          (fun a => (ListOp.removeAt (i : ℤ)).increments a) = _ :=
        forward_eq hr hw (increments_eq (by intro _ hn; cases hn))
      rw [hc, hremove] at hforward
      rw [happly]
      show Agrees (if _ then _ else _) (.ok (d.list.store r lo size ⟨_, true, _⟩, _))
      rw [if_pos (by rw [hidx]; omega), hidx]
      refine ⟨d.stored r lo size ⟨Splice.splice i 1 [] w, true, .bool true⟩, ?_,
        d.stored_list r lo size _, h.stored hu lo size _⟩
      have hmethod : (d.listMethod noVeto receiver r offset (.removeAt (i : ℤ))).result =
          d.forward receiver r (fun w => (ListOp.removeAt (i : ℤ)).apply w)
            (fun a => (ListOp.removeAt (i : ℤ)).increments a) := rfl
      show Except.map _ (d.listMethod noVeto receiver r offset (.removeAt (i : ℤ))).result = _
      rw [hmethod, hforward]
      rfl

/-- A method of the list `r`. -/
theorem sharedMethod_agrees (h : d.Tracks) (hr : d.list.ref receiver = .ok r)
    (hu : d.list.Usable r) (op : ListOp α) (offset : ℤ) :
    Agrees (d.sharedMethod noVeto receiver r offset op)
      (d.list.call receiver fun w => op.apply w) := by
  cases op with
  | remove o => exact removeObject_agrees h hr hu o offset
  | _ => exact listMethod_agrees h hr hu (by intro _ hn; cases hn) offset

theorem topMethod_agrees (h : d.Tracks) (stack : ℕ) {op : ListOp α}
    (hop : ∀ o, op ≠ .lastIndexOf o) :
    Agrees (d.topMethod noVeto stack op) (d.list.call none fun w => op.apply w) := by
  have hshared : d.topMethod noVeto stack op = d.sharedMethod noVeto none .top 0 op := by
    cases op with
    | lastIndexOf o => exact absurd rfl (hop o)
    | _ => rfl
  rw [hshared]
  exact sharedMethod_agrees h (show d.list.ref none = .ok .top from rfl) trivial op 0

theorem subMethod_agrees (h : d.Tracks) {id : ℕ}
    (hlegal : d.list.legalReceiver (some id) = true) (op : ListOp α) :
    Agrees (d.subMethod noVeto id op) (d.list.call (some id) fun w => op.apply w) := by
  obtain ⟨v, hv, s, hs, hst, hu, href, hcheck⟩ := h.legal_sub hlegal
  simp only [subMethod, hs, hcheck]
  exact sharedMethod_agrees h href hu op s.offset

end Methods

/-! ## New views -/

theorem Tracks.addIter (h : d.Tracks) (hu : d.list.Usable r) (cursor : ℕ) {offset : ℤ}
    (hoffset : offset = d.list.start r + cursor) :
    (({ d with list := (d.list.addIter r cursor).1 } : VetoableListDecorator α).setIter
      d.list.nextIter { accessor := r, offset := offset, modCount := d.modCount }).Tracks := by
  have htracks : d.IterTracks { owner := r, cursor := cursor, start := cursor }
      { accessor := r, offset := offset, modCount := d.modCount } := by
    refine ⟨rfl, ?_, (fun _ hn => nomatch hn), fun _ => ⟨rfl, hu, hoffset⟩⟩
    show (0 : ℤ) = (cursor : ℤ) - cursor - ((0 : ℕ) : ℤ)
    omega
  exact h.setIter htracks rfl rfl rfl

theorem Tracks.addSub (h : d.Tracks) (hu : d.list.Usable r) (lo size : ℕ) :
    (({ d with list := (d.list.addSub r lo size).1 } : VetoableListDecorator α).setSub
      d.list.nextSub { accessor := r, offset := lo, modCount := d.modCount }).Tracks := by
  have hunused := h.unused d.list.nextSub (le_refl _)
  -- the new sub-list is not one of those that other views lie in
  have hkeep : ∀ r', d.list.Usable r' → (d.list.addSub r lo size).1.Usable r' := by
    intro r' hr'
    apply hr'.congr
    intro id hid v hv
    have hne : id ≠ d.list.nextSub := by
      rintro rfl
      rw [hunused] at hv
      cases hv
    exact ⟨v, (Function.update_of_ne hne _ _).trans hv, rfl, rfl⟩
  have hstart : ∀ r', d.list.Usable r' →
      (d.list.addSub r lo size).1.start r' = d.list.start r' := by
    intro r' hr'
    cases r' with
    | top => rfl
    | sub id outer =>
        obtain ⟨⟨v, hv, -, -⟩, -⟩ := hr'
        have hne : id ≠ d.list.nextSub := by
          rintro rfl
          rw [hunused] at hv
          cases hv
        show (Function.update d.list.subs _ _ id).elim 0 SubView.lo = _
        rw [Function.update_of_ne hne]
        rfl
  refine ⟨fun id hid => ?_, fun id v hv => ?_, fun id v hv => ?_⟩
  · change d.list.nextSub + 1 ≤ id at hid
    show Function.update d.list.subs d.list.nextSub _ id = none
    rw [Function.update_of_ne (by omega)]
    exact h.unused id (by omega)
  · change Function.update d.list.subs d.list.nextSub _ id = some v at hv
    by_cases hid : id = d.list.nextSub
    · subst hid
      rw [Function.update_self] at hv
      cases hv
      exact ⟨_, Function.update_self _ _ _, rfl, rfl, fun _ => ⟨rfl, hkeep r hu⟩⟩
    · rw [Function.update_of_ne hid] at hv
      obtain ⟨s, hs, hst⟩ := h.sub id v hv
      refine ⟨s, (Function.update_of_ne hid _ _).trans hs, hst.accessor, hst.offset,
        fun hf => ⟨(hst.fresh hf).1, hkeep _ (hst.fresh hf).2⟩⟩
  · obtain ⟨it, hit, hitt⟩ := h.iter id v hv
    refine ⟨it, hit, hitt.accessor, hitt.cursor, hitt.lastReturned, fun hf => ?_⟩
    obtain ⟨hm, huo, ho⟩ := hitt.fresh hf
    refine ⟨hm, hkeep _ huo, ho.trans ?_⟩
    exact congrArg (fun n : ℕ => (n : ℤ) + v.start) (hstart _ huo).symm

theorem viewMethod_agrees (h : d.Tracks) (hr : d.list.ref receiver = .ok r)
    (hu : d.list.Usable r) {offset : ℤ} (hoffset : offset = d.list.start r) (op : ViewOp) :
    Agrees (quiet (d.viewMethod receiver r offset d.modCount op)) (d.list.view receiver op) := by
  obtain ⟨size, hw⟩ := hu.window
  cases op with
  | iterator =>
      have hview : d.list.view receiver .iterator = .ok (d.list.addIter r 0) := by
        rw [PlainList.view, hr, except_ok_bind, hw]
        rfl
      rw [viewMethod, hview]
      refine ⟨_, rfl, rfl, ?_⟩
      apply h.addIter hu 0
      rw [hoffset]
      exact (add_zero _).symm
  | listIterator index =>
      have hview : d.list.view receiver (.listIterator index) =
          (positionIn (Splice.slice (d.list.start r) (d.list.start r + size)
            d.list.elements) index).map (d.list.addIter r) := by
        rw [PlainList.view, hr, except_ok_bind, hw]
        rfl
      rw [viewMethod, hview]
      cases hpos : positionIn (Splice.slice (d.list.start r) (d.list.start r + size)
          d.list.elements) index with
      | error e => rfl
      | ok i =>
          refine ⟨_, rfl, rfl, ?_⟩
          apply h.addIter hu i
          rw [hoffset, (positionIn_eq hpos).1]
  | subList fromIndex toIndex =>
      have hview : d.list.view receiver (.subList fromIndex toIndex) =
          (rangeIn size fromIndex toIndex).map
            fun ab => d.list.addSub r (d.list.start r + ab.1) (ab.2 - ab.1) := by
        rw [PlainList.view, hr, except_ok_bind, hw]
        rfl
      rw [viewMethod, hview]
      cases hrange : rangeIn size fromIndex toIndex with
      | error e => rfl
      | ok ab =>
          have hoff : offset + fromIndex = ((d.list.start r + ab.1 : ℕ) : ℤ) := by
            rw [hoffset, (rangeIn_eq hrange).1]
            push_cast
            rfl
          refine ⟨_, rfl, rfl, ?_⟩
          have hset := h.addSub hu (d.list.start r + ab.1) (ab.2 - ab.1)
          rw [← hoff] at hset
          exact hset

theorem view_agrees (h : d.Tracks) (hlegal : d.list.legalReceiver receiver = true)
    (op : ViewOp) : Agrees (d.view receiver op) (d.list.view receiver op) := by
  cases receiver with
  | none =>
      exact viewMethod_agrees h (show d.list.ref none = .ok .top from rfl) trivial rfl op
  | some id =>
      obtain ⟨v, hv, s, hs, hst, hu, href, hcheck⟩ := h.legal_sub hlegal
      have hview : d.view (some id) op =
          quiet (d.viewMethod (some id) (.sub id s.accessor) s.offset s.modCount op) := by
        simp only [view, hs, hcheck]
      obtain ⟨v', hv', hfresh⟩ := (Option.any_eq_true _ _).mp hlegal
      rw [hv] at hv'
      cases hv'
      have hstart : s.offset = d.list.start (.sub id s.accessor) := by
        rw [hst.offset, PlainList.start, hv]
        rfl
      rw [hview, (hst.fresh hfresh).1]
      exact viewMethod_agrees h href hu hstart op

/-! ## Iterators -/

theorem incrementAndGet_withList (d : VetoableListDecorator α) (l : PlainList α) (r : ListRef) :
    ({ d with list := l } : VetoableListDecorator α).incrementAndGet r =
      ({ (d.incrementAndGet r).1 with list := l }, (d.incrementAndGet r).2) := by
  induction r with
  | top => rfl
  | sub id outer ih =>
      rw [incrementAndGet, ih]
      rfl

/-- An iterator keeps where it belongs. -/
theorem iterApply_keeps {op : IterOp α} {v v' : IterView} {w : List α} {e : Effect α}
    (h : op.apply v w = .ok (e, v')) :
    v'.owner = v.owner ∧ v'.start = v.start ∧ v'.fresh = v.fresh := by
  cases op with
  | next =>
      change v.next w = _ at h
      unfold IterView.next at h
      split at h <;> cases h
      exact ⟨rfl, rfl, rfl⟩
  | previous =>
      change v.previous w = _ at h
      unfold IterView.previous at h
      split at h
      · cases h
      · split at h <;> cases h
        exact ⟨rfl, rfl, rfl⟩
  | remove =>
      change v.remove w = _ at h
      unfold IterView.remove at h
      split at h
      · cases h
      · split at h <;> (cases h; exact ⟨rfl, rfl, rfl⟩)
  | set a =>
      change v.set w a = _ at h
      unfold IterView.set at h
      split at h <;> cases h
      exact ⟨rfl, rfl, rfl⟩
  | _ =>
      cases h
      exact ⟨rfl, rfl, rfl⟩

section Iterators

variable {id : ℕ} {v : IterView} {it : IterWrap} {op : IterOp α}

theorem iter_eq (hv : d.list.iters id = some v) (hfresh : v.fresh = true) {lo size : ℕ}
    (hw : d.list.window v.owner = .ok (lo, size)) :
    d.list.iter id op = (op.apply v (Splice.slice lo (lo + size) d.list.elements)).map
      fun ev => (d.list.storeIter id ev.2 lo size ev.1, ev.1.answer) := by
  rw [PlainList.iter, hv]
  show (if v.fresh = true then _ else _) = _
  rw [if_pos hfresh, hw]
  rfl

/-- The wrapper after the iterator's own call. -/
theorem Tracks.storeIter (h : d.Tracks) (hu : d.list.Usable v.owner) (id lo size : ℕ)
    (e : Effect α) {v' : IterView} {it' : IterWrap} (howner : v'.owner = v.owner)
    (haccessor : it'.accessor = v.owner)
    (hcursor : it'.cursor = v'.cursor - v'.start - v'.removedBack)
    (hlast : ∀ i, v'.lastRet = some i → it'.lastReturned = i - v'.start - v'.removedBack)
    (hcount : it'.modCount = (d.stored v.owner lo size e).modCount)
    (hoffset : it'.offset = d.list.start v.owner + v'.start) :
    (({ d.stored v.owner lo size e with list := d.list.storeIter id v' lo size e } :
      VetoableListDecorator α).setIter id it').Tracks := by
  have hlist := d.stored_list v.owner lo size e
  have htracks : (d.stored v.owner lo size e).IterTracks v' it' := by
    refine ⟨haccessor.trans howner.symm, hcursor, hlast, fun _ => ⟨hcount, ?_, ?_⟩⟩
    · rw [hlist, howner]
      exact hu.store fun _ hx => hx
    · rw [hlist, howner, PlainList.start_store]
      exact hoffset
  apply (h.stored hu lo size e).setIter htracks
  · rw [hlist, ← howner]
    rfl
  · rw [hlist, ← howner]
    rfl
  · rw [hlist, ← howner]
    rfl

/-- A method of the iterator that makes no structural change. -/
theorem forwardIter_agrees (h : d.Tracks) (hv : d.list.iters id = some v)
    (hfresh : v.fresh = true) (hit : d.IterTracks v it) {cursor lastReturned : ℤ}
    (hop : ∀ w e v', op.apply v w = .ok (e, v') → e.structural = false ∧
      cursor = v'.cursor - v'.start - v'.removedBack ∧
      ∀ i, v'.lastRet = some i → lastReturned = i - v'.start - v'.removedBack)
    (proposals : List (List α × List ℤ)) :
    Agrees ⟨proposals, d.forwardIter id
      { it with cursor := cursor, lastReturned := lastReturned } op⟩ (d.list.iter id op) := by
  obtain ⟨hcount, hu, hoffset⟩ := hit.fresh hfresh
  obtain ⟨size, hw⟩ := hu.window
  rw [forwardIter, iter_eq hv hfresh hw]
  cases happly : op.apply v (Splice.slice (d.list.start v.owner)
      (d.list.start v.owner + size) d.list.elements) with
  | error e => rfl
  | ok ev =>
      obtain ⟨e, v'⟩ := ev
      obtain ⟨hs, hcursor, hlast⟩ := hop _ e v' happly
      obtain ⟨howner, hstart, -⟩ := iterApply_keeps happly
      refine ⟨_, rfl, rfl, ?_⟩
      have hstored : d.stored v.owner (d.list.start v.owner) size e =
          { d with list := d.list.store v.owner (d.list.start v.owner) size e } := by
        unfold stored
        rw [hs]
        rfl
      have hset := h.storeIter hu id (d.list.start v.owner) size e howner
        (show ({ it with cursor := cursor, lastReturned := lastReturned } : IterWrap).accessor =
          v.owner from hit.accessor) hcursor hlast (by rw [hstored]; exact hcount)
        (by rw [hstart]; exact hoffset)
      rw [hstored] at hset
      exact hset

/-- A method of the iterator that makes a structural change. -/
theorem forwardEdit_agrees (h : d.Tracks) (hv : d.list.iters id = some v)
    (hfresh : v.fresh = true) (hit : d.IterTracks v it) {cursor lastReturned : ℤ}
    (hop : ∀ w e v', op.apply v w = .ok (e, v') → e.structural = true ∧
      cursor = v'.cursor - v'.start - v'.removedBack ∧ v'.lastRet = none)
    (proposals : List (List α × List ℤ)) :
    Agrees ⟨proposals, d.forwardEdit id it op cursor lastReturned⟩ (d.list.iter id op) := by
  obtain ⟨hcount, hu, hoffset⟩ := hit.fresh hfresh
  obtain ⟨size, hw⟩ := hu.window
  rw [forwardEdit, iter_eq hv hfresh hw]
  cases happly : op.apply v (Splice.slice (d.list.start v.owner)
      (d.list.start v.owner + size) d.list.elements) with
  | error e => rfl
  | ok ev =>
      obtain ⟨e, v'⟩ := ev
      obtain ⟨hs, hcursor, hlast⟩ := hop _ e v' happly
      obtain ⟨howner, hstart, -⟩ := iterApply_keeps happly
      let d' : VetoableListDecorator α :=
        { d with list := d.list.store v.owner (d.list.start v.owner) size e }
      have hstored : d.stored v.owner (d.list.start v.owner) size e =
          (d'.incrementAndGet v.owner).1 := by
        unfold stored
        rw [hs]
        rfl
      have hincrement := incrementAndGet_withList d'
        (d.list.storeIter id v' (d.list.start v.owner) size e) v.owner
      have hset := h.storeIter hu id (d.list.start v.owner) size e howner
        (show ({ it with
          modCount := (d'.incrementAndGet v.owner).2
          cursor := cursor
          lastReturned := lastReturned } : IterWrap).accessor = v.owner from hit.accessor)
        hcursor (by rw [hlast]; exact fun _ hn => nomatch hn)
        (by rw [hstored, (d'.incrementAndGet_eq v.owner).2.1]; exact (d'.incrementAndGet_eq _).1)
        (by rw [hstart]; exact hoffset)
      rw [hstored] at hset
      refine ⟨_, ?_, ?_, hset⟩
      · show Except.ok (setIter (incrementAndGet _ it.accessor).1 id _, _) = _
        rw [hit.accessor]
        exact congrArg (fun x : VetoableListDecorator α × ℕ => Except.ok (setIter x.1 id
          ⟨v.owner, it.offset, x.2, cursor, lastReturned⟩, e.answer)) hincrement
      · rfl

theorem iterMethod_illegal (hv : d.list.iters id = some v) (hfresh : v.fresh = true)
    (hit : d.IterTracks v it) {e : Exn} (happly : ∀ w, op.apply v w = .error e) :
    d.list.iter id op = .error e := by
  obtain ⟨size, hw⟩ := (hit.fresh hfresh).2.1.window
  rw [iter_eq hv hfresh hw, happly]
  rfl

theorem iterMethod_agrees (h : d.Tracks) (hv : d.list.iters id = some v)
    (hfresh : v.fresh = true) (hit : d.IterTracks v it) (hop : op = .remove ∨ (∃ a, op = .set a) →
      ∀ i, v.lastRet = some i → i + 1 ≠ v.start + v.removedBack) :
    Agrees (d.iterMethod noVeto id it op) (d.list.iter id op) := by
  have hcursor := hit.cursor
  cases op with
  | next =>
      refine forwardIter_agrees h hv hfresh hit (fun w e v' happly => ?_) []
      change v.next w = _ at happly
      unfold IterView.next at happly
      split at happly <;> cases happly
      refine ⟨rfl, ?_, fun i hi => ?_⟩
      · show it.cursor + 1 = ((v.cursor + 1 : ℕ) : ℤ) - v.start - v.removedBack
        omega
      · cases hi
        exact hcursor
  | previous =>
      refine forwardIter_agrees h hv hfresh hit (fun w e v' happly => ?_) []
      change v.previous w = _ at happly
      unfold IterView.previous at happly
      split at happly
      · cases happly
      · next hpos =>
          split at happly <;> cases happly
          have hprevious : it.cursor - 1 = ((v.cursor - 1 : ℕ) : ℤ) - v.start - v.removedBack := by
            omega
          refine ⟨rfl, hprevious, fun i hi => ?_⟩
          cases hi
          exact hprevious
  | remove =>
      have hok := hop (Or.inl rfl)
      rw [iterMethod]
      by_cases hlast : it.lastReturned = -1
      · rw [if_pos hlast]
        cases hret : v.lastRet with
        | none =>
            have hiter := iterMethod_illegal hv hfresh hit
              (show ∀ w, (IterOp.remove : IterOp α).apply v w = .error (.illegalState "") from
                fun w => by
                  show v.remove w = _
                  rw [IterView.remove, hret])
            rw [hiter]
            rfl
        | some i =>
            have hi := hit.lastReturned i hret
            exact absurd (by omega) (hok i hret)
      · rw [if_neg hlast]
        refine forwardEdit_agrees h hv hfresh hit (fun w e v' happly => ?_) _
        change v.remove w = _ at happly
        unfold IterView.remove at happly
        split at happly
        · cases happly
        · split at happly
          · cases happly
            refine ⟨rfl, ?_, rfl⟩
            show it.cursor - 1 = ((v.cursor - 1 : ℕ) : ℤ) - v.start - v.removedBack
            omega
          · cases happly
            refine ⟨rfl, ?_, rfl⟩
            show it.cursor - 1 = (v.cursor : ℤ) - v.start - ((v.removedBack + 1 : ℕ) : ℤ)
            omega
  | set a =>
      have hok := hop (Or.inr ⟨a, rfl⟩)
      rw [iterMethod]
      by_cases hlast : it.lastReturned = -1
      · rw [if_pos hlast]
        cases hret : v.lastRet with
        | none =>
            have hiter := iterMethod_illegal hv hfresh hit
              (show ∀ w, (IterOp.set a).apply v w = .error (.illegalState "") from
                fun w => by
                  show v.set w a = _
                  rw [IterView.set, hret])
            rw [hiter]
            rfl
        | some i =>
            have hi := hit.lastReturned i hret
            exact absurd (by omega) (hok i hret)
      · rw [if_neg hlast]
        refine forwardIter_agrees h hv hfresh hit (fun w e v' happly => ?_) _
        change v.set w a = _ at happly
        unfold IterView.set at happly
        split at happly <;> cases happly
        exact ⟨rfl, hcursor, hit.lastReturned⟩
  | add a =>
      refine forwardEdit_agrees h hv hfresh hit (fun w e v' happly => ?_) _
      cases happly
      refine ⟨rfl, ?_, rfl⟩
      show it.cursor + 1 = ((v.cursor + 1 : ℕ) : ℤ) - v.start - v.removedBack
      omega
  | _ =>
      refine forwardIter_agrees h hv hfresh hit (fun w e v' happly => ?_) []
      cases happly
      exact ⟨rfl, hcursor, hit.lastReturned⟩

end Iterators

end VetoableListDecorator

/-! ## Runs -/

/-- The call keeps away from the defects: it is no `lastIndexOf` of the top-level list,
and it does not set or remove, through a list iterator, the element just in front of
the position it was created at, moved on by one for each element it has removed after
`previous`. -/
def PlainList.Avoids (p : PlainList α) : ListCall α → Prop
  | .list none (.lastIndexOf _) => False
  | .iter id .remove | .iter id (.set _) =>
      ∀ v i, p.iters id = some v → v.lastRet = some i → i + 1 ≠ v.start + v.removedBack
  | _ => True

section Runs

variable [BEq α]

/-- A call of the list; one that throws leaves it as it was. -/
def PlainList.step (p : PlainList α) (c : ListCall α) : PlainList α × Except Exn (Reply α) :=
  match p.perform c with
  | .ok (p', a) => (p', .ok a)
  | .error e => (p, .error e)

/-- A call of the decorator. -/
def VetoableListDecorator.step (d : VetoableListDecorator α) (veto : Veto α) (stack : ℕ)
    (c : ListCall α) : VetoableListDecorator α × Except Exn (Reply α) :=
  match (d.perform veto stack c).result with
  | .ok (d', a) => (d', .ok a)
  | .error e => (d, .error e)

/-- What a sequence of calls of the list returns, and the elements after each. -/
def PlainList.answers (p : PlainList α) :
    List (ListCall α) → List (Except Exn (Reply α) × List α)
  | [] => []
  | c :: cs => ((p.step c).2, (p.step c).1.elements) :: (p.step c).1.answers cs

/-- What a sequence of calls of the decorator returns, and the elements after each. -/
def VetoableListDecorator.answers (veto : Veto α) (stack : ℕ) (d : VetoableListDecorator α) :
    List (ListCall α) → List (Except Exn (Reply α) × List α)
  | [] => []
  | c :: cs =>
      ((d.step veto stack c).2, (d.step veto stack c).1.list.elements) ::
        (d.step veto stack c).1.answers veto stack cs

/-- Every call is of a view that may still be used. -/
def PlainList.LegalRun (p : PlainList α) : List (ListCall α) → Prop
  | [] => True
  | c :: cs => p.legal c = true ∧ (p.step c).1.LegalRun cs

/-- Every call keeps away from the defects. -/
def PlainList.AvoidsAll (p : PlainList α) : List (ListCall α) → Prop
  | [] => True
  | c :: cs => p.Avoids c ∧ (p.step c).1.AvoidsAll cs

namespace VetoableListDecorator

variable {d : VetoableListDecorator α}

/-- **One call.** -/
theorem perform_agrees (h : d.Tracks) (stack : ℕ) {c : ListCall α}
    (hlegal : d.list.legal c = true) (havoids : d.list.Avoids c) :
    Agrees (d.perform noVeto stack c) (d.list.perform c) := by
  cases c with
  | list receiver op =>
      cases receiver with
      | none =>
          apply topMethod_agrees h stack
          rintro o rfl
          exact havoids
      | some id => exact subMethod_agrees h hlegal op
  | observable op => exact observableMethod_agrees h op
  | view receiver op => exact view_agrees h hlegal op
  | iter id op =>
      obtain ⟨v, it, hv, hfresh, hit, hiter⟩ := h.legal_iter hlegal
      show Agrees (d.iter noVeto id op) (d.list.iter id op)
      rw [hiter]
      apply iterMethod_agrees h hv hfresh hit
      rintro (rfl | ⟨a, rfl⟩) i hi
      · exact havoids v i hv hi
      · exact havoids v i hv hi

/-- A call that meets a defect: the decorator throws where the list does not. -/
theorem perform_disagrees (h : d.Tracks) (stack : ℕ) {c : ListCall α}
    (hlegal : d.list.legal c = true) (havoids : ¬ d.list.Avoids c) :
    ∃ e, (d.perform noVeto stack c).result = .error e ∧ ∃ p a, d.list.perform c = .ok (p, a) := by
  have hiterated : ∀ (id : ℕ) (op : IterOp α), (op = .remove ∨ ∃ a, op = .set a) →
      d.list.legal (.iter id op) = true →
      ¬ (∀ v i, d.list.iters id = some v → v.lastRet = some i →
        i + 1 ≠ v.start + v.removedBack) →
      ∃ e, (d.perform noVeto stack (.iter id op)).result = .error e ∧
        ∃ p a, d.list.perform (.iter id op) = .ok (p, a) := by
    intro id op hop hl hex
    obtain ⟨v, it, hv, hfresh, hit, hiter⟩ := h.legal_iter hl
    have hret : ∃ i, v.lastRet = some i ∧ i + 1 = v.start + v.removedBack := by
      by_contra hno
      apply hex
      intro v' i hv' hi heq
      rw [hv] at hv'
      cases hv'
      exact hno ⟨i, hi, heq⟩
    obtain ⟨i, hi, heq⟩ := hret
    have hlast : it.lastReturned = -1 := by
      have := hit.lastReturned i hi
      omega
    obtain ⟨size, hw⟩ := (hit.fresh hfresh).2.1.window
    refine ⟨.illegalState "", ?_, ?_⟩
    · show (d.iter noVeto id op).result = _
      rw [hiter]
      rcases hop with rfl | ⟨a, rfl⟩
      · rw [iterMethod, if_pos hlast]
        rfl
      · rw [iterMethod, if_pos hlast]
        rfl
    · show ∃ p a, d.list.iter id op = .ok (p, a)
      have happly : ∀ w, ∃ ev, op.apply v w = .ok ev := by
        intro w
        rcases hop with rfl | ⟨a, rfl⟩
        · show ∃ ev, v.remove w = .ok ev
          simp only [IterView.remove, hi]
          split <;> exact ⟨_, rfl⟩
        · show ∃ ev, v.set w a = .ok ev
          simp only [IterView.set, hi]
          exact ⟨_, rfl⟩
      obtain ⟨ev, hev⟩ := happly (Splice.slice (d.list.start v.owner)
        (d.list.start v.owner + size) d.list.elements)
      rw [iter_eq hv hfresh hw, hev]
      exact ⟨_, _, rfl⟩
  have hlastIndexOf : ∀ o n, d.lastIndexOf o n = .error .stackOverflow := by
    intro o n
    induction n with
    | zero => rfl
    | succ n ih => exact ih
  unfold PlainList.Avoids at havoids
  split at havoids
  · next o => exact ⟨.stackOverflow, hlastIndexOf o stack, _, _, rfl⟩
  · next id => exact hiterated id .remove (Or.inl rfl) hlegal havoids
  · next id a => exact hiterated id (.set a) (Or.inr ⟨a, rfl⟩) hlegal havoids
  · exact absurd trivial havoids

theorem answers_iff (stack : ℕ) (calls : List (ListCall α)) :
    ∀ {d : VetoableListDecorator α}, d.Tracks → d.list.LegalRun calls →
      (d.answers noVeto stack calls = d.list.answers calls ↔ d.list.AvoidsAll calls) := by
  induction calls with
  | nil => exact fun _ _ => iff_of_true rfl trivial
  | cons c cs ih =>
      intro d h hlegal
      rw [answers, PlainList.answers, PlainList.AvoidsAll]
      by_cases havoids : d.list.Avoids c
      · have hagrees := perform_agrees h stack hlegal.1 havoids
        have hstep : ∃ d', (d.step noVeto stack c).1 = d' ∧ d'.Tracks ∧
            d'.list = (d.list.step c).1 ∧ (d.step noVeto stack c).2 = (d.list.step c).2 := by
          unfold step PlainList.step
          cases hp : d.list.perform c with
          | error e =>
              rw [hp] at hagrees
              have hresult : (d.perform noVeto stack c).result = .error e := hagrees
              rw [hresult]
              exact ⟨d, rfl, h, rfl, rfl⟩
          | ok pa =>
              rw [hp] at hagrees
              obtain ⟨d', hresult, hlist, htracks⟩ := hagrees
              rw [hresult]
              exact ⟨d', rfl, htracks, hlist, rfl⟩
        obtain ⟨d', hd', htracks, hlist, hanswer⟩ := hstep
        have hlegal' := hlegal.2
        rw [hd', hanswer, hlist, List.cons.injEq, ← hlist, and_iff_right rfl]
        rw [← hlist] at hlegal'
        rw [ih htracks hlegal', and_iff_right havoids]
      · refine iff_of_false ?_ fun hall => havoids hall.1
        obtain ⟨e, hresult, p, a, hp⟩ := perform_disagrees h stack hlegal.1 havoids
        intro heq
        have hhead := congrArg (fun l => l.head?.map Prod.fst) heq
        simp only [List.head?_cons, Option.map_some, step, PlainList.step, hresult, hp] at hhead
        cases hhead

end VetoableListDecorator

/-- **Without vetoes the decorator is the list.** In every legal sequence of calls on a
new decorator, its sub-lists and its iterators, every call returns what it does on the
decorated list and leaves the same elements, if and only if every call keeps away from
the two defects. -/
theorem decorator_answers_as_list_iff (elements : List α) (stack : ℕ)
    (calls : List (ListCall α)) (hlegal : ({ elements := elements } : PlainList α).LegalRun calls) :
    ({ list := { elements := elements } } : VetoableListDecorator α).answers noVeto stack calls =
        ({ elements := elements } : PlainList α).answers calls ↔
      ({ elements := elements } : PlainList α).AvoidsAll calls :=
  VetoableListDecorator.answers_iff stack calls (VetoableListDecorator.tracks_new elements) hlegal

end Runs

/-- `removeAll` in a sub-list of a sub-list, then a list iterator in the outer one. -/
def nestedCalls : List (ListCall ℕ) :=
  [.view none (.subList 1 5), .view (some 0) (.subList 0 3), .list (some 1) (.removeAll (· == 3)),
    .list (some 0) .size, .view (some 0) (.listIterator 1), .iter 0 .next, .iter 0 .remove,
    .iter 0 .remove, .list none .toArray]

theorem decorator_answers_as_list_nested :
    ({ elements := [1, 2, 3, 4, 5, 6] } : PlainList ℕ).AvoidsAll nestedCalls ∧
      ({ list := { elements := [1, 2, 3, 4, 5, 6] } } : VetoableListDecorator ℕ).answers
        noVeto 10 nestedCalls =
        ({ elements := [1, 2, 3, 4, 5, 6] } : PlainList ℕ).answers nestedCalls := by
  have hlegal : ({ elements := [1, 2, 3, 4, 5, 6] } : PlainList ℕ).LegalRun nestedCalls := by
    simp only [nestedCalls, PlainList.LegalRun]
    decide
  have havoids : ({ elements := [1, 2, 3, 4, 5, 6] } : PlainList ℕ).AvoidsAll nestedCalls := by
    refine ⟨trivial, trivial, trivial, trivial, trivial, trivial, fun v i hv hi => ?_,
      fun v i hv hi => ?_, trivial, trivial⟩
    · change some (⟨.sub 0 .top, 2, some 1, true, 1, 0⟩ : IterView) = some v at hv
      cases hv
      cases hi
      decide
    · change some (⟨.sub 0 .top, 1, none, true, 1, 0⟩ : IterView) = some v at hv
      cases hv
      cases hi
  exact ⟨havoids, (decorator_answers_as_list_iff _ 10 nestedCalls hlegal).mpr havoids⟩

/-- Two calls that a list answers and the decorator does not: `lastIndexOf`, and `set`
after `previous` has returned the element in front of the iterator's first position. -/
theorem decorator_fails_where_list_answers :
    ({ list := { elements := [1, 2] } } : VetoableListDecorator ℕ).answers noVeto 10
        [.list none (.lastIndexOf 1), .view none (.listIterator 1), .iter 0 .previous,
          .iter 0 (.set 5)] =
        [(.error .stackOverflow, [1, 2]), (.ok (.iterator 0), [1, 2]),
          (.ok (.element 1), [1, 2]), (.error (.illegalState ""), [1, 2])] ∧
      ({ elements := [1, 2] } : PlainList ℕ).answers
        [.list none (.lastIndexOf 1), .view none (.listIterator 1), .iter 0 .previous,
          .iter 0 (.set 5)] =
        [(.ok (.int 0), [1, 2]), (.ok (.iterator 0), [1, 2]), (.ok (.element 1), [1, 2]),
          (.ok .void, [5, 2])] := by
  constructor <;> rfl

end JavaFx.Collections
