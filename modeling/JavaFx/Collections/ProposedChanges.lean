import JavaFx.Collections.ChangeDescription
import JavaFx.Collections.DecoratorWindows

/-!
# What a decorator proposes

Every call of a decorator, its sub-lists and its iterators proposes exactly what it
then does (`decorator_does_as_proposed`), if `removeAll` and `retainAll` do not remove
two neighbours, which get a pair each, and no iterator is used for a change after it
has removed an element that `previous` had returned, because its cursor is then one too
low.
-/

namespace JavaFx.Collections

variable {α : Type}

/-! ## What one method does -/

theorem elementAt_eq {w : List α} {i : ℤ} {a : α} (h : elementAt w i = .ok a) :
    ∃ k : ℕ, i = k ∧ k < w.length := by
  unfold elementAt at h
  split at h
  · next hi =>
      refine ⟨i.toNat, (Int.toNat_of_nonneg hi).symm, ?_⟩
      unfold listGet at h
      split at h
      · next hget => exact (List.getElem?_eq_some_iff.mp hget).1
      · cases h
  · cases h

/-- What an iterator's method does, with the bounds of its cursor. -/
theorem IterOp.apply_bounds {op : IterOp α} {v v' : IterView} {w : List α} {e : Effect α}
    (h : op.apply v w = .ok (e, v')) (hcursor : v.cursor ≤ w.length)
    (hlast : ∀ i, v.lastRet = some i → i < w.length) :
    (e.structural = false → e.elements.length = w.length) ∧ v'.cursor ≤ e.elements.length ∧
      ∀ i, v'.lastRet = some i → i < e.elements.length := by
  cases op with
  | next =>
      change v.next w = _ at h
      unfold IterView.next at h
      split at h
      · cases h
      · next a hget =>
          cases h
          have hlt := (List.getElem?_eq_some_iff.mp hget).1
          refine ⟨fun _ => rfl, hlt, fun i hi => ?_⟩
          cases hi
          exact hlt
  | previous =>
      change v.previous w = _ at h
      unfold IterView.previous at h
      split at h
      · cases h
      · split at h
        · cases h
        · next a hget =>
            cases h
            have hlt := (List.getElem?_eq_some_iff.mp hget).1
            refine ⟨fun _ => rfl, hlt.le, fun i hi => ?_⟩
            cases hi
            exact hlt
  | remove =>
      change v.remove w = _ at h
      unfold IterView.remove at h
      split at h
      · cases h
      · next i hi =>
          have hlen : (Splice.splice i 1 [] w).length = w.length - 1 + 0 :=
            Splice.length_splice (hlast i hi)
          have hpos := hlast i hi
          split at h
          · cases h
            refine ⟨fun hs => (nomatch hs), ?_, (fun _ hn => nomatch hn)⟩
            show v.cursor - 1 ≤ (Splice.splice i 1 [] w).length
            omega
          · cases h
            refine ⟨fun hs => (nomatch hs), ?_, (fun _ hn => nomatch hn)⟩
            show v.cursor ≤ (Splice.splice i 1 [] w).length
            omega
  | set a =>
      change v.set w a = _ at h
      unfold IterView.set at h
      split at h
      · cases h
      · next i hi =>
          cases h
          have hlen : (Splice.splice i 1 [a] w).length = w.length := by
            have hpos := hlast i hi
            rw [Splice.length_splice hpos, List.length_singleton]
            omega
          refine ⟨fun _ => hlen, hlen ▸ hcursor, fun k hk => ?_⟩
          show k < (Splice.splice i 1 [a] w).length
          rw [hlen]
          exact hlast k hk
  | add a =>
      cases h
      refine ⟨fun hs => (nomatch hs), ?_, (fun _ hn => nomatch hn)⟩
      show v.cursor + 1 ≤ (Splice.splice v.cursor 0 [a] w).length
      rw [Splice.length_splice hcursor, List.length_singleton]
      omega
  | _ =>
      cases h
      exact ⟨fun _ => rfl, hcursor, hlast⟩

/-- What a call has proposed, and what has become of the elements: nothing and nothing, or
one change and that change. -/
def Proposes (proposals : List (List α × List ℤ)) (l l' : List α) : Prop :=
  (proposals = [] ∧ l' = l) ∨
    ∃ toBeAdded indexes, proposals = [(toBeAdded, indexes)] ∧ Describes toBeAdded indexes l l'

theorem proposes_splice {l : List α} {lo size i n : ℕ} (hi : i + n ≤ size)
    (hlo : lo + size ≤ l.length) {toBeAdded : List α} {indexes : List ℤ}
    (hindexes : indexes = [((lo + i : ℕ) : ℤ), ((lo + i + n : ℕ) : ℤ)]) :
    Proposes [(toBeAdded, indexes)] l (Splice.splice lo size
      (Splice.splice i n toBeAdded (Splice.slice lo (lo + size) l)) l) := by
  refine Or.inr ⟨toBeAdded, indexes, rfl, ?_⟩
  rw [splice_window hi hlo, hindexes]
  exact describes_splice (by omega) toBeAdded

/-- What leaves the window as it was. -/
theorem proposes_nothing {l : List α} {lo size : ℕ} :
    Proposes [] l (Splice.splice lo size (Splice.slice lo (lo + size) l) l) :=
  Or.inl ⟨rfl, Splice.take_slice_drop.symm⟩

theorem filter_of_removedAt_eq_nil {test : α → Bool} {w : List α} {i : ℤ}
    (h : removedAt test w i = []) : (w.filter fun a => !test a) = w := by
  induction w generalizing i with
  | nil => rfl
  | cons a w ih =>
      rw [removedAt] at h
      split at h
      · cases h
      · next ha =>
          rw [List.filter_cons_of_pos (by simp only [ha]; rfl), ih h]

/-- `removeFromList` proposes what is then removed, when no two neighbours are. -/
theorem removeFromList_proposes {contains : α → Bool} {complement : Bool} {l : List α}
    {lo size : ℕ} (hlo : lo + size ≤ l.length)
    (hnone : NoNeighbours (fun a => contains a ^^ complement) (Splice.slice lo (lo + size) l))
    {proposal : Option (List α × List ℤ)}
    (hp : removeFromList (Splice.slice lo (lo + size) l) lo contains complement = .ok proposal) :
    Proposes proposal.toList l (Splice.splice lo size
      ((Splice.slice lo (lo + size) l).filter fun a => !(contains a ^^ complement)) l) := by
  rw [removeFromList_eq] at hp
  cases hp
  by_cases hnil : removedAt (fun a => contains a ^^ complement)
      (Splice.slice lo (lo + size) l) (lo : ℤ) = []
  · rw [if_neg (fun hne => hne hnil), filter_of_removedAt_eq_nil hnil]
    exact proposes_nothing
  · rw [if_pos hnil]
    exact Or.inr ⟨_, _, rfl, describes_removed hlo hnone hnil⟩

/-- The method removes no two neighbours one by one. -/
def ListOp.Scattered (w : List α) : ListOp α → Prop
  | removeAll c => NoNeighbours c w
  | retainAll c => NoNeighbours (!c ·) w
  | _ => True

section ListMethods

variable [BEq α]

/-- **One method of a list.** -/
theorem ListOp.proposal_proposes {op : ListOp α} (hop : ∀ o, op ≠ .remove o) {l : List α}
    {lo size : ℕ} (hlo : lo + size ≤ l.length)
    (hscattered : op.Scattered (Splice.slice lo (lo + size) l))
    {proposal : Option (List α × List ℤ)} {e : Effect α}
    (hp : op.proposal lo (.ok (Splice.slice lo (lo + size) l)) = .ok proposal)
    (he : op.apply (Splice.slice lo (lo + size) l) = .ok e) :
    Proposes proposal.toList l (Splice.splice lo size e.elements l) := by
  have hlen : (Splice.slice lo (lo + size) l).length = size := by
    rw [Splice.length_slice hlo]
    omega
  have happend : ∀ c, Splice.slice lo (lo + size) l ++ c =
      Splice.splice size 0 c (Splice.slice lo (lo + size) l) := by
    intro c
    have hsplice : Splice.splice size 0 c (Splice.slice lo (lo + size) l ++ ([] ++ [])) =
        Splice.slice lo (lo + size) l ++ (c ++ []) := Splice.splice_append hlen rfl
    rw [List.append_nil, List.append_nil, List.append_nil] at hsplice
    exact hsplice.symm
  cases op with
  | remove o => exact absurd rfl (hop o)
  | add a =>
      cases hp
      cases he
      show Proposes [_] l (Splice.splice lo size (_ ++ [a]) l)
      rw [happend, hlen]
      exact proposes_splice (le_refl _) hlo rfl
  | addAll c =>
      cases hp
      cases he
      show Proposes [_] l (Splice.splice lo size (_ ++ c) l)
      rw [happend, hlen]
      exact proposes_splice (le_refl _) hlo rfl
  | addAt i a | addAllAt i c =>
      cases hp
      obtain ⟨k, hk, hx⟩ := except_bind_eq_ok.mp he
      cases hx
      obtain ⟨rfl, hle⟩ := positionIn_eq hk
      exact proposes_splice (by omega) hlo rfl
  | set i a | removeAt i =>
      cases hp
      obtain ⟨b, hb, hx⟩ := except_bind_eq_ok.mp he
      cases hx
      obtain ⟨k, rfl, hlt⟩ := elementAt_eq hb
      exact proposes_splice (by omega) hlo rfl
  | clear =>
      cases hp
      cases he
      have hclear : Splice.splice 0 size [] (Splice.slice lo (lo + size) l) = [] := by
        show [] ++ ([] ++ (Splice.slice lo (lo + size) l).drop (0 + size)) = []
        rw [List.nil_append, List.nil_append, List.drop_eq_nil_iff]
        omega
      have hproposes : Proposes [([], [((lo + 0 : ℕ) : ℤ), ((lo + 0 + size : ℕ) : ℤ)])] l
          (Splice.splice lo size (Splice.splice 0 size [] (Splice.slice lo (lo + size) l)) l) :=
        proposes_splice (Nat.zero_add _).le hlo rfl
      rw [hclear] at hproposes
      rw [hlen]
      exact hproposes
  | removeAll c =>
      cases he
      have hnone : NoNeighbours c (Splice.slice lo (lo + size) l) := hscattered
      have hproposes := removeFromList_proposes hlo (by simpa using hnone) hp
      simpa using hproposes
  | retainAll c =>
      cases he
      have hnone : NoNeighbours (!c ·) (Splice.slice lo (lo + size) l) := hscattered
      have hproposes := removeFromList_proposes hlo (by simpa using hnone) hp
      simpa using hproposes
  | get i =>
      cases hp
      obtain ⟨b, -, hx⟩ := except_bind_eq_ok.mp he
      cases hx
      exact proposes_nothing
  | _ =>
      cases hp
      cases he
      exact proposes_nothing

/-- Without a structural change the number of elements stays. -/
theorem ListOp.apply_length {op : ListOp α} {w : List α} {e : Effect α}
    (h : op.apply w = .ok e) (hs : e.structural = false) : e.elements.length = w.length := by
  cases op with
  | add a | clear =>
      cases h
      cases hs
  | addAt i a | removeAt i =>
      obtain ⟨k, -, hx⟩ := except_bind_eq_ok.mp h
      cases hx
      cases hs
  | addAllAt i c =>
      obtain ⟨k, hk, hx⟩ := except_bind_eq_ok.mp h
      cases hx
      have hc : c = [] := by simpa using hs
      rw [hc]
      show (Splice.splice k 0 [] w).length = w.length
      rw [Splice.length_splice (positionIn_eq hk).2]
      rfl
  | addAll c =>
      cases h
      have hc : c = [] := by simpa using hs
      rw [hc]
      exact congrArg List.length (List.append_nil w)
  | set i a =>
      obtain ⟨b, hb, hx⟩ := except_bind_eq_ok.mp h
      cases hx
      obtain ⟨k, rfl, hlt⟩ := elementAt_eq hb
      show (Splice.splice k 1 [a] w).length = w.length
      rw [Splice.length_splice hlt, List.length_singleton]
      omega
  | get i =>
      obtain ⟨b, -, hx⟩ := except_bind_eq_ok.mp h
      cases hx
      rfl
  | remove o =>
      rw [ListOp.apply] at h
      split at h <;> cases h
      · cases hs
      · rfl
  | removeAll c =>
      cases h
      have hc : ∀ a ∈ w, c a = false := by simpa using hs
      exact congrArg List.length (List.filter_eq_self.mpr fun a ha => by simp [hc a ha])
  | retainAll c =>
      cases h
      have hc : ∀ a ∈ w, c a = true := by simpa using hs
      exact congrArg List.length (List.filter_eq_self.mpr hc)
  | _ =>
      cases h
      rfl

end ListMethods

theorem ObservableListOp.apply_structural {op : ObservableListOp α} {w : List α} {e : Effect α}
    (h : op.apply w = .ok e) : e.structural = true := by
  cases op with
  | setAll c =>
      cases h
      rfl
  | remove i j =>
      obtain ⟨x, -, hx⟩ := except_bind_eq_ok.mp h
      cases hx
      rfl

/-! ## What the calls of a decorator propose -/

/-- The call removes no two neighbours one by one, and it makes no change through an
iterator that has removed an element after `previous`. -/
def PlainList.Meets (p : PlainList α) : ListCall α → Prop
  | .list receiver op =>
      ∀ r w, p.ref receiver = .ok r → p.contents r = .ok w → op.Scattered w
  | .iter id .remove | .iter id (.set _) | .iter id (.add _) =>
      ∀ v, p.iters id = some v → v.removedBack = 0
  | _ => True

/-- A list that may be called, and where it is. -/
theorem PlainList.ref_of_legal {p : PlainList α} (h : p.Windows) {receiver : Option ℕ}
    (hlegal : p.legalReceiver receiver = true) :
    ∃ r, p.ref receiver = .ok r ∧ p.Usable r := by
  cases receiver with
  | none => exact ⟨.top, rfl, trivial⟩
  | some id =>
      obtain ⟨v, hv, hfresh⟩ := (Option.any_eq_true _ _).mp hlegal
      refine ⟨.sub id v.outer, ?_, ⟨v, hv, rfl, hfresh⟩, (h.sub id v hv hfresh).1⟩
      rw [PlainList.ref, hv]

namespace PlainList

variable {p : PlainList α} {receiver : Option ℕ} {r : ListRef}

theorem call_ok (hr : p.ref receiver = .ok r) (hu : p.Usable r)
    {f : List α → Except Exn (Effect α)} {p' : PlainList α} {a : Reply α}
    (h : p.call receiver f = .ok (p', a)) :
    ∃ e, f (Splice.slice (p.start r) (p.start r + p.extent r) p.elements) = .ok e ∧
      p' = p.store r (p.start r) (p.extent r) e := by
  rw [call, hr, except_ok_bind, hu.window_eq, except_ok_bind] at h
  obtain ⟨e, he, hx⟩ := except_bind_eq_ok.mp h
  cases hx
  exact ⟨e, he, rfl⟩

theorem store_elements {lo size : ℕ} {e : Effect α} :
    (p.store r lo size e).elements = Splice.splice lo size e.elements p.elements := by
  unfold store
  split <;> rfl

/-- The elements of a list that may be used. -/
theorem Windows.length_slice (h : p.Windows) (hu : p.Usable r) :
    (Splice.slice (p.start r) (p.start r + p.extent r) p.elements).length = p.extent r := by
  rw [Splice.length_slice (h.le_length hu), Nat.add_sub_cancel_left]

theorem Windows.call (h : p.Windows) (hr : p.ref receiver = .ok r) (hu : p.Usable r)
    {f : List α → Except Exn (Effect α)}
    (hlen : ∀ w e, f w = .ok e → e.structural = false → e.elements.length = w.length)
    {p' : PlainList α} {a : Reply α} (hcall : p.call receiver f = .ok (p', a)) :
    p'.Windows := by
  obtain ⟨e, he, rfl⟩ := call_ok hr hu hcall
  apply h.store hu
  intro hs
  rw [hlen _ e he hs, h.length_slice hu]

theorem Windows.view (h : p.Windows) (hunused : p.subs p.nextSub = none)
    (hr : p.ref receiver = .ok r) (hu : p.Usable r) {op : ViewOp} {p' : PlainList α}
    {a : Reply α} (hview : p.view receiver op = .ok (p', a)) :
    p'.Windows ∧ p'.elements = p.elements := by
  rw [PlainList.view, hr, except_ok_bind, hu.window_eq, except_ok_bind] at hview
  cases op with
  | iterator =>
      cases hview
      exact ⟨h.setIter hu (Nat.zero_le _) (fun _ hn => by cases hn), rfl⟩
  | listIterator index =>
      obtain ⟨i, hi, hx⟩ := except_bind_eq_ok.mp hview
      cases hx
      have hle := (positionIn_eq hi).2
      rw [h.length_slice hu] at hle
      exact ⟨h.setIter hu hle (fun _ hn => by cases hn), rfl⟩
  | subList fromIndex toIndex =>
      obtain ⟨ab, hab, hx⟩ := except_bind_eq_ok.mp hview
      cases hx
      obtain ⟨-, -, hle, hsize⟩ := rangeIn_eq hab
      exact ⟨h.addSub hunused hu (Nat.le_add_right _ _) (by omega), rfl⟩

/-- What a method of an iterator that may be used does. -/
theorem iter_ok {id : ℕ} {v : IterView} (hv : p.iters id = some v) (hu : p.Usable v.owner)
    {op : IterOp α} {p' : PlainList α} {a : Reply α} (h : p.iter id op = .ok (p', a)) :
    ∃ e v', op.apply v (Splice.slice (p.start v.owner) (p.start v.owner + p.extent v.owner)
        p.elements) = .ok (e, v') ∧
      p' = p.storeIter id v' (p.start v.owner) (p.extent v.owner) e := by
  rw [PlainList.iter, hv] at h
  change (if v.fresh = true then _ else _) = _ at h
  split at h
  · rw [hu.window_eq, except_ok_bind] at h
    obtain ⟨⟨e, v'⟩, he, hx⟩ := except_bind_eq_ok.mp h
    cases hx
    exact ⟨e, v', he, rfl⟩
  · cases h

theorem Windows.iterCall (h : p.Windows) {id : ℕ} {v : IterView} (hv : p.iters id = some v)
    (hfresh : v.fresh = true) {op : IterOp α} {p' : PlainList α} {a : Reply α}
    (hiter : p.iter id op = .ok (p', a)) : p'.Windows := by
  obtain ⟨hu, hcursor, hlast⟩ := h.iter id v hv hfresh
  obtain ⟨e, v', happly, rfl⟩ := iter_ok hv hu hiter
  obtain ⟨howner, -, -⟩ := VetoableListDecorator.iterApply_keeps happly
  rw [← h.length_slice hu] at hcursor
  obtain ⟨hlen, hcursor', hlast'⟩ := IterOp.apply_bounds happly hcursor fun i hi => by
    rw [h.length_slice hu]
    exact hlast i hi
  rw [h.length_slice hu] at hlen
  have hextent := h.extent_store hu hu (fun _ hx => hx) hlen
  rw [Nat.sub_self, Nat.zero_add] at hextent
  unfold storeIter
  rw [howner]
  apply (h.store hu hlen).setIter
  · rw [howner]
    exact hu.store fun _ hx => hx
  · rw [howner, hextent]
    exact hcursor'
  · rw [howner, hextent]
    exact hlast'

/-! ### Only views that may be used answer -/

theorem legal_of_window {id : ℕ} {outer : ListRef} {x : ℕ × ℕ}
    (h : p.window (.sub id outer) = .ok x) : p.legalReceiver (some id) = true := by
  rw [window] at h
  cases hv : p.subs id with
  | none =>
      rw [hv] at h
      cases h
  | some v =>
      rw [hv] at h
      rw [legalReceiver, hv]
      by_cases hfresh : v.fresh = true
      · exact hfresh
      · change (if v.fresh = true then _ else _) = _ at h
        rw [if_neg hfresh] at h
        cases h

theorem legal_of_ref_window {x : ℕ × ℕ} (hr : p.ref receiver = .ok r)
    (h : p.window r = .ok x) : p.legalReceiver receiver = true := by
  cases receiver with
  | none => rfl
  | some id =>
      rw [ref] at hr
      split at hr <;> cases hr
      exact legal_of_window h

theorem legal_of_call {f : List α → Except Exn (Effect α)} {x : PlainList α × Reply α}
    (h : p.call receiver f = .ok x) : p.legalReceiver receiver = true := by
  obtain ⟨r, hr, h⟩ := except_bind_eq_ok.mp h
  obtain ⟨w, hw, -⟩ := except_bind_eq_ok.mp h
  exact legal_of_ref_window hr hw

theorem legal_of_view {op : ViewOp} {x : PlainList α × Reply α}
    (h : p.view receiver op = .ok x) : p.legalReceiver receiver = true := by
  obtain ⟨r, hr, h⟩ := except_bind_eq_ok.mp h
  obtain ⟨w, hw, -⟩ := except_bind_eq_ok.mp h
  exact legal_of_ref_window hr hw

theorem legal_of_iter {id : ℕ} {op : IterOp α} {x : PlainList α × Reply α}
    (h : p.iter id op = .ok x) : (p.iters id).any IterView.fresh = true := by
  unfold iter at h
  split at h
  · cases h
  · next v hv =>
      rw [hv]
      split at h
      · next hfresh => exact hfresh
      · cases h

end PlainList

namespace VetoableListDecorator

variable {d : VetoableListDecorator α} {veto : Veto α} {receiver : Option ℕ} {r : ListRef}

/-! ### Vetoes -/

/-- An outcome under vetoes, and the one without: the same proposals, the same result if
there is one, and what a veto throws if a proposal is vetoed. -/
structure Below (veto : Veto α) (o o' : Outcome α) : Prop where
  proposals : o.proposals = o'.proposals
  result : ∀ x, o.result = .ok x → o'.result = .ok x
  vetoed : ∀ p ∈ o.proposals, ∀ e, veto p.1 p.2 = some e → o.result = .error e

theorem below_quiet (result : Except Exn (VetoableListDecorator α × Reply α)) :
    Below veto (quiet result) (quiet result) :=
  ⟨rfl, fun _ h => h, (fun _ hp => nomatch hp)⟩

theorem onProposedChange_below (toBeAdded : List α) (indexes : List ℤ)
    (rest : Except Exn (VetoableListDecorator α × Reply α)) :
    Below veto (onProposedChange veto toBeAdded indexes rest)
      (onProposedChange noVeto toBeAdded indexes rest) := by
  refine ⟨rfl, fun x h => ?_, fun p hp e he => ?_⟩
  · cases hv : veto toBeAdded indexes with
    | none =>
        simp only [onProposedChange, hv] at h
        exact h
    | some e =>
        simp only [onProposedChange, hv] at h
        cases h
  · rw [List.mem_singleton.mp hp] at he
    simp only [onProposedChange, he]

theorem iterMethod_below (id : ℕ) (it : IterWrap) (op : IterOp α) :
    Below veto (d.iterMethod veto id it op) (d.iterMethod noVeto id it op) := by
  cases op with
  | remove | set a =>
      rw [iterMethod, iterMethod]
      split
      · exact below_quiet _
      · exact onProposedChange_below _ _ _
  | add a => exact onProposedChange_below _ _ _
  | _ => exact below_quiet _

theorem legal_of_forward {f : List α → Except Exn (Effect α)} {increments : Reply α → Bool}
    {x : VetoableListDecorator α × Reply α} (h : d.forward receiver r f increments = .ok x) :
    d.list.legalReceiver receiver = true := by
  obtain ⟨y, hy, -⟩ := except_bind_eq_ok.mp h
  exact PlainList.legal_of_call hy

theorem legal_of_iterMethod {id : ℕ} {it : IterWrap} {op : IterOp α}
    {x : VetoableListDecorator α × Reply α}
    (h : (d.iterMethod noVeto id it op).result = .ok x) :
    (d.list.iters id).any IterView.fresh = true := by
  cases op with
  | remove | set a =>
      rw [iterMethod] at h
      split at h
      · cases h
      · obtain ⟨y, hy, -⟩ := except_bind_eq_ok.mp h
        exact PlainList.legal_of_iter hy
  | _ =>
      obtain ⟨y, hy, -⟩ := except_bind_eq_ok.mp h
      exact PlainList.legal_of_iter hy

section Methods

variable [BEq α]

theorem listMethod_below (offset : ℤ) (op : ListOp α) :
    Below veto (d.listMethod veto receiver r offset op) (d.listMethod noVeto receiver r offset op) := by
  unfold listMethod
  split
  · exact below_quiet _
  · exact below_quiet _
  · exact onProposedChange_below _ _ _

theorem sharedMethod_eq {offset : ℤ} {op : ListOp α} (hop : ∀ o, op ≠ .remove o) :
    d.sharedMethod veto receiver r offset op = d.listMethod veto receiver r offset op := by
  cases op with
  | remove o => exact absurd rfl (hop o)
  | _ => rfl

theorem topMethod_eq {stack : ℕ} {op : ListOp α} (hop : ∀ o, op ≠ .lastIndexOf o) :
    d.topMethod veto stack op = d.sharedMethod veto none .top 0 op := by
  cases op with
  | lastIndexOf o => exact absurd rfl (hop o)
  | _ => rfl

theorem sharedMethod_below (offset : ℤ) (op : ListOp α) :
    Below veto (d.sharedMethod veto receiver r offset op)
      (d.sharedMethod noVeto receiver r offset op) := by
  cases op with
  | remove o =>
      show Below veto (d.removeObject veto receiver r offset o) (d.removeObject noVeto receiver r offset o)
      unfold removeObject
      split
      · exact below_quiet _
      · next w hw =>
          split
          · have hbelow : Below veto (d.listMethod veto receiver r offset (.removeAt (indexOf w o)))
                (d.listMethod noVeto receiver r offset (.removeAt (indexOf w o))) :=
              listMethod_below _ _
            refine ⟨hbelow.proposals, fun x hx => ?_, fun p hp e he => ?_⟩
            · obtain ⟨y, hy, rfl⟩ := except_map_eq_ok.mp hx
              exact except_map_eq_ok.mpr ⟨y, hbelow.result y hy, rfl⟩
            · have herror := hbelow.vetoed p hp e he
              simp only [herror]
              rfl
          · exact below_quiet _
  | _ =>
      rw [sharedMethod_eq (by intro _ hn; cases hn), sharedMethod_eq (by intro _ hn; cases hn)]
      exact listMethod_below _ _

/-- **Vetoes change neither the proposals nor what a call that returns does.** -/
theorem perform_below (stack : ℕ) (c : ListCall α) :
    Below veto (d.perform veto stack c) (d.perform noVeto stack c) := by
  cases c with
  | list receiver op =>
      cases receiver with
      | none =>
          show Below veto (d.topMethod veto stack op) (d.topMethod noVeto stack op)
          cases op with
          | lastIndexOf o => exact below_quiet _
          | _ =>
              rw [topMethod_eq (by intro _ hn; cases hn), topMethod_eq (by intro _ hn; cases hn)]
              exact sharedMethod_below _ _
      | some id =>
          show Below veto (d.subMethod veto id op) (d.subMethod noVeto id op)
          unfold subMethod
          split
          · exact below_quiet _
          · split
            · exact below_quiet _
            · exact sharedMethod_below _ _
  | observable op =>
      cases op with
      | setAll c => exact onProposedChange_below _ _ _
      | remove i j => exact onProposedChange_below _ _ _
  | view receiver op =>
      show Below veto (d.view receiver op) (d.view receiver op)
      unfold VetoableListDecorator.view
      split
      · exact below_quiet _
      · split
        · exact below_quiet _
        · split <;> exact below_quiet _
  | iter id op =>
      show Below veto (d.iter veto id op) (d.iter noVeto id op)
      unfold VetoableListDecorator.iter
      split
      · exact below_quiet _
      · split
        · exact below_quiet _
        · exact iterMethod_below _ _ _

/-! ### A call that returns -/

theorem legal_of_listMethod {offset : ℤ} {op : ListOp α}
    {x : VetoableListDecorator α × Reply α}
    (h : (d.listMethod noVeto receiver r offset op).result = .ok x) :
    d.list.legalReceiver receiver = true := by
  have hforward : d.forward receiver r (fun w => op.apply w) (fun a => op.increments a) = .ok x := by
    unfold listMethod at h
    split at h
    · cases h
    · exact h
    · exact h
  exact legal_of_forward hforward

theorem legal_of_subMethod {id : ℕ} {op : ListOp α} {x : VetoableListDecorator α × Reply α}
    (h : (d.subMethod noVeto id op).result = .ok x) :
    d.list.legalReceiver (some id) = true := by
  unfold subMethod at h
  split at h
  · cases h
  · next s hs =>
      split at h
      · cases h
      · cases op with
        | remove o =>
            change (d.removeObject noVeto (some id) (.sub id s.accessor) s.offset o).result = _ at h
            unfold removeObject at h
            split at h
            · cases h
            · next w hw =>
                obtain ⟨y, hy, -⟩ := except_bind_eq_ok.mp hw
                exact PlainList.legal_of_window hy
        | _ => exact legal_of_listMethod h

/-- Only calls on views that may be used return. -/
theorem legal_of_perform {stack : ℕ} {c : ListCall α} {x : VetoableListDecorator α × Reply α}
    (h : (d.perform noVeto stack c).result = .ok x) : d.list.legal c = true := by
  cases c with
  | list receiver op =>
      cases receiver with
      | none => rfl
      | some id => exact legal_of_subMethod h
  | observable op => rfl
  | view receiver op =>
      cases receiver with
      | none => rfl
      | some id =>
          change (d.view (some id) op).result = _ at h
          rw [VetoableListDecorator.view] at h
          split at h
          · cases h
          · split at h
            · cases h
            · obtain ⟨y, hy, -⟩ := except_bind_eq_ok.mp h
              exact PlainList.legal_of_view hy
  | iter id op =>
      change (d.iter noVeto id op).result = _ at h
      rw [VetoableListDecorator.iter] at h
      split at h
      · cases h
      · split at h
        · cases h
        · exact legal_of_iterMethod h

/-! ### What is proposed -/

theorem listMethod_proposes (hw : d.list.Windows) (hu : d.list.Usable r) {op : ListOp α}
    (hop : ∀ o, op ≠ .remove o) {offset : ℤ} (hoffset : offset = d.list.start r)
    (hscattered : ∀ w, d.list.contents r = .ok w → op.Scattered w) {e : Effect α}
    (he : op.apply (Splice.slice (d.list.start r) (d.list.start r + d.list.extent r)
      d.list.elements) = .ok e) :
    Proposes (d.listMethod noVeto receiver r offset op).proposals d.list.elements
      (Splice.splice (d.list.start r) (d.list.extent r) e.elements d.list.elements) := by
  have hcontents := contents_eq hu.window_eq
  obtain ⟨proposal, hp⟩ := proposal_ok op offset
    (Splice.slice (d.list.start r) (d.list.start r + d.list.extent r) d.list.elements)
  have hproposals : (d.listMethod noVeto receiver r offset op).proposals = proposal.toList := by
    rw [listMethod, hcontents, hp]
    cases proposal <;> rfl
  rw [hproposals]
  subst hoffset
  exact ListOp.proposal_proposes hop (hw.le_length hu) (hscattered _ hcontents) hp he

theorem removeObject_proposes (hw : d.list.Windows) (hu : d.list.Usable r) {offset : ℤ}
    (hoffset : offset = d.list.start r) {o : α} {e : Effect α}
    (he : (ListOp.remove o).apply (Splice.slice (d.list.start r)
      (d.list.start r + d.list.extent r) d.list.elements) = .ok e) :
    Proposes (d.removeObject noVeto receiver r offset o).proposals d.list.elements
      (Splice.splice (d.list.start r) (d.list.extent r) e.elements d.list.elements) := by
  rw [removeObject, contents_eq hu.window_eq]
  rw [ListOp.apply] at he
  cases hfind : (Splice.slice (d.list.start r) (d.list.start r + d.list.extent r)
      d.list.elements).findIdx? (o == ·) with
  | none =>
      rw [hfind] at he
      cases he
      simp only [indexOf, hfind]
      exact proposes_nothing
  | some i =>
      rw [hfind] at he
      cases he
      obtain ⟨hi, -⟩ := List.findIdx?_eq_some_iff_getElem.mp hfind
      rw [hw.length_slice hu] at hi
      have hne : (i : ℤ) ≠ -1 := by omega
      simp only [indexOf, hfind, if_pos hne]
      subst hoffset
      exact proposes_splice hi (hw.le_length hu) rfl

theorem sharedMethod_proposes (hw : d.list.Windows) (hu : d.list.Usable r) {op : ListOp α}
    {offset : ℤ} (hoffset : offset = d.list.start r)
    (hscattered : ∀ w, d.list.contents r = .ok w → op.Scattered w) {e : Effect α}
    (he : op.apply (Splice.slice (d.list.start r) (d.list.start r + d.list.extent r)
      d.list.elements) = .ok e) :
    Proposes (d.sharedMethod noVeto receiver r offset op).proposals d.list.elements
      (Splice.splice (d.list.start r) (d.list.extent r) e.elements d.list.elements) := by
  cases op with
  | remove o => exact removeObject_proposes hw hu hoffset he
  | _ => exact listMethod_proposes hw hu (by intro _ hn; cases hn) hoffset hscattered he

end Methods

/-- A change through an iterator that has not removed anything after `previous`. -/
theorem iterMethod_proposes (hw : d.list.Windows) {id : ℕ} {v : IterView} {it : IterWrap}
    (hv : d.list.iters id = some v) (hfresh : v.fresh = true) (hit : d.IterTracks v it)
    {op : IterOp α} (hback : op = .remove ∨ (∃ a, op = .set a) ∨ (∃ a, op = .add a) →
      v.removedBack = 0) {x : VetoableListDecorator α × Reply α}
    (hok : (d.iterMethod noVeto id it op).result = .ok x) {e : Effect α} {v' : IterView}
    (he : op.apply v (Splice.slice (d.list.start v.owner)
      (d.list.start v.owner + d.list.extent v.owner) d.list.elements) = .ok (e, v')) :
    Proposes (d.iterMethod noVeto id it op).proposals d.list.elements
      (Splice.splice (d.list.start v.owner) (d.list.extent v.owner) e.elements
        d.list.elements) := by
  obtain ⟨hu, hcursor, hlast⟩ := hw.iter id v hv hfresh
  have hle := hw.le_length hu
  have hoffset := (hit.fresh hfresh).2.2
  cases op with
  | remove =>
      have hzero := hback (Or.inl rfl)
      rw [iterMethod] at hok ⊢
      split at hok
      · cases hok
      · next hne =>
          rw [if_neg hne]
          cases hret : v.lastRet with
          | none =>
              change v.remove _ = _ at he
              rw [IterView.remove, hret] at he
              cases he
          | some i =>
              have hi := hit.lastReturned i hret
              have helems : e.elements = Splice.splice i 1 [] (Splice.slice (d.list.start v.owner)
                  (d.list.start v.owner + d.list.extent v.owner) d.list.elements) := by
                change v.remove _ = _ at he
                rw [IterView.remove, hret] at he
                change (if i < v.cursor then _ else _) = _ at he
                split at he <;> (cases he; rfl)
              rw [helems]
              apply proposes_splice (hlast i hret) hle
              have hpos : it.offset + it.lastReturned = ((d.list.start v.owner + i : ℕ) : ℤ) := by
                omega
              rw [hpos]
              rfl
  | set a =>
      have hzero := hback (Or.inr (Or.inl ⟨a, rfl⟩))
      rw [iterMethod] at hok ⊢
      split at hok
      · cases hok
      · next hne =>
          rw [if_neg hne]
          change v.set _ a = _ at he
          unfold IterView.set at he
          split at he
          · cases he
          · next i hret =>
              cases he
              have hi := hit.lastReturned i hret
              apply proposes_splice (hlast i hret) hle
              have hpos : it.offset + it.lastReturned = ((d.list.start v.owner + i : ℕ) : ℤ) := by
                omega
              rw [hpos]
              rfl
  | add a =>
      have hzero := hback (Or.inr (Or.inr ⟨a, rfl⟩))
      have hcur := hit.cursor
      cases he
      apply proposes_splice (show v.cursor + 0 ≤ _ from hcursor) hle
      have hpos : it.offset + it.cursor = ((d.list.start v.owner + v.cursor : ℕ) : ℤ) := by
        omega
      rw [hpos]
      rfl
  | next =>
      change v.next _ = _ at he
      unfold IterView.next at he
      split at he <;> cases he
      exact proposes_nothing
  | previous =>
      change v.previous _ = _ at he
      unfold IterView.previous at he
      split at he
      · cases he
      · split at he <;> cases he
        exact proposes_nothing
  | _ =>
      cases he
      exact proposes_nothing

theorem observableMethod_proposes (hw : d.list.Windows) {op : ObservableListOp α} {e : Effect α}
    (he : op.apply (Splice.slice (d.list.start .top) (d.list.start .top + d.list.extent .top)
      d.list.elements) = .ok e) :
    Proposes (d.observableMethod noVeto op).proposals d.list.elements
      (Splice.splice (d.list.start .top) (d.list.extent .top) e.elements d.list.elements) := by
  have hlen := hw.length_slice (r := .top) trivial
  have hle := hw.le_length (r := .top) trivial
  cases op with
  | setAll c =>
      cases he
      have hall : Splice.splice 0 (d.list.extent .top) c (Splice.slice (d.list.start .top)
          (d.list.start .top + d.list.extent .top) d.list.elements) = c := by
        show [] ++ (c ++ List.drop (0 + d.list.extent .top) _) = c
        rw [Nat.zero_add, List.drop_eq_nil_of_le hlen.le, List.append_nil, List.nil_append]
      have hproposes : Proposes [(c, [((0 + 0 : ℕ) : ℤ), ((0 + 0 + d.list.extent .top : ℕ) : ℤ)])]
          d.list.elements (Splice.splice (d.list.start .top) (d.list.extent .top)
            (Splice.splice 0 (d.list.extent .top) c (Splice.slice (d.list.start .top)
              (d.list.start .top + d.list.extent .top) d.list.elements)) d.list.elements) :=
        proposes_splice (Nat.zero_add _).le hle rfl
      rw [hall, Nat.zero_add, Nat.zero_add] at hproposes
      exact hproposes
  | remove fromIndex toIndex =>
      obtain ⟨ab, hab, hx⟩ := except_bind_eq_ok.mp he
      cases hx
      obtain ⟨rfl, rfl, hab', hsize⟩ := rangeIn_eq hab
      rw [hlen] at hsize
      apply proposes_splice (show ab.1 + (ab.2 - ab.1) ≤ _ by omega) hle
      have hto : d.list.start .top + ab.1 + (ab.2 - ab.1) = ab.2 := by
        show 0 + ab.1 + (ab.2 - ab.1) = ab.2
        omega
      have hfrom : d.list.start .top + ab.1 = ab.1 := Nat.zero_add _
      rw [hto, hfrom]

end VetoableListDecorator

/-! ## Runs -/

section Runs

variable [BEq α]

namespace VetoableListDecorator

variable {d d' : VetoableListDecorator α} {veto : Veto α}

/-- What the plain list does in a call that the decorator returns from. -/
theorem perform_ok (h : d.Tracks) {stack : ℕ} {c : ListCall α} {a : Reply α}
    (hok : (d.perform veto stack c).result = .ok (d', a)) :
    d.list.legal c = true ∧ d.list.perform c = .ok (d'.list, a) ∧ d'.Tracks := by
  have hplain := (perform_below stack c).result _ hok
  have hlegal := legal_of_perform hplain
  have havoids : d.list.Avoids c := by
    by_contra hno
    obtain ⟨e, herror, -⟩ := perform_disagrees h stack hlegal hno
    rw [hplain] at herror
    cases herror
  have hagrees := perform_agrees h stack hlegal havoids
  cases hp : d.list.perform c with
  | error e =>
      rw [hp] at hagrees
      have herror : (d.perform noVeto stack c).result = .error e := hagrees
      rw [hplain] at herror
      cases herror
  | ok pa =>
      rw [hp] at hagrees
      obtain ⟨d₁, hresult, hlist, htracks⟩ := hagrees
      rw [hplain] at hresult
      cases hresult
      exact ⟨hlegal, by rw [hlist], htracks⟩

/-- **One call:** the windows stay in place, and what has happened is what was proposed. -/
theorem perform_proposes (h : d.Tracks) (hw : d.list.Windows) {stack : ℕ} {c : ListCall α}
    (hmeets : d.list.Meets c) {a : Reply α}
    (hok : (d.perform veto stack c).result = .ok (d', a)) :
    d'.Tracks ∧ d'.list.Windows ∧
      Proposes (d.perform veto stack c).proposals d.list.elements d'.list.elements := by
  obtain ⟨hlegal, hplain, htracks⟩ := perform_ok h hok
  have hok' := (perform_below stack c).result _ hok
  rw [(perform_below stack c).proposals]
  refine ⟨htracks, ?_⟩
  cases c with
  | list receiver op =>
      obtain ⟨r, hr, hu⟩ := PlainList.ref_of_legal hw hlegal
      have hcall : d.list.call receiver (fun w => op.apply w) = .ok (d'.list, a) := hplain
      refine ⟨hw.call hr hu (fun w e => ListOp.apply_length) hcall, ?_⟩
      obtain ⟨e, he, hlist⟩ := PlainList.call_ok hr hu hcall
      rw [hlist, PlainList.store_elements]
      have hscattered : ∀ w, d.list.contents r = .ok w → op.Scattered w :=
        fun w hcontents => hmeets r w hr hcontents
      cases receiver with
      | none =>
          cases hr
          cases op with
          | lastIndexOf o =>
              cases he
              exact proposes_nothing
          | _ => exact sharedMethod_proposes hw hu rfl hscattered he
      | some id =>
          obtain ⟨v, hv, s, hs, hst, -, href, hcheck⟩ := h.legal_sub hlegal
          rw [hr] at href
          cases href
          have hsub : d.perform noVeto stack (.list (some id) op) =
              d.sharedMethod noVeto (some id) (.sub id s.accessor) s.offset op := by
            show d.subMethod noVeto id op = _
            simp only [subMethod, hs, hcheck]
          have hoffset : s.offset = d.list.start (.sub id s.accessor) := by
            rw [hst.offset, PlainList.start, hv]
            rfl
          rw [hsub]
          exact sharedMethod_proposes hw hu hoffset hscattered he
  | observable op =>
      have hu : d.list.Usable .top := trivial
      have hr : d.list.ref none = .ok .top := rfl
      have hcall : d.list.call none (fun w => op.apply w) = .ok (d'.list, a) := hplain
      refine ⟨hw.call hr hu (fun w e he hs => ?_) hcall, ?_⟩
      · rw [ObservableListOp.apply_structural he] at hs
        cases hs
      · obtain ⟨e, he, hlist⟩ := PlainList.call_ok hr hu hcall
        rw [hlist, PlainList.store_elements]
        exact observableMethod_proposes hw he
  | view receiver op =>
      obtain ⟨r, hr, hu⟩ := PlainList.ref_of_legal hw hlegal
      obtain ⟨hwindows, helements⟩ := hw.view (h.unused _ (le_refl _)) hr hu hplain
      refine ⟨hwindows, Or.inl ⟨?_, helements⟩⟩
      show (d.view receiver op).proposals = []
      unfold VetoableListDecorator.view
      split
      · rfl
      · split
        · rfl
        · split <;> rfl
  | iter id op =>
      obtain ⟨v, it, hv, hfresh, hit, hiter⟩ := h.legal_iter hlegal
      refine ⟨hw.iterCall hv hfresh hplain, ?_⟩
      obtain ⟨e, v', he, hlist⟩ := PlainList.iter_ok hv (hw.iter id v hv hfresh).1 hplain
      have helements : d'.list.elements = Splice.splice (d.list.start v.owner)
          (d.list.extent v.owner) e.elements d.list.elements := by
        rw [hlist]
        exact PlainList.store_elements
      have hmethod : d.perform noVeto stack (.iter id op) = d.iterMethod noVeto id it op :=
        hiter noVeto op
      rw [hmethod] at hok' ⊢
      rw [helements]
      refine iterMethod_proposes hw hv hfresh hit (fun hop => ?_) hok' he
      rcases hop with rfl | ⟨a, rfl⟩ | ⟨a, rfl⟩ <;> exact hmeets v hv

/-- A call does what it proposes: if it returns, the elements have changed as proposed; if
its proposal is vetoed, it throws what the veto threw and nothing has changed. -/
structure DoesAsProposed (d : VetoableListDecorator α) (veto : Veto α) (stack : ℕ)
    (c : ListCall α) : Prop where
  returns : ∀ d' a, (d.perform veto stack c).result = .ok (d', a) →
    Proposes (d.perform veto stack c).proposals d.list.elements d'.list.elements
  vetoed : ∀ toBeAdded indexes e, (toBeAdded, indexes) ∈ (d.perform veto stack c).proposals →
    veto toBeAdded indexes = some e → d.step veto stack c = (d, .error e)

/-- Every call of a run does what it proposes; each call has its own vetoes. -/
def DoesAllAsProposed (stack : ℕ) (d : VetoableListDecorator α) :
    List (ListCall α × Veto α) → Prop
  | [] => True
  | (c, veto) :: calls =>
      d.DoesAsProposed veto stack c ∧ (d.step veto stack c).1.DoesAllAsProposed stack calls

/-- Every call of a run meets the conditions. -/
def MeetsAll (stack : ℕ) (d : VetoableListDecorator α) : List (ListCall α × Veto α) → Prop
  | [] => True
  | (c, veto) :: calls => d.list.Meets c ∧ (d.step veto stack c).1.MeetsAll stack calls

theorem step_proposes (h : d.Tracks) (hw : d.list.Windows) (stack : ℕ) {c : ListCall α}
    (hmeets : d.list.Meets c) :
    d.DoesAsProposed veto stack c ∧ (d.step veto stack c).1.Tracks ∧
      (d.step veto stack c).1.list.Windows := by
  refine ⟨⟨fun d' a hok => (perform_proposes h hw hmeets hok).2.2,
    fun toBeAdded indexes e hp he => ?_⟩, ?_⟩
  · have herror := (perform_below stack c).vetoed _ hp e he
    rw [step, herror]
  · cases hresult : (d.perform veto stack c).result with
    | error e =>
        rw [step, hresult]
        exact ⟨h, hw⟩
    | ok x =>
        obtain ⟨htracks, hwindows, -⟩ := perform_proposes h hw hmeets hresult
        rw [step, hresult]
        exact ⟨htracks, hwindows⟩

theorem run_proposes (stack : ℕ) (calls : List (ListCall α × Veto α)) :
    ∀ {d : VetoableListDecorator α}, d.Tracks → d.list.Windows → d.MeetsAll stack calls →
      d.DoesAllAsProposed stack calls := by
  induction calls with
  | nil => exact fun _ _ _ => trivial
  | cons call calls ih =>
      intro d h hw hmeets
      obtain ⟨c, veto⟩ := call
      obtain ⟨hdoes, h', hw'⟩ := step_proposes h hw stack hmeets.1
      exact ⟨hdoes, ih h' hw' hmeets.2⟩

end VetoableListDecorator

/-- **A decorator does what it proposes.** In every run on a new decorator, its sub-lists
and its iterators, under any vetoes, whose calls remove no two neighbours one by one and
make no change through an iterator that has removed an element after `previous`: a call
that returns has changed the elements exactly as proposed, and a call that is vetoed has
changed nothing. -/
theorem decorator_does_as_proposed (elements : List α) (stack : ℕ)
    (calls : List (ListCall α × Veto α))
    (hmeets : ({ list := { elements := elements } } : VetoableListDecorator α).MeetsAll stack
      calls) :
    ({ list := { elements := elements } } : VetoableListDecorator α).DoesAllAsProposed stack
      calls :=
  VetoableListDecorator.run_proposes stack calls (VetoableListDecorator.tracks_new elements)
    (PlainList.windows_new elements) hmeets

end Runs

/-- A sub-list of a sub-list, a removal of two elements that are no neighbours, and a
vetoed change through a list iterator. -/
def proposedCalls : List (ListCall ℕ × Veto ℕ) :=
  [(.view none (.subList 1 6), noVeto), (.view (some 0) (.subList 1 5), noVeto),
    (.list (some 1) (.removeAll (fun n => n == 3 || n == 5)), noVeto),
    (.view (some 1) (.listIterator 1), noVeto), (.iter 0 .next, noVeto),
    (.iter 0 (.set 7), fun _ _ => some (.illegalArgument "")), (.iter 0 (.set 8), noVeto)]

theorem decorator_does_as_proposed_nested :
    ({ list := { elements := [1, 2, 3, 4, 5, 6, 7] } } : VetoableListDecorator ℕ).DoesAllAsProposed
        10 proposedCalls ∧
      (({ list := { elements := [1, 2, 3, 4, 5, 6, 7] } } : VetoableListDecorator ℕ).perform noVeto
        10 (.list none (.removeAll (fun n => n == 3 || n == 5)))).proposals =
          [([], [2, 3, 4, 5])] := by
  refine ⟨decorator_does_as_proposed _ 10 proposedCalls ?_, rfl⟩
  refine ⟨trivial, trivial, fun r w hr hw => ?_, trivial, trivial, fun v hv => ?_,
    fun v hv => ?_, trivial⟩
  · cases hr
    cases hw
    show NoNeighbours (fun n => n == 3 || n == 5) [3, 4, 5, 6]
    simp [NoNeighbours]
  · change some (⟨.sub 1 (.sub 0 .top), 2, some 1, true, 1, 0⟩ : IterView) = some v at hv
    cases hv
    rfl
  · change some (⟨.sub 1 (.sub 0 .top), 2, some 1, true, 1, 0⟩ : IterView) = some v at hv
    cases hv
    rfl

/-- Two neighbours are removed: the proposal has a pair for each, which are not maximal. -/
theorem neighbours_proposed_apart :
    (({ list := { elements := [1, 2, 3] } } : VetoableListDecorator ℕ).perform noVeto 10
        (.list none (.removeAll (fun n => n == 1 || n == 2)))).proposals =
          [([], [0, 1, 1, 2])] ∧
      ¬ ({ list := { elements := [1, 2, 3] } } : VetoableListDecorator ℕ).DoesAsProposed noVeto 10
        (.list none (.removeAll (fun n => n == 1 || n == 2))) := by
  refine ⟨rfl, fun hdoes => ?_⟩
  rcases hdoes.returns _ _ rfl with ⟨hnil, -⟩ | ⟨toBeAdded, indexes, heq, first, rest, hidx, hpw, -⟩
  · cases hnil
  · cases heq
    cases rest with
    | nil => exact nomatch (List.cons.inj (List.cons.inj hidx).2).2
    | cons second rest =>
        have hfirst : (1 : ℤ) = first.2 := (List.cons.inj (List.cons.inj hidx).2).1
        have hsecond : (1 : ℤ) = second.1 :=
          (List.cons.inj (List.cons.inj (List.cons.inj hidx).2).2).1
        have hlt := (List.pairwise_cons.mp hpw).1 second List.mem_cons_self
        omega

end JavaFx.Collections
