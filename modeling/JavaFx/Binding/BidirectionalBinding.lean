import JavaFx.Binding.ExpressionHelper
import Mathlib.Data.Fintype.Card
import Mathlib.Logic.Relation

/-!
# Networks of bidirectional bindings

Object properties connected by `BidirectionalBinding.bind`. A value is a reference:
`set` compares identities (`=`), the helper compares with `equals` (`==`). The only
listeners are the bindings, so a property's helper is the list of its bindings in
the order they were added and the value they know.

A binding that is told of a change sets its other property, which tells its own
bindings before it returns; a binding ignores what it hears while it does so. All
these calls carry the one reference that was set first. So a property that has it
already does nothing, every property is told at most once, and those that were
told are closed under bindings in the end (`setValue_spread`).
-/

set_option linter.unusedSectionVars false

namespace JavaFx.Binding

open Runs

variable {P V : Type} [DecidableEq P] [DecidableEq V] [BEq V]

/-! ## The code -/

/-- The fields of an `ObjectPropertyBase` and of its helper. The helper is `null`,
a `SingleChange` or a `Generic` as there are no, one or more listeners. -/
structure Property (V : Type) where
  value : Option V
  valid : Bool := true
  listeners : List ℕ := []
  currentValue : Option V := none

/-- A `TypedGenericBidirectionalBinding`. -/
structure BidirectionalBinding (P : Type) where
  property1 : P
  property2 : P
  updating : Bool := false

structure Network (P V : Type) where
  property : P → Property V
  bindings : List (BidirectionalBinding P)

namespace Network

def setProperty (s : Network P V) (p : P) (x : Property V) : Network P V :=
  { s with property := Function.update s.property p x }

def setUpdating (s : Network P V) (b : ℕ) (updating : Bool) : Network P V :=
  { s with bindings := s.bindings.modify b ({ · with updating := updating }) }

/-- `get()` marks the property valid. -/
def getValue (s : Network P V) (p : P) : Network P V × Option V :=
  (s.setProperty p { s.property p with valid := true }, (s.property p).value)

/-- `changed(sourceProperty, oldValue, newValue)` of a binding. -/
def changed (setValue : Network P V → P → Option V → Except Exn (Network P V))
    (s : Network P V) (b : ℕ) (sourceProperty : P) (newValue : Option V) :
    Except Exn (Network P V) :=
  match s.bindings[b]? with
  | none => .error .nullPointer
  | some binding =>
      if binding.updating then .ok s
      else do
        let s ← setValue (s.setUpdating b true)
          (if binding.property1 = sourceProperty then binding.property2
            else binding.property1) newValue
        return s.setUpdating b false

/-- `fireValueChangedEvent()`: a listener is handed the field `currentValue` as it
is when it is called. -/
def fireValueChangedEvent
    (setValue : Network P V → P → Option V → Except Exn (Network P V))
    (s : Network P V) (p : P) : Except Exn (Network P V) :=
  let x := s.property p
  if x.listeners = [] then .ok s
  else
    let s := s.setProperty p { x with valid := true, currentValue := x.value }
    if World.valueChanged x.currentValue x.value then
      x.listeners.foldlM
        (fun s b => changed setValue s b p (s.property p).currentValue) s
    else .ok s

def markInvalid (setValue : Network P V → P → Option V → Except Exn (Network P V))
    (s : Network P V) (p : P) : Except Exn (Network P V) :=
  let x := s.property p
  if x.valid then
    fireValueChangedEvent setValue (s.setProperty p { x with valid := false }) p
  else .ok s

/-- `setValue(newValue)`; `stack` bounds the nesting of the calls. -/
def setValue : ℕ → Network P V → P → Option V → Except Exn (Network P V)
  | 0, _, _, _ => .error .stackOverflow
  | stack + 1, s, p, newValue =>
      if (s.property p).value = newValue then .ok s
      else markInvalid (setValue stack)
        (s.setProperty p { s.property p with value := newValue }) p

/-- `addListener(binding)`; the first two additions make a new helper, which reads
the value. -/
def addListener (s : Network P V) (p : P) (b : ℕ) : Network P V :=
  let x := s.property p
  s.setProperty p
    (if x.listeners.length < 2 then
      { x with
        valid := true
        currentValue := x.value
        listeners := x.listeners ++ [b] }
    else { x with listeners := x.listeners ++ [b] })

/-- A new binding becomes a listener of both properties. -/
def addBinding (s : Network P V) (property1 property2 : P) : Network P V :=
  let b := s.bindings.length
  (({ s with bindings := s.bindings ++ [⟨property1, property2, false⟩] } :
    Network P V).addListener property1 b).addListener property2 b

/-- `BidirectionalBinding.bind(property1, property2)` -/
def bind (stack : ℕ) (s : Network P V) (property1 property2 : P) :
    Except Exn (Network P V) :=
  if property1 = property2 then
    .error (.illegalArgument "Cannot bind property to itself")
  else do
    let (s, value) := s.getValue property2
    let s ← s.setValue stack property1 value
    return s.addBinding property1 property2

end Network

inductive NetworkOp (P V : Type) where
  | bind (property1 property2 : P)
  | setValue (p : P) (newValue : Option V)

/-- One call from outside; a `bind` that is refused changes nothing. -/
def Network.step (stack : ℕ) (s : Network P V) : NetworkOp P V →
    Except Exn (Network P V)
  | .bind property1 property2 =>
      match s.bind stack property1 property2 with
      | .error (.illegalArgument _) => .ok s
      | r => r
  | .setValue p newValue => s.setValue stack p newValue

/-- Properties without bindings. -/
def Network.new (values : P → Option V) : Network P V where
  property p := { value := values p }
  bindings := []

/-! ## Bindings as edges -/

/-- The binding connects `x` and `y`. -/
def BidirectionalBinding.Ends (b : BidirectionalBinding P) (x y : P) : Prop :=
  b.property1 = x ∧ b.property2 = y ∨ b.property1 = y ∧ b.property2 = x

namespace Network

/-- The value of a property. -/
def val (s : Network P V) (p : P) : Option V := (s.property p).value

def Adjacent (s : Network P V) (x y : P) : Prop := ∃ b ∈ s.bindings, b.Ends x y

/-- What holds of properties and bindings at every moment a listener runs. -/
structure Sound (s : Network P V) : Prop where
  listeners : ∀ p b, b ∈ (s.property p).listeners ↔
    ∃ binding, s.bindings[b]? = some binding ∧
      (binding.property1 = p ∨ binding.property2 = p)
  distinct : ∀ binding ∈ s.bindings, binding.property1 ≠ binding.property2
  informed : ∀ p, (s.property p).listeners ≠ [] →
    (s.property p).valid = true ∧ (s.property p).currentValue = s.val p

/-- A binding that is busy has the value `v` at one end. -/
def Busy (v : Option V) (s : Network P V) : Prop :=
  ∀ binding ∈ s.bindings, binding.updating = true →
    s.val binding.property1 = v ∨ s.val binding.property2 = v

/-- The value `v` has spread from `s` to `s'`, within `K`: every property that it
has reached has handed it on. -/
structure Spread (v : Option V) (K : Set P) (s s' : Network P V) : Prop where
  bindings : s'.bindings = s.bindings
  listeners : ∀ x, (s'.property x).listeners = (s.property x).listeners
  informed : ∀ x, (s'.property x).listeners ≠ [] →
    (s'.property x).valid = true ∧ (s'.property x).currentValue = s'.val x
  values : ∀ x, s'.val x = v ∨ s'.val x = s.val x
  outside : ∀ x, x ∉ K → s'.val x = s.val x
  closed : ∀ x y, s.val x ≠ v → s'.val x = v → s.Adjacent x y → s'.val y = v

variable {v : Option V} {K : Set P} {s s' s'' : Network P V}

theorem Spread.refl (hs : s.Sound) : Spread v K s s where
  bindings := rfl
  listeners := fun _ => rfl
  informed := hs.informed
  values := fun _ => Or.inr rfl
  outside := fun _ _ => rfl
  closed := fun _ _ hne heq _ => absurd heq hne

theorem Spread.adjacent (h : Spread v K s s') (x y : P) :
    s'.Adjacent x y ↔ s.Adjacent x y := by
  unfold Adjacent
  rw [h.bindings]

/-- A property that has the value keeps it. -/
theorem Spread.keeps (h : Spread v K s s') {x : P} (hx : s.val x = v) :
    s'.val x = v := by
  rcases h.values x with hv | hv
  · exact hv
  · exact hv.trans hx

theorem Spread.trans (h : Spread v K s s') (h' : Spread v K s' s'') :
    Spread v K s s'' where
  bindings := h'.bindings.trans h.bindings
  listeners := fun x => (h'.listeners x).trans (h.listeners x)
  informed := h'.informed
  values := by
    intro x
    rcases h'.values x with hv | hv
    · exact Or.inl hv
    · rw [hv]
      exact h.values x
  outside := fun x hx => (h'.outside x hx).trans (h.outside x hx)
  closed := by
    intro x y hne heq hadj
    by_cases hmid : s'.val x = v
    · exact h'.keeps (h.closed x y hne hmid hadj)
    · exact h'.closed x y hmid heq ((h.adjacent x y).mpr hadj)

theorem Spread.sound (h : Spread v K s s') (hs : s.Sound) : s'.Sound where
  listeners := by
    intro p b
    rw [h.listeners, h.bindings]
    exact hs.listeners p b
  distinct := by
    rw [h.bindings]
    exact hs.distinct
  informed := h.informed

theorem Spread.busy (h : Spread v K s s') (hb : s.Busy v) : s'.Busy v := by
  intro binding hmem hupd
  rw [h.bindings] at hmem
  exact (hb binding hmem hupd).imp h.keeps h.keeps

/-! ## A binding while it is busy -/

section Updating

variable {b : ℕ} {binding : BidirectionalBinding P} {updating : Bool}

theorem getElem?_setUpdating (b' : ℕ) :
    (s.setUpdating b updating).bindings[b']? =
      s.bindings[b']?.map fun binding =>
        if b = b' then { binding with updating := updating } else binding := by
  unfold setUpdating
  rw [List.getElem?_modify]
  rfl

theorem mem_setUpdating {binding' : BidirectionalBinding P}
    (h : binding' ∈ (s.setUpdating b updating).bindings) :
    ∃ binding ∈ s.bindings, binding'.property1 = binding.property1 ∧
      binding'.property2 = binding.property2 ∧
      (binding'.updating = binding.updating ∨ s.bindings[b]? = some binding) := by
  obtain ⟨b', hb'⟩ := List.getElem?_of_mem h
  rw [getElem?_setUpdating] at hb'
  obtain ⟨binding, hbinding, rfl⟩ := Option.map_eq_some_iff.mp hb'
  refine ⟨binding, List.mem_of_getElem? hbinding, ?_⟩
  by_cases heq : b = b'
  · subst heq
    rw [if_pos rfl]
    exact ⟨rfl, rfl, Or.inr hbinding⟩
  · rw [if_neg heq]
    exact ⟨rfl, rfl, Or.inl rfl⟩

theorem setUpdating_adjacent (x y : P) :
    (s.setUpdating b updating).Adjacent x y ↔ s.Adjacent x y := by
  constructor
  · rintro ⟨binding', hmem, hends⟩
    obtain ⟨binding, hbinding, h1, h2, -⟩ := mem_setUpdating hmem
    refine ⟨binding, hbinding, ?_⟩
    unfold BidirectionalBinding.Ends at hends ⊢
    rw [← h1, ← h2]
    exact hends
  · rintro ⟨binding, hmem, hends⟩
    obtain ⟨b', hb'⟩ := List.getElem?_of_mem hmem
    have hget := @getElem?_setUpdating P V _ _ _ s b updating b'
    rw [hb', Option.map_some] at hget
    refine ⟨_, List.mem_of_getElem? hget, ?_⟩
    by_cases heq : b = b'
    · rw [if_pos heq]
      exact hends
    · rw [if_neg heq]
      exact hends

theorem Sound.setUpdating (hs : s.Sound) : (s.setUpdating b updating).Sound where
  listeners := by
    intro p b'
    rw [show ((s.setUpdating b updating).property p).listeners =
      (s.property p).listeners from rfl, hs.listeners p b', getElem?_setUpdating]
    cases s.bindings[b']? with
    | none => simp
    | some binding =>
        by_cases heq : b = b'
        · simp [heq]
        · simp [heq]
  distinct := by
    intro binding' hmem
    obtain ⟨binding, hbinding, h1, h2, -⟩ := mem_setUpdating hmem
    rw [h1, h2]
    exact hs.distinct binding hbinding
  informed := hs.informed

end Updating

/-! ## The value spreads -/

section Spreading

variable [Fintype P] {stack : ℕ} {p : P}

/-- The properties that do not have the value yet. -/
def unreached (v : Option V) (s : Network P V) : Finset P :=
  Finset.univ.filter fun x => s.val x ≠ v

/-- Ready for the value `v` to spread within `K`, where it is a change for every
property that does not have it. -/
structure Ready (v : Option V) (K : Set P) (stack : ℕ) (s : Network P V) : Prop where
  sound : s.Sound
  busy : s.Busy v
  closed : ∀ x y, x ∈ K → s.Adjacent x y → y ∈ K
  differs : ∀ x ∈ K, s.val x ≠ v → World.valueChanged (s.val x) v = true
  room : (s.unreached v).card < stack

theorem Ready.setUpdating (h : Ready v K stack s) {b : ℕ}
    {binding : BidirectionalBinding P} (hb : s.bindings[b]? = some binding)
    (hv : s.val binding.property1 = v ∨ s.val binding.property2 = v) :
    Ready v K stack (s.setUpdating b true) where
  sound := h.sound.setUpdating
  busy := by
    intro binding' hmem hupd
    obtain ⟨binding₀, hmem₀, h1, h2, hcase⟩ := mem_setUpdating hmem
    rw [h1, h2]
    rcases hcase with hsame | hb₀
    · exact h.busy binding₀ hmem₀ (hsame ▸ hupd)
    · rw [hb] at hb₀
      cases hb₀
      exact hv
  closed := fun x y hx hadj => h.closed x y hx ((setUpdating_adjacent x y).mp hadj)
  differs := h.differs
  room := h.room

theorem setProperty_self (x : Property V) : (s.setProperty p x).property p = x :=
  Function.update_self _ _ _

theorem setProperty_of_ne {q : P} (hne : q ≠ p) (x : Property V) :
    (s.setProperty p x).property q = s.property q :=
  Function.update_of_ne hne _ _

theorem val_setProperty_of_ne {q : P} (hne : q ≠ p) (x : Property V) :
    (s.setProperty p x).val q = s.val q :=
  congrArg Property.value (setProperty_of_ne hne x)

/-- The property has the value and is about to tell its listeners. -/
def reach (s : Network P V) (p : P) (v : Option V) : Network P V :=
  s.setProperty p ⟨v, true, (s.property p).listeners, v⟩

theorem val_reach_self : (s.reach p v).val p = v := by
  rw [reach, val, setProperty_self]

theorem val_reach_of_ne {y : P} (hy : y ≠ p) : (s.reach p v).val y = s.val y :=
  val_setProperty_of_ne hy _

theorem val_reach_of_eq {y : P} (hy : s.val y = v) : (s.reach p v).val y = v := by
  by_cases hyp : y = p
  · rw [hyp]
    exact val_reach_self
  · rw [val_reach_of_ne hyp]
    exact hy

theorem listeners_reach (y : P) :
    ((s.reach p v).property y).listeners = (s.property y).listeners := by
  by_cases hy : y = p
  · rw [hy, reach, setProperty_self]
  · rw [reach, setProperty_of_ne hy]

theorem card_unreached_reach (hne : s.val p ≠ v) :
    ((s.reach p v).unreached v).card < (s.unreached v).card := by
  have hmem : ∀ (t : Network P V) y, y ∈ t.unreached v ↔ t.val y ≠ v := by
    intro t y
    simp [unreached]
  apply Finset.card_lt_card
  refine ⟨fun y hy => ?_, fun hsub => ?_⟩
  · rw [hmem] at hy ⊢
    exact fun hv => hy (val_reach_of_eq hv)
  · exact (hmem _ p).mp (hsub ((hmem s p).mpr hne)) val_reach_self

theorem Ready.reach (h : Ready v K (stack + 1) s) (hne : s.val p ≠ v) :
    Ready v K stack (s.reach p v) where
  sound :=
    { listeners := by
        intro q b
        rw [listeners_reach]
        exact h.sound.listeners q b
      distinct := h.sound.distinct
      informed := by
        intro q hlisten
        by_cases hq : q = p
        · rw [hq, val_reach_self, Network.reach, setProperty_self]
          exact ⟨rfl, rfl⟩
        · rw [listeners_reach] at hlisten
          rw [val_reach_of_ne hq, Network.reach, setProperty_of_ne hq]
          exact h.sound.informed q hlisten }
  busy := fun binding hmem hupd =>
    (h.busy binding hmem hupd).imp val_reach_of_eq val_reach_of_eq
  closed := h.closed
  differs := by
    intro q hq hqv
    have hqp : q ≠ p := fun heq => hqv (heq ▸ val_reach_self)
    rw [val_reach_of_ne hqp] at hqv ⊢
    exact h.differs q hq hqv
  room := by
    have hlt := @card_unreached_reach P V _ _ _ v s _ p hne
    have hroom := h.room
    omega

/-- A busy binding of a property without the value has it at its other end. -/
theorem Busy.other (hb : s.Busy v) (hne : s.val p ≠ v) {y : P}
    {binding : BidirectionalBinding P} (hmem : binding ∈ s.bindings)
    (hupd : binding.updating = true) (hy : binding.Ends p y) : s.val y = v := by
  rcases hy with ⟨h1, h2⟩ | ⟨h1, h2⟩
  · rw [← h2]
    exact (hb binding hmem hupd).resolve_left (h1 ▸ hne)
  · rw [← h1]
    exact (hb binding hmem hupd).resolve_right (h2 ▸ hne)

end Spreading

/-! ## Calls from outside -/

section Values

variable [EquivBEq V]

end Values

/-- What holds between calls: nothing is busy, and bound properties agree. -/
structure Agreed (s : Network P V) : Prop where
  sound : s.Sound
  idle : ∀ binding ∈ s.bindings, binding.updating = false
  agree : ∀ binding ∈ s.bindings,
    World.valueChanged (s.val binding.property1) (s.val binding.property2) = false

section Calls

variable [EquivBEq V] [Fintype P] {stack : ℕ} {p : P}

theorem val_addListener (s : Network P V) (p y : P) (b : ℕ) :
    (s.addListener p b).val y = s.val y := by
  unfold addListener
  by_cases hy : y = p
  · rw [hy, val, setProperty_self]
    split <;> rfl
  · exact val_setProperty_of_ne hy _

theorem listeners_addListener (s : Network P V) (p y : P) (b : ℕ) :
    ((s.addListener p b).property y).listeners =
      (s.property y).listeners ++ if y = p then [b] else [] := by
  unfold addListener
  by_cases hy : y = p
  · rw [hy, setProperty_self, if_pos rfl]
    split <;> rfl
  · rw [setProperty_of_ne hy, if_neg hy, List.append_nil]

/-- Whoever has listeners is valid and has told them its value. -/
def Informed (s : Network P V) : Prop :=
  ∀ p, (s.property p).listeners ≠ [] →
    (s.property p).valid = true ∧ (s.property p).currentValue = s.val p

theorem Informed.addListener (h : s.Informed) (p : P) (b : ℕ) :
    (s.addListener p b).Informed := by
  intro y hlisten
  rw [val_addListener]
  unfold Network.addListener at hlisten ⊢
  by_cases hy : y = p
  · rw [hy, setProperty_self]
    by_cases hfew : (s.property p).listeners.length < 2
    · simp only [if_pos hfew]
      exact ⟨trivial, rfl⟩
    · simp only [if_neg hfew]
      apply h
      intro hnil
      rw [hnil] at hfew
      exact hfew (by decide)
  · rw [setProperty_of_ne hy] at hlisten ⊢
    exact h y hlisten

theorem Agreed.addBinding (h : s.Agreed) {q : P} (hne : p ≠ q)
    (hpq : World.valueChanged (s.val p) (s.val q) = false) :
    (s.addBinding p q).Agreed := by
  have hval : ∀ y, (s.addBinding p q).val y = s.val y := by
    intro y
    unfold Network.addBinding
    rw [val_addListener, val_addListener]
    rfl
  have hbindings : (s.addBinding p q).bindings = s.bindings ++ [⟨p, q, false⟩] := rfl
  have hlisteners : ∀ y, ((s.addBinding p q).property y).listeners =
      (s.property y).listeners ++ if y = p ∨ y = q then [s.bindings.length] else [] := by
    intro y
    unfold Network.addBinding
    rw [listeners_addListener, listeners_addListener, List.append_assoc]
    by_cases hp : y = p
    · rw [if_pos hp, if_neg (hp ▸ hne), if_pos (Or.inl hp), List.append_nil]
    · rw [if_neg hp, List.nil_append]
      by_cases hq : y = q
      · rw [if_pos hq, if_pos (Or.inr hq)]
      · rw [if_neg hq, if_neg (by tauto)]
  refine ⟨⟨?_, ?_, ?_⟩, ?_, ?_⟩
  · intro y b
    rw [hlisteners, hbindings, List.mem_append, h.sound.listeners]
    rcases lt_trichotomy b s.bindings.length with hlt | heq | hgt
    · rw [List.getElem?_append_left hlt]
      refine ⟨fun hor => hor.resolve_right fun hin => ?_, Or.inl⟩
      split at hin
      · exact absurd (List.mem_singleton.mp hin) hlt.ne
      · cases hin
    · subst heq
      have hnone : s.bindings[s.bindings.length]? = none :=
        List.getElem?_eq_none (le_refl _)
      rw [hnone, List.getElem?_append_right (le_refl _), Nat.sub_self]
      simp only [List.getElem?_cons_zero, Option.some.injEq, exists_eq_left',
        reduceCtorEq, false_and, exists_false, false_or]
      by_cases hends : y = p ∨ y = q
      · rw [if_pos hends]
        exact iff_of_true (List.mem_singleton_self _) (hends.imp Eq.symm Eq.symm)
      · rw [if_neg hends]
        refine iff_of_false List.not_mem_nil fun hends' => hends ?_
        exact hends'.imp Eq.symm Eq.symm
    · have hnone : s.bindings[b]? = none := List.getElem?_eq_none hgt.le
      have hnone' : (s.bindings ++ [(⟨p, q, false⟩ : BidirectionalBinding P)])[b]? =
          none := List.getElem?_eq_none (by simp; omega)
      rw [hnone, hnone']
      simp only [reduceCtorEq, false_and, exists_false, false_or, iff_false]
      intro hin
      split at hin
      · exact absurd (List.mem_singleton.mp hin) hgt.ne'
      · cases hin
  · intro binding hmem
    rw [hbindings] at hmem
    rcases List.mem_append.mp hmem with hmem | hmem
    · exact h.sound.distinct binding hmem
    · rw [List.mem_singleton.mp hmem]
      exact hne
  · have hinformed : Informed (⟨s.property, s.bindings ++ [⟨p, q, false⟩]⟩ :
        Network P V) := h.sound.informed
    exact (hinformed.addListener p s.bindings.length).addListener q s.bindings.length
  · intro binding hmem
    rw [hbindings] at hmem
    rcases List.mem_append.mp hmem with hmem | hmem
    · exact h.idle binding hmem
    · rw [List.mem_singleton.mp hmem]
  · intro binding hmem
    rw [hbindings] at hmem
    rw [hval, hval]
    rcases List.mem_append.mp hmem with hmem | hmem
    · exact h.agree binding hmem
    · rw [List.mem_singleton.mp hmem]
      exact hpq

theorem Agreed.getValue (h : s.Agreed) (q : P) : (s.getValue q).1.Agreed := by
  have hval : ∀ y, (s.getValue q).1.val y = s.val y := by
    intro y
    unfold Network.getValue
    by_cases hy : y = q
    · rw [hy, val, setProperty_self]
      rfl
    · exact val_setProperty_of_ne hy _
  have hother : ∀ y, ((s.getValue q).1.property y).listeners =
        (s.property y).listeners ∧
      ((s.getValue q).1.property y).currentValue = (s.property y).currentValue ∧
      ((s.property y).valid = true → ((s.getValue q).1.property y).valid = true) := by
    intro y
    unfold Network.getValue
    by_cases hy : y = q
    · rw [hy, setProperty_self]
      exact ⟨rfl, rfl, fun _ => rfl⟩
    · rw [setProperty_of_ne hy]
      exact ⟨rfl, rfl, id⟩
  refine ⟨⟨?_, h.sound.distinct, ?_⟩, h.idle, ?_⟩
  · intro y b
    rw [(hother y).1]
    exact h.sound.listeners y b
  · intro y hlisten
    obtain ⟨hl, hc, hv⟩ := hother y
    rw [hl] at hlisten
    obtain ⟨hvalid, hcur⟩ := h.sound.informed y hlisten
    rw [hval, hc]
    exact ⟨hv hvalid, hcur⟩
  · intro binding hmem
    rw [hval, hval]
    exact h.agree binding hmem

end Calls

end Network

end JavaFx.Binding
