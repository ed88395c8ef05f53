import JavaFx.Binding.ExpressionHelper

/-!
# Adding and removing listeners

Seen from outside, a helper is a list of invalidation listeners and a list of
change listeners: an `add` appends to its list and a `remove` deletes the first
listener that is equal, whatever object the helper is. `Registers` says what an
operation does besides, above all to the arrays that running notifications may be
reading.
-/

set_option linter.unusedSectionVars false

namespace JavaFx.Binding

variable {I C V : Type}

namespace World

/-! ## What the helper holds -/

/-- The arrays of the helper, if it is a `Generic`. -/
def invalidationField (w : World I C V) : Listeners :=
  match w.helper with
  | .generic this => (w.generic this).invalidation
  | _ => {}

def changeField (w : World I C V) : Listeners :=
  match w.helper with
  | .generic this => (w.generic this).change
  | _ => {}

def locked (w : World I C V) : Bool :=
  match w.helper with
  | .generic this => (w.generic this).locked
  | _ => false

/-- The value the change listeners were told last. -/
def currentValue (w : World I C V) : Option V :=
  match w.helper with
  | .singleChange _ currentValue => currentValue
  | .generic this => (w.generic this).currentValue
  | _ => none

/-- The helper holds the invalidation listeners `xs` and the change listeners
`ys`. -/
def Holds (w : World I C V) (xs : List I) (ys : List C) : Prop :=
  match w.helper with
  | .null => xs = [] ∧ ys = []
  | .singleInvalidation l => xs = [l] ∧ ys = []
  | .singleChange l _ => xs = [] ∧ ys = [l]
  | .generic this => this < w.generics.length ∧
      (w.generic this).invalidation.Holds w.invalidationArrays xs ∧
      (w.generic this).change.Holds w.changeArrays ys

theorem listenersIn_eq {L : Type} {heap : Arrays L} {a : Listeners} {xs : List L}
    (h : a.Holds heap xs) : listenersIn heap a = xs := by
  obtain ⟨hsize, harray⟩ := h
  unfold listenersIn
  cases ha : a.array with
  | none =>
      rw [ha] at harray
      exact harray.symm
  | some r =>
      rw [ha] at harray
      obtain ⟨array, hr, hbegins⟩ := harray
      simp only [Listeners.at_eq hr, hsize, hbegins.take, List.filterMap_map,
        Function.id_comp, List.filterMap_some]

theorem Holds.lists {w : World I C V} {xs : List I} {ys : List C}
    (h : w.Holds xs ys) : w.invalidations = xs ∧ w.changes = ys := by
  unfold Holds at h
  unfold invalidations changes
  cases hw : w.helper with
  | null | singleInvalidation l | singleChange l v => rw [hw] at h; exact ⟨h.1.symm, h.2.symm⟩
  | generic this =>
      rw [hw] at h
      exact ⟨listenersIn_eq h.2.1, listenersIn_eq h.2.2⟩

theorem empty_holds {L : Type} (heap : Arrays L) : ({} : Listeners).Holds heap [] :=
  ⟨rfl, rfl⟩

/-- The listeners in the arrays of the helper. -/
def fieldInvalidations (w : World I C V) : List I :=
  listenersIn w.invalidationArrays w.invalidationField

def fieldChanges (w : World I C V) : List C :=
  listenersIn w.changeArrays w.changeField

theorem Holds.fields {w : World I C V} {xs : List I} {ys : List C}
    (h : w.Holds xs ys) :
    w.invalidationField.Holds w.invalidationArrays w.fieldInvalidations ∧
      w.changeField.Holds w.changeArrays w.fieldChanges := by
  unfold Holds at h
  unfold fieldInvalidations fieldChanges invalidationField changeField
  cases hw : w.helper with
  | null => exact ⟨empty_holds _, empty_holds _⟩
  | singleInvalidation l => exact ⟨empty_holds _, empty_holds _⟩
  | singleChange l v => exact ⟨empty_holds _, empty_holds _⟩
  | generic this =>
      rw [hw] at h
      obtain ⟨-, hx, hy⟩ := h
      rw [listenersIn_eq hx, listenersIn_eq hy]
      exact ⟨hx, hy⟩

/-- What an operation leaves alone, and what it does to the arrays of the helper;
`xs` and `ys` are what the arrays then begin with. -/
structure Registers (w : World I C V) (xs : List I) (ys : List C) (w' : World I C V) :
    Prop where
  invalidation : Listeners.Touches w.locked w.invalidationArrays w.invalidationField xs
    w'.invalidationArrays w'.invalidationField
  change : Listeners.Touches w.locked w.changeArrays w.changeField ys
    w'.changeArrays w'.changeField
  value : w'.value = w.value
  frames : w'.frames = w.frames
  fires : w'.fires = w.fires
  currentValue : w'.changes = [] ∨ w'.currentValue = w.value ∨
    w'.currentValue = w.currentValue ∧ w.changes ≠ []

/-! ## The helper is replaced, or one of its fields written -/

section Fields

variable {w : World I C V} {g : Generic V} {this : ℕ}

theorem generic_newGeneric :
    (w.newGeneric g).generic w.generics.length = g := by
  unfold generic newGeneric
  simp

theorem newGeneric_invalidationField :
    (w.newGeneric g).invalidationField = g.invalidation :=
  congrArg Generic.invalidation generic_newGeneric

theorem newGeneric_changeField : (w.newGeneric g).changeField = g.change :=
  congrArg Generic.change generic_newGeneric

theorem newGeneric_currentValue : (w.newGeneric g).currentValue = g.currentValue :=
  congrArg Generic.currentValue generic_newGeneric

theorem newGeneric_holds {xs : List I} {ys : List C}
    (hx : g.invalidation.Holds w.invalidationArrays xs)
    (hy : g.change.Holds w.changeArrays ys) : (w.newGeneric g).Holds xs ys := by
  show w.generics.length < (w.generics ++ [g]).length ∧
    ((w.newGeneric g).generic w.generics.length).invalidation.Holds _ xs ∧ _
  rw [generic_newGeneric]
  exact ⟨by simp, hx, hy⟩

theorem generic_setGeneric (hlt : this < w.generics.length) :
    (w.setGeneric this g).generic this = g := by
  unfold generic setGeneric
  simp [hlt]

theorem generic_setGeneric_of_ne {this' : ℕ} (hne : this' ≠ this) :
    (w.setGeneric this g).generic this' = w.generic this' := by
  unfold generic setGeneric
  simp [hne.symm]

theorem setGeneric_fields (hw : w.helper = .generic this)
    (hlt : this < w.generics.length) :
    (w.setGeneric this g).invalidationField = g.invalidation ∧
      (w.setGeneric this g).changeField = g.change ∧
      (w.setGeneric this g).currentValue = g.currentValue := by
  have hw' : (w.setGeneric this g).helper = .generic this := hw
  unfold invalidationField changeField currentValue
  rw [hw']
  exact ⟨congrArg Generic.invalidation (generic_setGeneric hlt),
    congrArg Generic.change (generic_setGeneric hlt),
    congrArg Generic.currentValue (generic_setGeneric hlt)⟩

theorem setGeneric_holds (hw : w.helper = .generic this)
    (hlt : this < w.generics.length) {xs : List I} {ys : List C}
    (hx : g.invalidation.Holds w.invalidationArrays xs)
    (hy : g.change.Holds w.changeArrays ys) :
    (w.setGeneric this g).Holds xs ys := by
  have hw' : (w.setGeneric this g).helper = .generic this := hw
  unfold Holds
  rw [hw']
  simp only [generic_setGeneric hlt]
  exact ⟨by simpa [setGeneric] using hlt, hx, hy⟩

theorem fields_of_generic (hw : w.helper = .generic this) :
    w.invalidationField = (w.generic this).invalidation ∧
      w.changeField = (w.generic this).change ∧
      w.locked = (w.generic this).locked ∧
      w.currentValue = (w.generic this).currentValue := by
  unfold invalidationField changeField locked currentValue
  rw [hw]
  exact ⟨rfl, rfl, rfl, rfl⟩

theorem Holds.of_generic {xs : List I} {ys : List C} (h : w.Holds xs ys)
    (hw : w.helper = .generic this) :
    this < w.generics.length ∧
      (w.generic this).invalidation.Holds w.invalidationArrays xs ∧
      (w.generic this).change.Holds w.changeArrays ys ∧
      w.fieldInvalidations = xs ∧ w.fieldChanges = ys := by
  obtain ⟨hfI, hfC, -, -⟩ := fields_of_generic hw
  unfold Holds at h
  rw [hw] at h
  obtain ⟨hlt, hx, hy⟩ := h
  refine ⟨hlt, hx, hy, ?_, ?_⟩
  · rw [fieldInvalidations, hfI]
    exact listenersIn_eq hx
  · rw [fieldChanges, hfC]
    exact listenersIn_eq hy

/-- The helper becomes an object for one listener. -/
theorem holds_setHelper_registers {xs : List I} {ys : List C} (h : w.Holds xs ys)
    {helper : Helper I C V} (hhelper : ∀ this, helper ≠ .generic this)
    (hcur : ({ w with helper := helper } : World I C V).changes = [] ∨
      ({ w with helper := helper } : World I C V).currentValue = w.value) :
    w.Registers w.fieldInvalidations w.fieldChanges { w with helper := helper } := by
  obtain ⟨hI, hC⟩ := h.fields
  have hnull : ({ w with helper := helper } : World I C V).invalidationField = {} ∧
      ({ w with helper := helper } : World I C V).changeField = {} := by
    unfold invalidationField changeField
    cases helper with
    | generic this => exact absurd rfl (hhelper this)
    | _ => exact ⟨rfl, rfl⟩
  refine ⟨?_, ?_, rfl, rfl, rfl, hcur.imp_right Or.inl⟩
  · rw [hnull.1]
    exact hI.touches_null _
  · rw [hnull.2]
    exact hC.touches_null _

theorem Holds.registers_self {xs : List I} {ys : List C} (h : w.Holds xs ys) :
    w.Registers w.fieldInvalidations w.fieldChanges w := by
  obtain ⟨hI, hC⟩ := h.fields
  refine ⟨hI.touches _, hC.touches _, rfl, rfl, rfl, ?_⟩
  by_cases hnil : w.changes = []
  · exact Or.inl hnil
  · exact Or.inr (Or.inr ⟨rfl, hnil⟩)

/-- The invalidation listeners of a `Generic` are exchanged. -/
theorem Holds.set_invalidation {xs xs' kept : List I} {ys : List C} (h : w.Holds xs ys)
    (hw : w.helper = .generic this) {heap : Arrays I} {a : Listeners} (ha : a.Holds heap xs')
    (htouch : Listeners.Touches (w.generic this).locked w.invalidationArrays
      (w.generic this).invalidation kept heap a) :
    (setGeneric { w with invalidationArrays := heap } this
        { w.generic this with invalidation := a }).Holds xs' ys ∧
      w.Registers kept ys (setGeneric { w with invalidationArrays := heap } this
        { w.generic this with invalidation := a }) := by
  obtain ⟨hfI, hfC, hlocked, hcur⟩ := fields_of_generic hw
  obtain ⟨hlt, -, hy, -, -⟩ := h.of_generic hw
  have hfields := @setGeneric_fields I C V { w with invalidationArrays := heap }
    { w.generic this with invalidation := a } this hw hlt
  have hholds := @setGeneric_holds I C V { w with invalidationArrays := heap }
    { w.generic this with invalidation := a } this hw hlt _ _ ha hy
  refine ⟨hholds, ?_, ?_, rfl, rfl, rfl, ?_⟩
  · rw [hfields.1, hfI, hlocked]
    exact htouch
  · rw [hfields.2.1, hfC]
    exact hy.touches _
  · rw [hfields.2.2, hcur, h.lists.2, hholds.lists.2]
    by_cases hnil : ys = []
    · exact Or.inl hnil
    · exact Or.inr (Or.inr ⟨rfl, hnil⟩)

/-- The change listeners of a `Generic` are exchanged, and its current value. -/
theorem Holds.set_change {xs : List I} {ys ys' kept : List C} (h : w.Holds xs ys)
    (hw : w.helper = .generic this) {heap : Arrays C} {a : Listeners} {v : Option V}
    (ha : a.Holds heap ys')
    (htouch : Listeners.Touches (w.generic this).locked w.changeArrays
      (w.generic this).change kept heap a)
    (hv : ys' = [] ∨ v = w.value ∨ v = (w.generic this).currentValue ∧ ys ≠ []) :
    (setGeneric { w with changeArrays := heap } this
        { w.generic this with change := a, currentValue := v }).Holds xs ys' ∧
      w.Registers xs kept (setGeneric { w with changeArrays := heap } this
        { w.generic this with change := a, currentValue := v }) := by
  obtain ⟨hfI, hfC, hlocked, hcur⟩ := fields_of_generic hw
  obtain ⟨hlt, hx, -, -, -⟩ := h.of_generic hw
  have hfields := @setGeneric_fields I C V { w with changeArrays := heap }
    { w.generic this with change := a, currentValue := v } this hw hlt
  have hholds := @setGeneric_holds I C V { w with changeArrays := heap }
    { w.generic this with change := a, currentValue := v } this hw hlt _ _ hx ha
  refine ⟨hholds, ?_, ?_, rfl, rfl, rfl, ?_⟩
  · rw [hfields.1, hfI]
    exact hx.touches _
  · rw [hfields.2.1, hfC, hlocked]
    exact htouch
  · rw [hfields.2.2, hcur, h.lists.2, hholds.lists.2]
    exact hv

end Fields

/-! ## `addListener` -/

section Add

variable [BEq I] [BEq C] [BEq V]

/-- What the invalidation array begins with after an operation. -/
def keptInvalidations (w : World I C V) : Action I C V → List I
  | .addInvalidation _ collected =>
      Listeners.kept w.locked collected w.invalidationArrays w.invalidationField
        w.fieldInvalidations
  | .removeInvalidation l =>
      if w.invalidationField.size = 1 ∨
          w.invalidationField.size = 2 ∧ w.changeField.size = 0 then
        w.fieldInvalidations
      else w.fieldInvalidations.eraseP (l == ·)
  | _ => w.fieldInvalidations

/-- What the change array begins with after an operation. -/
def keptChanges (w : World I C V) : Action I C V → List C
  | .addChange _ collected =>
      Listeners.kept w.locked collected w.changeArrays w.changeField w.fieldChanges
  | .removeChange l =>
      if w.changeField.size = 1 ∨
          w.changeField.size = 2 ∧ w.invalidationField.size = 0 then
        w.fieldChanges
      else w.fieldChanges.eraseP (l == ·)
  | _ => w.fieldChanges

variable {w : World I C V} {xs : List I} {ys : List C}

theorem kept_eq {L : Type} (locked : Bool) (collected : L → Bool) (heap : Arrays L)
    (a : Listeners) (xs : List L) :
    Listeners.kept locked collected heap a xs = xs ∨
      Listeners.kept locked collected heap a xs = xs.filter (!collected ·) := by
  unfold Listeners.kept
  split
  · exact Or.inr rfl
  · exact Or.inl rfl

/-- The arrays of a new `Generic` are new. -/
theorem newGeneric_registers {heapI : Arrays I} {heapC : Arrays C} {g : Generic V}
    (hfields : w.invalidationField = {} ∧ w.changeField = {})
    (hI : g.invalidation = {} ∨
      ∃ r, g.invalidation.array = some r ∧ w.invalidationArrays.length ≤ r)
    (hC : g.change = {} ∨ ∃ r, g.change.array = some r ∧ w.changeArrays.length ≤ r)
    (hcur : ((w.allocate heapI heapC).newGeneric g).changes = [] ∨
      g.currentValue = w.value) :
    w.Registers [] [] ((w.allocate heapI heapC).newGeneric g) where
  invalidation := by
    rw [newGeneric_invalidationField, hfields.1]
    refine (empty_holds _).touches_append _ heapI ?_ fun hnone _ => ⟨rfl, ?_⟩
    · exact hI.imp_right Or.inr
    · rcases hI with hI | ⟨r, hr, -⟩
      · rw [hI]
      · rw [hr] at hnone
        cases hnone
  change := by
    rw [newGeneric_changeField, hfields.2]
    refine (empty_holds _).touches_append _ heapC ?_ fun hnone _ => ⟨rfl, ?_⟩
    · exact hC.imp_right Or.inr
    · rcases hC with hC | ⟨r, hr, -⟩
      · rw [hC]
      · rw [hr] at hnone
        cases hnone
  value := rfl
  frames := rfl
  fires := rfl
  currentValue := by
    rw [newGeneric_currentValue]
    exact hcur.imp_right Or.inl

/-- `addListener(InvalidationListener)` appends. -/
theorem addInvalidation_spec (h : w.Holds xs ys) (l : I) (collected : I → Bool) :
    ∃ w' xs₀, w.addInvalidation l collected = .ok w' ∧
      (xs₀ = xs ∨ xs₀ = xs.filter (!collected ·)) ∧ w'.Holds (xs₀ ++ [l]) ys ∧
      w.Registers (w.keptInvalidations (.addInvalidation l collected)) w.fieldChanges
        w' := by
  unfold addInvalidation
  cases hw : w.helper with
  | null =>
      obtain ⟨ia, ca, gs, helper, value, frames, fires⟩ := w
      cases hw
      obtain ⟨rfl, rfl⟩ := h
      refine ⟨_, [], rfl, Or.inl rfl, ⟨rfl, rfl⟩, ?_⟩
      exact ⟨(empty_holds _).touches _, (empty_holds _).touches _, rfl, rfl, rfl,
        Or.inl rfl⟩
  | singleInvalidation l₀ =>
      obtain ⟨ia, ca, gs, helper, value, frames, fires⟩ := w
      cases hw
      obtain ⟨rfl, rfl⟩ := h
      have hholds : ((allocate ⟨ia, ca, gs, .singleInvalidation l₀, value, frames,
          fires⟩ [[some l₀, some l]] []).newGeneric
            { invalidation := ⟨some ia.length, 2⟩ }).Holds [l₀, l] [] :=
        newGeneric_holds ⟨rfl, [some l₀, some l], by simp [allocate], [], rfl⟩
          (empty_holds _)
      refine ⟨_, [l₀], rfl, Or.inl rfl, hholds, ?_⟩
      exact newGeneric_registers ⟨rfl, rfl⟩ (Or.inr ⟨_, rfl, le_refl _⟩) (Or.inl rfl)
        (Or.inl hholds.lists.2)
  | singleChange l₀ v =>
      obtain ⟨ia, ca, gs, helper, value, frames, fires⟩ := w
      cases hw
      obtain ⟨rfl, rfl⟩ := h
      have hholds : ((allocate ⟨ia, ca, gs, .singleChange l₀ v, value, frames, fires⟩
          [[some l]] [[some l₀]]).newGeneric
            ⟨⟨some ia.length, 1⟩, ⟨some ca.length, 1⟩, false, value⟩).Holds [l] [l₀] :=
        newGeneric_holds ⟨rfl, [some l], by simp [allocate], [], rfl⟩
          ⟨rfl, [some l₀], by simp [allocate], [], rfl⟩
      refine ⟨_, [], rfl, Or.inl rfl, hholds, ?_⟩
      exact newGeneric_registers ⟨rfl, rfl⟩ (Or.inr ⟨_, rfl, le_refl _⟩)
        (Or.inr ⟨_, rfl, le_refl _⟩) (Or.inr rfl)
  | generic this =>
      obtain ⟨hfI, -, hlocked, -⟩ := fields_of_generic hw
      obtain ⟨-, hx, -, hx', hy'⟩ := h.of_generic hw
      obtain ⟨heap', a', hadd, hholds, htouch⟩ :=
        Listeners.add_touches hx (w.generic this).locked collected l
      simp only [addToInvalidation, hadd, except_ok_bind]
      obtain ⟨hholds', hreg⟩ := h.set_invalidation hw hholds htouch
      refine ⟨_, _, rfl, kept_eq _ _ _ _ _, hholds', ?_⟩
      rw [keptInvalidations, hfI, hlocked, hx', hy']
      exact hreg

/-- `addListener(ChangeListener)` appends. -/
theorem addChange_spec (h : w.Holds xs ys) (l : C) (collected : C → Bool) :
    ∃ w' ys₀, w.addChange l collected = .ok w' ∧
      (ys₀ = ys ∨ ys₀ = ys.filter (!collected ·)) ∧ w'.Holds xs (ys₀ ++ [l]) ∧
      w.Registers w.fieldInvalidations (w.keptChanges (.addChange l collected)) w' := by
  unfold addChange
  cases hw : w.helper with
  | null =>
      obtain ⟨ia, ca, gs, helper, value, frames, fires⟩ := w
      cases hw
      obtain ⟨rfl, rfl⟩ := h
      refine ⟨_, [], rfl, Or.inl rfl, ⟨rfl, rfl⟩, ?_⟩
      exact ⟨(empty_holds _).touches _, (empty_holds _).touches _, rfl, rfl, rfl,
        Or.inr (Or.inl rfl)⟩
  | singleInvalidation l₀ =>
      obtain ⟨ia, ca, gs, helper, value, frames, fires⟩ := w
      cases hw
      obtain ⟨rfl, rfl⟩ := h
      have hholds : ((allocate ⟨ia, ca, gs, .singleInvalidation l₀, value, frames,
          fires⟩ [[some l₀]] [[some l]]).newGeneric
            ⟨⟨some ia.length, 1⟩, ⟨some ca.length, 1⟩, false, value⟩).Holds [l₀] [l] :=
        newGeneric_holds ⟨rfl, [some l₀], by simp [allocate], [], rfl⟩
          ⟨rfl, [some l], by simp [allocate], [], rfl⟩
      refine ⟨_, [], rfl, Or.inl rfl, hholds, ?_⟩
      exact newGeneric_registers ⟨rfl, rfl⟩ (Or.inr ⟨_, rfl, le_refl _⟩)
        (Or.inr ⟨_, rfl, le_refl _⟩) (Or.inr rfl)
  | singleChange l₀ v =>
      obtain ⟨ia, ca, gs, helper, value, frames, fires⟩ := w
      cases hw
      obtain ⟨rfl, rfl⟩ := h
      have hholds : ((allocate ⟨ia, ca, gs, .singleChange l₀ v, value, frames, fires⟩
          [] [[some l₀, some l]]).newGeneric
            { change := ⟨some ca.length, 2⟩, currentValue := value }).Holds
              [] [l₀, l] :=
        newGeneric_holds (empty_holds _)
          ⟨rfl, [some l₀, some l], by simp [allocate], [], rfl⟩
      refine ⟨_, [l₀], rfl, Or.inl rfl, hholds, ?_⟩
      exact newGeneric_registers ⟨rfl, rfl⟩ (Or.inl rfl) (Or.inr ⟨_, rfl, le_refl _⟩)
        (Or.inr rfl)
  | generic this =>
      obtain ⟨-, hfC, hlocked, -⟩ := fields_of_generic hw
      obtain ⟨-, -, hy, hx', hy'⟩ := h.of_generic hw
      obtain ⟨heap', a', hadd, hholds, htouch⟩ :=
        Listeners.add_touches hy (w.generic this).locked collected l
      simp only [addToChange, hadd, except_ok_bind]
      have hv : (if a'.size = 1 then w.value else (w.generic this).currentValue) = w.value ∨
          (if a'.size = 1 then w.value else (w.generic this).currentValue) =
            (w.generic this).currentValue ∧ ys ≠ [] := by
        by_cases hone : a'.size = 1
        · exact Or.inl (if_pos hone)
        · refine Or.inr ⟨if_neg hone, ?_⟩
          -- with no listener before there is one now
          rintro rfl
          apply hone
          rw [hholds.1]
          unfold Listeners.kept
          split <;> rfl
      obtain ⟨hholds', hreg⟩ := h.set_change hw hholds htouch (Or.inr hv)
      refine ⟨_, _, rfl, kept_eq _ _ _ _ _, hholds', ?_⟩
      rw [keptChanges, hfC, hlocked, hx', hy']
      exact hreg

/-! ## `removeListener` -/

theorem keptInvalidations_remove_single (hw : ∀ this, w.helper ≠ .generic this) (l : I) :
    w.keptInvalidations (.removeInvalidation l) = w.fieldInvalidations := by
  have hnil : w.fieldInvalidations = [] := by
    unfold fieldInvalidations invalidationField
    cases hhelper : w.helper with
    | generic this => exact absurd hhelper (hw this)
    | _ => rfl
  rw [keptInvalidations, hnil]
  exact ite_self _

theorem keptChanges_remove_single (hw : ∀ this, w.helper ≠ .generic this) (l : C) :
    w.keptChanges (.removeChange l) = w.fieldChanges := by
  have hnil : w.fieldChanges = [] := by
    unfold fieldChanges changeField
    cases hhelper : w.helper with
    | generic this => exact absurd hhelper (hw this)
    | _ => rfl
  rw [keptChanges, hnil]
  exact ite_self _

/-- The branches of `removeListener(InvalidationListener)` for a listener that was
found. -/
theorem removeInvalidationAt_spec (h : w.Holds xs ys) {this r k : ℕ}
    (hw : w.helper = .generic this)
    (hr : (w.generic this).invalidation.array = some r) (hk : k < xs.length) :
    ∃ w', w.removeInvalidationAt this r k = .ok w' ∧ w'.Holds (xs.eraseIdx k) ys ∧
      w.Registers
        (if xs.length = 1 ∨ xs.length = 2 ∧ ys.length = 0 then xs else xs.eraseIdx k)
        ys w' := by
  obtain ⟨-, hx, hy, hx', hy'⟩ := h.of_generic hw
  simp only [removeInvalidationAt, hx.1, hy.1]
  by_cases hone : xs.length = 1
  · rw [if_pos hone, if_pos (Or.inl hone)]
    obtain ⟨x, rfl⟩ := List.length_eq_one_iff.mp hone
    obtain rfl : k = 0 := by simpa using hk
    by_cases hyone : ys.length = 1
    · rw [if_pos hyone]
      obtain ⟨y, rfl⟩ := List.length_eq_one_iff.mp hyone
      rw [hy.deref (by simp)]
      have hreg := @holds_setHelper_registers I C V w _ _ h (.singleChange y w.value)
        (fun _ h => by cases h) (Or.inr rfl)
      rw [hx', hy'] at hreg
      exact ⟨_, rfl, ⟨rfl, rfl⟩, hreg⟩
    · rw [if_neg hyone]
      exact ⟨_, rfl, h.set_invalidation hw (empty_holds _) (hx.touches_null _)⟩
  · rw [if_neg hone]
    by_cases htwo : xs.length = 2 ∧ ys.length = 0
    · rw [if_pos htwo, if_pos (Or.inr htwo)]
      obtain ⟨a, b, rfl⟩ := List.length_eq_two.mp htwo.1
      obtain rfl := List.length_eq_zero_iff.mp htwo.2
      have hk' : 1 - k < [a, b].length := lt_of_le_of_lt (Nat.sub_le 1 k) (by simp)
      rw [hx.deref hk']
      have hreg := @holds_setHelper_registers I C V w _ _ h
        (.singleInvalidation [a, b][1 - k]) (fun _ h => by cases h) (Or.inl rfl)
      rw [hx', hy'] at hreg
      refine ⟨_, rfl, ⟨?_, rfl⟩, hreg⟩
      have hk2 : k = 0 ∨ k = 1 := by simp at hk; omega
      rcases hk2 with rfl | rfl <;> rfl
    · rw [if_neg htwo, if_neg (by tauto)]
      obtain ⟨heap', a', hremove, hholds, htouch⟩ :=
        Listeners.removeAt_touches hx (w.generic this).locked hr hk
      rw [hx.1] at hremove
      simp only [hremove, except_ok_bind]
      exact ⟨_, rfl, h.set_invalidation hw hholds htouch⟩

/-- `removeListener(InvalidationListener)` deletes the first equal listener. -/
theorem removeInvalidation_spec (h : w.Holds xs ys) (l : I) :
    ∃ w', w.removeInvalidation l = .ok w' ∧ w'.Holds (xs.eraseP (l == ·)) ys ∧
      w.Registers (w.keptInvalidations (.removeInvalidation l)) w.fieldChanges w' := by
  have hself := h.registers_self
  have hholds := h
  unfold Holds at hholds
  unfold removeInvalidation
  cases hw : w.helper with
  | null | singleChange l₀ v =>
      rw [hw] at hholds
      obtain ⟨rfl, rfl⟩ := hholds
      rw [keptInvalidations_remove_single (by simp [hw])]
      exact ⟨w, rfl, h, hself⟩
  | singleInvalidation l₀ =>
      rw [hw] at hholds
      obtain ⟨rfl, rfl⟩ := hholds
      rw [keptInvalidations_remove_single (by simp [hw]), List.eraseP_cons,
        List.eraseP_nil]
      simp only
      cases l == l₀ with
      | true =>
          have hreg := @holds_setHelper_registers I C V w _ _ h .null
            (fun _ h => by cases h) (Or.inl rfl)
          exact ⟨_, rfl, ⟨rfl, rfl⟩, hreg⟩
      | false => exact ⟨w, rfl, h, hself⟩
  | generic this =>
      obtain ⟨hfI, hfC, -, -⟩ := fields_of_generic hw
      obtain ⟨hlt, hx, hy, hx', hy'⟩ := h.of_generic hw
      have hkept : w.keptInvalidations (.removeInvalidation l) =
          if xs.length = 1 ∨ xs.length = 2 ∧ ys.length = 0 then xs
          else xs.eraseP (l == ·) := by
        rw [keptInvalidations, hx', hfI, hfC, hx.1, hy.1]
      rw [hkept, hy']
      rw [hx', hy'] at hself
      simp only [removeFromInvalidation]
      cases hr : (w.generic this).invalidation.array with
      | none =>
          have hnil := hx.2
          rw [hr] at hnil
          simp only at hnil
          subst hnil
          exact ⟨w, rfl, h, by simpa using hself⟩
      | some r =>
          have hbegins := hx.2
          rw [hr] at hbegins
          obtain ⟨array, harray, hbegins⟩ := hbegins
          have hindex := @indexOf_eq I _ l [] xs array hbegins
          rw [List.length_nil] at hindex
          simp only [Listeners.at_eq harray, hx.1, hindex, except_ok_bind]
          rw [List.eraseP_eq_eraseIdx]
          cases hfind : xs.findIdx? (l == ·) with
          | none =>
              exact ⟨w, rfl, h, by simpa using hself⟩
          | some k =>
              have hk := (List.findIdx?_eq_some_iff_findIdx_eq.mp hfind).1
              simp only [Option.map_some, Nat.zero_add]
              exact removeInvalidationAt_spec h hw hr hk

/-- The branches of `removeListener(ChangeListener)` for a listener that was found. -/
theorem removeChangeAt_spec (h : w.Holds xs ys) {this r k : ℕ}
    (hw : w.helper = .generic this)
    (hr : (w.generic this).change.array = some r) (hk : k < ys.length) :
    ∃ w', w.removeChangeAt this r k = .ok w' ∧ w'.Holds xs (ys.eraseIdx k) ∧
      w.Registers xs
        (if ys.length = 1 ∨ ys.length = 2 ∧ xs.length = 0 then ys else ys.eraseIdx k)
        w' := by
  obtain ⟨-, hx, hy, hx', hy'⟩ := h.of_generic hw
  have hne : ys ≠ [] := List.ne_nil_of_length_pos (Nat.zero_lt_of_lt hk)
  simp only [removeChangeAt, hx.1, hy.1]
  by_cases hone : ys.length = 1
  · rw [if_pos hone, if_pos (Or.inl hone)]
    obtain ⟨y, rfl⟩ := List.length_eq_one_iff.mp hone
    obtain rfl : k = 0 := by simpa using hk
    by_cases hxone : xs.length = 1
    · rw [if_pos hxone]
      obtain ⟨x, rfl⟩ := List.length_eq_one_iff.mp hxone
      rw [hx.deref (by simp)]
      have hreg := @holds_setHelper_registers I C V w _ _ h (.singleInvalidation x)
        (fun _ h => by cases h) (Or.inl rfl)
      rw [hx', hy'] at hreg
      exact ⟨_, rfl, ⟨rfl, rfl⟩, hreg⟩
    · rw [if_neg hxone]
      exact ⟨_, rfl, h.set_change hw (empty_holds _) (hy.touches_null _) (Or.inl rfl)⟩
  · rw [if_neg hone]
    by_cases htwo : ys.length = 2 ∧ xs.length = 0
    · rw [if_pos htwo, if_pos (Or.inr htwo)]
      obtain ⟨a, b, rfl⟩ := List.length_eq_two.mp htwo.1
      obtain rfl := List.length_eq_zero_iff.mp htwo.2
      have hk' : 1 - k < [a, b].length := lt_of_le_of_lt (Nat.sub_le 1 k) (by simp)
      rw [hy.deref hk']
      have hreg := @holds_setHelper_registers I C V w _ _ h
        (.singleChange [a, b][1 - k] w.value) (fun _ h => by cases h) (Or.inr rfl)
      rw [hx', hy'] at hreg
      refine ⟨_, rfl, ⟨rfl, ?_⟩, hreg⟩
      have hk2 : k = 0 ∨ k = 1 := by simp at hk; omega
      rcases hk2 with rfl | rfl <;> rfl
    · rw [if_neg htwo, if_neg (by tauto)]
      obtain ⟨heap', a', hremove, hholds, htouch⟩ :=
        Listeners.removeAt_touches hy (w.generic this).locked hr hk
      rw [hy.1] at hremove
      simp only [hremove, except_ok_bind]
      exact ⟨_, rfl, h.set_change hw hholds htouch (Or.inr (Or.inr ⟨rfl, hne⟩))⟩

/-- `removeListener(ChangeListener)` deletes the first equal listener. -/
theorem removeChange_spec (h : w.Holds xs ys) (l : C) :
    ∃ w', w.removeChange l = .ok w' ∧ w'.Holds xs (ys.eraseP (l == ·)) ∧
      w.Registers w.fieldInvalidations (w.keptChanges (.removeChange l)) w' := by
  have hself := h.registers_self
  have hholds := h
  unfold Holds at hholds
  unfold removeChange
  cases hw : w.helper with
  | null | singleInvalidation l₀ =>
      rw [hw] at hholds
      obtain ⟨rfl, rfl⟩ := hholds
      rw [keptChanges_remove_single (by simp [hw])]
      exact ⟨w, rfl, h, hself⟩
  | singleChange l₀ v =>
      rw [hw] at hholds
      obtain ⟨rfl, rfl⟩ := hholds
      rw [keptChanges_remove_single (by simp [hw]), List.eraseP_cons, List.eraseP_nil]
      simp only
      cases l == l₀ with
      | true =>
          have hreg := @holds_setHelper_registers I C V w _ _ h .null
            (fun _ h => by cases h) (Or.inl rfl)
          exact ⟨_, rfl, ⟨rfl, rfl⟩, hreg⟩
      | false => exact ⟨w, rfl, h, hself⟩
  | generic this =>
      obtain ⟨hfI, hfC, -, -⟩ := fields_of_generic hw
      obtain ⟨hlt, hx, hy, hx', hy'⟩ := h.of_generic hw
      have hkept : w.keptChanges (.removeChange l) =
          if ys.length = 1 ∨ ys.length = 2 ∧ xs.length = 0 then ys
          else ys.eraseP (l == ·) := by
        rw [keptChanges, hy', hfI, hfC, hx.1, hy.1]
      rw [hkept, hx']
      rw [hx', hy'] at hself
      simp only [removeFromChange]
      cases hr : (w.generic this).change.array with
      | none =>
          have hnil := hy.2
          rw [hr] at hnil
          simp only at hnil
          subst hnil
          exact ⟨w, rfl, h, by simpa using hself⟩
      | some r =>
          have hbegins := hy.2
          rw [hr] at hbegins
          obtain ⟨array, harray, hbegins⟩ := hbegins
          have hindex := @indexOf_eq C _ l [] ys array hbegins
          rw [List.length_nil] at hindex
          simp only [Listeners.at_eq harray, hy.1, hindex, except_ok_bind]
          rw [List.eraseP_eq_eraseIdx]
          cases hfind : ys.findIdx? (l == ·) with
          | none =>
              exact ⟨w, rfl, h, by simpa using hself⟩
          | some k =>
              have hk := (List.findIdx?_eq_some_iff_findIdx_eq.mp hfind).1
              simp only [Option.map_some, Nat.zero_add]
              exact removeChangeAt_spec h hw hr hk

end Add

end World

end JavaFx.Binding
