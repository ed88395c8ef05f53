import JavaFx.Collections.DecoratorRefinement

/-!
# The windows of the views

The window of a sub-list that may be used lies in the window of the list it was taken
from, and the cursor of an iterator in the list it runs over (`Windows`). Changes of a
list, new iterators and new sub-lists keep it so.
-/

namespace JavaFx.Collections

variable {α : Type}

/-! ## Windows -/

namespace PlainList

variable {p : PlainList α} {r : ListRef}

/-- How many elements a list has. -/
def extent (p : PlainList α) : ListRef → ℕ
  | .top => p.elements.length
  | .sub id _ => (p.subs id).elim 0 SubView.size

/-- The windows of the views that may be used lie in each other, and the iterators in
theirs. -/
structure Windows (p : PlainList α) : Prop where
  sub : ∀ id v, p.subs id = some v → v.fresh = true → p.Usable v.outer ∧
    p.start v.outer ≤ v.lo ∧ v.lo + v.size ≤ p.start v.outer + p.extent v.outer
  iter : ∀ id v, p.iters id = some v → v.fresh = true → p.Usable v.owner ∧
    v.cursor ≤ p.extent v.owner ∧ ∀ i, v.lastRet = some i → i < p.extent v.owner

theorem windows_new (elements : List α) : Windows { elements := elements } :=
  ⟨(fun _ _ h => nomatch h), (fun _ _ h => nomatch h)⟩

theorem Usable.window_eq (h : p.Usable r) : p.window r = .ok (p.start r, p.extent r) := by
  cases r with
  | top => rfl
  | sub id outer =>
      obtain ⟨⟨v, hv, -, hfresh⟩, -⟩ := h
      simp only [PlainList.window, hv, hfresh, if_true, start, extent, Option.elim]

theorem Windows.le_length (h : p.Windows) (hu : p.Usable r) :
    p.start r + p.extent r ≤ p.elements.length := by
  induction r with
  | top => exact (Nat.zero_add _).le
  | sub id outer ih =>
      obtain ⟨⟨v, hv, rfl, hfresh⟩, ho⟩ := hu
      obtain ⟨-, -, hend⟩ := h.sub id v hv hfresh
      have hout := ih ho
      simp only [start, extent, hv, Option.elim]
      omega

/-- A list lies in every list it was taken from. -/
theorem Windows.within (h : p.Windows) (hu : p.Usable r) {id : ℕ} {v : SubView}
    (hid : id ∈ r.ids) (hv : p.subs id = some v) :
    v.lo ≤ p.start r ∧ p.start r + p.extent r ≤ v.lo + v.size := by
  induction r with
  | top => cases hid
  | sub k outer ih =>
      obtain ⟨⟨w, hw, rfl, hfresh⟩, ho⟩ := hu
      obtain ⟨-, hstart, hend⟩ := h.sub k w hw hfresh
      simp only [start, extent, hw, Option.elim]
      rcases List.mem_cons.mp hid with rfl | hid
      · rw [hw] at hv
        cases hv
        exact ⟨le_refl _, le_refl _⟩
      · have := ih ho hid
        omega

theorem Windows.extent_le (h : p.Windows) (hu : p.Usable r) {r' : ListRef} (hu' : p.Usable r')
    (hsub : r'.ids ⊆ r.ids) : p.extent r ≤ p.extent r' := by
  cases r' with
  | top =>
      have := h.le_length hu
      show p.extent r ≤ p.elements.length
      omega
  | sub id outer =>
      obtain ⟨⟨v, hv, -, -⟩, -⟩ := hu'
      have := h.within hu (hsub List.mem_cons_self) hv
      show p.extent r ≤ (p.subs id).elim 0 SubView.size
      rw [hv]
      show p.extent r ≤ v.size
      omega

/-- The extents after a change of `r`. -/
theorem Windows.extent_store (h : p.Windows) (hu : p.Usable r) {e : Effect α} {r' : ListRef}
    (hu' : p.Usable r') (hsub : r'.ids ⊆ r.ids)
    (hlen : e.structural = false → e.elements.length = p.extent r) :
    (p.store r (p.start r) (p.extent r) e).extent r' =
      p.extent r' - p.extent r + e.elements.length := by
  have hle := h.extent_le hu hu' hsub
  cases hs : e.structural with
  | true =>
      rw [store_of_structural hs]
      cases r' with
      | top =>
          show (Splice.splice _ _ _ _).length = _
          rw [Splice.length_splice (h.le_length hu)]
          rfl
      | sub id outer =>
          obtain ⟨⟨v, hv, -, -⟩, -⟩ := hu'
          show (p.resize r _ _ id).elim 0 SubView.size = (p.subs id).elim 0 SubView.size - _ + _
          rw [resize_eq hv (hsub List.mem_cons_self), hv]
          rfl
  | false =>
      have hsame := hlen hs
      rw [store_of_not_structural hs, hsame, Nat.sub_add_cancel hle]
      cases r' with
      | top =>
          show (Splice.splice _ _ _ _).length = p.elements.length
          rw [Splice.length_splice (h.le_length hu), hsame, Nat.sub_add_cancel]
          have := h.le_length hu
          omega
      | sub id outer => rfl

/-- A change of a list keeps the windows. -/
theorem Windows.store (h : p.Windows) (hu : p.Usable r) {e : Effect α}
    (hlen : e.structural = false → e.elements.length = p.extent r) :
    (p.store r (p.start r) (p.extent r) e).Windows := by
  cases hs : e.structural with
  | true =>
      refine ⟨fun id v hv hfresh => ?_, fun id v hv hfresh => ?_⟩
      · have hv' := hv
        rw [store_of_structural hs] at hv'
        change (p.subs id).map _ = some v at hv'
        obtain ⟨v₀, hv₀, rfl⟩ := Option.map_eq_some_iff.mp hv'
        by_cases hid : id ∈ r.ids
        · rw [if_pos hid] at hfresh ⊢
          obtain ⟨huo, hstart, hend⟩ := h.sub id v₀ hv₀ hfresh
          obtain ⟨v₁, hv₁, -, -, hsub⟩ := hu.of_mem hid
          rw [hv₀] at hv₁
          cases hv₁
          have hwithin := h.within hu hid hv₀
          have hle := h.extent_le hu huo hsub
          refine ⟨huo.store hsub, ?_, ?_⟩
          · rw [start_store]
            exact hstart
          · rw [start_store, h.extent_store hu huo hsub hlen]
            show v₀.lo + (v₀.size - p.extent r + e.elements.length) ≤
              p.start v₀.outer + (p.extent v₀.outer - p.extent r + e.elements.length)
            omega
        · rw [if_neg hid] at hfresh
          cases hfresh
      · rw [store_of_structural hs] at hv
        obtain ⟨v₀, -, rfl⟩ := Option.map_eq_some_iff.mp hv
        cases hfresh
  | false =>
      have hkeep : ∀ r', p.Usable r' →
          (p.store r (p.start r) (p.extent r) e).Usable r' ∧
            (p.store r (p.start r) (p.extent r) e).extent r' = p.extent r' := by
        intro r' hu'
        rw [store_of_not_structural hs]
        refine ⟨hu'.congr fun _ _ v hv => ⟨v, hv, rfl, rfl⟩, ?_⟩
        cases r' with
        | top =>
            show (Splice.splice _ _ _ _).length = p.elements.length
            have hle := h.le_length hu
            rw [Splice.length_splice hle, hlen hs, Nat.sub_add_cancel]
            omega
        | sub => rfl
      refine ⟨fun id v hv hfresh => ?_, fun id v hv hfresh => ?_⟩
      · rw [store_of_not_structural hs] at hv
        obtain ⟨huo, hstart, hend⟩ := h.sub id v hv hfresh
        obtain ⟨hu', he'⟩ := hkeep _ huo
        rw [start_store, he']
        exact ⟨hu', hstart, hend⟩
      · rw [store_of_not_structural hs] at hv
        obtain ⟨huo, hcursor, hlast⟩ := h.iter id v hv hfresh
        obtain ⟨hu', he'⟩ := hkeep _ huo
        rw [he']
        exact ⟨hu', hcursor, hlast⟩

theorem usable_withIters {iters : ℕ → Option IterView} {nextIter : ℕ} (h : p.Usable r) :
    ({ p with iters := iters, nextIter := nextIter } : PlainList α).Usable r :=
  h.congr fun _ _ v hv => ⟨v, hv, rfl, rfl⟩

theorem extent_withIters {iters : ℕ → Option IterView} {nextIter : ℕ} :
    ({ p with iters := iters, nextIter := nextIter } : PlainList α).extent r = p.extent r := by
  cases r <;> rfl

theorem start_withIters {iters : ℕ → Option IterView} {nextIter : ℕ} :
    ({ p with iters := iters, nextIter := nextIter } : PlainList α).start r = p.start r := by
  cases r <;> rfl

/-- An iterator of a list that may be used is put in. -/
theorem Windows.setIter (h : p.Windows) {id nextIter : ℕ} {v : IterView}
    (hu : p.Usable v.owner) (hcursor : v.cursor ≤ p.extent v.owner)
    (hlast : ∀ i, v.lastRet = some i → i < p.extent v.owner) :
    ({ p with
      iters := Function.update p.iters id (some v)
      nextIter := nextIter } : PlainList α).Windows := by
  refine ⟨fun k w hw hfresh => ?_, fun k w hw hfresh => ?_⟩
  · obtain ⟨huo, hstart, hend⟩ := h.sub k w hw hfresh
    rw [start_withIters, extent_withIters]
    exact ⟨usable_withIters huo, hstart, hend⟩
  · rw [extent_withIters]
    change Function.update p.iters id (some v) k = some w at hw
    by_cases hk : k = id
    · subst hk
      rw [Function.update_self] at hw
      cases hw
      exact ⟨usable_withIters hu, hcursor, hlast⟩
    · rw [Function.update_of_ne hk] at hw
      obtain ⟨huo, hc, hl⟩ := h.iter k w hw hfresh
      exact ⟨usable_withIters huo, hc, hl⟩

/-- A new sub-list lies in the list it is taken from. -/
theorem Windows.addSub (h : p.Windows) (hunused : p.subs p.nextSub = none) (hu : p.Usable r)
    {lo size : ℕ} (hlo : p.start r ≤ lo) (hsize : lo + size ≤ p.start r + p.extent r) :
    (p.addSub r lo size).1.Windows := by
  have hne : ∀ {id v}, p.subs id = some v → id ≠ p.nextSub := by
    rintro id v hv rfl
    rw [hunused] at hv
    cases hv
  have hkeep : ∀ r', p.Usable r' → (p.addSub r lo size).1.Usable r' ∧
      (p.addSub r lo size).1.start r' = p.start r' ∧
      (p.addSub r lo size).1.extent r' = p.extent r' := by
    intro r' hr'
    refine ⟨hr'.congr fun id _ v hv =>
      ⟨v, (Function.update_of_ne (hne hv) _ _).trans hv, rfl, rfl⟩, ?_⟩
    cases r' with
    | top => exact ⟨rfl, rfl⟩
    | sub id outer =>
        obtain ⟨⟨v, hv, -, -⟩, -⟩ := hr'
        have hsame : (p.addSub r lo size).1.subs id = p.subs id :=
          Function.update_of_ne (hne hv) _ _
        exact ⟨congrArg (Option.elim · 0 SubView.lo) hsame,
          congrArg (Option.elim · 0 SubView.size) hsame⟩
  refine ⟨fun id v hv hfresh => ?_, fun id v hv hfresh => ?_⟩
  · change Function.update p.subs p.nextSub _ id = some v at hv
    by_cases hid : id = p.nextSub
    · subst hid
      rw [Function.update_self] at hv
      cases hv
      obtain ⟨hu', hs', he'⟩ := hkeep r hu
      exact ⟨hu', hs'.le.trans hlo, hsize.trans (by rw [hs', he'])⟩
    · rw [Function.update_of_ne hid] at hv
      obtain ⟨huo, hstart, hend⟩ := h.sub id v hv hfresh
      obtain ⟨hu', hs', he'⟩ := hkeep _ huo
      rw [hs', he']
      exact ⟨hu', hstart, hend⟩
  · obtain ⟨huo, hcursor, hlast⟩ := h.iter id v hv hfresh
    obtain ⟨hu', -, he'⟩ := hkeep _ huo
    rw [he']
    exact ⟨hu', hcursor, hlast⟩

end PlainList

end JavaFx.Collections
