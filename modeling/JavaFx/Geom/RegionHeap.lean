import JavaFx.Geom.DirtyRegionContainer
import Mathlib.Data.List.Count

/-!
# The heap of the pairs of regions

The heap is not one that gives its pairs in order: the element that is taken overwrites the last
one and stays at the top. What can be relied on is that the references stay in range, that they
refer to pairs of different regions, and that the loop that computes areas anew comes to an end. An
area that has been computed anew does not change a second time, and from then on the area at the
top only falls.
-/

namespace JavaFx.Geom

variable {α : Type} [LinearOrder α]

/-! ## The references -/

namespace Heap

/-- The references are in range and refer to pairs of indexes below `n`. -/
structure Ok (n : ℕ) (h : Heap) : Prop where
  refs : ∀ ref ∈ h.heap, ref < h.cells.length
  size : h.heapSize ≤ h.heap.length
  pair : ∀ ref ∈ h.heap, ∀ e, h.cells[ref]? = some e → e.i0 < e.i1 ∧ e.i1 < n

/-- The heap with its references in another order, or only some of them. -/
def withRefs (h : Heap) (refs : List ℕ) : Heap := { h with heap := refs }

variable {n : ℕ} {h : Heap} {i : ℕ}

theorem Ok.withRefs (hok : h.Ok n) {refs : List ℕ} (hsub : refs ⊆ h.heap)
    (hlength : refs.length = h.heap.length) : (h.withRefs refs).Ok n :=
  ⟨fun ref href => hok.refs ref (hsub href), hok.size.trans_eq hlength.symm,
    fun ref href => hok.pair ref (hsub href)⟩

theorem Ok.withMask (hok : h.Ok n) (mask : BitVec 64) : Ok n { h with invalidMask := mask } :=
  ⟨hok.refs, hok.size, hok.pair⟩

theorem Ok.entry (hok : h.Ok n) (hi : i < h.heapSize) :
    ∃ ref e, h.heap[i]? = some ref ∧ h.cells[ref]? = some e ∧ h.entry i = some e := by
  have hlt := hi.trans_le hok.size
  have href := List.getElem?_eq_getElem hlt
  have hcell := List.getElem?_eq_getElem (hok.refs _ (List.getElem_mem hlt))
  refine ⟨_, _, href, hcell, ?_⟩
  rw [Heap.entry, href]
  exact hcell

theorem Ok.smallerChild (hok : h.Ok n) (hi : i < h.heapSize / 2) :
    ∃ child, h.smallerChild i = some child ∧ i < child ∧ child < h.heapSize := by
  obtain ⟨_, left, _, _, hleft⟩ := hok.entry (show 2 * i + 1 < h.heapSize by omega)
  rw [Heap.smallerChild, hleft]
  by_cases hright : 2 * i + 1 + 1 < h.heapSize
  · obtain ⟨_, right, _, _, hright'⟩ := hok.entry hright
    refine ⟨if right.area < left.area then 2 * i + 1 + 1 else 2 * i + 1, ?_, ?_, ?_⟩
    · show (if 2 * i + 1 + 1 < h.heapSize then _ else _) = _
      rw [if_pos hright, hright']
      rfl
    · split_ifs <;> omega
    · split_ifs <;> omega
  · refine ⟨2 * i + 1, ?_, by omega, by omega⟩
    show (if 2 * i + 1 + 1 < h.heapSize then _ else _) = _
    rw [if_neg hright]
    rfl

/-- What `siftDown(i)` does to the references. -/
structure Sifted (h : Heap) (i : ℕ) (refs : List ℕ) : Prop where
  subset : refs ⊆ h.heap
  length_eq : refs.length = h.heap.length
  before : ∀ j < i, refs[j]? = h.heap[j]?
  here : refs[i]? = h.heap[i]? ∨
    ∀ e e', h.entry i = some e → (h.withRefs refs).entry i = some e' → e'.area < e.area

theorem Sifted.refl (h : Heap) (i : ℕ) : Sifted h i h.heap :=
  ⟨List.Subset.refl _, rfl, fun _ _ => rfl, Or.inl rfl⟩

theorem siftDown_spec {fuel : ℕ} (hok : h.Ok n) (hfuel : h.heapSize < fuel + i) (hpos : 0 < fuel) :
    ∃ refs, h.siftDown fuel i = some (h.withRefs refs) ∧ Sifted h i refs := by
  induction fuel generalizing h i with
  | zero => omega
  | succ fuel ih =>
      rw [siftDown]
      split_ifs with hi
      · obtain ⟨child, hchild, hlt, hsize⟩ := hok.smallerChild hi
        obtain ⟨ref, e, href, hcell, he⟩ := hok.entry (show i < h.heapSize by omega)
        obtain ⟨ref', c, href', hcell', hc⟩ := hok.entry hsize
        rw [hchild]
        dsimp only [Option.bind_eq_bind, Option.bind_some]
        rw [he]
        dsimp only [Option.bind_some]
        rw [hc]
        dsimp only [Option.bind_some]
        split_ifs with hle
        · exact ⟨h.heap, rfl, Sifted.refl h i⟩
        · rw [href]
          dsimp only [Option.bind_some]
          rw [href']
          dsimp only [Option.bind_some]
          have hsize' := hok.size
          have hswapLength : ((h.heap.set child ref).set i ref').length = h.heap.length := by
            rw [List.length_set, List.length_set]
          have hswapSub : (h.heap.set child ref).set i ref' ⊆ h.heap := by
            intro r hr
            rcases List.mem_or_eq_of_mem_set hr with hr | rfl
            · rcases List.mem_or_eq_of_mem_set hr with hr | rfl
              · exact hr
              · exact List.mem_of_getElem? href
            · exact List.mem_of_getElem? href'
          obtain ⟨refs, hrun, hsub, hlength, hbefore, -⟩ :=
            ih (hok.withRefs hswapSub hswapLength) (show h.heapSize < fuel + child by omega)
              (by omega)
          refine ⟨refs, hrun, List.Subset.trans hsub hswapSub, hlength.trans hswapLength, ?_,
            Or.inr ?_⟩
          · intro j hj
            rw [hbefore j (hj.trans hlt)]
            show ((h.heap.set child ref).set i ref')[j]? = h.heap[j]?
            rw [List.getElem?_set_ne (by omega), List.getElem?_set_ne (by omega)]
          · -- the smaller one of the children has come up
            intro e₁ e' he₁ he'
            have htop : refs[i]? = some ref' := by
              rw [hbefore i hlt]
              show ((h.heap.set child ref).set i ref')[i]? = some ref'
              rw [List.getElem?_set_self (by rw [List.length_set]; omega)]
            rw [he, Option.some_inj] at he₁
            rw [Heap.entry, Heap.withRefs, htop] at he'
            have : some c = some e' := hcell'.symm.trans he'
            rw [Option.some_inj] at this
            rw [← he₁, ← this]
            exact lt_of_not_ge hle
      · exact ⟨h.heap, rfl, Sifted.refl h i⟩

theorem heapify_spec {fuel : ℕ} (hok : h.Ok n) (hfuel : h.heapSize < fuel) (i : ℕ) :
    ∃ refs, h.heapify fuel i = some (h.withRefs refs) ∧ refs ⊆ h.heap ∧
      refs.length = h.heap.length := by
  induction i generalizing h with
  | zero =>
      obtain ⟨refs, hrun, hsift⟩ := siftDown_spec (i := 0) hok hfuel (by omega)
      exact ⟨refs, hrun, hsift.subset, hsift.length_eq⟩
  | succ i ih =>
      obtain ⟨refs, hrun, hsift⟩ :=
        siftDown_spec (i := i + 1) hok (show h.heapSize < fuel + (i + 1) by omega) (by omega)
      obtain ⟨refs', hrun', hsub, hlength⟩ := ih (hok.withRefs hsift.subset hsift.length_eq) hfuel
      refine ⟨refs', ?_, List.Subset.trans hsub hsift.subset, hlength.trans hsift.length_eq⟩
      rw [heapify, hrun]
      exact hrun'

end Heap

/-! ## The map of the merged regions -/

/-- From the index the map leads to `r` in `k` steps, and no further. -/
inductive Leads (map : List ℕ) (r : ℕ) : ℕ → ℕ → Prop
  | root : map[r]? = some r → Leads map r 0 r
  | step {k i j : ℕ} : map[i]? = some j → j ≠ i → Leads map r k j → Leads map r (k + 1) i

namespace Leads

variable {map : List ℕ} {r k i : ℕ}

theorem isRoot (h : Leads map r k i) : map[r]? = some r := by
  induction h with
  | root h => exact h
  | step _ _ _ ih => exact ih

theorem resolveMap (h : Leads map r k i) {fuel : ℕ} (hfuel : k < fuel) :
    resolveMap fuel map i = some r := by
  induction h generalizing fuel with
  | root h =>
      obtain ⟨fuel, rfl⟩ : ∃ f, fuel = f + 1 := ⟨fuel - 1, by omega⟩
      rw [Geom.resolveMap, h]
      exact if_neg (not_not.mpr rfl)
  | step hj hne _ ih =>
      obtain ⟨fuel, rfl⟩ : ∃ f, fuel = f + 1 := ⟨fuel - 1, by omega⟩
      rw [Geom.resolveMap, hj]
      exact (if_pos hne).trans (ih (by omega))

/-- Putting one root below another. -/
theorem set (h : Leads map r k i) {idx0 idx1 : ℕ} (h0 : map[idx0]? = some idx0)
    (h1 : map[idx1]? = some idx1) (hne : idx0 ≠ idx1) :
    ∃ r' k', k' ≤ k + 1 ∧ Leads (map.set idx1 idx0) r' k' i := by
  have hlt : idx1 < map.length := (List.getElem?_eq_some_iff.mp h1).1
  have hroot0 : Leads (map.set idx1 idx0) idx0 0 idx0 := by
    refine root ?_
    rw [List.getElem?_set_ne (Ne.symm hne)]
    exact h0
  induction h with
  | root h =>
      by_cases heq : r = idx1
      · subst heq
        exact ⟨idx0, 1, le_rfl, step (List.getElem?_set_self hlt) hne hroot0⟩
      · refine ⟨r, 0, Nat.zero_le _, root ?_⟩
        rw [List.getElem?_set_ne (Ne.symm heq)]
        exact h
  | @step k i j hj hne' _ ih =>
      obtain ⟨r', k', hle, hlead⟩ := ih
      refine ⟨r', k' + 1, by omega, step ?_ hne' hlead⟩
      rw [List.getElem?_set_ne]
      · exact hj
      · rintro rfl
        rw [h1, Option.some_inj] at hj
        exact hne' hj.symm

end Leads

/-- From every index the map leads to some root, in at most `k` steps. -/
structure MapOk (n k : ℕ) (map : List ℕ) : Prop where
  length_eq : map.length = n
  leads : ∀ i < n, ∃ r k', k' ≤ k ∧ Leads map r k' i

namespace MapOk

variable {n k : ℕ} {map : List ℕ}

theorem range (n : ℕ) : MapOk n 0 (List.range n) :=
  ⟨List.length_range, fun i hi => ⟨i, 0, le_rfl, .root (List.getElem?_range hi)⟩⟩

theorem resolve (h : MapOk n k map) {fuel i : ℕ} (hi : i < n) (hfuel : k < fuel) :
    ∃ r, resolveMap fuel map i = some r ∧ map[r]? = some r ∧ r < n := by
  obtain ⟨r, k', hle, hlead⟩ := h.leads i hi
  refine ⟨r, hlead.resolveMap (by omega), hlead.isRoot, ?_⟩
  rw [← h.length_eq]
  exact (List.getElem?_eq_some_iff.mp hlead.isRoot).1

theorem set (h : MapOk n k map) {idx0 idx1 : ℕ} (h0 : map[idx0]? = some idx0)
    (h1 : map[idx1]? = some idx1) (hne : idx0 ≠ idx1) :
    MapOk n (k + 1) (map.set idx1 idx0) := by
  refine ⟨(List.length_set).trans h.length_eq, fun i hi => ?_⟩
  obtain ⟨r, k', hle, hlead⟩ := h.leads i hi
  obtain ⟨r', k'', hle', hlead'⟩ := hlead.set h0 h1 hne
  exact ⟨r', k'', by omega, hlead'⟩

end MapOk

/-! ## Computing areas anew -/

namespace DirtyRegionContainer

section Revalue

variable (area : RectBounds α → RectBounds α → ℤ) (fuel : ℕ) (dirtyRegions : List (RectBounds α))
  (map : List ℕ)

/-- The area that the loop of `takeMinWithMap` writes into an entry. -/
def newArea (e : Entry) : Option ℤ := do
  let i0 ← resolveMap fuel map e.i0
  let i1 ← resolveMap fuel map e.i1
  unifiedRegionArea area dirtyRegions i0 i1

/-- The entries whose area may still change. -/
def unsettled (cells : List Entry) : ℕ :=
  cells.countP fun e => decide (newArea area fuel dirtyRegions map e ≠ some e.area)

/-- The entries with an area below the one at the top. -/
def belowTop (h : Heap) : ℕ :=
  match h.entry 0 with
  | none => 0
  | some top => h.cells.countP fun e => decide (e.area < top.area)

/-- What every turn of the loop makes smaller. -/
def turnsLeft (h : Heap) : ℕ :=
  unsettled area fuel dirtyRegions map h.cells * (h.cells.length + 1) + belowTop h

variable {area} {fuel} {dirtyRegions} {map} {n k : ℕ} {h : Heap}

variable (area) in
omit [LinearOrder α] in
theorem newArea_some (hmap : MapOk n k map) (hfuel : k < fuel) (hlength : dirtyRegions.length = n)
    {e : Entry} (he : e.i0 < e.i1 ∧ e.i1 < n) :
    ∃ v, newArea area fuel dirtyRegions map e = some v := by
  obtain ⟨i0, hi0, -, hlt0⟩ := hmap.resolve (he.1.trans he.2) hfuel
  obtain ⟨i1, hi1, -, hlt1⟩ := hmap.resolve he.2 hfuel
  obtain ⟨r0, hr0⟩ : ∃ r, dirtyRegions[i0]? = some r :=
    ⟨_, List.getElem?_eq_getElem (hlt0.trans_eq hlength.symm)⟩
  obtain ⟨r1, hr1⟩ : ∃ r, dirtyRegions[i1]? = some r :=
    ⟨_, List.getElem?_eq_getElem (hlt1.trans_eq hlength.symm)⟩
  refine ⟨area r0 r1, ?_⟩
  rw [newArea, hi0, hi1]
  show unifiedRegionArea area dirtyRegions i0 i1 = _
  rw [unifiedRegionArea, hr0, hr1]
  rfl

omit [LinearOrder α] in
theorem belowTop_le (h : Heap) : belowTop h ≤ h.cells.length := by
  unfold belowTop
  cases h.entry 0 with
  | none => exact Nat.zero_le _
  | some top => exact List.countP_le_length

/-- A lower top has fewer entries below it. -/
theorem countP_area_lt {cells : List Entry} {top top' : Entry} (hmem : top' ∈ cells)
    (hlt : top'.area < top.area) :
    cells.countP (fun e => decide (e.area < top'.area)) <
      cells.countP fun e => decide (e.area < top.area) := by
  induction cells with
  | nil => cases hmem
  | cons e cells ih =>
      rw [List.countP_cons, List.countP_cons]
      have hmono : cells.countP (fun e => decide (e.area < top'.area)) ≤
          cells.countP fun e => decide (e.area < top.area) :=
        List.countP_mono_left fun e _ he =>
          decide_eq_true ((of_decide_eq_true he).trans hlt)
      rcases List.mem_cons.mp hmem with rfl | hmem
      · rw [if_neg (by simp), if_pos (decide_eq_true hlt)]
        omega
      · have hrest := ih hmem
        by_cases he : e.area < top'.area
        · rw [if_pos (decide_eq_true he), if_pos (decide_eq_true (he.trans hlt))]
          omega
        · rw [if_neg (by simpa using he)]
          omega

/-- What the loop leaves: the same pairs, and a reference that stands at the top. -/
structure Revalued (n : ℕ) (h h' : Heap) (temp : ℕ) : Prop where
  ok : h'.Ok n
  heapSize : h'.heapSize = h.heapSize
  length_heap : h'.heap.length = h.heap.length
  length_cells : h'.cells.length = h.cells.length
  mask : h'.invalidMask = h.invalidMask
  mem : temp ∈ h'.heap

/-- The heap with another area in the entry that `temp` refers to. -/
def withArea (h : Heap) (temp : ℕ) (e : Entry) (v : ℤ) : Heap :=
  { h with cells := h.cells.set temp { e with area := v } }

theorem ok_withArea (hok : h.Ok n) {temp : ℕ} {e : Entry} (htemp : temp ∈ h.heap)
    (hcell : h.cells[temp]? = some e) (v : ℤ) : (withArea h temp e v).Ok n := by
  refine ⟨fun ref href => ?_, hok.size, fun ref href e' he' => ?_⟩
  · rw [withArea, List.length_set]
    exact hok.refs ref href
  · by_cases heq : temp = ref
    · subst heq
      rw [withArea, List.getElem?_set_self (hok.refs temp htemp), Option.some_inj] at he'
      rw [← he']
      exact hok.pair temp htemp e hcell
    · rw [withArea, List.getElem?_set_ne heq] at he'
      exact hok.pair ref href e' he'

omit [LinearOrder α] in
/-- **The loop comes to an end**: an entry that has been settled falls if it does not stay. -/
theorem turnsLeft_lt {temp top : ℕ} {e : Entry} {v : ℤ} {refs : List ℕ} (hok : h.Ok n)
    (htemp : h.heap[0]? = some temp) (hcell : h.cells[temp]? = some e)
    (hv : newArea area fuel dirtyRegions map e = some v)
    (hsifted : Heap.Sifted (withArea h temp e v) 0 refs) (htop : refs[0]? = some top)
    (hne : top ≠ temp) :
    turnsLeft area fuel dirtyRegions map ((withArea h temp e v).withRefs refs) <
      turnsLeft area fuel dirtyRegions map h := by
  have hmem := List.mem_of_getElem? htemp
  have hlt : temp < h.cells.length := hok.refs temp hmem
  have htopMem : top ∈ h.heap := hsifted.subset (List.mem_of_getElem? htop)
  -- the new top is another entry, with a smaller area
  obtain ⟨e₂, he₂⟩ : ∃ e₂, h.cells[top]? = some e₂ :=
    ⟨_, List.getElem?_eq_getElem (hok.refs top htopMem)⟩
  have he₂' : (h.cells.set temp { e with area := v })[top]? = some e₂ := by
    rw [List.getElem?_set_ne (Ne.symm hne)]
    exact he₂
  have hentry₂ : ((withArea h temp e v).withRefs refs).entry 0 = some e₂ := by
    rw [Heap.entry, Heap.withRefs, htop]
    exact he₂'
  have hentry₁ : (withArea h temp e v).entry 0 = some { e with area := v } := by
    rw [Heap.entry, withArea, htemp]
    exact List.getElem?_set_self hlt
  have hentry : h.entry 0 = some e := by
    rw [Heap.entry, htemp]
    exact hcell
  have hsmaller : e₂.area < v := by
    rcases hsifted.here with heq | hless
    · rw [htop] at heq
      exact absurd (Option.some_inj.mp (heq.trans htemp)) hne
    · exact hless _ _ hentry₁ hentry₂
  have hcellEq : h.cells[temp] = e := by
    rw [List.getElem?_eq_getElem hlt, Option.some_inj] at hcell
    exact hcell
  have hcount : unsettled area fuel dirtyRegions map (h.cells.set temp { e with area := v }) =
      unsettled area fuel dirtyRegions map h.cells -
        (if newArea area fuel dirtyRegions map e ≠ some e.area then 1 else 0) := by
    have hnew : newArea area fuel dirtyRegions map { e with area := v } = some v := hv
    rw [unsettled, List.countP_set hlt, hcellEq, hnew]
    simp only [ne_eq, not_true_eq_false, decide_false, Bool.false_eq_true, if_false, add_zero,
      decide_eq_true_eq]
    rfl
  have hbelow₂ : belowTop ((withArea h temp e v).withRefs refs) =
      (h.cells.set temp { e with area := v }).countP fun e' => decide (e'.area < e₂.area) := by
    rw [belowTop, hentry₂]
    rfl
  have hbelow : belowTop h = h.cells.countP fun e' => decide (e'.area < e.area) := by
    rw [belowTop, hentry]
  unfold turnsLeft
  rw [show ((withArea h temp e v).withRefs refs).cells = h.cells.set temp { e with area := v }
    from rfl, List.length_set, hcount]
  by_cases hsettled : newArea area fuel dirtyRegions map e ≠ some e.area
  · -- one entry more is settled
    rw [if_pos hsettled]
    have hle := belowTop_le ((withArea h temp e v).withRefs refs)
    rw [show ((withArea h temp e v).withRefs refs).cells = h.cells.set temp { e with area := v }
      from rfl, List.length_set] at hle
    have hpos : 0 < unsettled area fuel dirtyRegions map h.cells :=
      List.countP_pos_iff.mpr ⟨e, List.mem_of_getElem? hcell, decide_eq_true hsettled⟩
    obtain ⟨u, hu⟩ : ∃ u, unsettled area fuel dirtyRegions map h.cells = u + 1 :=
      ⟨_, (Nat.succ_pred_eq_of_pos hpos).symm⟩
    rw [hu, Nat.add_sub_cancel, Nat.add_mul, Nat.one_mul]
    omega
  · -- the area at the top falls
    rw [if_neg hsettled, Nat.sub_zero, hbelow₂, hbelow]
    rw [not_not, hv, Option.some_inj] at hsettled
    subst hsettled
    have hset : h.cells.set temp e = h.cells := by
      rw [← hcellEq]
      exact List.set_getElem_self hlt
    rw [show ({ e with area := e.area } : Entry) = e from rfl, hset]
    have hfall := countP_area_lt (List.mem_of_getElem? he₂) hsmaller
    omega

variable (area) in
omit [LinearOrder α] in
theorem revalue_spec (hmap : MapOk n k map) (hfuel : k < fuel) (hlength : dirtyRegions.length = n)
    (hok : h.Ok n) (hsize : 0 < h.heapSize) (hsift : h.heapSize < fuel) {turns : ℕ}
    (hturns : turnsLeft area fuel dirtyRegions map h < turns) :
    ∃ h' temp, revalue area fuel dirtyRegions map turns h = some (h', temp) ∧
      Revalued n h h' temp := by
  induction turns generalizing h with
  | zero => cases hturns
  | succ turns ih =>
      obtain ⟨temp, e, htemp, hcell, hentry⟩ := hok.entry hsize
      have hmem := List.mem_of_getElem? htemp
      rw [revalue, htemp]
      dsimp only [Option.bind_eq_bind, Option.bind_some]
      rw [hcell]
      dsimp only [Option.bind_some]
      split_ifs with hinvalid
      · obtain ⟨v, hv⟩ := newArea_some area hmap hfuel hlength (hok.pair temp hmem e hcell)
        have hok₁ := ok_withArea hok hmem hcell v
        obtain ⟨refs, hrun, hsifted⟩ := Heap.siftDown_spec (i := 0) hok₁ hsift (by omega)
        have hpos : 0 < refs.length := by
          rw [hsifted.length_eq]
          exact hsize.trans_le hok.size
        obtain ⟨top, htop⟩ : ∃ top, refs[0]? = some top := ⟨_, List.getElem?_eq_getElem hpos⟩
        have hok₂ := hok₁.withRefs hsifted.subset hsifted.length_eq
        have hlt := turnsLeft_lt hok htemp hcell hv hsifted htop
        obtain ⟨i0, hi0, hv⟩ := Option.bind_eq_some_iff.mp hv
        obtain ⟨i1, hi1, hv⟩ := Option.bind_eq_some_iff.mp hv
        rw [hi0]
        dsimp only [Option.bind_some]
        rw [hi1]
        dsimp only [Option.bind_some]
        rw [hv]
        dsimp only [Option.bind_some]
        rw [show Heap.siftDown fuel { h with cells := h.cells.set temp { e with area := v } } 0 = _
          from hrun]
        dsimp only [Option.bind_some]
        rw [show ((withArea h temp e v).withRefs refs).heap[0]? = some top from htop]
        dsimp only [Option.bind_some]
        split_ifs with htop'
        · subst htop'
          exact ⟨_, top, rfl, hok₂, rfl, hsifted.length_eq, List.length_set, rfl,
            List.mem_of_getElem? htop⟩
        · obtain ⟨h', temp', hrun', hrest⟩ :=
            ih hok₂ hsize hsift (by have := hlt htop'; omega)
          exact ⟨h', temp', hrun', hrest.ok, hrest.heapSize,
            hrest.length_heap.trans hsifted.length_eq, hrest.length_cells.trans List.length_set,
            hrest.mask, hrest.mem⟩
      · exact ⟨h, temp, rfl, hok, rfl, rfl, rfl, rfl, hmem⟩

omit [LinearOrder α] in
theorem turnsLeft_le (h : Heap) : turnsLeft area fuel dirtyRegions map h ≤
    h.cells.length * (h.cells.length + 1) + h.cells.length := by
  have hunsettled : unsettled area fuel dirtyRegions map h.cells ≤ h.cells.length :=
    List.countP_le_length
  have hbelow := belowTop_le h
  exact Nat.add_le_add (Nat.mul_le_mul_right _ hunsettled) hbelow

/-- What `takeMinWithMap` leaves, and the pair it returns. -/
structure MinTaken (n : ℕ) (h h' : Heap) (min : Entry) : Prop where
  ok : h'.Ok n
  heapSize : h'.heapSize + 1 = h.heapSize
  length_heap : h'.heap.length = h.heap.length
  length_cells : h'.cells.length = h.cells.length
  lt : min.i0 < min.i1
  lt_length : min.i1 < n

variable (area) in
omit [LinearOrder α] in
/-- **A pair is taken**, whatever the areas are. -/
theorem takeMinWithMap_spec (hmap : MapOk n k map) (hfuel : k < fuel)
    (hlength : dirtyRegions.length = n) (hok : h.Ok n) (hsize : 0 < h.heapSize)
    (hsift : h.heapSize < fuel)
    (hcells : h.cells.length * (h.cells.length + 1) + h.cells.length < fuel) :
    ∃ h' min, takeMinWithMap area fuel dirtyRegions map h = some (h', min) ∧
      MinTaken n h h' min := by
  obtain ⟨h₁, temp, hrun, hrevalued⟩ := revalue_spec area hmap hfuel hlength hok hsize
    hsift ((turnsLeft_le h).trans_lt hcells)
  have hsize₁ := hrevalued.heapSize
  have hok₁ := hrevalued.ok
  have hle₁ := hok₁.size
  have hlast : (h₁.withRefs (h₁.heap.set (h₁.heapSize - 1) temp)).Ok n := by
    refine hok₁.withRefs (fun r hr => ?_) List.length_set
    rcases List.mem_or_eq_of_mem_set hr with hr | rfl
    · exact hr
    · exact hrevalued.mem
  obtain ⟨refs, hrun', hsifted⟩ := Heap.siftDown_spec (i := 0) hlast
    (show h₁.heapSize < fuel + 0 by omega) (by omega)
  have hok₂ := hlast.withRefs hsifted.subset hsifted.length_eq
  obtain ⟨min, hmin⟩ : ∃ min, h₁.cells[temp]? = some min :=
    ⟨_, List.getElem?_eq_getElem (hok₁.refs temp hrevalued.mem)⟩
  obtain ⟨hlt, hltLength⟩ := hok₁.pair temp hrevalued.mem min hmin
  refine ⟨{ (h₁.withRefs refs) with heapSize := h₁.heapSize - 1 }, min, ?_, ⟨?_, ?_, ?_, ?_, hlt,
    hltLength⟩⟩
  · rw [takeMinWithMap, hrun]
    dsimp only [Option.bind_eq_bind, Option.bind_some]
    rw [if_pos ⟨by omega, hle₁⟩]
    rw [show Heap.siftDown fuel { h₁ with heap := h₁.heap.set (h₁.heapSize - 1) temp } 0 = _
      from hrun']
    dsimp only [Option.bind_some]
    rw [show ((h₁.withRefs (h₁.heap.set (h₁.heapSize - 1) temp)).withRefs refs).cells[temp]? =
      some min from hmin]
    rfl
  · exact ⟨hok₂.refs, (Nat.sub_le _ _).trans hok₂.size, hok₂.pair⟩
  · show h₁.heapSize - 1 + 1 = h.heapSize
    omega
  · exact (hsifted.length_eq.trans List.length_set).trans hrevalued.length_heap
  · exact hrevalued.length_cells

end Revalue

end DirtyRegionContainer

end JavaFx.Geom
