import JavaFx.Geom.RegionHeap

/-!
# No dirty area is lost

Whatever is merged with whatever, a rectangle that has been added lies within one of the regions.
A full container frees a place before it adds: the first pair that is taken is one of two different
regions, so one region is given up, and the regions that are still used move before the unused.
-/

namespace JavaFx.Geom

variable {α : Type} [LinearOrder α]

/-! ## Rectangles -/

namespace RectBounds

/-- The point lies in the rectangle. -/
def HasPoint (r : RectBounds α) (x y : α) : Prop :=
  r.minX ≤ x ∧ x ≤ r.maxX ∧ r.minY ≤ y ∧ y ≤ r.maxY

/-- The edges of the other rectangle lie within those of this one. -/
structure Contains (r other : RectBounds α) : Prop where
  minX : r.minX ≤ other.minX
  minY : r.minY ≤ other.minY
  maxX : other.maxX ≤ r.maxX
  maxY : other.maxY ≤ r.maxY

variable {r r' other x : RectBounds α}

theorem Contains.refl (r : RectBounds α) : r.Contains r := ⟨le_rfl, le_rfl, le_rfl, le_rfl⟩

theorem Contains.trans (h : r.Contains r') (h' : r'.Contains other) : r.Contains other :=
  ⟨h.minX.trans h'.minX, h.minY.trans h'.minY, h'.maxX.trans h.maxX, h'.maxY.trans h.maxY⟩

theorem Contains.hasPoint (h : r.Contains other) {a b : α} (hp : other.HasPoint a b) :
    r.HasPoint a b :=
  ⟨h.minX.trans hp.1, hp.2.1.trans h.maxX, h.minY.trans hp.2.2.1, hp.2.2.2.trans h.maxY⟩

theorem isEmpty_iff : r.isEmpty = false ↔ r.minX ≤ r.maxX ∧ r.minY ≤ r.maxY := by
  simp [isEmpty]

/-- What contains a rectangle that is not empty is not empty. -/
theorem Contains.isEmpty (h : r.Contains x) (hx : x.isEmpty = false) : r.isEmpty = false := by
  rw [isEmpty_iff] at hx ⊢
  exact ⟨(h.minX.trans hx.1).trans h.maxX, (h.minY.trans hx.2).trans h.maxY⟩

/-- **The union** contains what one of the two contains. -/
theorem Contains.unionWith (hx : x.isEmpty = false) (h : r.Contains x ∨ r'.Contains x) :
    (r.unionWith r').Contains x := by
  unfold RectBounds.unionWith
  split_ifs with hempty' hempty
  · refine h.resolve_right fun h' => ?_
    rw [h'.isEmpty hx] at hempty'
    cases hempty'
  · refine h.resolve_left fun h' => ?_
    rw [h'.isEmpty hx] at hempty
    cases hempty
  · rcases h with h | h
    · exact ⟨(min_le_left _ _).trans h.minX, (min_le_left _ _).trans h.minY,
        h.maxX.trans (le_max_left _ _), h.maxY.trans (le_max_left _ _)⟩
    · exact ⟨(min_le_right _ _).trans h.minX, (min_le_right _ _).trans h.minY,
        h.maxX.trans (le_max_right _ _), h.maxY.trans (le_max_right _ _)⟩

theorem unionWith_isEmpty (h : r.isEmpty = false) : (r.unionWith r').isEmpty = false :=
  (Contains.unionWith h (Or.inl (Contains.refl r))).isEmpty h

end RectBounds

namespace DirtyRegionContainer

/-! ## Which rectangles are held -/

/-- One of the first `e` regions, used as the map says, contains the rectangle. -/
def Held (dirtyRegions : List (RectBounds α)) (used : ℕ → Prop) (x : RectBounds α) : Prop :=
  ∃ j q, used j ∧ dirtyRegions[j]? = some q ∧ q.Contains x

section Held

variable {dirtyRegions : List (RectBounds α)} {used used' : ℕ → Prop} {x : RectBounds α}

theorem Held.mono (h : Held dirtyRegions used x) (hle : ∀ j, used j → used' j) :
    Held dirtyRegions used' x := by
  obtain ⟨j, q, hj, hq⟩ := h
  exact ⟨j, q, hle j hj, hq⟩

/-- **A region moves** from one place to another that is not used. -/
theorem Held.move {i l : ℕ} {tmp unused : RectBounds α} (h : Held dirtyRegions used x)
    (hi : i < dirtyRegions.length) (htmp : dirtyRegions[l]? = some tmp)
    (hused : ∀ j, used j → j ≠ l → j ≠ i ∧ used' j) (hused' : used l → used' i) :
    Held ((dirtyRegions.set l unused).set i tmp) used' x := by
  obtain ⟨j, q, hj, hq, hx⟩ := h
  by_cases hjl : j = l
  · subst hjl
    rw [htmp, Option.some_inj] at hq
    subst hq
    exact ⟨i, tmp, hused' hj, List.getElem?_set_self (by rw [List.length_set]; exact hi), hx⟩
  · obtain ⟨hne, hj'⟩ := hused j hj hjl
    refine ⟨j, q, hj', ?_, hx⟩
    rw [List.getElem?_set_ne (Ne.symm hne), List.getElem?_set_ne (Ne.symm hjl)]
    exact hq

end Held

/-! ## The loop over the regions -/

/-- What the loop leaves: the region with all it has taken in, and the other regions. -/
structure Absorbed (region : RectBounds α) (dirtyRegions : List (RectBounds α)) (emptyIndex : ℕ)
    (region' : RectBounds α) (dirtyRegions' : List (RectBounds α)) (emptyIndex' : ℕ) : Prop where
  le : emptyIndex' ≤ emptyIndex
  length : dirtyRegions'.length = dirtyRegions.length
  isEmpty : region'.isEmpty = false
  contains : region'.Contains region
  held : ∀ x, x.isEmpty = false → Held dirtyRegions (· < emptyIndex) x →
    region'.Contains x ∨ Held dirtyRegions' (· < emptyIndex') x

theorem absorb_spec {turns tempIndex emptyIndex : ℕ} {region : RectBounds α}
    {dirtyRegions : List (RectBounds α)} (hturns : tempIndex + turns = emptyIndex)
    (hle : emptyIndex ≤ dirtyRegions.length) (hregion : region.isEmpty = false) :
    ∃ region' dirtyRegions' emptyIndex',
      absorb turns tempIndex region dirtyRegions emptyIndex =
        some (region', dirtyRegions', emptyIndex') ∧
      Absorbed region dirtyRegions emptyIndex region' dirtyRegions' emptyIndex' := by
  induction turns generalizing tempIndex emptyIndex region dirtyRegions with
  | zero =>
      exact ⟨region, dirtyRegions, emptyIndex, rfl, le_rfl, rfl, hregion,
        RectBounds.Contains.refl region, fun x _ hx => Or.inr hx⟩
  | succ turns ih =>
      obtain ⟨dr, hdr⟩ : ∃ dr, dirtyRegions[tempIndex]? = some dr :=
        ⟨_, List.getElem?_eq_getElem (by omega)⟩
      rw [absorb, hdr]
      dsimp only [Option.bind_eq_bind, Option.bind_some]
      by_cases hintersects : region.intersects dr = true
      · obtain ⟨last, hlast⟩ : ∃ last, dirtyRegions[emptyIndex - 1]? = some last :=
          ⟨_, List.getElem?_eq_getElem (by omega)⟩
        rw [if_pos hintersects, hlast]
        dsimp only [Option.bind_some]
        have hunion := fun {x : RectBounds α} (hx : x.isEmpty = false) =>
          @RectBounds.Contains.unionWith α _ region dr x hx
        obtain ⟨region', dirtyRegions', emptyIndex', hrun, hle', hlength, hregion', hcontains, hheld⟩ :=
          ih (show tempIndex + turns = emptyIndex - 1 by omega)
            (show emptyIndex - 1 ≤
              ((dirtyRegions.set tempIndex last).set (emptyIndex - 1) dr).length by
              rw [List.length_set, List.length_set]; omega)
            (show (region.unionWith dr).isEmpty = false from
              RectBounds.unionWith_isEmpty hregion)
        refine ⟨region', dirtyRegions', emptyIndex', hrun, by omega, ?_, hregion', ?_, ?_⟩
        · rw [hlength, List.length_set, List.length_set]
        · exact hcontains.trans (hunion hregion (Or.inl (RectBounds.Contains.refl region)))
        · rintro x hx ⟨j, q, hj, hq, hqx⟩
          by_cases hjt : j = tempIndex
          · -- the region that is taken in
            subst hjt
            rw [hdr, Option.some_inj] at hq
            subst hq
            exact Or.inl (hcontains.trans (hunion hx (Or.inr hqx)))
          · refine hheld x hx ?_
            by_cases hjl : j = emptyIndex - 1
            · -- the last region stands in its place now
              subst hjl
              rw [hlast, Option.some_inj] at hq
              subst hq
              refine ⟨tempIndex, last, by omega, ?_, hqx⟩
              rw [List.getElem?_set_ne hjt, List.getElem?_set_self (by omega)]
            · refine ⟨j, q, by omega, ?_, hqx⟩
              rw [List.getElem?_set_ne (Ne.symm hjl), List.getElem?_set_ne (Ne.symm hjt)]
              exact hq
      · rw [if_neg hintersects]
        exact ih (by omega) hle hregion

/-! ## Merging -/

section Merge

variable {area : RectBounds α → RectBounds α → ℤ} {fuel n : ℕ}

/-- The regions that the map leaves in use. -/
def IsRoot (map : List ℕ) (j : ℕ) : Prop := map[j]? = some j

/-- What the merging leaves of regions and map. -/
structure Merged (n : ℕ) (dirtyRegions : List (RectBounds α)) (map : List ℕ)
    (dirtyRegions' : List (RectBounds α)) (map' : List ℕ) : Prop where
  length : dirtyRegions'.length = n
  mapOk : ∃ k, MapOk n k map'
  held : ∀ x, x.isEmpty = false → Held dirtyRegions (IsRoot map) x →
    Held dirtyRegions' (IsRoot map') x
  unused : (∃ i < n, ¬IsRoot map i) → ∃ i < n, ¬IsRoot map' i

/-- What the loops need of the fuel. -/
structure Enough (fuel n : ℕ) (h : Heap) : Prop where
  chain : n < fuel
  heap : h.heapSize < fuel
  cells : h.cells.length * (h.cells.length + 1) + h.cells.length < fuel

/-- Two used regions become one. -/
theorem Held.merge {dirtyRegions : List (RectBounds α)} {map : List ℕ} {idx0 idx1 : ℕ}
    {r0 r1 x : RectBounds α} (h : Held dirtyRegions (IsRoot map) x) (hx : x.isEmpty = false)
    (h0 : IsRoot map idx0) (hne : idx0 ≠ idx1) (hr0 : dirtyRegions[idx0]? = some r0)
    (hr1 : dirtyRegions[idx1]? = some r1) :
    Held (dirtyRegions.set idx0 (r0.unionWith r1)) (IsRoot (map.set idx1 idx0)) x := by
  obtain ⟨j, q, hj, hq, hqx⟩ := h
  have hlt : idx0 < dirtyRegions.length := (List.getElem?_eq_some_iff.mp hr0).1
  have hroot0 : IsRoot (map.set idx1 idx0) idx0 := by
    rw [IsRoot, List.getElem?_set_ne (Ne.symm hne)]
    exact h0
  by_cases hj0 : j = idx0
  · subst hj0
    rw [hr0, Option.some_inj] at hq
    subst hq
    exact ⟨j, _, hroot0, List.getElem?_set_self hlt,
      RectBounds.Contains.unionWith hx (Or.inl hqx)⟩
  · by_cases hj1 : j = idx1
    · subst hj1
      rw [hr1, Option.some_inj] at hq
      subst hq
      exact ⟨idx0, _, hroot0, List.getElem?_set_self hlt,
        RectBounds.Contains.unionWith hx (Or.inr hqx)⟩
    · refine ⟨j, q, ?_, ?_, hqx⟩
      · rw [IsRoot, List.getElem?_set_ne (Ne.symm hj1)]
        exact hj
      · rw [List.getElem?_set_ne (Ne.symm hj0)]
        exact hq

variable (area) in
theorem mergeRegions_spec {turns k : ℕ} {dirtyRegions : List (RectBounds α)} {map : List ℕ}
    {h : Heap} (hlength : dirtyRegions.length = n) (hmap : MapOk n k map) (hk : k + turns ≤ n)
    (hok : h.Ok n) (hturns : turns ≤ h.heapSize) (hfuel : Enough fuel n h) :
    ∃ dirtyRegions' map' h', mergeRegions area fuel turns dirtyRegions map h =
        some (dirtyRegions', map', h') ∧
      Merged n dirtyRegions map dirtyRegions' map' ∧ h'.Ok n ∧
      h'.heap.length = h.heap.length ∧ h'.cells.length = h.cells.length ∧
      (0 < turns → map = List.range n → ∃ i < n, ¬IsRoot map' i) := by
  induction turns generalizing k dirtyRegions map h with
  | zero =>
      exact ⟨dirtyRegions, map, h, rfl, ⟨hlength, ⟨k, hmap⟩, fun x _ hx => hx, id⟩, hok, rfl, rfl,
        fun hpos => absurd hpos (lt_irrefl 0)⟩
  | succ turns ih =>
      have hchain := hfuel.chain
      obtain ⟨h₁, min, htake, htaken⟩ := takeMinWithMap_spec area hmap
        (show k < fuel by omega) hlength hok (by omega) hfuel.heap hfuel.cells
      obtain ⟨idx0, hidx0, hroot0, hlt0⟩ := hmap.resolve (htaken.lt.trans htaken.lt_length)
        (show k < fuel by omega)
      obtain ⟨idx1, hidx1, hroot1, hlt1⟩ := hmap.resolve htaken.lt_length (show k < fuel by omega)
      obtain ⟨r0, hr0⟩ : ∃ r, dirtyRegions[idx0]? = some r :=
        ⟨_, List.getElem?_eq_getElem (by omega)⟩
      obtain ⟨r1, hr1⟩ : ∃ r, dirtyRegions[idx1]? = some r :=
        ⟨_, List.getElem?_eq_getElem (by omega)⟩
      have hsize := htaken.heapSize
      have hfuelHeap := hfuel.heap
      have hfuel₁ : Enough fuel n h₁ :=
        ⟨hchain, by omega, by rw [htaken.length_cells]; exact hfuel.cells⟩
      rw [mergeRegions, htake]
      dsimp only [Option.bind_eq_bind, Option.bind_some]
      rw [hidx0]
      dsimp only [Option.bind_some]
      rw [hidx1]
      dsimp only [Option.bind_some]
      by_cases hne : idx0 ≠ idx1
      · rw [if_pos hne, hr0]
        dsimp only [Option.bind_some]
        rw [hr1]
        dsimp only [Option.bind_some]
        obtain ⟨dirtyRegions', map', h', hrun, hmerged, hok', hheap, hcells, -⟩ :=
          ih (show (dirtyRegions.set idx0 (r0.unionWith r1)).length = n from
              List.length_set.trans hlength) (hmap.set hroot0 hroot1 hne) (by omega)
            (htaken.ok.withMask
              (h₁.invalidMask ||| (bit idx0).signExtend 64 ||| (bit idx1).signExtend 64))
            (show turns ≤ h₁.heapSize by omega) ⟨hfuel₁.chain, hfuel₁.heap, hfuel₁.cells⟩
        have hunused : ∃ i < n, ¬IsRoot (map.set idx1 idx0) i := by
          refine ⟨idx1, hlt1, fun hroot => ?_⟩
          rw [IsRoot, List.getElem?_set_self (by rw [hmap.length_eq]; exact hlt1),
            Option.some_inj] at hroot
          exact hne hroot
        refine ⟨dirtyRegions', map', h', hrun, ⟨hmerged.length, hmerged.mapOk, ?_, ?_⟩, hok',
          hheap.trans htaken.length_heap, hcells.trans htaken.length_cells, ?_⟩
        · exact fun x hx hxheld => hmerged.held x hx (hxheld.merge hx hroot0 hne hr0 hr1)
        · exact fun _ => hmerged.unused hunused
        · exact fun _ _ => hmerged.unused hunused
      · rw [if_neg hne]
        obtain ⟨dirtyRegions', map', h', hrun, hmerged, hok', hheap, hcells, -⟩ :=
          ih hlength hmap (by omega) htaken.ok (by omega) hfuel₁
        refine ⟨dirtyRegions', map', h', hrun, hmerged, hok', hheap.trans htaken.length_heap,
          hcells.trans htaken.length_cells, ?_⟩
        -- before the first merging every region is used
        rintro - rfl
        have hself : ∀ i < n, resolveMap fuel (List.range n) i = some i := fun i hi =>
          (Leads.root (List.getElem?_range hi)).resolveMap (by omega)
        have hlt := htaken.lt
        have hltLength := htaken.lt_length
        rw [hself _ (by omega), Option.some_inj] at hidx0 hidx1
        omega

end Merge

/-! ## Moving the unused regions -/

section Move

variable {n : ℕ} {map : List ℕ}

theorem dropUnused_spec {e : ℕ} (hle : e ≤ map.length) (hroot : ∃ j < e, IsRoot map j) :
    ∃ last, dropUnused map e = some (last + 1) ∧ last < e ∧ IsRoot map last ∧
      ∀ j, IsRoot map j → j < e → j ≤ last := by
  induction e with
  | zero =>
      obtain ⟨j, hj, -⟩ := hroot
      cases hj
  | succ e ih =>
      obtain ⟨next, hnext⟩ : ∃ next, map[e]? = some next := ⟨_, List.getElem?_eq_getElem hle⟩
      rw [dropUnused, hnext]
      dsimp only [Option.bind_eq_bind, Option.bind_some]
      by_cases hne : next ≠ e
      · have hbelow : ∀ j, IsRoot map j → j < e + 1 → j < e := by
          intro j hj hlt
          refine lt_of_le_of_ne (Nat.le_of_lt_succ hlt) ?_
          rintro rfl
          rw [IsRoot, hnext, Option.some_inj] at hj
          exact hne hj
        obtain ⟨j, hj, hjroot⟩ := hroot
        obtain ⟨last, hrun, hlt, hlast, hmax⟩ := ih (by omega) ⟨j, hbelow j hjroot hj, hjroot⟩
        rw [if_pos hne]
        exact ⟨last, hrun, by omega, hlast, fun j hj hlt => hmax j hj (hbelow j hj hlt)⟩
      · rw [if_neg hne]
        rw [not_not] at hne
        subst hne
        exact ⟨next, rfl, Nat.lt_succ_self _, hnext, fun j _ hlt => Nat.le_of_lt_succ hlt⟩

/-- The used regions among the first `e`. -/
def UsedBelow (map : List ℕ) (e j : ℕ) : Prop := j < e ∧ IsRoot map j

/-- **The used regions move to the front**, and the container gets shorter if there is an unused
one. -/
theorem moveUnused_spec {fuel i e : ℕ} {dirtyRegions : List (RectBounds α)}
    (hfuel : e - i < fuel) (hlength : dirtyRegions.length = n) (hmap : map.length = n) (he : e ≤ n)
    (hroot : ∃ j < e, IsRoot map j) (hfront : ∀ j < i, j < e → IsRoot map j) :
    ∃ dirtyRegions' e', moveUnused fuel i dirtyRegions map e = some (dirtyRegions', e') ∧
      dirtyRegions'.length = n ∧ e' ≤ e ∧
      (∀ x, Held dirtyRegions (UsedBelow map e) x → Held dirtyRegions' (· < e') x) ∧
      ((∃ j < e, ¬IsRoot map j) → e' < e) := by
  induction fuel generalizing i e dirtyRegions map with
  | zero => omega
  | succ fuel ih =>
      rw [moveUnused]
      split_ifs with hi
      · obtain ⟨next, hnext⟩ : ∃ next, map[i]? = some next :=
          ⟨_, List.getElem?_eq_getElem (by omega)⟩
        rw [hnext]
        dsimp only [Option.bind_eq_bind, Option.bind_some]
        by_cases hne : next ≠ i
        · have hunused : ¬IsRoot map i := by
            intro hroot
            rw [IsRoot, hnext, Option.some_inj] at hroot
            exact hne hroot
          obtain ⟨last, hdrop, hlt, hlast, hmax⟩ := dropUnused_spec (by omega) hroot
          rw [if_pos hne, hdrop]
          simp only [Option.bind_some, Nat.add_sub_cancel]
          have hilast : i ≠ last := by
            rintro rfl
            exact hunused hlast
          by_cases hmove : i < last
          · obtain ⟨tmp, htmp⟩ : ∃ tmp, dirtyRegions[last]? = some tmp :=
              ⟨_, List.getElem?_eq_getElem (by omega)⟩
            obtain ⟨unused, hunusedRegion⟩ : ∃ r, dirtyRegions[i]? = some r :=
              ⟨_, List.getElem?_eq_getElem (by omega)⟩
            have hset : ∀ j, IsRoot (map.set i i) j ↔ j = i ∨ IsRoot map j := by
              intro j
              by_cases hji : j = i
              · subst hji
                rw [IsRoot, List.getElem?_set_self (by omega)]
                simp
              · rw [IsRoot, List.getElem?_set_ne (Ne.symm hji)]
                exact ⟨Or.inr, fun h => h.resolve_left hji⟩
            rw [if_pos hmove, htmp]
            dsimp only [Option.bind_some]
            rw [hunusedRegion]
            dsimp only [Option.bind_some]
            obtain ⟨dirtyRegions', e', hrun, hlength', hle, hheld, -⟩ :=
              ih (show last - (i + 1) < fuel by omega)
                (show ((dirtyRegions.set last unused).set i tmp).length = n by
                  rw [List.length_set, List.length_set]; exact hlength)
                (show (map.set i i).length = n by rw [List.length_set]; exact hmap) (by omega)
                ⟨i, hmove, (hset i).mpr (Or.inl rfl)⟩ (by
                  intro j hj hjlast
                  rcases Nat.lt_succ_iff_lt_or_eq.mp hj with hj | rfl
                  · exact (hset j).mpr (Or.inr (hfront j hj (by omega)))
                  · exact (hset j).mpr (Or.inl rfl))
            refine ⟨dirtyRegions', e', hrun, hlength', by omega, fun x hx => hheld x ?_,
              fun _ => by omega⟩
            refine hx.move (by omega) htmp ?_ ?_
            · rintro j ⟨hj, hjroot⟩ hjlast
              have hji : j ≠ i := by
                rintro rfl
                exact hunused hjroot
              have := hmax j hjroot hj
              exact ⟨hji, by omega, (hset j).mpr (Or.inr hjroot)⟩
            · exact fun _ => ⟨hmove, (hset i).mpr (Or.inl rfl)⟩
          · -- behind the front there is no used region
            rw [if_neg hmove]
            obtain ⟨dirtyRegions', e', hrun, hlength', hle, hheld, -⟩ :=
              ih (show last + 1 - (i + 1) < fuel by omega) hlength hmap (by omega)
                ⟨last, Nat.lt_succ_self _, hlast⟩ (fun j _ hj => hfront j (by omega) (by omega))
            refine ⟨dirtyRegions', e', hrun, hlength', by omega, fun x hx => hheld x ?_,
              fun _ => by omega⟩
            refine hx.mono ?_
            rintro j ⟨hj, hjroot⟩
            exact ⟨Nat.lt_succ_of_le (hmax j hjroot hj), hjroot⟩
        · rw [if_neg hne]
          rw [not_not] at hne
          subst hne
          exact ih (by omega) hlength hmap he hroot (by
            intro j hj hje
            rcases Nat.lt_succ_iff_lt_or_eq.mp hj with hj | rfl
            · exact hfront j hj hje
            · exact hnext)
      · refine ⟨dirtyRegions, e, rfl, hlength, le_rfl, fun x hx => hx.mono fun j hj => hj.1, ?_⟩
        rintro ⟨j, hj, hunused⟩
        exact absurd (hfront j (by omega) hj) hunused

end Move

/-! ## The heap is filled -/

section Fill

variable {area : RectBounds α → RectBounds α → ℤ} {n : ℕ} {dirtyRegions : List (RectBounds α)}

theorem mem_pairs {i j : ℕ} (h : (i, j) ∈ pairs n) : i < j ∧ j < n := by
  obtain ⟨i', hi', h⟩ := List.mem_flatMap.mp h
  obtain ⟨j', hj', heq⟩ := List.mem_map.mp h
  cases heq
  have hi := List.mem_range.mp hi'
  obtain ⟨k, hk, rfl⟩ := List.mem_range'.mp hj'
  omega

theorem sum_descending (m : ℕ) : ((List.range m).map fun i => m - i).sum * 2 = m * (m + 1) := by
  induction m with
  | zero => rfl
  | succ m ih =>
      have htail : (List.range m).map ((fun i => m + 1 - i) ∘ Nat.succ) =
          (List.range m).map fun i => m - i :=
        List.map_congr_left fun i _ => Nat.succ_sub_succ m i
      rw [List.range_succ_eq_map, List.map_cons, List.map_map, htail, List.sum_cons, Nat.add_mul, ih,
        Nat.sub_zero]
      ring

theorem length_pairs (n : ℕ) : (pairs n).length = n * (n - 1) / 2 := by
  have hmap : (List.range (n - 1)).map (fun i =>
      ((List.range' (i + 1) (n - 1 - i)).map fun j => (i, j)).length) =
      (List.range (n - 1)).map fun i => n - 1 - i := by
    refine List.map_congr_left fun i _ => ?_
    rw [List.length_map, List.length_range']
  have hsum := sum_descending (n - 1)
  unfold pairs
  rw [List.length_flatMap, hmap]
  rcases Nat.eq_zero_or_pos n with rfl | hpos
  · rfl
  · rw [Nat.sub_add_cancel hpos, Nat.mul_comm] at hsum
    rw [Nat.mul_comm n, ← hsum, Nat.mul_div_cancel_left _ (by decide)]

/-- The references from `0` to `k` refer to pairs. -/
def FilledTo (n : ℕ) (heap : List ℕ) (k : ℕ) (cells : List Entry) : Prop :=
  ∀ j < k, ∀ ref, heap[j]? = some ref → ∀ e, cells[ref]? = some e → e.i0 < e.i1 ∧ e.i1 < n

variable (area) in
omit [LinearOrder α] in
/-- **Every place of the heap gets a pair**, even where two places share an array. -/
theorem fillHeap_spec (hlength : dirtyRegions.length = n) {heap : List ℕ} {rest : List (ℕ × ℕ)}
    {k : ℕ} {cells : List Entry} (hrest : ∀ i j, (i, j) ∈ rest → i < j ∧ j < n)
    (hk : k + rest.length ≤ heap.length) (hrefs : ∀ ref ∈ heap, ref < cells.length)
    (hfilled : FilledTo n heap k cells) :
    ∃ cells', fillHeap area dirtyRegions heap rest k cells = some cells' ∧
      cells'.length = cells.length ∧ FilledTo n heap (k + rest.length) cells' := by
  induction rest generalizing k cells with
  | nil => exact ⟨cells, rfl, rfl, hfilled⟩
  | cons pair rest ih =>
      obtain ⟨i, j⟩ := pair
      rw [List.length_cons] at hk
      obtain ⟨hij, hjn⟩ := hrest i j List.mem_cons_self
      obtain ⟨ref, href⟩ : ∃ ref, heap[k]? = some ref := ⟨_, List.getElem?_eq_getElem (by omega)⟩
      obtain ⟨r0, hr0⟩ : ∃ r, dirtyRegions[i]? = some r := ⟨_, List.getElem?_eq_getElem (by omega)⟩
      obtain ⟨r1, hr1⟩ : ∃ r, dirtyRegions[j]? = some r := ⟨_, List.getElem?_eq_getElem (by omega)⟩
      have hlt := hrefs ref (List.mem_of_getElem? href)
      have hstep : FilledTo n heap (k + 1) (cells.set ref ⟨area r0 r1, i, j⟩) := by
        intro l hl ref' href' e he
        by_cases heq : ref = ref'
        · subst heq
          rw [List.getElem?_set_self hlt, Option.some_inj] at he
          subst he
          exact ⟨hij, hjn⟩
        · rw [List.getElem?_set_ne heq] at he
          rcases Nat.lt_succ_iff_lt_or_eq.mp hl with hl | rfl
          · exact hfilled l hl ref' href' e he
          · exact absurd (Option.some_inj.mp (href.symm.trans href')) heq
      obtain ⟨cells', hrun, hlength', hfilled'⟩ := ih
        (fun i j hmem => hrest i j (List.mem_cons_of_mem _ hmem)) (by omega)
        (fun r hr => (hrefs r hr).trans_eq List.length_set.symm) hstep
      refine ⟨cells', ?_, hlength'.trans List.length_set, ?_⟩
      · rw [fillHeap, href]
        dsimp only [Option.bind_eq_bind, Option.bind_some]
        rw [unifiedRegionArea, hr0, hr1]
        exact hrun
      · rw [List.length_cons, Nat.add_comm rest.length, ← Nat.add_assoc]
        exact hfilled'

end Fill

/-! ## Compressing -/

section Compress

variable {area : RectBounds α → RectBounds α → ℤ} {fuel n : ℕ} {c : DirtyRegionContainer α}

/-- The number of pairs. -/
def pairCount (n : ℕ) : ℕ := n * (n - 1) / 2

/-- Enough turns for all loops of a container with capacity `n`. -/
def fuelFor (n : ℕ) : ℕ := pairCount n * (pairCount n + 1) + pairCount n + n + 1

/-- A container of capacity `n`, with a heap for all pairs if there is one. -/
structure Sized (n : ℕ) (c : DirtyRegionContainer α) : Prop where
  length : c.dirtyRegions.length = n
  le : c.emptyIndex ≤ n
  heap : ∀ heap, c.heap = some heap → heap.length = pairCount n ∧ c.cells.length = pairCount n ∧
    ∀ ref ∈ heap, ref < c.cells.length

/-- The length of the heap is an `int`. -/
theorem heapLength_of_le (h : n ≤ 46341) : heapLength n = pairCount n := by
  have hle : n * (n - 1) ≤ 46341 * 46340 := Nat.mul_le_mul h (by omega)
  have hcast : (n : ℤ) * (n - 1) = ((n * (n - 1) : ℕ) : ℤ) := by
    rcases Nat.eq_zero_or_pos n with rfl | hpos
    · rfl
    · rw [Nat.cast_mul, Nat.cast_sub hpos]
      rfl
  rw [heapLength, hcast, toInt_of_nonneg (by omega) (by unfold maxInt; omega),
    Int.tdiv_eq_ediv_of_nonneg (by omega), pairCount]
  omega

omit [LinearOrder α] in
theorem openHeap_spec (hn : n ≤ 46341) (hc : Sized n c) :
    ∃ heap cells, c.openHeap = some (heap, cells) ∧ heap.length = pairCount n ∧
      cells.length = pairCount n ∧ ∀ ref ∈ heap, ref < cells.length := by
  rw [openHeap]
  cases hheap : c.heap with
  | some heap =>
      obtain ⟨hlength, hcells, hrefs⟩ := hc.heap heap hheap
      exact ⟨heap, c.cells, rfl, hlength, hcells, hrefs⟩
  | none =>
      dsimp only
      rw [hc.length, heapLength_of_le hn, if_neg (by omega)]
      refine ⟨_, _, rfl, List.length_range, List.length_replicate, fun ref href => ?_⟩
      rw [List.length_replicate]
      exact List.mem_range.mp href

variable (area) in
/-- **A full container gives up a place** and loses no rectangle. -/
theorem compressHeap_spec (hn : n ≤ 46341) (h2 : 2 ≤ n) (hc : Sized n c) (hfull : c.emptyIndex = n)
    (hfuel : fuelFor n ≤ fuel) :
    ∃ c', compressHeap area fuel c = some c' ∧ Sized n c' ∧ c'.emptyIndex < n ∧
      ∀ x, x.isEmpty = false → Held c.dirtyRegions (· < n) x →
        Held c'.dirtyRegions (· < c'.emptyIndex) x := by
  unfold fuelFor at hfuel
  obtain ⟨heap, cells, hopen, hheap, hcells, hrefs⟩ := openHeap_spec hn hc
  obtain ⟨cells₁, hfill, hcells₁, hfilled⟩ := fillHeap_spec area hc.length
    (fun i j => mem_pairs) (show 0 + (pairs n).length ≤ heap.length by
      rw [length_pairs, hheap, Nat.zero_add]; exact le_rfl) hrefs
    (fun j hj => absurd hj (Nat.not_lt_zero j))
  have hok : Heap.Ok n { cells := cells₁, heap := heap, heapSize := heap.length } := by
    refine ⟨fun ref href => (hrefs ref href).trans_eq hcells₁.symm, le_rfl, fun ref href => ?_⟩
    obtain ⟨j, hj, rfl⟩ := List.mem_iff_getElem.mp href
    refine hfilled j ?_ _ (List.getElem?_eq_getElem hj)
    rw [Nat.zero_add, length_pairs]
    exact hj.trans_eq hheap
  obtain ⟨refs, hheapify, hsub, hrefsLength⟩ := Heap.heapify_spec hok
    (show heap.length < fuel by omega) (heap.length / 2)
  have hturns : n / 2 ≤ pairCount n := by
    have hmul : n * 1 ≤ n * (n - 1) := Nat.mul_le_mul_left n (by omega)
    rw [Nat.mul_one] at hmul
    exact Nat.div_le_div_right hmul
  obtain ⟨dirtyRegions', map', h', hmerge, hmerged, hok', hheap', hcells', hunused⟩ :=
    mergeRegions_spec area hc.length (MapOk.range n)
      (show 0 + n / 2 ≤ n by omega) (hok.withRefs hsub hrefsLength)
      (show n / 2 ≤ heap.length by omega)
      (show Enough fuel n _ from ⟨by omega, by show heap.length < fuel; omega, by
        show cells₁.length * (cells₁.length + 1) + cells₁.length < fuel
        rw [hcells₁, hcells]
        omega⟩)
  obtain ⟨k, hmap'⟩ := hmerged.mapOk
  obtain ⟨r, _, _, hlead⟩ := hmap'.leads 0 (by omega)
  have hr : r < n := by
    rw [← hmap'.length_eq]
    exact (List.getElem?_eq_some_iff.mp hlead.isRoot).1
  obtain ⟨dirtyRegions'', e', hmove, hlength'', hle, hheld, hshrink⟩ :=
    moveUnused_spec (show n - 0 < fuel by omega) hmerged.length hmap'.length_eq le_rfl
      ⟨r, hr, hlead.isRoot⟩ (fun j hj => absurd hj (Nat.not_lt_zero j))
  refine ⟨⟨dirtyRegions'', e', h'.cells, some h'.heap⟩, ?_, ⟨hlength'', hle, ?_⟩, ?_, ?_⟩
  · rw [compressHeap, hc.length, hopen]
    dsimp only [Option.bind_eq_bind, Option.bind_some]
    rw [hfill]
    dsimp only [Option.bind_some]
    rw [hheapify]
    dsimp only [Option.bind_some]
    rw [hmerge]
    dsimp only [Option.bind_some]
    rw [hfull, hmove]
    rfl
  · rintro heap₂ hheap₂
    cases hheap₂
    refine ⟨(hheap'.trans hrefsLength).trans hheap, (hcells'.trans hcells₁).trans hcells, ?_⟩
    exact hok'.refs
  · exact hshrink (hunused (by omega) rfl)
  · intro x hx hxheld
    refine hheld x ((hmerged.held x hx (hxheld.mono ?_)).mono ?_)
    · exact fun j hj => List.getElem?_range hj
    · intro j hj
      refine ⟨?_, hj⟩
      rw [← hmap'.length_eq]
      exact (List.getElem?_eq_some_iff.mp hj).1

/-! ## Adding -/

/-- What adding a region does to a container. -/
structure Added (n : ℕ) (c : DirtyRegionContainer α) (region : RectBounds α)
    (c' : DirtyRegionContainer α) : Prop where
  sized : Sized n c'
  held : Held c'.dirtyRegions (· < c'.emptyIndex) region
  held_of_held : ∀ x, x.isEmpty = false → Held c.dirtyRegions (· < c.emptyIndex) x →
    Held c'.dirtyRegions (· < c'.emptyIndex) x

variable (area fuel) in
/-- There is a place for the region, with all it has taken in. -/
theorem addDirtyRegion_of_room (hc : Sized n c) {region region' : RectBounds α}
    {dirtyRegions' : List (RectBounds α)} {e' : ℕ} (hregion : region.isEmpty = false)
    (hrun : absorb c.emptyIndex 0 region c.dirtyRegions c.emptyIndex =
      some (region', dirtyRegions', e'))
    (habsorbed : Absorbed region c.dirtyRegions c.emptyIndex region' dirtyRegions' e')
    (hroom : e' < n) (depth : ℕ) :
    ∃ c', addDirtyRegion area fuel (depth + 1) c region = some c' ∧ Added n c region c' := by
  have hlength : dirtyRegions'.length = n := habsorbed.length.trans hc.length
  have hlast : (dirtyRegions'.set e' region')[e']? = some region' :=
    List.getElem?_set_self (hroom.trans_eq hlength.symm)
  refine ⟨{ c with dirtyRegions := dirtyRegions'.set e' region', emptyIndex := e' + 1 }, ?_,
    ⟨List.length_set.trans hlength, hroom, hc.heap⟩,
    ⟨e', region', Nat.lt_succ_self e', hlast, habsorbed.contains⟩, ?_⟩
  · rw [addDirtyRegion, hregion, if_neg Bool.false_ne_true, hrun]
    dsimp only [Option.bind_eq_bind, Option.bind_some]
    rw [hlength, if_pos hroom]
    rfl
  · intro x hx hxheld
    rcases habsorbed.held x hx hxheld with hx' | ⟨j, q, hj, hq, hqx⟩
    · exact ⟨e', region', Nat.lt_succ_self e', hlast, hx'⟩
    · refine ⟨j, q, Nat.lt_succ_of_lt hj, ?_, hqx⟩
      rw [List.getElem?_set_ne (Nat.ne_of_gt hj)]
      exact hq

variable (area) in
/-- **`addDirtyRegion`** returns, and the region and all regions that were held are held. -/
theorem addDirtyRegion_spec (h1 : 1 ≤ n) (hn : n ≤ 46341) (hc : Sized n c)
    (hfuel : fuelFor n ≤ fuel) {region : RectBounds α} (hregion : region.isEmpty = false)
    (depth : ℕ) :
    ∃ c', addDirtyRegion area fuel (depth + 2) c region = some c' ∧ Added n c region c' := by
  obtain ⟨region', dirtyRegions', e', hrun, habsorbed⟩ :=
    absorb_spec (Nat.zero_add c.emptyIndex) (hc.le.trans_eq hc.length.symm) hregion
  by_cases hroom : e' < n
  · exact addDirtyRegion_of_room area fuel hc hregion hrun habsorbed hroom (depth + 1)
  have hle := hc.le
  have hfull : e' = n := le_antisymm (habsorbed.le.trans hle) (le_of_not_gt hroom)
  have hlength : dirtyRegions'.length = n := habsorbed.length.trans hc.length
  rw [addDirtyRegion, hregion, if_neg Bool.false_ne_true, hrun]
  dsimp only [Option.bind_eq_bind, Option.bind_some]
  rw [hlength, if_neg hroom]
  by_cases hone : n = 1
  · -- the only region takes the other one in
    obtain ⟨dr, hdr⟩ : ∃ dr, dirtyRegions'[0]? = some dr :=
      ⟨_, List.getElem?_eq_getElem (by omega)⟩
    rw [if_pos hone, hdr]
    dsimp only [Option.bind_some]
    have hunion := fun {x : RectBounds α} (hx : x.isEmpty = false) =>
      @RectBounds.Contains.unionWith α _ dr region' x hx
    have hlast : (dirtyRegions'.set 0 (dr.unionWith region'))[0]? = some (dr.unionWith region') :=
      List.getElem?_set_self (by omega)
    have hzero : 0 < e' := by omega
    refine ⟨_, rfl, ⟨List.length_set.trans hlength, hfull.le, hc.heap⟩,
      ⟨0, _, hzero, hlast, hunion hregion (Or.inr habsorbed.contains)⟩, ?_⟩
    intro x hx hxheld
    rcases habsorbed.held x hx hxheld with hx' | ⟨j, q, hj, hq, hqx⟩
    · exact ⟨0, _, hzero, hlast, hunion hx (Or.inr hx')⟩
    · obtain rfl : j = 0 := by omega
      rw [hdr, Option.some_inj] at hq
      subst hq
      exact ⟨0, _, hzero, hlast, hunion hx (Or.inl hqx)⟩
  · rw [if_neg hone]
    have hsized : Sized n { c with dirtyRegions := dirtyRegions', emptyIndex := e' } :=
      ⟨hlength, hfull.le, hc.heap⟩
    obtain ⟨c₁, hcompress, hsized₁, hroom₁, hheld₁⟩ :=
      compressHeap_spec area hn (by omega) hsized hfull hfuel
    rw [hcompress]
    dsimp only [Option.bind_some]
    obtain ⟨region₂, dirtyRegions₂, e₂, hrun₂, habsorbed₂⟩ :=
      absorb_spec (Nat.zero_add c₁.emptyIndex) (hsized₁.le.trans_eq hsized₁.length.symm)
        habsorbed.isEmpty
    obtain ⟨c', hadd, hadded⟩ := addDirtyRegion_of_room area fuel hsized₁
      habsorbed.isEmpty hrun₂ habsorbed₂ (habsorbed₂.le.trans_lt hroom₁) depth
    have hregion' : ∀ x, region'.Contains x → Held c'.dirtyRegions (· < c'.emptyIndex) x := by
      intro x hx
      obtain ⟨j, q, hj, hq, hqr⟩ := hadded.held
      exact ⟨j, q, hj, hq, hqr.trans hx⟩
    refine ⟨c', hadd, hadded.sized, hregion' region habsorbed.contains, fun x hx hxheld => ?_⟩
    rcases habsorbed.held x hx hxheld with hx' | hx'
    · exact hregion' x hx'
    · exact hadded.held_of_held x hx (hheld₁ x hx (hx'.mono fun j hj => hj.trans_eq hfull))

end Compress

end DirtyRegionContainer

/-! ## Runs -/

open DirtyRegionContainer

inductive RegionCall (α : Type) where
  | add (region : RectBounds α)
  | reset

/-- The container, and the rectangles that have been added since it was reset. -/
structure Marked (α : Type) where
  container : DirtyRegionContainer α
  added : List (RectBounds α) := []

/-- A call of the container. -/
def Marked.call (area : RectBounds α → RectBounds α → ℤ) (fuel : ℕ) (s : Marked α) :
    RegionCall α → Option (Marked α)
  | .add region => do
      let container ← s.container.addDirtyRegion area fuel fuel region
      return { container := container, added := region :: s.added }
  | .reset => some { container := s.container.reset }

/-- A run of calls. -/
def Marked.run (area : RectBounds α → RectBounds α → ℤ) (fuel count : ℕ) (blank : RectBounds α)
    (calls : List (RegionCall α)) : Option (Marked α) :=
  calls.foldlM (Marked.call area fuel) { container := create count blank }

/-- **No dirty area is lost.** -/
structure Covered (n : ℕ) (s : Marked α) : Prop where
  le : s.container.emptyIndex ≤ n
  cover : ∀ r ∈ s.added, ∀ x y, r.HasPoint x y →
    ∃ j q, j < s.container.emptyIndex ∧ s.container.dirtyRegions[j]? = some q ∧ q.HasPoint x y

/-- The state between the calls. -/
structure Marked.Kept (n : ℕ) (s : Marked α) : Prop where
  sized : Sized n s.container
  held : ∀ r ∈ s.added, r.isEmpty = false ∧
    Held s.container.dirtyRegions (· < s.container.emptyIndex) r

/-- The calls add no empty rectangle. -/
def RegionCall.IsAllowed : RegionCall α → Prop
  | .add region => region.isEmpty = false
  | .reset => True

section Runs

variable {area : RectBounds α → RectBounds α → ℤ} {fuel n : ℕ} {s : Marked α}

theorem Marked.Kept.covered (h : s.Kept n) : Covered n s where
  le := h.sized.le
  cover := by
    intro r hr x y hpoint
    obtain ⟨j, q, hj, hq, hqr⟩ := (h.held r hr).2
    exact ⟨j, q, hj, hq, hqr.hasPoint hpoint⟩

theorem two_le_fuelFor (h1 : 1 ≤ n) : 2 ≤ fuelFor n := by
  unfold fuelFor
  omega

variable (area) in
theorem Marked.Kept.call (h1 : 1 ≤ n) (hn : n ≤ 46341) (hfuel : fuelFor n ≤ fuel) (h : s.Kept n)
    {call : RegionCall α} (hcall : call.IsAllowed) :
    ∃ s', s.call area fuel call = some s' ∧ s'.Kept n := by
  cases call with
  | reset =>
      refine ⟨_, rfl, ⟨h.sized.length, Nat.zero_le n, h.sized.heap⟩, ?_⟩
      exact fun r hr => absurd hr List.not_mem_nil
  | add region =>
      obtain ⟨depth, hdepth⟩ : ∃ depth, fuel = depth + 2 :=
        ⟨fuel - 2, by have := two_le_fuelFor h1; omega⟩
      obtain ⟨c', hadd, hadded⟩ :=
        addDirtyRegion_spec area h1 hn h.sized hfuel hcall depth
      rw [← hdepth] at hadd
      refine ⟨{ container := c', added := region :: s.added }, ?_, hadded.sized, ?_⟩
      · rw [Marked.call, hadd]
        rfl
      · intro r hr
        rcases List.mem_cons.mp hr with rfl | hr
        · exact ⟨hcall, hadded.held⟩
        · obtain ⟨hempty, hheld⟩ := h.held r hr
          exact ⟨hempty, hadded.held_of_held r hempty hheld⟩

variable (area) in
theorem Marked.Kept.run (h1 : 1 ≤ n) (hn : n ≤ 46341) (hfuel : fuelFor n ≤ fuel) (h : s.Kept n)
    {calls : List (RegionCall α)} (hcalls : ∀ call ∈ calls, call.IsAllowed) :
    ∃ s', calls.foldlM (Marked.call area fuel) s = some s' ∧ s'.Kept n := by
  induction calls generalizing s with
  | nil => exact ⟨s, rfl, h⟩
  | cons call calls ih =>
      obtain ⟨s₁, hcall, hs₁⟩ := h.call area h1 hn hfuel (hcalls call List.mem_cons_self)
      obtain ⟨s', hrun, hs'⟩ := ih hs₁ fun c hc => hcalls c (List.mem_cons_of_mem _ hc)
      refine ⟨s', ?_, hs'⟩
      rw [List.foldlM_cons, hcall]
      exact hrun

/-- **No dirty area is lost**: with enough turns for its loops every call returns, the regions fit
the container, and they cover what has been added since the last reset. -/
theorem covered_of_le (area : RectBounds α → RectBounds α → ℤ) (blank : RectBounds α) (h1 : 1 ≤ n)
    (hn : n ≤ 46341) {calls : List (RegionCall α)} (hcalls : ∀ call ∈ calls, call.IsAllowed) :
    ∀ fuel, fuelFor n ≤ fuel → ∃ s, Marked.run area fuel n blank calls = some s ∧ Covered n s := by
  intro fuel hfuel
  have hstart : Marked.Kept n { container := create n blank } := by
    refine ⟨⟨List.length_replicate, Nat.zero_le n, ?_⟩, fun r hr => absurd hr List.not_mem_nil⟩
    rintro heap ⟨⟩
  obtain ⟨s, hrun, hs⟩ := hstart.run area h1 hn hfuel hcalls
  exact ⟨s, hrun, hs.covered⟩

theorem covered_three : ∃ s, Marked.run (fun _ _ => 0) (fuelFor 2) 2 ⟨0, 0, -1, -1⟩
    [.add ⟨(0 : ℤ), 0, 1, 1⟩, .add ⟨2, 0, 3, 1⟩, .add ⟨4, 0, 5, 1⟩] = some s ∧ Covered 2 s := by
  refine covered_of_le (fun _ _ => 0) ⟨0, 0, -1, -1⟩ (by decide) (by decide) ?_ (fuelFor 2) le_rfl
  rintro call hcall
  simp only [List.mem_cons, List.not_mem_nil, or_false] at hcall
  rcases hcall with rfl | rfl | rfl <;> rfl

/-! ## Containers that are too large -/

/-- The rectangle of one point. -/
def point (i : ℕ) : RectBounds ℤ := ⟨i, 0, i, 0⟩

theorem point_isEmpty (i : ℕ) : (point i).isEmpty = false :=
  RectBounds.isEmpty_iff.mpr ⟨le_rfl, le_rfl⟩

theorem point_intersects {i j : ℕ} (h : i ≠ j) : (point i).intersects (point j) = false := by
  unfold RectBounds.intersects point
  simp only [Bool.and_eq_false_iff, decide_eq_false_iff_not]
  rcases Nat.lt_or_gt_of_ne h with hlt | hlt
  · right
    left
    right
    omega
  · right
    left
    left
    left
    omega

/-- The first `k` points stand in the container, and there is no heap yet. -/
structure Filled (n k : ℕ) (c : DirtyRegionContainer ℤ) : Prop where
  length : c.dirtyRegions.length = n
  emptyIndex : c.emptyIndex = k
  heap : c.heap = none
  points : ∀ j < k, c.dirtyRegions[j]? = some (point j)

theorem absorb_point {dirtyRegions : List (RectBounds ℤ)} {k turns t : ℕ}
    (hpoints : ∀ j < k, dirtyRegions[j]? = some (point j)) (ht : t + turns = k) :
    absorb turns t (point k) dirtyRegions k = some (point k, dirtyRegions, k) := by
  induction turns generalizing t with
  | zero => rfl
  | succ turns ih =>
      rw [absorb, hpoints t (by omega)]
      dsimp only [Option.bind_eq_bind, Option.bind_some]
      rw [point_intersects (show k ≠ t by omega), if_neg Bool.false_ne_true]
      exact ih (by omega)

theorem Filled.add {k : ℕ} {c : DirtyRegionContainer ℤ} (h : Filled n k c) (hk : k < n)
    (area : RectBounds ℤ → RectBounds ℤ → ℤ) (fuel depth : ℕ) :
    ∃ c', addDirtyRegion area fuel (depth + 1) c (point k) = some c' ∧ Filled n (k + 1) c' := by
  refine ⟨{ c with dirtyRegions := c.dirtyRegions.set k (point k), emptyIndex := k + 1 }, ?_,
    List.length_set.trans h.length, rfl, h.heap, ?_⟩
  · rw [addDirtyRegion, point_isEmpty, if_neg Bool.false_ne_true, h.emptyIndex,
      absorb_point h.points (Nat.zero_add k)]
    dsimp only [Option.bind_eq_bind, Option.bind_some]
    rw [h.length, if_pos hk]
    rfl
  · intro j hj
    rcases Nat.lt_succ_iff_lt_or_eq.mp hj with hj | rfl
    · show (c.dirtyRegions.set k (point k))[j]? = some (point j)
      rw [List.getElem?_set_ne (Nat.ne_of_gt hj)]
      exact h.points j hj
    · exact List.getElem?_set_self (hk.trans_eq h.length.symm)

/-- A full container whose heap would be too long throws. -/
theorem Filled.add_full {c : DirtyRegionContainer ℤ} (h : Filled n n c) (h2 : 2 ≤ n)
    (hneg : heapLength n < 0) {area : RectBounds ℤ → RectBounds ℤ → ℤ} (depth : ℕ) :
    addDirtyRegion area fuel depth c (point n) = none := by
  cases depth with
  | zero => rfl
  | succ depth =>
      rw [addDirtyRegion, point_isEmpty, if_neg Bool.false_ne_true, h.emptyIndex,
        absorb_point h.points (Nat.zero_add n)]
      dsimp only [Option.bind_eq_bind, Option.bind_some]
      rw [h.length, if_neg (lt_irrefl n), if_neg (by omega), compressHeap, openHeap, h.heap]
      dsimp only [Option.bind_eq_bind]
      rw [h.length, if_pos hneg]
      rfl

/-- The points are added one after the other. -/
theorem Filled.run {area : RectBounds ℤ → RectBounds ℤ → ℤ} (h2 : 2 ≤ n) (hneg : heapLength n < 0)
    {m k : ℕ} (hm : k + m = n + 1) (hpos : 0 < m) {s : Marked ℤ} (h : Filled n k s.container) :
    ((List.range' k m).map fun i => RegionCall.add (point i)).foldlM (Marked.call area fuel) s =
      none := by
  induction m generalizing k s with
  | zero => cases hpos
  | succ m ih =>
      rw [List.range'_succ, List.map_cons, List.foldlM_cons, Marked.call]
      rcases Nat.eq_zero_or_pos m with rfl | hpos
      · obtain rfl : k = n := by omega
        rw [h.add_full h2 hneg]
        rfl
      · cases fuel with
        | zero => rfl
        | succ depth =>
            obtain ⟨c', hadd, hfilled⟩ := h.add (by omega) area (depth + 1) depth
            rw [hadd]
            exact ih (by omega) hpos (s := { container := c', added := point k :: s.added }) hfilled

/-- With 46342 regions the number of pairs is not an `int` before it is halved. -/
theorem too_many_pairs : ¬∀ calls : List (RegionCall ℤ), (∀ call ∈ calls, call.IsAllowed) →
    ∃ fuel s, Marked.run (fun _ _ => 0) fuel 46342 ⟨0, 0, -1, -1⟩ calls = some s ∧
      Covered 46342 s := by
  intro hclaim
  obtain ⟨fuel, s, hrun, -⟩ := hclaim
    ((List.range' 0 46343).map fun i => RegionCall.add (point i)) (by
      intro call hcall
      obtain ⟨i, -, rfl⟩ := List.mem_map.mp hcall
      exact point_isEmpty i)
  have hstart : Filled 46342 0 (create 46342 (⟨0, 0, -1, -1⟩ : RectBounds ℤ)) :=
    ⟨List.length_replicate, rfl, rfl, fun j hj => absurd hj (Nat.not_lt_zero j)⟩
  rw [Marked.run, Filled.run (by decide) (by decide) (by decide) (by decide) hstart] at hrun
  cases hrun

end Runs

end JavaFx.Geom
