import JavaFx.Transformation.Unsorted

/-!
# Taking the comparator of a `SortedList` away

Without a comparator the view is to be the source again: every record goes to the position it
has as its index. The loop swaps a record that is not there with the one that is, and notes the
swap in an array and its inverse as the sort helper does, but both arrays start with zeros.
-/

namespace JavaFx.Transformation

open JavaFx.Collections

variable {α : Type}

/-- The variables of the loop. -/
structure Unsorting (α : Type) where
  sorted : List (Option (Element α))
  perm : List ℕ
  rperm : List ℕ
  changed : Bool
  idx : ℕ

namespace Unsorting

/-- One round of the loop. -/
def round (u : Unsorting α) : Except (Unsorting α × Exn) (Unsorting α) := do
  let x ← throwing u (arrayDeref u.sorted u.idx)
  let otherIdx := x.index
  if otherIdx = u.idx then
    return { u with idx := u.idx + 1 }
  else do
    let other ← throwing u (arrayGet u.sorted otherIdx)
    let sorted ← throwing u (arraySet u.sorted otherIdx (some x))
    let sorted ← throwing { u with sorted := sorted } (arraySet sorted u.idx other)
    let u := { u with sorted := sorted }
    let r ← throwing u (arrayGet u.rperm u.idx)
    let perm ← throwing u (arraySet u.perm r otherIdx)
    let r' ← throwing u (arrayGet u.rperm otherIdx)
    let perm ← throwing u (arraySet perm r' u.idx)
    let tp := r
    let rperm ← throwing u (arraySet u.rperm u.idx r')
    let rperm ← throwing u (arraySet rperm otherIdx tp)
    return { u with perm := perm, rperm := rperm, changed := true }

/-- The loop; `none` if it has not come to its end after so many rounds. -/
def loop (size : ℕ) : ℕ → Unsorting α → Option (Except (Unsorting α × Exn) (Unsorting α))
  | 0, _ => none
  | rounds + 1, u =>
      if u.idx < size then
        match u.round with
        | .ok u => loop size rounds u
        | .error e => some (.error e)
      else some (.ok u)

end Unsorting

namespace SortedList

/-- The variables before the loop. -/
def unsorting (s : SortedList α) : Unsorting α where
  sorted := s.sorted
  perm := List.replicate s.size 0
  rperm := List.replicate s.size 0
  changed := false
  idx := 0

/-- `new SimplePermutationChange<>(0, size, perm, this)` -/
def simplePermutationChange (s : SortedList α) (perm : List ℕ) : SubChange α where
  from_ := 0
  to_ := s.size
  removed := some []
  perm := perm
  updated := false

/-- `doSortWithPermutationChange()` with the change it fires, after at most so many rounds of
the loop. -/
def doSortWithPermutationChange (rounds : ℕ) (comparator : Option (α → α → ℤ))
    (s : SortedList α) :
    Option (Except (SortedList α × Exn) (SortedList α × Option (SubChange α))) :=
  match comparator with
  | some compare => some (do
      let r ← throwing s (s.helperSort compare)
      return (r.1, some (s.simplePermutationChange r.2)))
  | none => (Unsorting.loop s.size rounds s.unsorting).map fun
      | .ok u => .ok ({ s with sorted := u.sorted },
          if u.changed then some (s.simplePermutationChange u.perm) else none)
      | .error e => .error ({ s with sorted := e.1.sorted }, e.2)

/-- The list without its comparator shows the source, and what it fires says so. -/
def ShowsSource (s : SortedList α) (source : List α) : Prop :=
  ∃ rounds s' fired,
    s.doSortWithPermutationChange rounds none = some (.ok (s', fired)) ∧
      s'.size = source.length ∧
      (∀ i (h : i < source.length), s'.get i = .ok source[i]) ∧
      ∀ c, fired = some c → ∀ k < s'.size, ∃ p e,
        getPermutation c k = .ok p ∧ s.get k = .ok e ∧ s'.get p = .ok e

/-- The records are those of the source, and either they are in its order already or there is
nothing to tell apart. -/
def NothingToUndo (s : SortedList α) (source : List α) : Prop :=
  ∃ xs, Holds s xs ∧ xs.Perm (records 0 source.length source) ∧
    (xs = records 0 source.length source ∨ ∃ e, ∀ x ∈ source, x = e)

end SortedList

/-! ## One round -/

namespace Unsorting

variable {u u' : Unsorting α} {x : Element α} {n : ℕ}

theorem arrayDeref_eq_ok {β : Type} {a : List (Option β)} {i : ℕ} {x : β} :
    arrayDeref a (i : ℕ) = .ok x ↔ a[i]? = some (some x) := by
  unfold arrayDeref arrayGet
  rw [if_pos (Int.natCast_nonneg i), Int.toNat_natCast]
  cases a[i]? with
  | none => simp [bind, Except.bind]
  | some y =>
      cases y with
      | none => simp [bind, Except.bind]
      | some y => simp [bind, Except.bind, pure, Except.pure]

theorem arrayGet_eq_ok {β : Type} {a : List β} {i : ℕ} {x : β} :
    arrayGet a (i : ℕ) = .ok x ↔ a[i]? = some x := by
  unfold arrayGet
  rw [if_pos (Int.natCast_nonneg i), Int.toNat_natCast]
  cases a[i]? with
  | none => simp
  | some y => simp

theorem arraySet_eq_ok {β : Type} {a b : List β} {i : ℕ} {x : β} :
    arraySet a (i : ℕ) x = .ok b ↔ i < a.length ∧ b = a.set i x := by
  unfold arraySet
  rw [Int.toNat_natCast]
  by_cases h : i < a.length
  · rw [if_pos ⟨Int.natCast_nonneg i, h⟩]
    simp [h, eq_comm]
  · rw [if_neg (fun hi => h hi.2)]
    simp [h]

theorem throwing_bind_eq_ok {σ β γ : Type} {s : σ} {m : Except Exn β}
    {f : β → Except (σ × Exn) γ} {c : γ} :
    (throwing s m >>= f) = .ok c ↔ ∃ b, m = .ok b ∧ f b = .ok c := by
  cases m with
  | ok b => simp [throwing, bind, Except.bind]
  | error e => simp [throwing, bind, Except.bind]

/-- The variables after a swap. -/
def swapped (u : Unsorting α) (x : Element α) (other : Option (Element α)) (r r' : ℕ) :
    Unsorting α where
  sorted := (u.sorted.set x.index (some x)).set u.idx other
  perm := (u.perm.set r x.index).set r' u.idx
  rperm := (u.rperm.set u.idx r').set x.index r
  changed := true
  idx := u.idx

/-- What a swap reads. -/
structure Reads (u : Unsorting α) (x : Element α) (other : Option (Element α)) (r r' : ℕ) :
    Prop where
  other : u.sorted[x.index]? = some other
  first : u.rperm[u.idx]? = some r
  second : u.rperm[x.index]? = some r'
  bound : r < u.perm.length
  bound' : r' < u.perm.length

/-- **A round** goes on to the next record or swaps one to its place. -/
theorem round_eq_ok : u.round = .ok u' ↔
    ∃ x, u.sorted[u.idx]? = some (some x) ∧
      ((x.index = u.idx ∧ u' = { u with idx := u.idx + 1 }) ∨
        (x.index ≠ u.idx ∧
          ∃ other r r', u.Reads x other r r' ∧ u' = u.swapped x other r r')) := by
  unfold round
  simp only [throwing_bind_eq_ok, arrayDeref_eq_ok]
  refine exists_congr fun x => and_congr_right fun hx => ?_
  have hidx := (List.getElem?_eq_some_iff.mp hx).1
  by_cases hhome : x.index = u.idx
  · rw [if_pos hhome]
    simp [hhome, eq_comm, pure, Except.pure]
  · rw [if_neg hhome]
    simp only [throwing_bind_eq_ok, arrayGet_eq_ok, arraySet_eq_ok]
    constructor
    · rintro ⟨other, hother, sorted, ⟨hlt, rfl⟩, sorted', ⟨hlt', rfl⟩, r, hr, perm, ⟨hp, rfl⟩,
        r', hr', perm', ⟨hp', rfl⟩, rperm, ⟨-, rfl⟩, rperm', ⟨-, rfl⟩, h⟩
      refine Or.inr ⟨hhome, other, r, r', ⟨hother, hr, hr', hp, by simpa using hp'⟩, ?_⟩
      cases h
      rfl
    · rintro (⟨h, -⟩ | ⟨-, other, r, r', h, rfl⟩)
      · exact absurd h hhome
      · have hfirst := (List.getElem?_eq_some_iff.mp h.first).1
        have hsecond := (List.getElem?_eq_some_iff.mp h.second).1
        have hthere := (List.getElem?_eq_some_iff.mp h.other).1
        exact ⟨other, h.other, _, ⟨hthere, rfl⟩, _, ⟨by simpa using hidx, rfl⟩, r, h.first, _,
          ⟨h.bound, rfl⟩, r', h.second, _, ⟨by simpa using h.bound', rfl⟩, _, ⟨hfirst, rfl⟩, _,
          ⟨by simpa using hsecond, rfl⟩, rfl⟩

/-- What every round keeps holds at the end of the loop. -/
theorem loop_induction {P : Unsorting α → Prop} {rounds : ℕ}
    (hround : ∀ u u', P u → u.idx < n → u.round = .ok u' → P u')
    (h : loop n rounds u = some (.ok u')) (hu : P u) : P u' ∧ n ≤ u'.idx := by
  induction rounds generalizing u with
  | zero => cases h
  | succ rounds ih =>
      rw [loop] at h
      by_cases hidx : u.idx < n
      · rw [if_pos hidx] at h
        cases hr : u.round with
        | error e =>
            rw [hr] at h
            cases h
        | ok u₁ =>
            rw [hr] at h
            exact ih h (hround u u₁ hu hidx hr)
      · rw [if_neg hidx] at h
        cases h
        exact ⟨hu, not_lt.mp hidx⟩

end Unsorting

/-! ## The records along the loop -/

namespace Unsorting

variable {u u' : Unsorting α} {xs zs : List (Element α)} {tail : List (Option (Element α))}
  {n rounds : ℕ}

/-- The records before `idx` are where they belong. -/
def Placed (u : Unsorting α) : Prop :=
  ∀ i < u.idx, ∃ x, u.sorted[i]? = some (some x) ∧ x.index = i

theorem Placed.round (h : u.Placed) (hround : u.round = .ok u') : u'.Placed := by
  obtain ⟨x, hx, ⟨hhome, rfl⟩ | ⟨hne, other, r, r', hreads, rfl⟩⟩ := round_eq_ok.mp hround
  · intro i hi
    rcases Nat.lt_succ_iff_lt_or_eq.mp hi with hi | rfl
    · exact h i hi
    · exact ⟨x, hx, hhome⟩
  · intro i hi
    change i < u.idx at hi
    change ∃ y, ((u.sorted.set x.index (some x)).set u.idx other)[i]? = some (some y) ∧ y.index = i
    rw [List.getElem?_set_ne hi.ne']
    by_cases hi' : x.index = i
    · have hlt := (List.getElem?_eq_some_iff.mp hreads.other).1
      exact ⟨x, by rw [← hi', List.getElem?_set_self hlt], hi'⟩
    · rw [List.getElem?_set_ne hi']
      exact h i hi

/-- There are records in the first `n` cells. -/
def Full (n : ℕ) (u : Unsorting α) : Prop := ∀ i < n, ∃ x, u.sorted[i]? = some (some x)

/-- A swap only moves records. -/
theorem full_of_round (hrperm : u.rperm.length = n) (hround : u.round = .ok u')
    (h : u'.Full n) : u.Full n := by
  obtain ⟨x, hx, ⟨hhome, rfl⟩ | ⟨hne, other, r, r', hreads, rfl⟩⟩ := round_eq_ok.mp hround
  · exact h
  · have hidx := (List.getElem?_eq_some_iff.mp hx).1
    have hfirst := (List.getElem?_eq_some_iff.mp hreads.first).1
    intro i hi
    rcases eq_or_ne i u.idx with rfl | hi'
    · exact ⟨x, hx⟩
    · rcases eq_or_ne i x.index with rfl | hother
      · -- what was there is now at `idx`
        obtain ⟨y, hy⟩ := h u.idx (hrperm ▸ hfirst)
        change ((u.sorted.set x.index (some x)).set u.idx other)[u.idx]? = some (some y) at hy
        rw [List.getElem?_set_self (by simpa using hidx)] at hy
        rw [hreads.other]
        exact ⟨y, hy⟩
      · obtain ⟨y, hy⟩ := h i hi
        change ((u.sorted.set x.index (some x)).set u.idx other)[i]? = some (some y) at hy
        rw [List.getElem?_set_ne hi'.symm, List.getElem?_set_ne hother.symm] at hy
        exact ⟨y, hy⟩

theorem rperm_length_round (hround : u.round = .ok u') : u'.rperm.length = u.rperm.length := by
  obtain ⟨x, -, ⟨-, rfl⟩ | ⟨-, other, r, r', -, rfl⟩⟩ := round_eq_ok.mp hround
  · rfl
  · simp [swapped]

/-- A loop that comes to its end has found records everywhere. -/
theorem full_of_loop (hrperm : u.rperm.length = n) (hu : u.Placed)
    (h : loop n rounds u = some (.ok u')) : u.Full n := by
  induction rounds generalizing u with
  | zero => cases h
  | succ rounds ih =>
      rw [loop] at h
      by_cases hidx : u.idx < n
      · rw [if_pos hidx] at h
        cases hr : u.round with
        | error e =>
            rw [hr] at h
            cases h
        | ok u₁ =>
            rw [hr] at h
            exact full_of_round hrperm hr
              (ih ((rperm_length_round hr).trans hrperm) (hu.round hr) h)
      · intro i hi
        obtain ⟨x, hx, -⟩ := hu i (by omega)
        exact ⟨x, hx⟩

/-- The records as they are in the array. -/
structure Shows (u : Unsorting α) (n : ℕ) (zs : List (Element α))
    (tail : List (Option (Element α))) : Prop where
  sorted : u.sorted = zs.map some ++ tail
  length : zs.length = n
  rperm : u.rperm = List.replicate n 0
  perm : u.perm.length = n

theorem Shows.getElem? (h : u.Shows n zs tail) {i : ℕ} (hi : i < n) :
    u.sorted[i]? = (zs[i]?).map some := by
  have hlength := h.length
  rw [h.sorted, List.getElem?_append_left (by simpa using by omega), List.getElem?_map]

theorem Shows.record (h : u.Shows n zs tail) {i : ℕ} (hi : i < n) {x : Element α} :
    u.sorted[i]? = some (some x) ↔ zs[i]? = some x := by
  rw [h.getElem? hi]
  cases zs[i]? with
  | none => simp
  | some y => simp

/-- The records after a swap. -/
def swap (zs : List (Element α)) (idx : ℕ) (x y : Element α) : List (Element α) :=
  (zs.set x.index x).set idx y

theorem getElem?_replicate_zero {i r : ℕ} (h : (List.replicate n 0)[i]? = some r) :
    i < n ∧ r = 0 := by
  obtain ⟨hi, hr⟩ := List.getElem?_eq_some_iff.mp h
  rw [List.getElem_replicate] at hr
  exact ⟨by simpa using hi, hr.symm⟩

/-- What a round does to the records: nothing, or a swap of two. -/
theorem Shows.round (h : u.Shows n zs tail) (hidx : u.idx < n) (hround : u.round = .ok u') :
    ∃ x, zs[u.idx]? = some x ∧
      ((x.index = u.idx ∧ u' = { u with idx := u.idx + 1 }) ∨
        (x.index ≠ u.idx ∧ ∃ y, zs[x.index]? = some y ∧ u'.Shows n (swap zs u.idx x y) tail ∧
          u'.perm = (u.perm.set 0 x.index).set 0 u.idx ∧ u'.changed = true ∧
            u'.idx = u.idx)) := by
  obtain ⟨x, hx, hcases⟩ := round_eq_ok.mp hround
  refine ⟨x, (h.record hidx).mp hx, hcases.imp id ?_⟩
  rintro ⟨hne, other, r, r', hreads, rfl⟩
  have hfirst := hreads.first
  have hsecond := hreads.second
  rw [h.rperm] at hfirst hsecond
  obtain ⟨-, rfl⟩ := getElem?_replicate_zero hfirst
  obtain ⟨hlt, rfl⟩ := getElem?_replicate_zero hsecond
  have hother := hreads.other
  rw [h.getElem? hlt, Option.map_eq_some_iff] at hother
  obtain ⟨y, hy, rfl⟩ := hother
  have hlength := h.length
  refine ⟨hne, y, hy, ⟨?_, ?_, ?_, ?_⟩, rfl, rfl, rfl⟩
  · change (u.sorted.set x.index (some x)).set u.idx (some y) = _
    rw [h.sorted, List.set_append_left _ _ (by simpa using by omega),
      List.set_append_left _ _ (by simpa using by omega), swap]
    simp
  · simp [swap, hlength]
  · change (u.rperm.set u.idx 0).set x.index 0 = _
    rw [h.rperm]
    apply List.ext_getElem
    · simp
    · simp
  · simp [swapped, h.perm]

theorem swap_perm {idx : ℕ} {x y : Element α} (hx : zs[idx]? = some x)
    (hy : zs[x.index]? = some y) : (swap zs idx x y).Perm zs := by
  obtain ⟨hidx, rfl⟩ := List.getElem?_eq_some_iff.mp hx
  obtain ⟨hother, rfl⟩ := List.getElem?_eq_some_iff.mp hy
  exact List.set_set_perm hother hidx

/-! ## The end of the loop -/

/-- With every index there once the loop can always go on. -/
theorem Shows.exists_round (h : u.Shows n zs tail) (hidx : u.idx < n)
    (hindexes : (zs.map Element.index).Perm (List.range n)) : ∃ u', u.round = .ok u' := by
  have hlength := h.length
  have hx : zs[u.idx]? = some zs[u.idx] := List.getElem?_eq_getElem (by omega)
  have hx' := (h.record hidx).mpr hx
  by_cases hhome : (zs[u.idx]).index = u.idx
  · exact ⟨_, round_eq_ok.mpr ⟨_, hx', Or.inl ⟨hhome, rfl⟩⟩⟩
  · have hlt : (zs[u.idx]).index < n := by
      rw [← List.mem_range, ← hindexes.mem_iff]
      exact List.mem_map_of_mem (List.getElem_mem _)
    have hlt' : (zs[u.idx]).index < zs.length := by omega
    obtain ⟨y, hy⟩ : ∃ y, zs[(zs[u.idx]).index]? = some y :=
      ⟨_, List.getElem?_eq_getElem hlt'⟩
    refine ⟨_, round_eq_ok.mpr ⟨_, hx', Or.inr ⟨hhome, some y, 0, 0, ?_, rfl⟩⟩⟩
    constructor
    · rw [h.getElem? hlt, hy]
      rfl
    · simp [h.rperm, hidx]
    · simp [h.rperm, hlt]
    · rw [h.perm]
      omega
    · rw [h.perm]
      omega

/-- The positions whose record belongs elsewhere. -/
def misplaced (n : ℕ) (zs : List (Element α)) : Finset ℕ :=
  (Finset.range n).filter fun i => zs[i]?.map Element.index ≠ some i

/-- Two records do not have one index. -/
theorem eq_of_same_index (hnodup : (zs.map Element.index).Nodup) {i j : ℕ} {x y : Element α}
    (hi : zs[i]? = some x) (hj : zs[j]? = some y) (hindex : x.index = y.index) : i = j := by
  obtain ⟨hlt, -⟩ := List.getElem?_eq_some_iff.mp hi
  have hsame : (zs.map Element.index)[i]? = (zs.map Element.index)[j]? := by
    simp only [List.getElem?_map, hi, hj, Option.map_some, hindex]
  exact (List.getElem?_inj (by simpa using hlt) hnodup).mp hsame

/-- A swap brings one record to its place and takes none away from it. -/
theorem misplaced_swap {idx : ℕ} {x y : Element α} (hlength : zs.length = n)
    (hnodup : (zs.map Element.index).Nodup) (hx : zs[idx]? = some x) (hne : x.index ≠ idx)
    (hy : zs[x.index]? = some y) : misplaced n (swap zs idx x y) ⊂ misplaced n zs := by
  obtain ⟨hidx, hxeq⟩ := List.getElem?_eq_some_iff.mp hx
  obtain ⟨hother, hyeq⟩ := List.getElem?_eq_some_iff.mp hy
  have hafter (i : ℕ) (hi : i ≠ x.index) (hi' : i ≠ idx) : (swap zs idx x y)[i]? = zs[i]? := by
    rw [swap, List.getElem?_set_ne hi'.symm, List.getElem?_set_ne hi.symm]
  have hplaced : (swap zs idx x y)[x.index]? = some x := by
    rw [swap, List.getElem?_set_ne hne.symm, List.getElem?_set_self hother]
  have hyne : y.index ≠ x.index := by
    intro heq
    apply hne
    exact eq_of_same_index hnodup hy hx heq
  rw [Finset.ssubset_iff_of_subset]
  · refine ⟨x.index, ?_, ?_⟩
    · simp [misplaced, hyeq, hyne, ← hlength, hother]
    · simp [misplaced, hplaced]
  · intro i hi
    obtain ⟨hin, hbad⟩ := Finset.mem_filter.mp hi
    refine Finset.mem_filter.mpr ⟨hin, ?_⟩
    rcases eq_or_ne i idx with rfl | hi'
    · rw [hx]
      simpa using hne
    · rcases eq_or_ne i x.index with rfl | hi''
      · rw [hplaced] at hbad
        exact absurd rfl hbad
      · rwa [hafter i hi'' hi'] at hbad

/-- **The loop comes to its end** if every index is there once. -/
theorem Shows.terminates (h : u.Shows n zs tail)
    (hindexes : (zs.map Element.index).Perm (List.range n)) :
    ∃ rounds u', loop n rounds u = some (.ok u') := by
  induction hmeasure : (misplaced n zs).card + (n - u.idx) using Nat.strong_induction_on
    generalizing u zs with
  | _ m ih =>
      by_cases hidx : u.idx < n
      · obtain ⟨u₁, hround⟩ := h.exists_round hidx hindexes
        have hnext : ∃ rounds u', loop n rounds u₁ = some (.ok u') := by
          obtain ⟨x, hx, ⟨-, rfl⟩ | ⟨hne, y, hy, hshows, -, -, hsame⟩⟩ := h.round hidx hround
          · refine ih _ ?_ (u := { u with idx := u.idx + 1 })
              ⟨h.sorted, h.length, h.rperm, h.perm⟩ hindexes rfl
            dsimp only
            omega
          · have hperm := swap_perm hx hy
            have hcard := Finset.card_lt_card (misplaced_swap h.length
              (hindexes.nodup_iff.mpr List.nodup_range) hx hne hy)
            refine ih _ ?_ hshows ((hperm.map _).trans hindexes) rfl
            omega
        obtain ⟨rounds, u', hloop⟩ := hnext
        refine ⟨rounds + 1, u', ?_⟩
        rw [loop, if_pos hidx, hround]
        exact hloop
      · exact ⟨1, u, by rw [loop, if_neg hidx]⟩

/-- The indexes at the end. -/
theorem Shows.map_index (h : u.Shows n zs tail) (hplaced : u.Placed) (hend : n ≤ u.idx) :
    zs.map Element.index = List.range n := by
  have hlength := h.length
  apply List.ext_getElem
  · simpa using hlength
  · intro i hi hi'
    rw [List.length_range] at hi'
    obtain ⟨x, hx, hindex⟩ := hplaced i (by omega)
    obtain ⟨hlt, rfl⟩ := List.getElem?_eq_some_iff.mp ((h.record hi').mp hx)
    simpa using hindex

/-- What the loop has done so far. Of the permutation only the position of the last swap is
right to tell, and the record that was first is not swapped again once it is in its place. -/
def Tracks (n : ℕ) (xs : List (Element α)) (tail : List (Option (Element α)))
    (u : Unsorting α) : Prop :=
  ∃ zs, u.Shows n zs tail ∧ zs.Perm xs ∧ u.Placed ∧
    ((u.changed = false ∧ zs = xs ∧ u.perm = List.replicate n 0) ∨
      (u.changed = true ∧ ∃ last < n, u.perm = (List.replicate n 0).set 0 last ∧
        ((xs.map Element.index).Nodup → ∀ x, xs[0]? = some x → x.index ≠ 0 →
          zs[x.index]? = some x ∧ last ≠ x.index)))

theorem Tracks.round (h : Tracks n xs tail u) (hidx : u.idx < n) (hround : u.round = .ok u') :
    Tracks n xs tail u' := by
  obtain ⟨zs, hshows, hperm, hplaced, htold⟩ := h
  have hplaced' := hplaced.round hround
  obtain ⟨x, hx, ⟨-, rfl⟩ | ⟨hne, y, hy, hshows', hperm', hchanged, -⟩⟩ :=
    hshows.round hidx hround
  · exact ⟨zs, ⟨hshows.sorted, hshows.length, hshows.rperm, hshows.perm⟩, hperm, hplaced', htold⟩
  · have hother := (List.getElem?_eq_some_iff.mp hy).1
    have hzs : (swap zs u.idx x y)[x.index]? = some x := by
      rw [swap, List.getElem?_set_ne hne.symm, List.getElem?_set_self hother]
    refine ⟨_, hshows', (swap_perm hx hy).trans hperm, hplaced',
      Or.inr ⟨hchanged, u.idx, hidx, ?_, ?_⟩⟩
    · -- both entries of the inverse are zero, so only the first cell is written
      rw [hperm']
      rcases htold with ⟨-, -, hzero⟩ | ⟨-, last, -, hlast, -⟩
      · rw [hzero, List.set_set]
      · rw [hlast, List.set_set, List.set_set]
    · intro hnodup first hfirst hfar
      rcases htold with ⟨-, rfl, -⟩ | ⟨-, last, -, -, hkept⟩
      · -- the first swap: the record that was first moves, or it was in its place
        by_cases hzero : u.idx = 0
        · rw [hzero, hfirst] at hx
          cases hx
          exact ⟨hzs, hne.symm⟩
        · obtain ⟨z, hz, hzindex⟩ := hplaced 0 (Nat.pos_of_ne_zero hzero)
          rw [hshows.record (Nat.zero_lt_of_lt hidx), hfirst] at hz
          cases hz
          exact absurd hzindex hfar
      · obtain ⟨hthere, -⟩ := hkept hnodup first hfirst hfar
        have hidx' : u.idx ≠ first.index := by
          intro heq
          rw [heq, hthere] at hx
          cases hx
          exact hne heq.symm
        have hindex : x.index ≠ first.index := by
          intro heq
          apply hidx'
          have hnodup' : (zs.map Element.index).Nodup := (hperm.map _).nodup_iff.mpr hnodup
          exact eq_of_same_index hnodup' hx hthere heq
        refine ⟨?_, hidx'⟩
        rw [swap, List.getElem?_set_ne hidx', List.getElem?_set_ne hindex]
        exact hthere

end Unsorting

/-! ## The view after it -/

namespace SortedList

open Unsorting

variable {s : SortedList α} {xs zs : List (Element α)} {source : List α}

theorem holds_of_full (h : s.unsorting.Full s.size) : ∃ xs, Holds s xs := by
  have hsome : ∀ x ∈ s.sorted.take s.size, ∃ e, x = some e := by
    intro x hx
    obtain ⟨i, hi⟩ := List.mem_iff_getElem?.mp hx
    have hlt : i < s.size := by
      have := (List.getElem?_eq_some_iff.mp hi).1
      rw [List.length_take] at this
      omega
    obtain ⟨e, he⟩ := h i hlt
    rw [List.getElem?_take_of_lt hlt] at hi
    exact ⟨e, Option.some.inj (hi.symm.trans he)⟩
  have hall : (s.sorted.take s.size).length = s.size := by
    rw [List.length_take, Nat.min_eq_left]
    by_contra hshort
    obtain ⟨x, hx⟩ := h s.sorted.length (by omega)
    change s.sorted[s.sorted.length]? = _ at hx
    rw [List.getElem?_eq_none le_rfl] at hx
    cases hx
  obtain ⟨xs, hxs⟩ : ∃ xs : List (Element α), s.sorted.take s.size = xs.map some := by
    generalize s.sorted.take s.size = cells at hsome
    clear hall
    induction cells with
    | nil => exact ⟨[], rfl⟩
    | cons x cells ih =>
        obtain ⟨e, rfl⟩ := hsome x List.mem_cons_self
        obtain ⟨es, hes⟩ := ih fun y hy => hsome y (List.mem_cons_of_mem _ hy)
        exact ⟨e :: es, by rw [hes]; rfl⟩
  refine ⟨xs, ?_, s.sorted.drop s.size, ?_⟩
  · rw [← hall, hxs, List.length_map]
  · rw [← hxs, List.take_append_drop]

theorem Holds.shows (h : Holds s xs) :
    ∃ tail, s.unsorting.Shows s.size xs tail := by
  obtain ⟨hsize, tail, hsorted⟩ := h
  exact ⟨tail, hsorted, hsize.symm, rfl, List.length_replicate⟩

theorem unsorting_placed (s : SortedList α) : s.unsorting.Placed :=
  fun _ hi => absurd hi (Nat.not_lt_zero _)

/-- What the loop has done when it is at its end. -/
theorem loop_tracks {u : Unsorting α} {rounds : ℕ} {tail : List (Option (Element α))}
    (h : s.unsorting.Shows s.size xs tail)
    (hloop : Unsorting.loop s.size rounds s.unsorting = some (.ok u)) :
    Unsorting.Tracks s.size xs tail u ∧ s.size ≤ u.idx := by
  refine loop_induction (fun u u' hu hidx hround => hu.round hidx hround) hloop ?_
  exact ⟨xs, h, .refl _, unsorting_placed s, Or.inl ⟨rfl, rfl, rfl⟩⟩

theorem length_records_all (source : List α) :
    (records 0 source.length source).length = source.length := by
  simp [Splice.slice]

theorem index_of_records {i : ℕ} {x : Element α}
    (h : (records 0 source.length source)[i]? = some x) : x.index = i := by
  have hlt := (List.getElem?_eq_some_iff.mp h).1
  rw [length_records_all] at hlt
  rw [getElem?_records (by omega), Nat.zero_add] at h
  obtain ⟨e, -, rfl⟩ := Option.map_eq_some_iff.mp h
  rfl

/-- A record of the source lies where its index says. -/
theorem eq_of_mem_records {x : Element α} (hx : x ∈ records 0 source.length source) :
    (records 0 source.length source)[x.index]? = some x := by
  obtain ⟨i, hi⟩ := List.mem_iff_getElem?.mp hx
  rw [index_of_records hi]
  exact hi

/-- Records with the indexes in order that are the source's are its records. -/
theorem eq_records (hlength : zs.length = source.length)
    (hindex : zs.map Element.index = List.range zs.length)
    (he : ∀ i (h : i < zs.length), source[i]? = some zs[i].e) :
    zs = records 0 source.length source := by
  apply List.ext_getElem?
  intro i
  by_cases hi : i < zs.length
  · rw [getElem?_records (by omega), Nat.zero_add, he i hi, List.getElem?_eq_getElem hi]
    have hget : (zs.map Element.index)[i]? = some i := by
      rw [hindex, List.getElem?_range hi]
    rw [List.getElem?_map, List.getElem?_eq_getElem hi] at hget
    have hi' : (zs[i]).index = i := Option.some.inj hget
    rw [Option.map_some, Option.some.injEq]
    generalize zs[i] = z at hi' ⊢
    obtain ⟨e, index⟩ := z
    obtain rfl : index = i := hi'
    rfl
  · rw [List.getElem?_eq_none (by omega), List.getElem?_eq_none]
    simp [Splice.slice]
    omega

theorem getPermutation_simple {perm : List ℕ} (hperm : perm.length = s.size) {k : ℕ}
    (hk : k < perm.length) :
    getPermutation (s.simplePermutationChange perm) k = .ok perm[k] := by
  have hwas : (s.simplePermutationChange perm).wasPermutated = true := by
    have : perm.length ≠ 0 := by omega
    simpa [SubChange.wasPermutated, simplePermutationChange] using this
  rw [getPermutation, if_pos hwas]
  change arrayGet perm ((k : ℤ) - (0 : ℕ)) = _
  rw [Nat.cast_zero, sub_zero]
  exact arrayGet_of_lt _

/-- The records after the loop, read from the view. -/
theorem records_of_shows {s' : SortedList α} (hs : Holds s' zs)
    (hindex : zs.map Element.index = List.range zs.length) (hsize : s'.size = source.length)
    (hget : ∀ i (h : i < source.length), s'.get i = .ok source[i]) :
    zs = records 0 source.length source := by
  have hlength : zs.length = source.length := by rw [← hs.1, hsize]
  refine eq_records hlength hindex fun i hi => ?_
  have hi' : i < source.length := by omega
  have hview := hget i hi'
  rw [get_of_holds hs hi] at hview
  rw [List.getElem?_eq_getElem hi', Except.ok.inj hview]

/-- The view after the loop shows the source if the records are the source's. -/
theorem get_of_records {s' : SortedList α} (hs : Holds s' (records 0 source.length source))
    {i : ℕ} (hi : i < source.length) : s'.get i = .ok source[i] := by
  have hlength := length_records_all source
  rw [get_of_holds hs (by omega)]
  have hrecord : (records 0 source.length source)[i]? = some ⟨source[i], i⟩ := by
    rw [getElem?_records (by omega), Nat.zero_add, List.getElem?_eq_getElem hi]
    rfl
  rw [List.getElem?_eq_getElem (by omega), Option.some.injEq] at hrecord
  rw [hrecord]

theorem holds_after {u : Unsorting α} {tail : List (Option (Element α))}
    (h : u.Shows s.size zs tail) : Holds { s with sorted := u.sorted } zs :=
  ⟨h.length.symm, tail, h.sorted⟩

/-- What is told of a position: the record that was there looks like the one told. -/
theorem told_record {u : Unsorting α} {tail : List (Option (Element α))}
    (hs : Holds s xs) (hu : u.Shows s.size zs tail)
    (htold : ∀ k < s.size, ∃ p e, getPermutation (s.simplePermutationChange u.perm) k = .ok p ∧
      s.get k = .ok e ∧ SortedList.get { s with sorted := u.sorted } p = .ok e)
    {k p : ℕ} {x y : Element α} (hp : u.perm[k]? = some p) (hx : xs[k]? = some x)
    (hy : zs[p]? = some y) : x.e = y.e := by
  obtain ⟨hk, rfl⟩ := List.getElem?_eq_some_iff.mp hp
  obtain ⟨hkx, rfl⟩ := List.getElem?_eq_some_iff.mp hx
  obtain ⟨hpy, rfl⟩ := List.getElem?_eq_some_iff.mp hy
  obtain ⟨p', e, hp', hold, hnew⟩ := htold k (hu.perm ▸ hk)
  rw [getPermutation_simple hu.perm hk] at hp'
  cases hp'
  rw [get_of_holds hs hkx] at hold
  rw [get_of_holds (holds_after hu) hpy] at hnew
  rw [Except.ok.inj hold, Except.ok.inj hnew]

/-- If only the position of the last swap is told, and the record that was first is not there,
then the records all look like the first of the source. -/
theorem same_of_told {u : Unsorting α} {tail : List (Option (Element α))} {last : ℕ}
    (hs : Holds s xs) (hu : u.Shows s.size zs tail) (hperm : zs.Perm xs)
    (hzs : zs = records 0 source.length source) (hlast : last < s.size)
    (hnote : u.perm = (List.replicate s.size 0).set 0 last)
    (hfirst : ∀ x, xs[0]? = some x → x.index ≠ 0 → zs[x.index]? = some x ∧ last ≠ x.index)
    (htold : ∀ k < s.size, ∃ p e, getPermutation (s.simplePermutationChange u.perm) k = .ok p ∧
      s.get k = .ok e ∧ SortedList.get { s with sorted := u.sorted } p = .ok e) :
    ∃ e, ∀ x ∈ xs, x.e = e := by
  have hzlength := hu.length
  obtain ⟨z, hz⟩ : ∃ z, zs[0]? = some z := ⟨_, List.getElem?_eq_getElem (by omega)⟩
  -- all but the first are told to be at position 0
  have hrest {k : ℕ} {x : Element α} (hne : k ≠ 0) (hx : xs[k]? = some x) : x.e = z.e := by
    refine told_record hs hu htold ?_ hx hz
    have hk := (List.getElem?_eq_some_iff.mp hx).1
    rw [hnote, List.getElem?_set_ne hne.symm, List.getElem?_replicate, if_pos (hs.1 ▸ hk)]
  refine ⟨z.e, fun x hx => ?_⟩
  obtain ⟨k, hk⟩ := List.mem_iff_getElem?.mp hx
  rcases Nat.eq_zero_or_pos k with rfl | hpos
  · by_cases hhome : x.index = 0
    · -- the first record is the first of the source
      have hthere := eq_of_mem_records (hzs ▸ hperm.mem_iff.mpr hx)
      rw [← hzs, hhome, hz] at hthere
      rw [Option.some.inj hthere]
    · -- where the first record is told to be lies another one
      obtain ⟨hthere, hne⟩ := hfirst x hk hhome
      obtain ⟨y, hy⟩ : ∃ y, zs[last]? = some y := ⟨_, List.getElem?_eq_getElem (by omega)⟩
      have hlook : x.e = y.e := by
        refine told_record hs hu htold ?_ hk hy
        rw [hnote, List.getElem?_set_self (by simpa using by omega)]
      obtain ⟨i, hi⟩ := List.mem_iff_getElem?.mp (hperm.mem_iff.mp (List.mem_of_getElem? hy))
      rw [hlook]
      refine hrest ?_ hi
      rintro rfl
      rw [hk] at hi
      cases hi
      -- the records have different indexes
      apply hne
      exact (index_of_records (hzs ▸ hy)).symm
  · exact hrest hpos.ne' hk

theorem doSort_eq_ok {s' : SortedList α} {fired : Option (SubChange α)} {rounds : ℕ} :
    s.doSortWithPermutationChange rounds none = some (.ok (s', fired)) ↔
      ∃ u, Unsorting.loop s.size rounds s.unsorting = some (.ok u) ∧
        s' = { s with sorted := u.sorted } ∧
        fired = if u.changed then some (s.simplePermutationChange u.perm) else none := by
  unfold doSortWithPermutationChange
  constructor
  · intro h
    obtain ⟨r, hr, heq⟩ := Option.map_eq_some_iff.mp h
    cases r with
    | error e => cases heq
    | ok u =>
        cases heq
        exact ⟨u, hr, rfl, rfl⟩
  · rintro ⟨u, hu, rfl, rfl⟩
    rw [hu]
    rfl

theorem nothingToUndo_of_shows (h : s.ShowsSource source) : s.NothingToUndo source := by
  obtain ⟨rounds, s', fired, hrun, hsize, hget, htold⟩ := h
  obtain ⟨u, hloop, rfl, rfl⟩ := doSort_eq_ok.mp hrun
  obtain ⟨xs, hs⟩ := holds_of_full
    (full_of_loop List.length_replicate (unsorting_placed s) hloop)
  obtain ⟨tail, hshows⟩ := hs.shows
  obtain ⟨⟨zs, hu, hperm, hplaced, hswaps⟩, hend⟩ := loop_tracks hshows hloop
  have hindex := hu.map_index hplaced hend
  have hzs : zs = records 0 source.length source :=
    records_of_shows (holds_after hu) (by rw [hindex, hu.length]) hsize hget
  refine ⟨xs, hs, hzs ▸ hperm.symm, ?_⟩
  rcases hswaps with ⟨-, rfl, -⟩ | ⟨hchanged, last, hlast, hnote, hfirst⟩
  · exact Or.inl hzs
  · have hnodup : (xs.map Element.index).Nodup := by
      rw [← (hperm.map Element.index).nodup_iff, hindex]
      exact List.nodup_range
    obtain ⟨e, hsame⟩ := same_of_told hs hu hperm hzs hlast hnote (hfirst hnodup)
      fun k hk => htold _ (by rw [if_pos hchanged]) k hk
    refine Or.inr ⟨e, fun x hx => ?_⟩
    have hmap : (xs.map Element.e).Perm source := by
      refine (hperm.symm.map _).trans ?_
      rw [hzs, map_e_records]
      simp [Splice.slice]
    obtain ⟨y, hy, rfl⟩ := List.mem_map.mp (hmap.mem_iff.mpr hx)
    exact hsame y hy

/-- Records in the source's order are not swapped. -/
theorem unchanged_of_records {u : Unsorting α} {rounds : ℕ}
    (hs : Holds s (records 0 source.length source))
    (hloop : Unsorting.loop s.size rounds s.unsorting = some (.ok u)) : u.changed = false := by
  obtain ⟨tail, hshows⟩ := hs.shows
  have hkept := loop_induction
    (P := fun u => u.Shows s.size (records 0 source.length source) tail ∧ u.changed = false)
    ?_ hloop ⟨hshows, rfl⟩
  · exact hkept.1.2
  · rintro u u' ⟨hu, hchanged⟩ hidx hround
    obtain ⟨x, hx, ⟨-, rfl⟩ | ⟨hne, -⟩⟩ := hu.round hidx hround
    · exact ⟨⟨hu.sorted, hu.length, hu.rperm, hu.perm⟩, hchanged⟩
    · exact absurd (index_of_records hx) hne

theorem shows_of_nothingToUndo (h : s.NothingToUndo source) : s.ShowsSource source := by
  obtain ⟨xs, hs, hperm, hcases⟩ := h
  obtain ⟨tail, hshows⟩ := hs.shows
  have hlength : s.size = source.length := by
    rw [hs.1, hperm.length_eq, length_records_all]
  have hindexes : (xs.map Element.index).Perm (List.range s.size) := by
    refine (hperm.map _).trans ?_
    rw [map_index_records le_rfl, hlength, List.range_eq_range', Nat.sub_zero]
  obtain ⟨rounds, u, hloop⟩ := hshows.terminates hindexes
  obtain ⟨⟨zs, hu, hperm', hplaced, hswaps⟩, hend⟩ := loop_tracks hshows hloop
  have hzs : zs = records 0 source.length source := by
    refine eq_records (by rw [hu.length, hlength]) (by rw [hu.map_index hplaced hend, hu.length])
      fun i hi => ?_
    have hlt : i < s.size := by
      rw [← hu.length]
      exact hi
    have hindex : (zs.map Element.index)[i]? = some i := by
      rw [hu.map_index hplaced hend, List.getElem?_range hlt]
    rw [List.getElem?_map, List.getElem?_eq_getElem hi] at hindex
    have hrecord := mem_records ((hperm'.trans hperm).mem_iff.mp (List.getElem_mem hi))
    rw [Option.some.inj hindex] at hrecord
    exact hrecord
  subst hzs
  have hview (i : ℕ) (hi : i < source.length) :
      SortedList.get { s with sorted := u.sorted } i = .ok source[i] :=
    get_of_records (holds_after hu) hi
  refine ⟨rounds, _, _, doSort_eq_ok.mpr ⟨u, hloop, rfl, rfl⟩, hlength, hview, ?_⟩
  intro c hc k hk
  by_cases hchanged : u.changed = true
  · rw [if_pos hchanged, Option.some.injEq] at hc
    subst hc
    obtain rfl | ⟨e, hsame⟩ := hcases
    · rw [unchanged_of_records hs hloop] at hchanged
      cases hchanged
    · -- wherever an element is told to be, there is one like it
      have hperms : ∀ p ∈ u.perm, p < s.size := by
        rcases hswaps with ⟨hunchanged, -⟩ | ⟨-, last, hlast, hnote, -⟩
        · rw [hunchanged] at hchanged
          cases hchanged
        · intro p hp
          rw [hnote] at hp
          rcases List.mem_or_eq_of_mem_set hp with hp | rfl
          · obtain ⟨-, rfl⟩ := List.mem_replicate.mp hp
            exact Nat.zero_lt_of_lt hlast
          · exact hlast
      have hk' : k < xs.length := by
        rw [← hs.1]
        exact hk
      have hp := hperms _ (List.getElem_mem (hu.perm.symm ▸ hk : k < u.perm.length))
      have hmem : (xs[k]).e ∈ source := by
        have := mem_records (hperm.mem_iff.mp (List.getElem_mem hk'))
        exact List.mem_of_getElem? this
      refine ⟨_, _, getPermutation_simple hu.perm (hu.perm.symm ▸ hk), get_of_holds hs hk', ?_⟩
      rw [hview _ (hp.trans_eq hlength), hsame _ hmem, hsame _ (List.getElem_mem _)]
  · rw [if_neg hchanged] at hc
    cases hc

/-- **Taking the comparator away** does what it is for exactly if the records are those of the
source and there is no order to undo. -/
theorem showsSource_iff (s : SortedList α) (source : List α) :
    s.ShowsSource source ↔ s.NothingToUndo source :=
  ⟨nothingToUndo_of_shows, shows_of_nothingToUndo⟩

/-! ## Runs -/

/-- A comparator is an object; what it answers may depend on its state. -/
structure ComparatorObject (α : Type) where
  reference : ℕ
  compare : α → α → ℤ

inductive Call (α : Type) where
  | sourceChanged (change : DocumentedChange α)
  | setComparator (comparator : Option (ComparatorObject α))

/-- The list, the value of its comparator property and its source. -/
structure Observed (α : Type) where
  list : SortedList α
  comparator : Option (ComparatorObject α)
  source : List α

/-- The object after a call that returned or threw. -/
def left {σ β : Type} (f : β → σ) : Except (σ × Exn) β → σ
  | .ok b => f b
  | .error e => e.1

/-- The state after a call; `none` if the call has not come to its end after so many rounds. The
property tells nobody if it is set to the value it has. -/
def Observed.after (rounds : ℕ) (o : Observed α) : Call α → Option (Observed α)
  | .sourceChanged change => some { o with
      list := left id (o.list.sourceChanged (o.comparator.map (·.compare)) change)
      source := change.list }
  | .setComparator comparator =>
      if comparator.map (·.reference) = o.comparator.map (·.reference) then some o
      else (o.list.doSortWithPermutationChange rounds (comparator.map (·.compare))).map fun r =>
        { o with list := left Prod.fst r, comparator := comparator }

/-- A run of calls from a new list on. -/
inductive Reaches (source : List α) : List (Call α) → Observed α → Prop where
  | new : Reaches source [] ⟨.new source, none, source⟩
  | call {done : List (Call α)} {o o' : Observed α} (call : Call α) (rounds : ℕ) :
      Reaches source done o → o.after rounds call = some o' → Reaches source (done ++ [call]) o'

/-- **Un-sorting along a run**: whenever the comparator of a sorted list is taken away, the list
shows its source and says how, exactly if whenever that is done there is nothing to undo. -/
theorem unsorting_along_iff (source : List α) (run : List (Call α)) :
    (∀ done rest o, run = done ++ .setComparator none :: rest → Reaches source done o →
        o.comparator ≠ none → o.list.ShowsSource o.source) ↔
      ∀ done rest o, run = done ++ .setComparator none :: rest → Reaches source done o →
        o.comparator ≠ none → o.list.NothingToUndo o.source := by
  simp only [showsSource_iff]

/-- Smaller numbers come first. -/
def natural : ComparatorObject ℕ := ⟨0, fun x y => (x : ℤ) - y⟩

/-- Two elements in the other order: the first is told to stay, the second to move to the front,
where it is not. -/
theorem two_swapped_misreported :
    ∃ o : Observed ℕ, Reaches [2, 1] [.setComparator (some natural)] o ∧
      o.comparator ≠ none ∧ ¬o.list.ShowsSource o.source := by
  refine ⟨⟨⟨[some ⟨1, 1⟩, some ⟨2, 0⟩, none, none], 2, {}⟩, some natural, [2, 1]⟩,
    Reaches.call _ 0 .new rfl, nofun, ?_⟩
  rw [showsSource_iff]
  rintro ⟨xs, ⟨hsize, tail, hsorted⟩, -, hcases⟩
  have hxs : xs.map some = [some ⟨1, 1⟩, some ⟨2, 0⟩] := by
    have htake := congrArg (List.take 2) hsorted
    rw [List.take_left' (by simpa using hsize.symm)] at htake
    exact htake.symm
  rcases hcases with heq | ⟨e, hsame⟩
  · rw [heq] at hxs
    exact absurd hxs (by decide)
  · have htwo := hsame 2 (by simp)
    have hone := hsame 1 (by simp)
    omega

end SortedList

end JavaFx.Transformation
