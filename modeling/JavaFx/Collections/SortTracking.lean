import JavaFx.Collections.SortHelper
import JavaFx.Lib.StableSort
import JavaFx.Lib.Window

/-!
# What `SortHelper` sorts and records

A call of `mergeSort` is described by the list of its elements with their positions, in the
order of the stable sort: the array shows the elements, `reversePermutation` the positions,
and `permutation` maps every position to its place. Swaps and merges keep this where the
range of the array is also the range of the permutation. In the auxiliary array of a sort of
a part it is not; there the record is right only of a range where nothing is moved.
-/

namespace JavaFx.Collections.SortHelper

open Splice StableSort Window

variable {β : Type} {c : β → β → ℤ}

/-! ## The order -/

/-- `c.compare(x, y) <= 0` -/
def le (c : β → β → ℤ) (x y : β) : Bool := decide (c x y ≤ 0)

theorem le_iff {x y : β} : le c x y = true ↔ c x y ≤ 0 := decide_eq_true_iff

variable (hc : IsComparator c)

include hc in
theorem le_trans' (x y z : β) (hxy : le c x y = true) (hyz : le c y z = true) :
    le c x z = true :=
  le_iff.mpr (hc.trans x y z (le_iff.mp hxy) (le_iff.mp hyz))

include hc in
theorem le_total' (x y : β) : (le c x y || le c y x) = true := by
  rw [Bool.or_eq_true, le_iff, le_iff]
  by_contra hnone
  rw [not_or, not_le, not_le] at hnone
  have := (hc.swap y x).mpr hnone.1
  omega

include hc in
/-- The greater element is not greater the other way round. -/
theorem le_of_gt {x y : β} (h : 0 < c x y) : le c y x = true := by
  have := (hc.swap y x).mpr h
  exact le_iff.mpr (by omega)

/-! ## The record -/

/-- An entry of the array: the element and the position it had. -/
abbrev Entry (β : Type) : Type := β × ℕ

/-- The record says of every entry where it was and where it is. -/
structure Tracked (ps : Permutations) (base : ℕ) (zs : List (Entry β)) : Prop where
  reverse : Stands ps.reversePermutation base (zs.map Prod.snd)
  forward : ∀ k z, zs[k]? = some z → ps.permutation[z.2]? = some (base + k)

/-- Nothing but the `n` entries from `lo` on of the record has changed. -/
structure RecordKept (lo n : ℕ) (ps ps' : Permutations) : Prop where
  permutation : SameOutside lo n ps.permutation ps'.permutation
  reverse : SameOutside lo n ps.reversePermutation ps'.reversePermutation

theorem RecordKept.refl (lo n : ℕ) (ps : Permutations) : RecordKept lo n ps ps :=
  ⟨.refl lo n _, .refl lo n _⟩

theorem RecordKept.trans {lo n : ℕ} {ps ps' ps'' : Permutations} (h : RecordKept lo n ps ps')
    (h' : RecordKept lo n ps' ps'') : RecordKept lo n ps ps'' :=
  ⟨h.permutation.trans h'.permutation, h.reverse.trans h'.reverse⟩

theorem RecordKept.mono {lo n lo' n' : ℕ} {ps ps' : Permutations} (h : RecordKept lo n ps ps')
    (hlo : lo' ≤ lo) (hn : lo + n ≤ lo' + n') : RecordKept lo' n' ps ps' :=
  ⟨h.permutation.mono hlo hn, h.reverse.mono hlo hn⟩

/-- The positions of the entries are in a range. -/
def Within (lo n : ℕ) (zs : List (Entry β)) : Prop := ∀ z ∈ zs, lo ≤ z.2 ∧ z.2 < lo + n

/-- What is recorded of a range does not see changes elsewhere. -/
theorem Tracked.congr {ps ps' : Permutations} {base lo n : ℕ} {zs : List (Entry β)}
    (h : Tracked ps base zs) (hwithin : Within base zs.length zs) (hkept : RecordKept lo n ps ps')
    (hdisjoint : base + zs.length ≤ lo ∨ lo + n ≤ base) : Tracked ps' base zs := by
  constructor
  · refine h.reverse.congr fun t hge hlt => hkept.reverse.outside t ?_
    rw [List.length_map] at hlt
    omega
  · intro k z hz
    have hz' := hwithin z (List.mem_of_getElem? hz)
    rw [hkept.permutation.outside _ (by omega)]
    exact h.forward k z hz

theorem Tracked.append {ps : Permutations} {base : ℕ} {xs ys : List (Entry β)}
    (hx : Tracked ps base xs) (hy : Tracked ps (base + xs.length) ys) :
    Tracked ps base (xs ++ ys) := by
  constructor
  · rw [List.map_append, stands_append, List.length_map]
    exact ⟨hx.reverse, hy.reverse⟩
  · intro k z hz
    by_cases hk : k < xs.length
    · rw [List.getElem?_append_left hk] at hz
      exact hx.forward k z hz
    · rw [List.getElem?_append_right (not_lt.mp hk)] at hz
      rw [hy.forward _ z hz]
      congr 1
      omega

/-- The position of an entry of a recorded range is not that of another one. -/
theorem Tracked.tag_ne {ps : Permutations} {base : ℕ} {zs : List (Entry β)}
    (h : Tracked ps base zs) {j k : ℕ} {x y : Entry β} (hx : zs[j]? = some x)
    (hy : zs[k]? = some y) (hne : j ≠ k) : x.2 ≠ y.2 := by
  intro heq
  have hjk := h.forward j x hx
  rw [heq, h.forward k y hy] at hjk
  have := Option.some.inj hjk
  omega

theorem arrayGet_ok {γ : Type} {a : List γ} {i : ℕ} {x : γ} (h : a[i]? = some x) :
    arrayGet a (i : ℤ) = .ok x :=
  arrayGet_eq_of_getElem? (Int.natCast_nonneg i) h

theorem arraySet_ok {γ : Type} {a : List γ} {i : ℕ} {x : γ} (h : a[i]? = some x) (y : γ) :
    arraySet a (i : ℤ) y = .ok (a.set i y) :=
  arraySet_of_lt y (List.getElem?_eq_some_iff.mp h).1

/-! ## Swaps -/

/-- The array and the record show the entries. -/
structure Shows (s : List β × Permutations) (base : ℕ) (zs : List (Entry β)) : Prop where
  array : Stands s.1 base (zs.map Prod.fst)
  tracked : Tracked s.2 base zs

/-- Nothing but the `n` entries from `lo` on of the array and of the record has changed. -/
structure StateKept (lo n : ℕ) (s s' : List β × Permutations) : Prop where
  array : SameOutside lo n s.1 s'.1
  record : RecordKept lo n s.2 s'.2

theorem StateKept.refl (lo n : ℕ) (s : List β × Permutations) : StateKept lo n s s :=
  ⟨.refl lo n _, .refl lo n _⟩

theorem StateKept.trans {lo n : ℕ} {s s' s'' : List β × Permutations} (h : StateKept lo n s s')
    (h' : StateKept lo n s' s'') : StateKept lo n s s'' :=
  ⟨h.array.trans h'.array, h.record.trans h'.record⟩

/-- A swap of two neighbours is recorded. -/
theorem swap_spec {s : List β × Permutations} {base n j : ℕ} {as ys : List (Entry β)}
    {a b : Entry β} (h : Shows s base (as ++ a :: b :: ys))
    (hwithin : Within base n (as ++ a :: b :: ys)) (hn : (as ++ a :: b :: ys).length ≤ n)
    (hj : base + as.length = j) :
    ∃ s', swap s.1 s.2 (j + 1) j = .ok s' ∧ Shows s' base (as ++ b :: a :: ys) ∧
      StateKept base n s s' := by
  obtain ⟨dest, P, R⟩ := s
  obtain ⟨harray, hreverse, hforward⟩ := h
  have hlength : as.length + 2 ≤ n := by
    rw [List.length_append, List.length_cons, List.length_cons] at hn
    omega
  have hsplit : as ++ a :: b :: ys = (as ++ [a]) ++ b :: ys := by simp
  have hsplit' : as ++ b :: a :: ys = (as ++ [b]) ++ a :: ys := by simp
  have hka : (as ++ a :: b :: ys)[as.length]? = some a := by
    rw [List.getElem?_append_right (le_refl _), Nat.sub_self, List.getElem?_cons_zero]
  have hkb : (as ++ a :: b :: ys)[as.length + 1]? = some b := by
    rw [hsplit, List.getElem?_append_right (by simp)]
    simp
  -- what the six accesses find
  have hda : dest[j]? = some a.1 := by
    rw [← hj]
    exact harray _ _ (by rw [List.getElem?_map, hka]; rfl)
  have hdb : dest[j + 1]? = some b.1 := by
    rw [← hj, Nat.add_assoc]
    exact harray _ _ (by rw [List.getElem?_map, hkb]; rfl)
  have hra : R[j]? = some a.2 := by
    rw [← hj]
    exact hreverse _ _ (by rw [List.getElem?_map, hka]; rfl)
  have hrb : R[j + 1]? = some b.2 := by
    rw [← hj, Nat.add_assoc]
    exact hreverse _ _ (by rw [List.getElem?_map, hkb]; rfl)
  have hpa : P[a.2]? = some j := hj ▸ hforward _ _ hka
  have hpb : P[b.2]? = some (j + 1) := by
    rw [← hj, Nat.add_assoc]
    exact hforward _ _ hkb
  have hne : b.2 ≠ a.2 := by
    intro heq
    rw [heq, hpa] at hpb
    have := Option.some.inj hpb
    omega
  refine ⟨((dest.set (j + 1) a.1).set j b.1,
    ⟨(P.set b.2 j).set a.2 (j + 1), (R.set (j + 1) a.2).set j b.2⟩), ?_, ⟨?_, ?_, ?_⟩, ⟨?_, ?_, ?_⟩⟩
  · have hda' : (dest.set (j + 1) a.1)[j]? = some a.1 := by
      rw [List.getElem?_set_ne (by omega), hda]
    have hpa' : (P.set b.2 j)[a.2]? = some j := by rw [List.getElem?_set_ne hne, hpa]
    have hra' : (R.set (j + 1) a.2)[j]? = some a.2 := by
      rw [List.getElem?_set_ne (by omega), hra]
    simp only [swap, Permutations.swap, arrayGet_ok hdb, arrayGet_ok hda, arraySet_ok hdb,
      arraySet_ok hda', arrayGet_ok hrb, arrayGet_ok hra, arraySet_ok hpb, arraySet_ok hpa',
      arraySet_ok hrb, arraySet_ok hra', except_ok_bind]
    rfl
  · rw [List.map_append, List.map_cons, List.map_cons] at harray ⊢
    exact harray.swap (by rw [List.length_map, hj])
  · rw [List.map_append, List.map_cons, List.map_cons] at hreverse ⊢
    exact hreverse.swap (by rw [List.length_map, hj])
  · intro k z hz
    have hlta := (List.getElem?_eq_some_iff.mp hpa).1
    have hltb := (List.getElem?_eq_some_iff.mp hpb).1
    by_cases hkj : k = as.length
    · -- the entry that has come down
      rw [hkj, List.getElem?_append_right (le_refl _), Nat.sub_self] at hz
      cases hz
      rw [List.getElem?_set_ne hne.symm, List.getElem?_set_self hltb, hkj, hj]
    · by_cases hkj' : k = as.length + 1
      · -- the entry that has gone up
        rw [hkj', hsplit', List.getElem?_append_right (by simp)] at hz
        simp only [List.length_append, List.length_singleton, Nat.sub_self,
          List.getElem?_cons_zero, Option.some.injEq] at hz
        rw [← hz, List.getElem?_set_self (by rwa [List.length_set]), hkj', ← Nat.add_assoc, hj]
      · -- another one
        have hold : (as ++ a :: b :: ys)[k]? = some z := by
          rcases Nat.lt_or_gt_of_ne hkj with hlow | hhigh
          · rw [List.getElem?_append_left hlow] at hz ⊢
            exact hz
          · obtain ⟨d, hd⟩ : ∃ d, k - as.length = d + 2 := ⟨k - as.length - 2, by omega⟩
            rw [List.getElem?_append_right (le_of_lt hhigh), hd] at hz ⊢
            exact hz
        have hpz := hforward k z hold
        have hza : a.2 ≠ z.2 := by
          intro heq
          rw [← heq, hpa] at hpz
          have := Option.some.inj hpz
          omega
        have hzb : b.2 ≠ z.2 := by
          intro heq
          rw [← heq, hpb] at hpz
          have := Option.some.inj hpz
          omega
        rw [List.getElem?_set_ne hza, List.getElem?_set_ne hzb, hpz]
  · exact (sameOutside_set _ (by omega) (by omega)).trans (sameOutside_set _ (by omega) (by omega))
  · have ha := hwithin a (List.mem_of_getElem? hka)
    have hb := hwithin b (List.mem_of_getElem? hkb)
    exact (sameOutside_set _ hb.1 hb.2).trans (sameOutside_set _ ha.1 ha.2)
  · exact (sameOutside_set _ (by omega) (by omega)).trans (sameOutside_set _ (by omega) (by omega))

/-! ## Insertion sort -/

/-- The order of the stable sort. -/
abbrev Ordered (c : β → β → ℤ) (x y : Entry β) : Prop := List.zipIdxLE (le c) x y = true

theorem insertDown_low (low : ℕ) (dest : List β) (ps : Permutations) :
    insertDown c low low dest ps = .ok (dest, ps) := by
  cases low with
  | zero => rfl
  | succ low => rw [insertDown, if_neg (lt_irrefl _)]

include hc in
/-- The next entry is moved down to its place among the sorted ones. -/
theorem insertDown_spec {low n : ℕ} {b : Entry β} (as : List (Entry β)) :
    ∀ {s : List β × Permutations} {ys : List (Entry β)}, Shows s low (as ++ b :: ys) →
      Within low n (as ++ b :: ys) → (as ++ b :: ys).length ≤ n → as.Pairwise (Ordered c) →
      (∀ a ∈ as, a.2 ≤ b.2) →
      ∃ s' as₁ as₂, as₁ ++ as₂ = as ∧ insertDown c low (low + as.length) s.1 s.2 = .ok s' ∧
        Shows s' low (as₁ ++ b :: (as₂ ++ ys)) ∧ StateKept low n s s' ∧
        (∀ a ∈ as₁, Ordered c a b) ∧ ∀ a ∈ as₂, Ordered c b a := by
  induction as using List.reverseRecOn with
  | nil =>
      intro s ys hs _ _ _ _
      refine ⟨s, [], [], rfl, ?_, hs, .refl low n s, ?_, ?_⟩
      · exact insertDown_low low s.1 s.2
      · exact fun a ha => absurd ha List.not_mem_nil
      · exact fun a ha => absurd ha List.not_mem_nil
  | append_singleton as a ih =>
      intro s ys hs hwithin hlength hsorted htags
      rw [List.append_assoc, List.singleton_append] at hs hwithin hlength
      obtain ⟨hsorted', -, hlast⟩ := List.pairwise_append.mp hsorted
      have htag : a.2 ≤ b.2 := htags a (List.mem_append_right _ (List.mem_singleton_self a))
      have hx : s.1[low + as.length]? = some a.1 := by
        have harray := hs.array
        rw [List.map_append, List.map_cons] at harray
        exact harray.get (by rw [List.length_map])
      have hy : s.1[low + as.length + 1]? = some b.1 := by
        have harray := hs.array
        rw [List.map_append, List.map_cons, List.map_cons, ← List.singleton_append,
          ← List.append_assoc] at harray
        exact harray.get (by rw [List.length_append, List.length_map, List.length_singleton]; omega)
      have hstep : insertDown c low (low + as.length + 1) s.1 s.2 =
          if 0 < c a.1 b.1 then (do
            let t ← swap s.1 s.2 (low + as.length + 1) (low + as.length)
            insertDown c low (low + as.length) t.1 t.2)
          else .ok s := by
        rw [insertDown, if_pos (by omega), arrayGet_ok hx, except_ok_bind, arrayGet_ok hy,
          except_ok_bind]
      have hposition : low + (as ++ [a]).length = low + as.length + 1 := by
        rw [List.length_append, List.length_singleton, Nat.add_assoc]
      rw [hposition, hstep]
      by_cases hgreater : 0 < c a.1 b.1
      · obtain ⟨t, hswap, ht, hkept⟩ := swap_spec hs hwithin hlength rfl
        have hwithin' : Within low n (as ++ b :: a :: ys) := by
          intro z hz
          apply hwithin z
          simp only [List.mem_append, List.mem_cons] at hz ⊢
          tauto
        have hlength' : (as ++ b :: a :: ys).length ≤ n := by
          simpa only [List.length_append, List.length_cons] using hlength
        obtain ⟨s', as₁, as₂, rfl, hdown, hs', hkept', hbelow, habove⟩ :=
          ih ht hwithin' hlength' hsorted' fun z hz => htags z (List.mem_append_left _ hz)
        refine ⟨s', as₁, as₂ ++ [a], ?_, ?_, ?_, hkept.trans hkept', hbelow, ?_⟩
        · rw [List.append_assoc]
        · rw [if_pos hgreater, hswap, except_ok_bind, hdown]
        · rw [List.append_assoc, List.singleton_append]
          exact hs'
        · intro z hz
          rcases List.mem_append.mp hz with hz | hz
          · exact habove z hz
          · rw [List.mem_singleton.mp hz]
            have hnot : le c a.1 b.1 ≠ true := by
              rw [ne_eq, le_iff]
              omega
            show List.zipIdxLE (le c) b a = true
            rw [List.zipIdxLE, if_pos (le_of_gt hc hgreater), if_neg hnot]
      · have hab : Ordered c a b := by
          show List.zipIdxLE (le c) a b = true
          rw [zipIdxLE_of_tags htag, le_iff]
          omega
        refine ⟨s, as ++ [a], [], List.append_nil _, ?_, ?_, .refl low n s, ?_, ?_⟩
        · rw [if_neg hgreater]
        · rw [List.append_assoc, List.singleton_append, List.nil_append]
          exact hs
        · intro z hz
          rcases List.mem_append.mp hz with hz | hz
          · exact List.zipIdxLE_trans (le_trans' hc) z a b
              (hlast z hz a (List.mem_singleton_self a)) hab
          · rw [List.mem_singleton.mp hz]
            exact hab
        · exact fun a ha => absurd ha List.not_mem_nil

/-- The body of the outer loop of the insertion sort. -/
abbrev insertNext (c : β → β → ℤ) (low : ℕ) (s : List β × Permutations) (i : ℕ) :
    Except Exn (List β × Permutations) :=
  insertDown c low i s.1 s.2

include hc in
/-- The entries before the loop's index are sorted, those behind it are where they were. -/
theorem insertionLoop_spec {low n : ℕ} (rest : List (Entry β)) :
    ∀ (done : List (Entry β)) {s : List β × Permutations}, Shows s low (done ++ rest) →
      Within low n (done ++ rest) → (done ++ rest).length ≤ n → done.Pairwise (Ordered c) →
      (∀ a ∈ done, ∀ b ∈ rest, a.2 ≤ b.2) → rest.Pairwise (fun a b => a.2 ≤ b.2) →
      ∃ s' zs, (List.range' (low + done.length) rest.length).foldlM (insertNext c low) s = .ok s' ∧
        zs.Perm (done ++ rest) ∧ zs.Pairwise (Ordered c) ∧ Shows s' low zs ∧
        StateKept low n s s' := by
  induction rest with
  | nil =>
      intro done s hs _ _ hsorted _ _
      rw [List.append_nil] at hs ⊢
      exact ⟨s, done, rfl, .refl _, hsorted, hs, .refl low n s⟩
  | cons b rest ih =>
      intro done s hs hwithin hlength hsorted htags hrest
      obtain ⟨hb, hrest'⟩ := List.pairwise_cons.mp hrest
      obtain ⟨t, as₁, as₂, hdone, hdown, ht, hkept, hbelow, habove⟩ := insertDown_spec hc done hs
        hwithin hlength hsorted fun a ha => htags a ha b List.mem_cons_self
      subst hdone
      have hperm : ((as₁ ++ b :: as₂) ++ rest).Perm ((as₁ ++ as₂) ++ b :: rest) :=
        (List.perm_middle.append_right rest).trans List.perm_middle.symm
      have hsorted' : (as₁ ++ b :: as₂).Pairwise (Ordered c) := by
        obtain ⟨h₁, h₂, h₁₂⟩ := List.pairwise_append.mp hsorted
        refine List.pairwise_append.mpr ⟨h₁, List.pairwise_cons.mpr ⟨habove, h₂⟩, ?_⟩
        intro x hx y hy
        rcases List.mem_cons.mp hy with rfl | hy
        · exact hbelow x hx
        · exact h₁₂ x hx y hy
      have ht' : Shows t low ((as₁ ++ b :: as₂) ++ rest) := by
        rw [List.append_assoc, List.cons_append]
        exact ht
      obtain ⟨s', zs, hloop, hzs, hpairwise, hshows, hkept'⟩ := ih _ ht'
        (fun z hz => hwithin z (hperm.mem_iff.mp hz)) (hperm.length_eq.trans_le hlength) hsorted'
        (by
          intro x hx y hy
          rcases List.mem_append.mp hx with hx | hx
          · exact htags x (List.mem_append_left _ hx) y (List.mem_cons_of_mem _ hy)
          · rcases List.mem_cons.mp hx with rfl | hx
            · exact hb y hy
            · exact htags x (List.mem_append_right _ hx) y (List.mem_cons_of_mem _ hy)) hrest'
      refine ⟨s', zs, ?_, hzs.trans hperm, hpairwise, hshows, hkept.trans hkept'⟩
      have hnext : low + (as₁ ++ b :: as₂).length = low + (as₁ ++ as₂).length + 1 := by
        simp only [List.length_append, List.length_cons]
        omega
      rw [hnext] at hloop
      rw [List.length_cons, List.range'_succ, List.foldlM_cons, insertNext, hdown, except_ok_bind]
      exact hloop

include hc in
/-- **The insertion sort** of a range whose record is at the same positions. -/
theorem insertionSort_spec {s : List β × Permutations} {low : ℕ} {xs : List β}
    (hs : Shows s low (xs.zipIdx low)) :
    ∃ s', insertionSort c low (low + xs.length) s.1 s.2 = .ok s' ∧
      Shows s' low (stable (le c) low xs) ∧ StateKept low xs.length s s' := by
  have hwithin : Within low xs.length (xs.zipIdx low) := by
    rintro ⟨x, i⟩ hx
    exact tag_mem_stable ((@stable_perm _ (le c) low xs).mem_iff.mpr hx)
  have hrest : (xs.zipIdx low).Pairwise fun a b => a.2 ≤ b.2 := by
    rw [List.pairwise_iff_getElem]
    intro i j hi hj hij
    rw [List.getElem_zipIdx, List.getElem_zipIdx]
    show low + i ≤ low + j
    omega
  obtain ⟨s', zs, hloop, hperm, hsorted, hshows, hkept⟩ := insertionLoop_spec hc (xs.zipIdx low)
    [] hs hwithin (by simp) .nil (fun a ha => absurd ha List.not_mem_nil) hrest
  rw [eq_stable (le_trans' hc) (le_total' hc) hperm hsorted] at hshows
  refine ⟨s', ?_, hshows, hkept⟩
  rw [List.length_nil, Nat.add_zero, List.length_zipIdx] at hloop
  rw [insertionSort, Nat.add_sub_cancel_left]
  exact hloop

/-- A sorted range is left as it is, whatever the record. -/
theorem insertionSort_sorted {dest : List β} {ps : Permutations} {low : ℕ} {xs : List β}
    (hdest : Stands dest low xs) (hsorted : xs.Pairwise fun x y => c x y ≤ 0) :
    insertionSort c low (low + xs.length) dest ps = .ok (dest, ps) := by
  have hstep (i : ℕ) (hi : i ∈ List.range' low xs.length) :
      insertDown c low i dest ps = .ok (dest, ps) := by
    obtain ⟨hge, hlt⟩ := List.mem_range'_1.mp hi
    obtain ⟨k, rfl⟩ := Nat.exists_eq_add_of_le hge
    cases k with
    | zero => exact insertDown_low low dest ps
    | succ k =>
        have hk : k + 1 < xs.length := by omega
        have hx := hdest k _ (List.getElem?_eq_getElem (by omega))
        have hy := hdest (k + 1) _ (List.getElem?_eq_getElem hk)
        have hle := List.pairwise_iff_getElem.mp hsorted k (k + 1) (by omega) hk (Nat.lt_succ_self k)
        rw [← Nat.add_assoc] at hy ⊢
        rw [insertDown, if_pos (by omega), arrayGet_ok hx, except_ok_bind, arrayGet_ok hy,
          except_ok_bind, if_neg (by omega)]
  rw [insertionSort, Nat.add_sub_cancel_left]
  generalize List.range' low xs.length = positions at hstep
  induction positions with
  | nil => rfl
  | cons i positions ih =>
      rw [List.foldlM_cons, hstep i List.mem_cons_self, except_ok_bind]
      exact ih fun j hj => hstep j (List.mem_cons_of_mem i hj)

/-! ## Merging -/

theorem place_ok {src dest : List β} {ps : Permutations} {i k r : ℕ} {x : β}
    (hx : src[k]? = some x) (hr : ps.reversePermutation[k]? = some r) (hi : i < dest.length)
    (hr' : r < ps.permutation.length) : place src i k dest ps =
      .ok (dest.set i x, { ps with permutation := ps.permutation.set r i }) := by
  rw [place, arrayGet_ok hx, except_ok_bind, arraySet_of_lt x hi, except_ok_bind, arrayGet_ok hr,
    except_ok_bind, arraySet_of_lt i hr', except_ok_bind]
  rfl

/-- What the loop works on: the halves in `src`, and the range of the same positions in the array
and in the record that it writes to. -/
structure MergeFrame (β : Type) where
  src : List β
  reverse : List ℕ
  mid : ℕ
  high : ℕ
  base : ℕ
  total : ℕ
  dest : List β
  permutation : List ℕ
  dest_le : base + total ≤ dest.length
  permutation_le : base + total ≤ permutation.length

/-- `out` has been written so far, and `ls` and `rs` are left of the halves. -/
structure MergeFrame.Merged (f : MergeFrame β) (m : Merging β) (ls rs out : List (Entry β)) :
    Prop where
  reverse : m.ps.reversePermutation = f.reverse
  left : Stands f.src m.p (ls.map Prod.fst)
  leftTags : Stands f.reverse m.p (ls.map Prod.snd)
  right : Stands f.src m.q (rs.map Prod.fst)
  rightTags : Stands f.reverse m.q (rs.map Prod.snd)
  leftEnd : m.p + ls.length = f.mid
  rightEnd : m.q + rs.length = f.high
  total : out.length + (ls.length + rs.length) = f.total
  tags : ∀ x ∈ ls, ∀ y ∈ rs, x.2 ≤ y.2
  within : Within f.base f.total (ls ++ rs)
  distinct : (out ++ (ls ++ rs)).Pairwise fun x y => x.2 ≠ y.2
  array : Stands m.dest f.base (out.map Prod.fst)
  forward : ∀ k z, out[k]? = some z → m.ps.permutation[z.2]? = some (f.base + k)
  destKept : SameOutside f.base f.total f.dest m.dest
  permutationKept : SameOutside f.base f.total f.permutation m.ps.permutation

namespace MergeFrame

variable {f : MergeFrame β} {m : Merging β} {ls rs out : List (Entry β)} {x y z : Entry β}

/-- What writing the next entry does to the array and to the record. -/
theorem Merged.written (h : f.Merged m ls rs out) (hz : z ∈ ls ++ rs) :
    f.base + out.length < m.dest.length ∧ z.2 < m.ps.permutation.length ∧
    Stands (m.dest.set (f.base + out.length) z.1) f.base ((out ++ [z]).map Prod.fst) ∧
    (∀ k y, (out ++ [z])[k]? = some y →
      (m.ps.permutation.set z.2 (f.base + out.length))[y.2]? = some (f.base + k)) ∧
    SameOutside f.base f.total f.dest (m.dest.set (f.base + out.length) z.1) ∧
    SameOutside f.base f.total f.permutation
      (m.ps.permutation.set z.2 (f.base + out.length)) := by
  have hpos : 0 < (ls ++ rs).length := List.length_pos_of_mem hz
  have htotal := h.total
  have hdest := f.dest_le
  have hperm := f.permutation_le
  have hdest' := h.destKept.length
  have hperm' := h.permutationKept.length
  have hwithin := h.within z hz
  rw [List.length_append] at hpos
  have hroom : f.base + out.length < m.dest.length := by omega
  have htag : z.2 < m.ps.permutation.length := by omega
  refine ⟨hroom, htag, ?_, ?_, ?_, ?_⟩
  · rw [List.map_append, stands_append]
    constructor
    · refine h.array.congr fun t _ ht => List.getElem?_set_ne ?_
      rw [List.length_map] at ht
      omega
    · intro k w hw
      have hk : k = 0 := by
        have := (List.getElem?_eq_some_iff.mp hw).1
        simp only [List.map_cons, List.map_nil, List.length_singleton] at this
        omega
      subst hk
      rw [List.length_map, Nat.add_zero, List.getElem?_set_self hroom]
      exact hw
  · intro k w hw
    by_cases hk : k < out.length
    · rw [List.getElem?_append_left hk] at hw
      have hne : w.2 ≠ z.2 :=
        (List.pairwise_append.mp h.distinct).2.2 w (List.mem_of_getElem? hw) z hz
      rw [List.getElem?_set_ne hne.symm]
      exact h.forward k w hw
    · have hk' : k = out.length := by
        have := (List.getElem?_eq_some_iff.mp hw).1
        rw [List.length_append, List.length_singleton] at this
        omega
      rw [hk', List.getElem?_append_right (le_refl _), Nat.sub_self] at hw
      cases hw
      rw [List.getElem?_set_self htag, hk']
  · exact h.destKept.trans (sameOutside_set _ (by omega) (by omega))
  · exact h.permutationKept.trans (sameOutside_set _ hwithin.1 hwithin.2)

theorem Merged.takeLeft (h : f.Merged m (x :: ls) rs out) :
    ∃ m', takeLeft f.src (f.base + out.length) m = .ok m' ∧ f.Merged m' ls rs (out ++ [x]) := by
  obtain ⟨hroom, htag, harray, hforward, hdest, hperm⟩ := h.written (List.mem_cons_self (a := x))
  have hr : m.ps.reversePermutation[m.p]? = some x.2 := h.reverse ▸ h.leftTags.head
  refine ⟨_, by rw [SortHelper.takeLeft, place_ok h.left.head hr hroom htag]; rfl, ?_⟩
  have hend := h.leftEnd
  have htotal := h.total
  rw [List.length_cons] at hend htotal
  exact
    { reverse := h.reverse
      left := h.left.tail
      leftTags := h.leftTags.tail
      right := h.right
      rightTags := h.rightTags
      leftEnd := by rw [← hend]; exact Nat.add_right_comm _ _ _
      rightEnd := h.rightEnd
      total := by rw [List.length_append, List.length_singleton]; omega
      tags := fun a ha => h.tags a (List.mem_cons_of_mem x ha)
      within := fun a ha => h.within a (List.mem_cons_of_mem x ha)
      distinct := by
        rw [List.append_assoc]
        exact h.distinct
      array := harray
      forward := hforward
      destKept := hdest
      permutationKept := hperm }

theorem Merged.takeRight (h : f.Merged m ls (y :: rs) out) :
    ∃ m', takeRight f.src (f.base + out.length) m = .ok m' ∧ f.Merged m' ls rs (out ++ [y]) := by
  have hy : y ∈ ls ++ y :: rs := List.mem_append_right _ List.mem_cons_self
  obtain ⟨hroom, htag, harray, hforward, hdest, hperm⟩ := h.written hy
  have hr : m.ps.reversePermutation[m.q]? = some y.2 := h.reverse ▸ h.rightTags.head
  refine ⟨_, by rw [SortHelper.takeRight, place_ok h.right.head hr hroom htag]; rfl, ?_⟩
  have hend := h.rightEnd
  have htotal := h.total
  rw [List.length_cons] at hend htotal
  exact
    { reverse := h.reverse
      left := h.left
      leftTags := h.leftTags
      right := h.right.tail
      rightTags := h.rightTags.tail
      leftEnd := h.leftEnd
      rightEnd := by rw [← hend]; exact Nat.add_right_comm _ _ _
      total := by rw [List.length_append, List.length_singleton]; omega
      tags := fun a ha b hb => h.tags a ha b (List.mem_cons_of_mem y hb)
      within := by
        intro a ha
        apply h.within a
        rw [List.mem_append] at ha ⊢
        exact ha.imp_right (List.mem_cons_of_mem y)
      distinct := by
        refine (List.Perm.pairwise_iff (fun hab => hab.symm) ?_).mp h.distinct
        rw [List.append_assoc, List.singleton_append]
        exact List.Perm.append_left out List.perm_middle
      array := harray
      forward := hforward
      destKept := hdest
      permutationKept := hperm }

/-- One round of the loop writes the entry that the merge of the halves begins with. -/
theorem Merged.step (h : f.Merged m ls rs out) (hne : out.length < f.total) :
    ∃ m' z ls' rs', mergeStep c f.src f.mid f.high m (f.base + out.length) = .ok m' ∧
      f.Merged m' ls' rs' (out ++ [z]) ∧ List.merge ls rs (List.zipIdxLE (le c)) =
        z :: List.merge ls' rs' (List.zipIdxLE (le c)) := by
  have hleft := h.leftEnd
  have hright := h.rightEnd
  cases rs with
  | nil =>
      cases ls with
      | nil =>
          have := h.total
          simp only [List.length_nil] at this
          omega
      | cons x ls =>
          obtain ⟨m', htake, hm'⟩ := h.takeLeft
          refine ⟨m', x, ls, [], ?_, hm', ?_⟩
          · rw [List.length_nil] at hright
            rw [mergeStep, if_pos (by omega), htake]
          · rw [List.merge_right, List.merge_right]
  | cons y rs =>
      rw [List.length_cons] at hright
      have hq : ¬ f.high ≤ m.q := by omega
      cases ls with
      | nil =>
          obtain ⟨m', htake, hm'⟩ := h.takeRight
          refine ⟨m', y, [], rs, ?_, hm', ?_⟩
          · rw [List.length_nil] at hleft
            rw [mergeStep, if_neg hq, if_neg (by omega), htake]
          · rw [List.nil_merge, List.nil_merge]
      | cons x ls =>
          rw [List.length_cons] at hleft
          have htags := h.tags x List.mem_cons_self y List.mem_cons_self
          have hcompare : mergeStep c f.src f.mid f.high m (f.base + out.length) =
              if c x.1 y.1 ≤ 0 then SortHelper.takeLeft f.src (f.base + out.length) m
              else SortHelper.takeRight f.src (f.base + out.length) m := by
            rw [mergeStep, if_neg hq, if_pos (by omega), arrayGet_ok h.left.head, except_ok_bind,
              arrayGet_ok h.right.head, except_ok_bind]
          by_cases hle : c x.1 y.1 ≤ 0
          · obtain ⟨m', htake, hm'⟩ := h.takeLeft
            refine ⟨m', x, ls, y :: rs, ?_, hm', ?_⟩
            · rw [hcompare, if_pos hle, htake]
            · apply List.cons_merge_cons_pos
              rw [zipIdxLE_of_tags htags]
              exact le_iff.mpr hle
          · obtain ⟨m', htake, hm'⟩ := h.takeRight
            refine ⟨m', y, x :: ls, rs, ?_, hm', ?_⟩
            · rw [hcompare, if_neg hle, htake]
            · apply List.cons_merge_cons_neg
              rw [zipIdxLE_of_tags htags, le_iff]
              exact hle

/-- The loop merges the halves. -/
theorem Merged.loop (n : ℕ) : ∀ {m : Merging β} {ls rs out : List (Entry β)},
    f.Merged m ls rs out → out.length + n = f.total →
    ∃ m', (List.range' (f.base + out.length) n).foldlM (mergeStep c f.src f.mid f.high) m = .ok m' ∧
      f.Merged m' [] [] (out ++ List.merge ls rs (List.zipIdxLE (le c))) := by
  induction n with
  | zero =>
      intro m ls rs out h hn
      have htotal := h.total
      obtain rfl : ls = [] := List.eq_nil_of_length_eq_zero (by omega)
      obtain rfl : rs = [] := List.eq_nil_of_length_eq_zero (by omega)
      rw [List.nil_merge, List.append_nil]
      exact ⟨m, rfl, h⟩
  | succ n ih =>
      intro m ls rs out h hn
      obtain ⟨m', z, ls', rs', hstep, hm', hmerge⟩ := h.step (c := c) (by omega)
      have hlength : (out ++ [z]).length = out.length + 1 := by
        rw [List.length_append, List.length_singleton]
      obtain ⟨m'', hloop, hm''⟩ := ih hm' (by omega)
      rw [List.append_assoc, List.singleton_append, ← hmerge] at hm''
      refine ⟨m'', ?_, hm''⟩
      rw [List.range'_succ, List.foldlM_cons, hstep, except_ok_bind, Nat.add_assoc, ← hlength]
      exact hloop

end MergeFrame

/-- The loop that turns the record round writes the entries whose positions it has passed. -/
theorem reverseLoop_spec {P : List ℕ} {base : ℕ} {zs : List (Entry β)}
    (hforward : ∀ k z, zs[k]? = some z → P[z.2]? = some (base + k)) (positions : List ℕ) :
    ∀ {R : List ℕ}, (∀ i ∈ positions, i ∈ zs.map Prod.snd) → base + zs.length ≤ R.length →
      ∃ R', positions.foldlM reverseStep ⟨P, R⟩ = .ok ⟨P, R'⟩ ∧
        SameOutside base zs.length R R' ∧ ∀ k z, zs[k]? = some z →
          R'[base + k]? = if z.2 ∈ positions then some z.2 else R[base + k]? := by
  induction positions with
  | nil =>
      intro R _ _
      refine ⟨R, rfl, .refl _ _ R, fun k z _ => ?_⟩
      rw [if_neg List.not_mem_nil]
  | cons i positions ih =>
      intro R hmem hle
      obtain ⟨z, hz, rfl⟩ := List.mem_map.mp (hmem i List.mem_cons_self)
      obtain ⟨k, hk, hkz⟩ := List.mem_iff_getElem.mp hz
      have hzk : zs[k]? = some z := by rw [List.getElem?_eq_getElem hk, hkz]
      have hlt : base + k < R.length := by omega
      obtain ⟨R', hloop, hkept, hwritten⟩ := ih (R := R.set (base + k) z.2)
        (fun j hj => hmem j (List.mem_cons_of_mem _ hj)) (by rw [List.length_set]; exact hle)
      refine ⟨R', ?_, (sameOutside_set _ (by omega) (by omega)).trans hkept, ?_⟩
      · rw [List.foldlM_cons, reverseStep, arrayGet_ok (hforward k z hzk), except_ok_bind,
          arraySet_of_lt _ hlt, except_ok_bind]
        exact hloop
      · intro k' z' hz'
        rw [hwritten k' z' hz']
        by_cases hin : z'.2 ∈ positions
        · rw [if_pos hin, if_pos (List.mem_cons_of_mem _ hin)]
        · rw [if_neg hin]
          by_cases heq : z'.2 = z.2
          · have hforward' := hforward k' z' hz'
            rw [heq, hforward k z hzk] at hforward'
            have hkk : base + k = base + k' := Option.some.inj hforward'
            rw [if_pos (heq ▸ List.mem_cons_self), ← hkk, List.getElem?_set_self hlt, heq]
          · have hne : k ≠ k' := by
              rintro rfl
              rw [hzk] at hz'
              exact heq (congrArg Prod.snd (Option.some.inj hz')).symm
            have hout : z'.2 ∉ z.2 :: positions := by
              rw [List.mem_cons, not_or]
              exact ⟨heq, hin⟩
            rw [if_neg hout, List.getElem?_set_ne (by omega)]

/-- The tags of what is recorded are different. -/
theorem Tracked.distinct {ps : Permutations} {base : ℕ} {zs : List (Entry β)}
    (h : Tracked ps base zs) : zs.Pairwise fun x y => x.2 ≠ y.2 := by
  rw [List.pairwise_iff_getElem]
  intro i j hi hj hij
  exact h.tag_ne (List.getElem?_eq_getElem hi) (List.getElem?_eq_getElem hj) (ne_of_lt hij)

/-- The record of a merged range is right when it has been turned round. -/
theorem MergeFrame.Merged.reversed {f : MergeFrame β} {m : Merging β} {xs : List β}
    (h : f.Merged m [] [] (stable (le c) f.base xs)) (hxs : xs.length = f.total)
    (hle : f.base + f.total ≤ f.reverse.length) :
    ∃ ps', (List.range' f.base f.total).foldlM reverseStep m.ps = .ok ps' ∧
      Tracked ps' f.base (stable (le c) f.base xs) ∧
      RecordKept f.base f.total ⟨f.permutation, f.reverse⟩ ps' := by
  have hlength : (stable (le c) f.base xs).length = f.total := by rw [length_stable, hxs]
  have hmem (i : ℕ) : i ∈ (stable (le c) f.base xs).map Prod.snd ↔
      i ∈ List.range' f.base f.total := by
    rw [(tags_stable f.base xs).mem_iff, hxs]
  obtain ⟨R', hloop, hkept, hwritten⟩ := reverseLoop_spec h.forward (List.range' f.base f.total)
    (R := f.reverse) (fun i hi => (hmem i).mpr hi) (by rw [hlength]; exact hle)
  rw [hlength] at hkept
  refine ⟨⟨m.ps.permutation, R'⟩, ?_, ⟨?_, h.forward⟩, ⟨h.permutationKept, hkept⟩⟩
  · rw [← hloop, ← h.reverse]
  · intro k i hi
    rw [List.getElem?_map, Option.map_eq_some_iff] at hi
    obtain ⟨z, hz, rfl⟩ := hi
    have hin := (hmem z.2).mp (List.mem_map_of_mem (List.mem_of_getElem? hz))
    show R'[f.base + k]? = some z.2
    rw [hwritten k z hz, if_pos hin]

include hc in
/-- **Sorted halves that are to be merged**: if they are in order already they are copied, and else
they are merged and recorded, if the ranges of the arrays are the range of the record. -/
theorem mergeHalves_spec {src dest : List β} {ps : Permutations} {slow low base : ℕ}
    {xs ys : List β}
    (hsrc : Stands src slow ((stable (le c) base xs ++ stable (le c) (base + xs.length) ys).map
      Prod.fst))
    (htracked : Tracked ps base (stable (le c) base xs ++ stable (le c) (base + xs.length) ys))
    (hdest : low + (xs ++ ys).length ≤ dest.length) (hxs : xs ≠ []) (hys : ys ≠ [])
    (hrecord : base + (xs ++ ys).length ≤ ps.permutation.length ∧
      base + (xs ++ ys).length ≤ ps.reversePermutation.length)
    (haligned : (slow = base ∧ low = base) ∨ ∀ x ∈ xs, ∀ y ∈ ys, c x y ≤ 0) :
    ∃ s', mergeHalves c src dest slow (slow + xs.length) (slow + (xs ++ ys).length) low ps = .ok s' ∧
      Stands s'.1 low ((stable (le c) base (xs ++ ys)).map Prod.fst) ∧
      Tracked s'.2 base (stable (le c) base (xs ++ ys)) ∧
      SameOutside low (xs ++ ys).length dest s'.1 ∧
      RecordKept base (xs ++ ys).length ps s'.2 := by
  set ls := stable (le c) base xs with hls
  set rs := stable (le c) (base + xs.length) ys with hrs
  have hlength : ls.length = xs.length := length_stable base xs
  have hlength' : rs.length = ys.length := length_stable _ ys
  obtain ⟨ls', l, hl⟩ : ∃ ls' l, ls = ls' ++ [l] :=
    ⟨_, _, (List.dropLast_append_getLast (List.ne_nil_of_length_pos
      (hlength ▸ List.length_pos_iff.mpr hxs))).symm⟩
  obtain ⟨r, rs', hr⟩ : ∃ r rs', rs = r :: rs' :=
    List.exists_cons_of_length_pos (hlength' ▸ List.length_pos_iff.mpr hys)
  have hltotal : ls'.length + 1 = xs.length := by
    rw [← hlength, hl, List.length_append, List.length_singleton]
  obtain ⟨hleft, hright⟩ := stands_append.mp (List.map_append ▸ hsrc)
  rw [List.length_map, hlength] at hright
  have hx : arrayGet src ((slow + xs.length : ℕ) - 1 : ℤ) = .ok l.1 := by
    have hget : src[slow + ls'.length]? = some l.1 := by
      rw [hl, List.map_append] at hleft
      exact hleft.get (by rw [List.length_map])
    rw [show ((slow + xs.length : ℕ) - 1 : ℤ) = (slow + ls'.length : ℕ) by omega]
    exact arrayGet_ok hget
  have hy : arrayGet src ((slow + xs.length : ℕ) : ℤ) = .ok r.1 := by
    rw [hr] at hright
    exact arrayGet_ok hright.head
  rw [mergeHalves, hx, except_ok_bind, hy, except_ok_bind, Nat.add_sub_cancel_left]
  have hlast (z : Entry β) (hz : z ∈ ls) : le c z.1 l.1 = true := by
    have hpairwise := stable_pairwise (le_trans' hc) (le_total' hc) base xs
    rw [← hls, hl] at hpairwise
    rw [hl] at hz
    rcases List.mem_append.mp hz with hz | hz
    · exact le_of_zipIdxLE ((List.pairwise_append.mp hpairwise).2.2 z hz l (List.mem_singleton_self l))
    · rw [List.mem_singleton.mp hz]
      simpa using le_total' hc l.1 l.1
  have hfirst (z : Entry β) (hz : z ∈ rs) : le c r.1 z.1 = true := by
    have hpairwise := stable_pairwise (le_trans' hc) (le_total' hc) (base + xs.length) ys
    rw [← hrs, hr] at hpairwise
    rw [hr] at hz
    rcases List.mem_cons.mp hz with rfl | hz
    · simpa using le_total' hc z.1 z.1
    · exact le_of_zipIdxLE ((List.pairwise_cons.mp hpairwise).1 z hz)
  have hmeml (x : β) : x ∈ xs ↔ ∃ z ∈ ls, z.1 = x := by
    rw [← List.mem_map, (@stable_perm _ (le c) base xs).map Prod.fst |>.mem_iff,
      List.zipIdx_map_fst]
  have hmemr (y : β) : y ∈ ys ↔ ∃ z ∈ rs, z.1 = y := by
    rw [← List.mem_map, (@stable_perm _ (le c) (base + xs.length) ys).map Prod.fst |>.mem_iff,
      List.zipIdx_map_fst]
  by_cases hle : c l.1 r.1 ≤ 0
  · -- the halves are in order
    have happend : ls ++ rs = stable (le c) base (xs ++ ys) := by
      apply append_stable (le_trans' hc) (le_total' hc)
      intro x hx y hy
      obtain ⟨u, hu, rfl⟩ := (hmeml x).mp hx
      obtain ⟨v, hv, rfl⟩ := (hmemr y).mp hy
      have hur := le_trans' hc _ _ _ (hlast u hu) (le_iff.mpr hle)
      exact le_trans' hc _ _ _ hur (hfirst v hv)
    have hn : ((ls ++ rs).map Prod.fst).length = (xs ++ ys).length := by
      rw [List.length_map, List.length_append, List.length_append, hlength, hlength']
    have hfits : slow + (xs ++ ys).length ≤ src.length := by
      have := hsrc.le_length (by rw [hl]; simp)
      omega
    rw [if_pos hle, arraycopy_of_le hfits hdest, except_ok_bind, hsrc.slice_eq hn hfits, ← happend]
    exact ⟨_, rfl, stands_splice (by omega), htracked, sameOutside_splice hdest hn, .refl _ _ ps⟩
  · -- the halves are merged
    obtain ⟨hslow, hlow⟩ : slow = base ∧ low = base := by
      refine haligned.resolve_right fun hordered => hle ?_
      exact hordered l.1 ((hmeml _).mpr ⟨l, by rw [hl]; simp, rfl⟩) r.1
        ((hmemr _).mpr ⟨r, by rw [hr]; simp, rfl⟩)
    subst slow low
    let f : MergeFrame β := ⟨src, ps.reversePermutation, base + xs.length, base + (xs ++ ys).length,
      base, (xs ++ ys).length, dest, ps.permutation, hdest, hrecord.1⟩
    have hreverse := htracked.reverse
    rw [List.map_append, stands_append, List.length_map, hlength] at hreverse
    have htotal : (xs ++ ys).length = xs.length + ys.length := List.length_append
    have hmerged : f.Merged ⟨dest, ps, base, base + xs.length⟩ ls rs [] :=
      { reverse := rfl
        left := hleft
        leftTags := hreverse.1
        right := hright
        rightTags := hreverse.2
        leftEnd := by rw [hlength]
        rightEnd := by
          show base + xs.length + rs.length = base + (xs ++ ys).length
          omega
        total := by
          show 0 + (ls.length + rs.length) = (xs ++ ys).length
          omega
        tags := fun u hu v hv => by
          have := (tag_mem_stable hu).2
          have := (tag_mem_stable hv).1
          omega
        within := fun z hz => by
          show base ≤ z.2 ∧ z.2 < base + (xs ++ ys).length
          rcases List.mem_append.mp hz with hz | hz
          · have := tag_mem_stable hz
            omega
          · have := tag_mem_stable hz
            omega
        distinct := htracked.distinct
        array := fun k y hy => by cases hy
        forward := fun k z hz => by cases hz
        destKept := .refl _ _ dest
        permutationKept := .refl _ _ ps.permutation }
    obtain ⟨m, hloop, hm⟩ := hmerged.loop (c := c) (xs ++ ys).length (Nat.zero_add _)
    rw [List.nil_append, hls, hrs, merge_stable (le_trans' hc) (le_total' hc)] at hm
    obtain ⟨ps', hturn, htracked', hkept⟩ := hm.reversed rfl hrecord.2
    refine ⟨(m.dest, ps'), ?_, hm.array, htracked', hm.destKept, hkept⟩
    rw [if_neg hle]
    change (List.range' base (xs ++ ys).length).foldlM _ _ = _ at hloop
    rw [hloop, except_ok_bind, hturn, except_ok_bind]
    rfl

/-! ## The recursion -/

/-- Nothing is moved where an array and the record have different positions: with `own` the range
is sorted into the array of the record itself. There an insertion sort is recorded right, but in
the other array it is not, and a merge never is. -/
inductive Unmoved (c : β → β → ℤ) : Bool → List β → Prop
  | inPlace {xs : List β} (hshort : xs.length < insertionSortThreshold) : Unmoved c true xs
  | sorted {own : Bool} {xs : List β} (hshort : xs.length < insertionSortThreshold)
      (hsorted : xs.Pairwise fun x y => c x y ≤ 0) : Unmoved c own xs
  | halves {own : Bool} {xs ys : List β} (hlong : insertionSortThreshold ≤ (xs ++ ys).length)
      (hhalf : xs.length = (xs ++ ys).length / 2) (hx : Unmoved c (!own) xs)
      (hy : Unmoved c (!own) ys) (hordered : ∀ x ∈ xs, ∀ y ∈ ys, c x y ≤ 0) :
      Unmoved c own (xs ++ ys)

/-- The positions of the two arrays are those of the record, or nothing is moved where they are
not. -/
def Recorded (c : β → β → ℤ) (slow low base : ℕ) (own : Bool) (xs : List β) : Prop :=
  (slow = base ∧ low = base) ∨ (Unmoved c own xs ∧ base = if own then low else slow)

/-- The halves of a range are recorded as the range is. -/
theorem Recorded.halves {slow low base : ℕ} {own : Bool} {xs : List β}
    (h : Recorded c slow low base own xs) (hlong : insertionSortThreshold ≤ xs.length) :
    ∃ ys zs, xs = ys ++ zs ∧ ys.length = xs.length / 2 ∧ Recorded c low slow base (!own) ys ∧
      Recorded c (low + ys.length) (slow + ys.length) (base + ys.length) (!own) zs ∧
      ((slow = base ∧ low = base) ∨ ∀ y ∈ ys, ∀ z ∈ zs, c y z ≤ 0) := by
  rcases h with ⟨hslow, hlow⟩ | ⟨hunmoved, hbase⟩
  · refine ⟨xs.take (xs.length / 2), xs.drop (xs.length / 2), (List.take_append_drop _ xs).symm,
      ?_, Or.inl ⟨hlow, hslow⟩, Or.inl ⟨by rw [hlow], by rw [hslow]⟩, Or.inl ⟨hslow, hlow⟩⟩
    rw [List.length_take]
    omega
  · cases hunmoved with
    | inPlace hshort => exact absurd hlong (not_le.mpr hshort)
    | sorted hshort => exact absurd hlong (not_le.mpr hshort)
    | @halves _ ys zs _ hhalf hy hz hordered =>
        refine ⟨ys, zs, rfl, hhalf, Or.inr ⟨hy, ?_⟩, Or.inr ⟨hz, ?_⟩, Or.inr hordered⟩
        · cases own
          · exact hbase
          · exact hbase
        · cases own
          · rw [hbase]
            rfl
          · rw [hbase]
            rfl

theorem zipIdx_tracked_append {ps : Permutations} {base : ℕ} {xs ys : List β}
    (h : Tracked ps base ((xs ++ ys).zipIdx base)) :
    Tracked ps base (xs.zipIdx base) ∧ Tracked ps (base + xs.length) (ys.zipIdx (base + xs.length)) := by
  rw [List.zipIdx_append] at h
  obtain ⟨hreverse, hforward⟩ := h
  rw [List.map_append, stands_append, List.length_map, List.length_zipIdx] at hreverse
  refine ⟨⟨hreverse.1, fun k z hz => ?_⟩, ⟨hreverse.2, fun k z hz => ?_⟩⟩
  · apply hforward
    rw [List.getElem?_append_left (List.getElem?_eq_some_iff.mp hz).1, hz]
  · rw [Nat.add_assoc]
    apply hforward
    rw [List.getElem?_append_right (by simp), List.length_zipIdx, Nat.add_sub_cancel_left, hz]

theorem within_stable (base : ℕ) (xs : List β) :
    Within base (stable (le c) base xs).length (stable (le c) base xs) := by
  intro z hz
  rw [length_stable]
  exact tag_mem_stable hz

theorem within_zipIdx (base : ℕ) (xs : List β) :
    Within base (xs.zipIdx base).length (xs.zipIdx base) := by
  intro z hz
  rw [List.length_zipIdx]
  exact ⟨List.le_snd_of_mem_zipIdx hz, List.snd_lt_add_of_mem_zipIdx hz⟩

/-- What a call leaves of the range `xs` that both arrays showed. -/
structure Sorted (c : β → β → ℤ) (slow low base : ℕ) (xs : List β) (a a' : Arrays β) : Prop where
  dest : Stands a'.dest low ((stable (le c) base xs).map Prod.fst)
  tracked : Tracked a'.ps base (stable (le c) base xs)
  destKept : SameOutside low xs.length a.dest a'.dest
  srcKept : SameOutside slow xs.length a.src a'.src
  recordKept : RecordKept base xs.length a.ps a'.ps

/-- Both arrays show the range, and the record that nothing of it has been moved. -/
structure Unsorted (slow low base : ℕ) (xs : List β) (a : Arrays β) : Prop where
  dest : Stands a.dest low xs
  src : Stands a.src slow xs
  tracked : Tracked a.ps base (xs.zipIdx base)
  dest_le : low + xs.length ≤ a.dest.length
  src_le : slow + xs.length ≤ a.src.length
  permutation_le : base + xs.length ≤ a.ps.permutation.length
  reverse_le : base + xs.length ≤ a.ps.reversePermutation.length

include hc in
/-- A short range that is sorted in the array of the record. -/
theorem leaf_inPlace {a : Arrays β} {slow low : ℕ} {xs : List β}
    (ha : Unsorted slow low low xs a) :
    ∃ s', insertionSort c low (low + xs.length) a.dest a.ps = .ok s' ∧
      Sorted c slow low low xs a { a with dest := s'.1, ps := s'.2 } := by
  have hshows : Shows (a.dest, a.ps) low (xs.zipIdx low) := by
    refine ⟨?_, ha.tracked⟩
    rw [List.zipIdx_map_fst]
    exact ha.dest
  obtain ⟨s', hsort, hs', hkept⟩ := insertionSort_spec hc hshows
  exact ⟨s', hsort, hs'.array, hs'.tracked, hkept.array, .refl _ _ a.src, hkept.record⟩

include hc in
theorem leaf_spec {a : Arrays β} {slow low base : ℕ} {own : Bool} {xs : List β}
    (ha : Unsorted slow low base xs a) (hshort : xs.length < insertionSortThreshold)
    (hrecorded : Recorded c slow low base own xs) :
    ∃ s', insertionSort c low (low + xs.length) a.dest a.ps = .ok s' ∧
      Sorted c slow low base xs a { a with dest := s'.1, ps := s'.2 } := by
  rcases hrecorded with ⟨-, rfl⟩ | ⟨hunmoved, hbase⟩
  · exact leaf_inPlace hc ha
  · cases hunmoved with
    | inPlace =>
        subst hbase
        exact leaf_inPlace hc ha
    | sorted _ hsorted =>
        have hstable : stable (le c) base xs = xs.zipIdx base :=
          stable_of_sorted (le_trans' hc) (le_total' hc) base (hsorted.imp fun h => le_iff.mpr h)
        refine ⟨(a.dest, a.ps), insertionSort_sorted ha.dest hsorted, ?_, ?_, .refl _ _ _,
          .refl _ _ _, .refl _ _ _⟩
        · rw [hstable, List.zipIdx_map_fst]
          exact ha.dest
        · rw [hstable]
          exact ha.tracked
    | halves hlong => exact absurd hshort (not_lt.mpr hlong)

/-- Both halves are unsorted, with the roles of the arrays exchanged. -/
theorem Unsorted.left {a : Arrays β} {slow low base : ℕ} {ys zs : List β}
    (h : Unsorted slow low base (ys ++ zs) a) : Unsorted low slow base ys ⟨a.dest, a.src, a.ps⟩ := by
  obtain ⟨hdest, hsrc, htracked, hdl, hsl, hpl, hrl⟩ := h
  rw [List.length_append] at hdl hsl hpl hrl
  exact ⟨(stands_append.mp hsrc).1, (stands_append.mp hdest).1, (zipIdx_tracked_append htracked).1,
    by show slow + ys.length ≤ a.src.length; omega, by show low + ys.length ≤ a.dest.length; omega,
    by show base + ys.length ≤ a.ps.permutation.length; omega,
    by show base + ys.length ≤ a.ps.reversePermutation.length; omega⟩

/-- The right half is still unsorted when the left one is sorted. -/
theorem Unsorted.right {a b : Arrays β} {slow low base : ℕ} {ys zs : List β}
    (h : Unsorted slow low base (ys ++ zs) a) (hb : Sorted c low slow base ys ⟨a.dest, a.src, a.ps⟩ b) :
    Unsorted (low + ys.length) (slow + ys.length) (base + ys.length) zs b := by
  obtain ⟨hdest, hsrc, htracked, hdl, hsl, hpl, hrl⟩ := h
  have hbd := hb.destKept.length
  have hbs := hb.srcKept.length
  have hbp := hb.recordKept.permutation.length
  have hbr := hb.recordKept.reverse.length
  change b.dest.length = a.src.length at hbd
  change b.src.length = a.dest.length at hbs
  change b.ps.permutation.length = a.ps.permutation.length at hbp
  change b.ps.reversePermutation.length = a.ps.reversePermutation.length at hbr
  rw [List.length_append] at hdl hsl hpl hrl
  refine ⟨?_, ?_, ?_, by omega, by omega, by omega, by omega⟩
  · exact (stands_append.mp hsrc).2.congr fun t ht _ => hb.destKept.outside t (Or.inr ht)
  · exact (stands_append.mp hdest).2.congr fun t ht _ => hb.srcKept.outside t (Or.inr ht)
  · exact (zipIdx_tracked_append htracked).2.congr (within_zipIdx _ zs) hb.recordKept
      (Or.inr (le_refl _))

include hc in
/-- **`mergeSort` sorts stably and records it**, if nothing is moved where an array and the record
have different positions. -/
theorem mergeSort_spec (fuel : ℕ) : ∀ (off : ℤ) {a : Arrays β} {slow low base : ℕ} {own : Bool}
    {xs : List β}, xs.length < fuel → Unsorted slow low base xs a → (slow : ℤ) = low + off →
      Recorded c slow low base own xs →
      ∃ a', mergeSort c fuel a low (low + xs.length) off = .ok a' ∧
        Sorted c slow low base xs a a' := by
  induction fuel with
  | zero => exact fun _ _ _ _ _ _ _ h => absurd h (Nat.not_lt_zero _)
  | succ fuel ih =>
      intro off a slow low base own xs hfuel ha hoff hrecorded
      have hwidth : low + xs.length - low = xs.length := Nat.add_sub_cancel_left _ _
      rw [mergeSort, hwidth]
      by_cases hshort : xs.length < insertionSortThreshold
      · obtain ⟨s', hsort, hs'⟩ := leaf_spec hc ha hshort hrecorded
        rw [if_pos hshort, hsort, except_ok_bind]
        exact ⟨_, rfl, hs'⟩
      · obtain ⟨ys, zs, rfl, hhalf, hys, hzs, hmerge⟩ := hrecorded.halves (not_lt.mp hshort)
        have hlong : 7 ≤ (ys ++ zs).length := not_lt.mp hshort
        have htotal : (ys ++ zs).length = ys.length + zs.length := List.length_append
        have hlow : ((low : ℤ) + off).toNat = slow := by omega
        have hhigh : ((low + (ys ++ zs).length : ℕ) + off : ℤ).toNat = slow + (ys ++ zs).length := by
          omega
        have hmid : (slow + (slow + (ys ++ zs).length)) / 2 = slow + ys.length := by omega
        have hend : slow + (ys ++ zs).length = slow + ys.length + zs.length := by omega
        simp only [if_neg hshort, hlow, hhigh, hmid]
        obtain ⟨b, hleft, hb⟩ := ih (-off) (by omega) ha.left (by omega) hys
        have hunsorted := ha.right hb
        obtain ⟨d, hright, hd⟩ := ih (-off) (by omega) hunsorted (by push_cast; omega) hzs
        rw [hleft, except_ok_bind, hend, hright, except_ok_bind, ← hend]
        -- the halves now stand side by side in the other array
        have hdest : Stands d.dest slow ((stable (le c) base ys ++
            stable (le c) (base + ys.length) zs).map Prod.fst) := by
          rw [List.map_append, stands_append, List.length_map, length_stable]
          refine ⟨hb.dest.congr fun t _ ht => hd.destKept.outside t (Or.inl ?_), hd.dest⟩
          rwa [List.length_map, length_stable] at ht
        have htracked : Tracked d.ps base (stable (le c) base ys ++
            stable (le c) (base + ys.length) zs) := by
          apply Tracked.append
          · refine hb.tracked.congr (within_stable base ys) hd.recordKept (Or.inl ?_)
            rw [length_stable]
          · rw [length_stable]
            exact hd.tracked
        have hsrcKept : SameOutside low (ys ++ zs).length a.dest d.src :=
          (hb.srcKept.mono (le_refl _) (by omega)).trans (hd.srcKept.mono (by omega) (by omega))
        have hdestKept : SameOutside slow (ys ++ zs).length a.src d.dest :=
          (hb.destKept.mono (le_refl _) (by omega)).trans (hd.destKept.mono (by omega) (by omega))
        have hkept : RecordKept base (ys ++ zs).length a.ps d.ps :=
          (hb.recordKept.mono (le_refl _) (by omega)).trans
            (hd.recordKept.mono (by omega) (by omega))
        obtain ⟨s', hhalves, harray, htracked', hkept', hrecord⟩ := mergeHalves_spec hc hdest htracked
          (by rw [hsrcKept.length]; exact ha.dest_le) (List.ne_nil_of_length_pos (by omega))
          (List.ne_nil_of_length_pos (by omega))
          ⟨by rw [hkept.permutation.length]; exact ha.permutation_le,
            by rw [hkept.reverse.length]; exact ha.reverse_le⟩ hmerge
        rw [hhalves, except_ok_bind]
        exact ⟨_, rfl, harray, htracked', hsrcKept.trans hkept', hdestKept, hkept.trans hrecord⟩

end JavaFx.Collections.SortHelper
