import Mathlib.Data.List.Basic
import Mathlib.Data.List.NodupEquivFin
import Mathlib.Data.List.Perm.Basic
import Mathlib.Tactic

/-!
# Permuting a range of a list

A permutation of the positions `lo ≤ i < lo + perm.length` is a list `perm`:
the element at `lo + k` moves to `perm[k]`. `permute` carries it out, and
`Moves π l l'` is what it achieves, stated for an arbitrary map of positions.
-/

namespace IndexPerm

variable {α β : Type*}

/-- `perm` rearranges the positions `lo, …, lo + perm.length - 1`. -/
def IsPerm (lo : ℕ) (perm : List ℕ) : Prop :=
  perm.Perm (List.range' lo perm.length)

instance (lo : ℕ) (perm : List ℕ) : Decidable (IsPerm lo perm) :=
  inferInstanceAs (Decidable (perm.Perm _))

/-- The new position of the element at `j`. -/
def target (lo : ℕ) (perm : List ℕ) (j : ℕ) : ℕ :=
  if lo ≤ j ∧ j < lo + perm.length then perm.getD (j - lo) 0 else j

/-- Move every element of the range to its new position. -/
def permute (lo : ℕ) (perm : List ℕ) (l : List α) : List α :=
  (List.range l.length).filterMap fun k =>
    if lo ≤ k ∧ k < lo + perm.length then l[lo + perm.idxOf k]? else l[k]?

/-- `l'` is `l` with the element at `i` moved to `π i`. -/
structure Moves (π : ℕ → ℕ) (l l' : List α) : Prop where
  length_eq : l'.length = l.length
  get : ∀ i, i < l.length → l'[π i]? = l[i]?

/-! ## The map of positions -/

theorem target_of_mem {lo : ℕ} {perm : List ℕ} {k : ℕ} (hk : k < perm.length) :
    target lo perm (lo + k) = perm[k] := by
  rw [target, if_pos ⟨Nat.le_add_right _ _, by omega⟩, Nat.add_sub_cancel_left,
    List.getD_eq_getElem?_getD, List.getElem?_eq_getElem hk, Option.getD_some]

theorem target_of_not {lo : ℕ} {perm : List ℕ} {j : ℕ}
    (h : ¬(lo ≤ j ∧ j < lo + perm.length)) : target lo perm j = j := by
  rw [target, if_neg h]

theorem IsPerm.mem_iff {lo : ℕ} {perm : List ℕ} (h : IsPerm lo perm) {p : ℕ} :
    p ∈ perm ↔ lo ≤ p ∧ p < lo + perm.length := by
  rw [List.Perm.mem_iff h, List.mem_range'_1]

theorem IsPerm.nodup {lo : ℕ} {perm : List ℕ} (h : IsPerm lo perm) :
    perm.Nodup := by
  rw [List.Perm.nodup_iff h]
  exact List.nodup_range'

theorem IsPerm.target_mem {lo : ℕ} {perm : List ℕ} (h : IsPerm lo perm) {j : ℕ} :
    (lo ≤ target lo perm j ∧ target lo perm j < lo + perm.length) ↔
      (lo ≤ j ∧ j < lo + perm.length) := by
  by_cases hj : lo ≤ j ∧ j < lo + perm.length
  · obtain ⟨k, rfl⟩ := Nat.exists_eq_add_of_le hj.1
    have hk : k < perm.length := by omega
    rw [target_of_mem hk]
    exact ⟨fun _ => hj, fun _ => h.mem_iff.mp (List.getElem_mem hk)⟩
  · rw [target_of_not hj]

theorem IsPerm.target_injective {lo : ℕ} {perm : List ℕ} (h : IsPerm lo perm) :
    Function.Injective (target lo perm) := by
  intro i j hij
  by_cases hi : lo ≤ i ∧ i < lo + perm.length
  · have hj : lo ≤ j ∧ j < lo + perm.length := by
      rw [← h.target_mem, ← hij, h.target_mem]
      exact hi
    obtain ⟨k, rfl⟩ := Nat.exists_eq_add_of_le hi.1
    obtain ⟨m, rfl⟩ := Nat.exists_eq_add_of_le hj.1
    rw [target_of_mem (by omega), target_of_mem (by omega)] at hij
    rw [(h.nodup.getElem_inj_iff).mp hij]
  · have hj : ¬(lo ≤ j ∧ j < lo + perm.length) := by
      rw [← h.target_mem, ← hij, h.target_mem]
      exact hi
    rwa [target_of_not hi, target_of_not hj] at hij

theorem IsPerm.target_lt {lo n : ℕ} {perm : List ℕ} (h : IsPerm lo perm)
    (hn : lo + perm.length ≤ n) {j : ℕ} (hj : j < n) : target lo perm j < n := by
  by_cases hin : lo ≤ j ∧ j < lo + perm.length
  · have := h.target_mem.mpr hin
    omega
  · rwa [target_of_not hin]

/-- A list of positions without repetitions that stays inside `n` positions
and is `n` long is a permutation of them. -/
theorem perm_range'_of_nodup {lo : ℕ} {l : List ℕ} (hnd : l.Nodup)
    (hmem : ∀ x ∈ l, lo ≤ x ∧ x < lo + l.length) : IsPerm lo l := by
  have hsub : l.Subperm (List.range' lo l.length) :=
    hnd.subperm fun x hx => List.mem_range'_1.mpr (hmem x hx)
  exact hsub.perm_of_length_le (by simp)

/-- The list form of a map of positions. -/
theorem isPerm_map_range' {lo n : ℕ} {f : ℕ → ℕ} (hinj : Function.Injective f)
    (hmaps : ∀ j, lo ≤ j → j < lo + n → lo ≤ f j ∧ f j < lo + n) :
    IsPerm lo ((List.range' lo n).map f) := by
  refine perm_range'_of_nodup (List.Nodup.map hinj List.nodup_range') ?_
  intro x hx
  obtain ⟨j, hj, rfl⟩ := List.mem_map.mp hx
  obtain ⟨h₁, h₂⟩ := List.mem_range'_1.mp hj
  simpa using hmaps j h₁ h₂

/-! ## Moving elements -/

theorem Moves.trans {π ρ : ℕ → ℕ} {l l' l'' : List α} (h₁ : Moves π l l')
    (h₂ : Moves ρ l' l'') : Moves (fun i => ρ (π i)) l l'' where
  length_eq := h₂.length_eq.trans h₁.length_eq
  get := fun i hi => by
    have hget := h₁.get i hi
    have hlt : π i < l'.length := by
      by_contra hge
      rw [List.getElem?_eq_none (by omega), List.getElem?_eq_getElem hi] at hget
      cases hget
    rw [h₂.get _ hlt, hget]

theorem Moves.congr {π ρ : ℕ → ℕ} {l l' : List α} (h : Moves π l l')
    (heq : ∀ i, i < l.length → ρ i = π i) : Moves ρ l l' where
  length_eq := h.length_eq
  get := fun i hi => by rw [heq i hi, h.get i hi]

theorem Moves.map {π : ℕ → ℕ} {l l' : List α} (f : α → β) (h : Moves π l l') :
    Moves π (l.map f) (l'.map f) where
  length_eq := by simp [h.length_eq]
  get := fun i hi => by
    rw [List.length_map] at hi
    rw [List.getElem?_map, List.getElem?_map, h.get i hi]

theorem Moves.refl (l : List α) : Moves id l l := ⟨rfl, fun _ _ => rfl⟩

theorem Moves.target_lt {π : ℕ → ℕ} {l l' : List α} (h : Moves π l l') {i : ℕ}
    (hi : i < l.length) : π i < l'.length := by
  have hget := h.get i hi
  by_contra hge
  rw [List.getElem?_eq_none (by omega), List.getElem?_eq_getElem hi] at hget
  cases hget

/-- Every position of the new list is the new position of some element. -/
theorem Moves.exists_source {π : ℕ → ℕ} {l l' : List α} (h : Moves π l l')
    (hinj : Function.Injective π) {k : ℕ} (hk : k < l'.length) :
    ∃ i, i < l.length ∧ π i = k := by
  have hperm : IsPerm 0 ((List.range' 0 l.length).map π) :=
    isPerm_map_range' hinj fun j _ hj => by
      have := h.target_lt (i := j) (by omega)
      have := h.length_eq
      omega
  have hmem : k ∈ (List.range' 0 l.length).map π := by
    rw [hperm.mem_iff]
    have := h.length_eq
    simp
    omega
  obtain ⟨i, hi, rfl⟩ := List.mem_map.mp hmem
  exact ⟨i, by simpa using (List.mem_range'_1.mp hi).2, rfl⟩

theorem Moves.unique {π : ℕ → ℕ} {l l' l'' : List α}
    (hinj : Function.Injective π) (h₁ : Moves π l l') (h₂ : Moves π l l'') :
    l' = l'' := by
  refine List.ext_getElem? fun k => ?_
  by_cases hk : k < l'.length
  · obtain ⟨i, hi, rfl⟩ := h₁.exists_source hinj hk
    rw [h₁.get i hi, h₂.get i hi]
  · rw [List.getElem?_eq_none (by omega), List.getElem?_eq_none]
    have := h₁.length_eq
    have := h₂.length_eq
    omega

theorem Moves.perm {π : ℕ → ℕ} {l l' : List α} (hinj : Function.Injective π)
    (h : Moves π l l') : l'.Perm l := by
  have hsrc : (List.range l.length).map (fun i => l[i]?) = l.map some := by
    refine List.ext_getElem? fun i => ?_
    by_cases hi : i < l.length
    · simp [hi]
    · rw [List.getElem?_eq_none (by simp; omega),
        List.getElem?_eq_none (by simp; omega)]
  have hdst : ((List.range l.length).map π).map (fun k => l'[k]?) =
      l.map some := by
    rw [← hsrc, List.map_map]
    exact List.map_congr_left fun i hi => h.get i (List.mem_range.mp hi)
  have hrange : ((List.range l.length).map π).Perm (List.range l'.length) := by
    have hp : IsPerm 0 ((List.range' 0 l.length).map π) :=
      isPerm_map_range' hinj fun j _ hj => by
        have := h.target_lt (i := j) (by omega)
        have := h.length_eq
        omega
    rw [IsPerm, List.length_map, List.length_range', ← h.length_eq] at hp
    rw [List.range_eq_range', List.range_eq_range', ← h.length_eq]
    exact hp
  have hself : (List.range l'.length).map (fun i => l'[i]?) = l'.map some := by
    refine List.ext_getElem? fun i => ?_
    by_cases hi : i < l'.length
    · simp [hi]
    · rw [List.getElem?_eq_none (by simp; omega),
        List.getElem?_eq_none (by simp; omega)]
  have hmap : (l.map some).Perm (l'.map some) := by
    rw [← hdst, ← hself]
    exact hrange.map _
  exact (List.map_perm_map_iff (Option.some_injective α)).mp hmap.symm

theorem getElem?_filterMap_range {f : ℕ → Option α} : ∀ n : ℕ,
    (∀ k, k < n → (f k).isSome) →
    ((List.range n).filterMap f).length = n ∧
      ∀ k, k < n → ((List.range n).filterMap f)[k]? = f k
  | 0, _ => by simp
  | n + 1, h => by
      obtain ⟨hlen, hget⟩ := getElem?_filterMap_range n fun k hk => h k (by omega)
      obtain ⟨x, hx⟩ := Option.isSome_iff_exists.mp (h n (by omega))
      rw [List.range_succ, List.filterMap_append]
      have hlast : [n].filterMap f = [x] := by simp [hx]
      rw [hlast]
      refine ⟨by simp [hlen], fun k hk => ?_⟩
      rcases Nat.lt_succ_iff_lt_or_eq.mp hk with hk | rfl
      · rw [List.getElem?_append_left (by omega), hget k hk]
      · rw [List.getElem?_append_right (by omega), hlen, hx]
        simp

theorem permute_moves {lo : ℕ} {perm : List ℕ} {l : List α}
    (h : IsPerm lo perm) (hlen : lo + perm.length ≤ l.length) :
    Moves (target lo perm) l (permute lo perm l) := by
  have hsome : ∀ k, k < l.length →
      (if lo ≤ k ∧ k < lo + perm.length then l[lo + perm.idxOf k]?
        else l[k]?).isSome := by
    intro k hk
    by_cases hin : lo ≤ k ∧ k < lo + perm.length
    · have hidx : perm.idxOf k < perm.length :=
        List.idxOf_lt_length_of_mem (h.mem_iff.mpr hin)
      rw [if_pos hin, List.getElem?_eq_getElem (by omega), Option.isSome_some]
    · rw [if_neg hin, List.getElem?_eq_getElem hk, Option.isSome_some]
  obtain ⟨hlen', hget⟩ := getElem?_filterMap_range l.length hsome
  refine ⟨hlen', fun i hi => ?_⟩
  rw [permute, hget _ (h.target_lt hlen hi)]
  by_cases hin : lo ≤ i ∧ i < lo + perm.length
  · obtain ⟨k, rfl⟩ := Nat.exists_eq_add_of_le hin.1
    have hk : k < perm.length := by omega
    rw [if_pos (h.target_mem.mpr hin), target_of_mem hk,
      h.nodup.idxOf_getElem k hk]
  · rw [if_neg (mt h.target_mem.mp hin), target_of_not hin]

theorem map_permute (f : α → β) (lo : ℕ) (perm : List ℕ) (l : List α) :
    (permute lo perm l).map f = permute lo perm (l.map f) := by
  unfold permute
  rw [List.map_filterMap, List.length_map]
  congr 1
  funext k
  split <;> rw [List.getElem?_map]

/-- Writing the values `v i` to distinct positions `π i`, one after the other. -/
theorem foldl_set_get {π : ℕ → ℕ} (hinj : Function.Injective π) (v : ℕ → α)
    (init : List α) : ∀ n : ℕ, (∀ i, i < n → π i < init.length) →
    ((List.range n).foldl (fun a i => a.set (π i) (v i)) init).length =
        init.length ∧
      ∀ i, i < n →
        ((List.range n).foldl (fun a i => a.set (π i) (v i)) init)[π i]? =
          some (v i)
  | 0, _ => ⟨rfl, fun _ hi => absurd hi (Nat.not_lt_zero _)⟩
  | n + 1, hπ => by
      obtain ⟨hlen, hget⟩ := foldl_set_get hinj v init n fun i hi =>
        hπ i (Nat.lt_succ_of_lt hi)
      rw [List.range_succ, List.foldl_append, List.foldl_cons, List.foldl_nil]
      refine ⟨by rw [List.length_set, hlen], fun i hi => ?_⟩
      by_cases hin : i = n
      · subst hin
        exact List.getElem?_set_self (by rw [hlen]; exact hπ i (Nat.lt_succ_self i))
      · rw [List.getElem?_set_ne fun heq => hin (hinj heq).symm]
        exact hget i (by omega)

end IndexPerm
