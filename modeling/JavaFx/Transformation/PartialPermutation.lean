import JavaFx.Collections.NextPermutation
import JavaFx.Transformation.Unsorted

/-!
# Partial permutations of the source of a `SortedList`

A permutation change is about a range of the source and stores the new positions from the start
of the range on. `updatePermutationIndexes` asks it for the new position of every record, inside
the range or not, and for a record outside of it the access to the array throws.
-/

namespace JavaFx.Transformation

open JavaFx.Collections IndexPerm

variable {α : Type}

/-- The record with another index. -/
def Element.moved (g : ℕ → ℕ) (x : Element α) : Element α := { x with index := g x.index }

namespace SortedList

/-! ## The loop over the records -/

section Reindex

variable {f : ℕ → Except Exn ℕ} {g : ℕ → ℕ} {s : SortedList α} {x : Element α}
  {done rest : List (Element α)}

theorem reindexStep_ok {p : ℕ} (h : Holds s (done ++ x :: rest)) (hf : f x.index = .ok p) :
    ∃ s', reindexStep f s done.length = .ok s' ∧
      Holds s' (done ++ { x with index := p } :: rest) ∧ s'.builder = s.builder := by
  have hderef : arrayDeref s.sorted (done.length : ℕ) = .ok x := by
    rw [arrayDeref_of_holds h (by simp)]
    simp
  obtain ⟨hsize, tail, hsorted⟩ := h
  have hset : arraySet s.sorted (done.length : ℕ) (some { x with index := p }) =
      .ok ((done ++ { x with index := p } :: rest).map some ++ tail) := by
    rw [arraySet_of_lt _ (by rw [hsorted]; simp), hsorted]
    simp
  refine ⟨{ s with sorted := (done ++ { x with index := p } :: rest).map some ++ tail },
    ?_, ⟨by simpa using hsize, tail, rfl⟩, rfl⟩
  unfold reindexStep
  simp only [hderef, throwing, bind, Except.bind, hf, hset]
  rfl

theorem reindexStep_error {e : Exn} (h : Holds s (done ++ x :: rest)) (hf : f x.index = .error e) :
    reindexStep f s done.length = .error (s, e) := by
  have hderef : arrayDeref s.sorted (done.length : ℕ) = .ok x := by
    rw [arrayDeref_of_holds h (by simp)]
    simp
  unfold reindexStep
  simp only [hderef, throwing, bind, Except.bind, hf]

/-- The records from `done` on get their new indexes. -/
theorem reindex_rest (h : Holds s (done ++ rest)) (hf : ∀ x ∈ rest, f x.index = .ok (g x.index)) :
    ∃ s', (List.range' done.length rest.length).foldlM (reindexStep f) s = .ok s' ∧
      Holds s' (done ++ rest.map (Element.moved g)) ∧ s'.builder = s.builder := by
  induction rest generalizing done s with
  | nil => exact ⟨s, rfl, by simpa using h, rfl⟩
  | cons x rest ih =>
      obtain ⟨s₁, hstep, hs₁, hbuilder⟩ := reindexStep_ok h (hf x List.mem_cons_self)
      rw [← List.singleton_append, ← List.append_assoc] at hs₁
      obtain ⟨s', hrest, hs', hbuilder'⟩ :=
        ih hs₁ fun y hy => hf y (List.mem_cons_of_mem _ hy)
      refine ⟨s', ?_, by simpa [Element.moved] using hs', hbuilder'.trans hbuilder⟩
      rw [List.length_cons, List.range'_succ, List.foldlM_cons, hstep]
      simpa using hrest

/-- One record without a new index makes the loop throw. -/
theorem reindex_defined {s' : SortedList α} (h : Holds s (done ++ rest))
    (hrun : (List.range' done.length rest.length).foldlM (reindexStep f) s = .ok s') :
    ∀ x ∈ rest, ∃ p, f x.index = .ok p := by
  induction rest generalizing done s with
  | nil => simp
  | cons x rest ih =>
      rw [List.length_cons, List.range'_succ, List.foldlM_cons] at hrun
      cases hf : f x.index with
      | error e =>
          rw [reindexStep_error h hf] at hrun
          cases hrun
      | ok p =>
          obtain ⟨s₁, hstep, hs₁, -⟩ := reindexStep_ok h hf
          rw [hstep] at hrun
          rw [← List.singleton_append, ← List.append_assoc] at hs₁
          intro y hy
          rcases List.mem_cons.mp hy with rfl | hy
          · exact ⟨p, hf⟩
          · exact ih hs₁ (by simpa using hrun) y hy

end Reindex

/-! ## One permutation -/

/-- A permutation of the positions `[from, to)` of a list of `n` elements. -/
structure PermutesPart (c : SubChange α) (n : ℕ) : Prop where
  isPerm : IsPerm c.from_ c.perm
  to_eq : c.to_ = c.from_ + c.perm.length
  nonempty : c.from_ < c.to_
  bound : c.to_ ≤ n

variable {s : SortedList α} {xs : List (Element α)} {c : SubChange α} {n : ℕ}

theorem PermutesPart.wasPermutated (hc : PermutesPart c n) : c.wasPermutated = true := by
  have hto := hc.to_eq
  have hlt := hc.nonempty
  have hlength : c.perm.length ≠ 0 := by omega
  simpa [SubChange.wasPermutated] using hlength

/-- The new position of an index inside the range. -/
theorem getPermutation_of_mem (hc : PermutesPart c n) {i : ℕ}
    (hi : c.from_ ≤ i ∧ i < c.to_) : getPermutation c i = .ok (target c.from_ c.perm i) := by
  rw [getPermutation, if_pos hc.wasPermutated]
  exact arrayGet_target hi.1 (hc.to_eq ▸ hi.2)

theorem getPermutation_defined {i p : ℕ} (hc : PermutesPart c n)
    (h : getPermutation c i = .ok p) : c.from_ ≤ i ∧ i < c.to_ := by
  unfold getPermutation at h
  split at h
  · unfold arrayGet at h
    split at h
    · rename_i hnonneg
      split at h
      · rename_i hget
        have hlt := (List.getElem?_eq_some_iff.mp hget).1
        rw [hc.to_eq]
        omega
      · cases h
    · cases h
  · cases h

/-- The change is completed, the records inside the range are where the permutation takes them
and the others where they were. -/
def Follows (s : SortedList α) (xs : List (Element α)) (compare : α → α → ℤ)
    (ch : DocumentedChange α) (c : SubChange α) : Prop :=
  ∃ s', sourceChanged (some compare) ch s = .ok s' ∧
    Holds s' (xs.map (Element.moved (target c.from_ c.perm)))

/-- Between two changes the builder has nothing to tell. -/
def Quiet (s : SortedList α) : Prop := s.builder.changeLock = 0 → s.builder = {}

theorem endChange_beginChange {s' : SortedList α} (hquiet : s.Quiet)
    (hbuilder : s'.builder = s.builder.beginChange) :
    s'.endChange = .ok { s' with builder := s.builder } := by
  have hend : s.builder.beginChange.endChange = .ok (s.builder, none) := by
    unfold ListChangeBuilder.endChange ListChangeBuilder.beginChange
    rw [if_neg (Nat.succ_ne_zero _)]
    unfold ListChangeBuilder.commit
    by_cases hlock : s.builder.changeLock = 0
    · rw [hquiet hlock]
      rfl
    · rw [if_neg (by simp [hlock])]
      rfl
  unfold endChange
  rw [hbuilder, hend]
  rfl

/-- The loop is the whole method. -/
theorem sourceChanged_permutation (compare : α → α → ℤ) {ch : DocumentedChange α}
    (hch : ch.changes = [c]) (hc : PermutesPart c n) (h : Holds s xs) :
    sourceChanged (some compare) ch s =
      (List.range' ([] : List (Element α)).length xs.length).foldlM
        (reindexStep (getPermutation c)) { s with builder := s.builder.beginChange } >>=
          endChange := by
  have hrange : List.range s.size = List.range' ([] : List (Element α)).length xs.length := by
    rw [h.1, List.range_eq_range']
    rfl
  unfold sourceChanged
  simp only [hch, List.foldlM_cons, List.foldlM_nil, bind_pure, sourceSubChanged,
    if_pos hc.wasPermutated, updatePermutationIndexes, hrange]

/-- A permutation is followed exactly if it is about every record. -/
theorem follows_iff_all (h : Holds s xs) (hquiet : s.Quiet) (compare : α → α → ℤ)
    {ch : DocumentedChange α} (hch : ch.changes = [c]) (hc : PermutesPart c n) :
    Follows s xs compare ch c ↔ ∀ x ∈ xs, c.from_ ≤ x.index ∧ x.index < c.to_ := by
  have hopened : Holds { s with builder := s.builder.beginChange } ([] ++ xs) := h
  have hmethod := sourceChanged_permutation compare hch hc h
  constructor
  · rintro ⟨s', hrun, -⟩ x hx
    rw [hmethod] at hrun
    cases hloop : (List.range' ([] : List (Element α)).length xs.length).foldlM
        (reindexStep (getPermutation c)) { s with builder := s.builder.beginChange } with
    | error e =>
        rw [hloop] at hrun
        cases hrun
    | ok s₁ =>
        obtain ⟨p, hp⟩ := reindex_defined hopened hloop x hx
        exact getPermutation_defined hc hp
  · intro hall
    obtain ⟨s₁, hloop, hs₁, hbuilder⟩ := reindex_rest hopened
      fun x hx => getPermutation_of_mem hc (hall x hx)
    refine ⟨{ s₁ with builder := s.builder }, ?_, hs₁⟩
    rw [hmethod, hloop]
    exact endChange_beginChange hquiet hbuilder

/-- **A `SortedList` follows a permutation of its source** exactly if every record has its index
inside the range; if the records have all the indexes of the source, that is if the range is
the whole source. -/
theorem partial_permutation_iff (h : Holds s xs) (hquiet : s.Quiet) (compare : α → α → ℤ)
    {ch : DocumentedChange α} (hch : ch.changes = [c]) (hc : PermutesPart c s.size) :
    (Follows s xs compare ch c ↔ ∀ x ∈ xs, c.from_ ≤ x.index ∧ x.index < c.to_) ∧
      ((xs.map Element.index).Perm (List.range s.size) →
        (Follows s xs compare ch c ↔ c.from_ = 0 ∧ c.to_ = s.size)) := by
  refine ⟨follows_iff_all h hquiet compare hch hc, fun hindexes => ?_⟩
  rw [follows_iff_all h hquiet compare hch hc]
  have hmem (i : ℕ) : (∃ x ∈ xs, x.index = i) ↔ i < s.size := by
    rw [← List.mem_range, ← hindexes.mem_iff, List.mem_map]
  have hlt := hc.nonempty
  have hle := hc.bound
  constructor
  · intro hall
    obtain ⟨x, hx, hzero⟩ := (hmem 0).mpr (by omega)
    obtain ⟨y, hy, hlast⟩ := (hmem (s.size - 1)).mpr (by omega)
    have hfirst := (hall x hx).1
    have hend := (hall y hy).2
    constructor
    · omega
    · omega
  · rintro ⟨hfrom, htop⟩ x hx
    have hlt := (hmem x.index).mp ⟨x, hx, rfl⟩
    omega

theorem swapFirst_permutation :
    ∀ c ∈ [(⟨0, 2, some [], [1, 0], false⟩ : SubChange ℕ)], c.perm ≠ [] := by
  decide

/-- The first two of three elements change places. -/
def swapFirst : DocumentedChange ℕ where
  permutations := [⟨0, 2, some [], [1, 0], false⟩]
  addRemoves := []
  updates := []
  list := [2, 1, 3]
  isPermutation := swapFirst_permutation
  isAddRemove := by decide
  isUpdate := DocumentedChange.no_updates
  sorted := by decide

/-- A sorted list of `1, 2, 3`. -/
def threeSorted : SortedList ℕ where
  sorted := [some ⟨1, 0⟩, some ⟨2, 1⟩, some ⟨3, 2⟩, none]
  size := 3

/-- The whole source changes places. -/
def rotateAll : DocumentedChange ℕ where
  permutations := [⟨0, 3, some [], [1, 2, 0], false⟩]
  addRemoves := []
  updates := []
  list := [3, 1, 2]
  isPermutation := by decide
  isAddRemove := by decide
  isUpdate := DocumentedChange.no_updates
  sorted := by decide

theorem partial_permutation_rotated :
    Follows threeSorted [⟨1, 0⟩, ⟨2, 1⟩, ⟨3, 2⟩] (fun x y => (x : ℤ) - y) rotateAll
      ⟨0, 3, some [], [1, 2, 0], false⟩ := by
  have h : Holds threeSorted [⟨1, 0⟩, ⟨2, 1⟩, ⟨3, 2⟩] := ⟨rfl, [none], rfl⟩
  have hiff := partial_permutation_iff h (fun _ => rfl) (fun x y => (x : ℤ) - y)
    (rfl : rotateAll.changes = [_]) ⟨by decide, rfl, by decide, by decide⟩
  exact (hiff.2 (by decide)).mpr ⟨rfl, rfl⟩

/-- The permutation of the first two elements throws at the third record. -/
theorem partial_permutation_throws :
    PermutesPart (⟨0, 2, some [], [1, 0], false⟩ : SubChange ℕ) threeSorted.size ∧
      ¬Follows threeSorted [⟨1, 0⟩, ⟨2, 1⟩, ⟨3, 2⟩] (fun x y => (x : ℤ) - y) swapFirst
        ⟨0, 2, some [], [1, 0], false⟩ := by
  refine ⟨⟨by decide, rfl, by decide, by decide⟩, ?_⟩
  rintro ⟨s', hrun, -⟩
  cases hrun

end SortedList

end JavaFx.Transformation
