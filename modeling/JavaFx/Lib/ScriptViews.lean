import JavaFx.Lib.EditScript
import JavaFx.Lib.Weave

/-!
# Reading the old list off an edit script

For a script `Diff p O hs cur` the positions of `cur` split into *covered*
ones, inside a hunk, and kept ones. `origin` gives the index in the old list
of every kept position; `blocks` lists what the hunks removed, each with the
number of kept elements in front of it. The old list is these blocks filled
into the kept elements, and so are its indices (`Diff.fill_idxBlocks`).
-/

namespace EditScript

open Weave

variable {α : Type*}

/-- Position `q` lies in the added range of a hunk. -/
def covered (hs : List (Hunk α)) (q : ℕ) : Bool :=
  hs.any fun h => decide (h.lo ≤ q) && decide (q < h.hi)

theorem covered_eq_true {hs : List (Hunk α)} {q : ℕ} :
    covered hs q = true ↔ ∃ h ∈ hs, h.lo ≤ q ∧ q < h.hi := by
  simp [covered]

theorem covered_eq_false {hs : List (Hunk α)} {q : ℕ} :
    covered hs q = false ↔ ∀ h ∈ hs, h.lo ≤ q → h.hi ≤ q := by
  rw [← Bool.not_eq_true, covered_eq_true]
  constructor
  · intro h x hx hlo
    by_contra hhi
    exact h ⟨x, hx, hlo, by omega⟩
  · rintro h ⟨x, hx, hlo, hhi⟩
    have := h x hx hlo
    omega

/-- The index in the old list of each of `n` positions from `p` on; the old
list is at index `s` there. -/
def origin (p s : ℕ) : List (Hunk α) → ℕ → List (Option ℕ)
  | [], n => (List.range' s n).map some
  | h :: hs, n => (List.range' s (h.lo - p)).map some ++
      (List.replicate (h.hi - h.lo) none ++
        origin h.hi (s + (h.lo - p) + h.old.length) hs (n - (h.hi - p)))

/-- What each hunk removed, behind how many kept elements; `k` of them come
before position `p`. -/
def blocks (p k : ℕ) : List (Hunk α) → List (ℕ × List α)
  | [] => []
  | h :: hs => (k + (h.lo - p), h.old) :: blocks h.hi (k + (h.lo - p)) hs

/-- The same with the indices of the removed elements in the old list. -/
def idxBlocks (p s k : ℕ) : List (Hunk α) → List (ℕ × List ℕ)
  | [] => []
  | h :: hs => (k + (h.lo - p), List.range' (s + (h.lo - p)) h.old.length) ::
      idxBlocks h.hi (s + (h.lo - p) + h.old.length) (k + (h.lo - p)) hs

/-- The mask of a script, one hunk at a time. -/
theorem mask_cons {p : ℕ} {K A O cur : List α} {h : Hunk α}
    {hs : List (Hunk α)} (hlo : h.lo = p + K.length)
    (hhi : h.hi = h.lo + A.length) (hd : Diff h.hi O hs cur) :
    mask (covered (h :: hs)) p (K ++ (A ++ cur)) =
      K.map some ++ (List.replicate A.length none ++
        mask (covered hs) h.hi cur) := by
  have hb := hd.bounds
  rw [mask_append, mask_append, ← hlo, ← hhi]
  congr 1
  · refine mask_eq_map_some fun j h₁ h₂ => covered_eq_false.mpr ?_
    intro x hx hxlo
    rcases List.mem_cons.mp hx with rfl | hx
    · omega
    · have := hb x hx
      omega
  · congr 1
    · refine mask_eq_replicate_none fun j h₁ h₂ => covered_eq_true.mpr ?_
      exact ⟨h, List.mem_cons_self, h₁, by omega⟩
    · refine mask_congr fun j h₁ _ => ?_
      have : ¬ j < h.hi := by omega
      simp [covered, this]

theorem Diff.length_origin {p : ℕ} {O cur : List α} {hs : List (Hunk α)}
    (h : Diff p O hs cur) : ∀ s, (origin p s hs cur.length).length = cur.length := by
  induction h with
  | nil p K => intro s; simp [origin]
  | cons p K A O cur x hs hlo hhi _ ih =>
      intro s
      have hrest : (K ++ (A ++ cur)).length - (x.hi - p) = cur.length := by
        simp only [List.length_append]
        omega
      rw [origin, hrest]
      simp only [List.length_append, List.length_map, List.length_range',
        List.length_replicate, ih]
      omega

/-- The indices of a middle piece, looked up. -/
theorem map_getElem?_range' (P K X : List α) :
    (List.range' P.length K.length).map (fun i => (P ++ (K ++ X))[i]?) =
      K.map some := by
  refine List.ext_getElem? fun j => ?_
  by_cases hj : j < K.length
  · rw [List.getElem?_map, List.getElem?_map, List.getElem?_eq_getElem hj,
      List.getElem?_eq_getElem (by simpa using hj), List.getElem_range',
      Option.map_some, Option.map_some, Nat.one_mul,
      List.getElem?_append_right (Nat.le_add_right _ _),
      Nat.add_sub_cancel_left, List.getElem?_append_left hj,
      List.getElem?_eq_getElem hj]
  · rw [List.getElem?_eq_none (by simp; omega),
      List.getElem?_eq_none (by simp; omega)]

/-- Looking the origins up in the old list gives the kept elements. -/
theorem Diff.origin_lookup {p : ℕ} {O cur : List α} {hs : List (Hunk α)}
    (h : Diff p O hs cur) : ∀ P : List α,
      (origin p P.length hs cur.length).map
          (fun o => o.bind fun i => (P ++ O)[i]?) =
        mask (covered hs) p cur := by
  induction h with
  | nil p K =>
      intro P
      have hmask : mask (covered ([] : List (Hunk α))) p K = K.map some :=
        mask_eq_map_some fun j _ _ => rfl
      have := map_getElem?_range' P K []
      rw [List.append_nil] at this
      rw [hmask, origin, List.map_map, ← this]
      rfl
  | cons p K A O cur x hs hlo hhi hd ih =>
      intro P
      have hrest : (K ++ (A ++ cur)).length - (x.hi - p) = cur.length := by
        simp only [List.length_append]
        omega
      have hK : x.lo - p = K.length := by omega
      have hA : x.hi - x.lo = A.length := by omega
      have hih := ih (P ++ K ++ x.old)
      simp only [List.length_append, List.append_assoc] at hih
      rw [mask_cons hlo hhi hd, origin, hrest, hK, hA, ← hih]
      simp only [List.map_append, List.map_map, List.map_replicate,
        Option.bind_none]
      rw [← map_getElem?_range' P K (x.old ++ O), Nat.add_assoc]
      rfl

/-- The removed elements are found at their indices. -/
theorem Diff.idxBlocks_lookup {p : ℕ} {O cur : List α} {hs : List (Hunk α)}
    (h : Diff p O hs cur) : ∀ (k : ℕ) (P : List α),
      (idxBlocks p P.length k hs).map
          (fun e => (e.1, e.2.map fun i => (P ++ O)[i]?)) =
        (blocks p k hs).map (fun e => (e.1, e.2.map some)) := by
  induction h with
  | nil p K => intro k P; rfl
  | cons p K A O cur x hs hlo hhi _ ih =>
      intro k P
      have hK : x.lo - p = K.length := by omega
      have hih := ih (k + K.length) (P ++ K ++ x.old)
      simp only [List.length_append, List.append_assoc] at hih
      rw [idxBlocks, blocks, List.map_cons, List.map_cons, hK]
      have hold := map_getElem?_range' (P ++ K) x.old O
      simp only [List.length_append, List.append_assoc] at hold
      rw [hold, Nat.add_assoc, hih]

/-- The removed indices filled into the kept ones are all indices. -/
theorem Diff.fill_idxBlocks {p : ℕ} {O cur : List α} {hs : List (Hunk α)}
    (h : Diff p O hs cur) : ∀ s k : ℕ,
      fill k (idxBlocks p s k hs) (origin p s hs cur.length).reduceOption =
        List.range' s O.length := by
  induction h with
  | nil p K =>
      intro s k
      rw [origin, reduceOption_map_some]
      rfl
  | cons p K A O cur x hs hlo hhi _ ih =>
      intro s k
      have hrest : (K ++ (A ++ cur)).length - (x.hi - p) = cur.length := by
        simp only [List.length_append]
        omega
      have hK : x.lo - p = K.length := by omega
      have hKlen : (List.range' s K.length).length = K.length := by simp
      rw [idxBlocks, origin, hrest, hK, List.reduceOption_append,
        List.reduceOption_append, reduceOption_map_some,
        reduceOption_replicate_none, List.nil_append, fill,
        Nat.add_sub_cancel_left, List.take_left' hKlen, List.drop_left' hKlen,
        ih, List.range'_append_1, List.range'_append_1, List.length_append,
        List.length_append]

/-- The count of a block is the rank of its hunk in the mask. -/
theorem Diff.blocks_eq {p : ℕ} {O cur : List α} {hs : List (Hunk α)}
    (h : Diff p O hs cur) : ∀ k : ℕ,
      blocks p k hs = hs.map fun x =>
        (k + rank (mask (covered hs) p cur) (x.lo - p), x.old) := by
  induction h with
  | nil p K => intro k; rfl
  | cons p K A O cur x hs hlo hhi hd ih =>
      intro k
      have hmask := mask_cons hlo hhi hd
      have hK : x.lo - p = K.length := by omega
      have hhead : rank (K.map some ++ (List.replicate A.length none ++
          mask (covered hs) x.hi cur)) K.length = K.length := by
        have := rank_append_right (K.map some) (List.replicate A.length none ++
          mask (covered hs) x.hi cur) 0
        rw [List.length_map, Nat.add_zero, reduceOption_map_some] at this
        rw [this]
        simp [rank]
      rw [blocks, List.map_cons, hmask, hK, hhead, ih]
      congr 1
      refine List.map_congr_left fun y hy => ?_
      have hy' := (hd.bounds y hy).1
      have hsplit : y.lo - p = (K.map some).length +
          ((List.replicate A.length (none : Option α)).length + (y.lo - x.hi)) := by
        simp only [List.length_map, List.length_replicate]
        omega
      rw [hsplit, rank_append_right, rank_append_right, reduceOption_map_some,
        reduceOption_replicate_none, List.length_nil, Nat.zero_add, Nat.add_assoc]

theorem blocks_pairwise (hs : List (Hunk α)) : ∀ p k : ℕ,
    (∀ e ∈ blocks p k hs, k ≤ e.1) ∧
      (blocks p k hs).Pairwise (fun a b => a.1 ≤ b.1) := by
  induction hs with
  | nil => intro p k; simp [blocks]
  | cons h hs ih =>
      intro p k
      obtain ⟨hle, hp⟩ := ih h.hi (k + (h.lo - p))
      rw [blocks]
      refine ⟨?_, List.pairwise_cons.mpr ⟨hle, hp⟩⟩
      intro e he
      rcases List.mem_cons.mp he with rfl | he
      · simp
      · have := hle e he
        omega

end EditScript
