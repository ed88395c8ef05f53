import JavaFx.Collections.Reconstruct

/-!
# Re-homing the recorded runs after a permutation

The second half of `nextPermutation`. The added positions move with the
permutation and are cut into runs again; every removed list moves to the new
position of the element its sub-change started at. The result is always a
script onto the permuted list (`rehome_spec`), from the list in which every
removed block stands in front of the position it was moved to. Whether that is
also the permuted original list is a different question: `Rehomes` says when.
-/

namespace JavaFx.Collections

open EditScript Weave IndexPerm

variable {α : Type}

/-! ## Sub-changes laid out over positions -/

/-- The end of the positions a sub-change owns: its range, or the single
position in front of which it only removes. -/
def SubChange.extent (c : SubChange α) : ℕ := max c.to_ (c.from_ + 1)

/-- `cs` are the runs of the positions marked by `A` between `p` and `p + n`,
and each of them holds the blocks `B` of the positions it owns. -/
structure Laid (A : ℕ → Bool) (B : ℕ → List α) (p n : ℕ)
    (cs : List (SubChange α)) : Prop where
  bounds : ∀ c ∈ cs, p ≤ c.from_ ∧ c.from_ ≤ c.to_ ∧ c.to_ ≤ p + n
  apart : cs.Pairwise (fun a b => a.extent ≤ b.from_)
  covers : ∀ q, p ≤ q → q < p + n →
    (A q = true ↔ ∃ c ∈ cs, c.from_ ≤ q ∧ q < c.to_)
  removed : ∀ c ∈ cs, c.removed.getD [] =
    (List.range' c.from_ (c.extent - c.from_)).flatMap B
  rest : ∀ q, p ≤ q → q ≤ p + n →
    (∀ c ∈ cs, ¬(c.from_ ≤ q ∧ q < c.extent)) → B q = []

theorem Laid.congr {A A' : ℕ → Bool} {B B' : ℕ → List α} {p n : ℕ}
    {cs : List (SubChange α)} (h : Laid A B p n cs)
    (hA : ∀ q, p ≤ q → q < p + n → A q = A' q) (hB : ∀ q, B q = B' q) :
    Laid A' B' p n cs where
  bounds := h.bounds
  apart := h.apart
  covers := fun q h₁ h₂ => by rw [← hA q h₁ h₂, h.covers q h₁ h₂]
  removed := fun c hc => by
    rw [h.removed c hc, show B = B' from funext hB]
  rest := fun q h₁ h₂ hq => by rw [← hB q, h.rest q h₁ h₂ hq]

theorem Laid.inOrder {A : ℕ → Bool} {B : ℕ → List α} {p n : ℕ}
    {cs : List (SubChange α)} (h : Laid A B p n cs) : InOrder cs where
  le := fun c hc => (h.bounds c hc).2.1
  pairwise := h.apart.imp fun hab => Nat.le_trans (Nat.le_max_left _ _) hab

/-- A layout is a script from the list with the blocks woven in. -/
theorem Laid.diff (cs : List (SubChange α)) :
    ∀ (A : ℕ → Bool) (B : ℕ → List α) (p : ℕ) (cur : List α),
      Laid A B p cur.length cs →
      Diff p (weave B p (mask A p cur)) (hunks cs) cur := by
  induction cs with
  | nil =>
      intro A B p cur h
      have hmask : mask A p cur = cur.map some := mask_eq_map_some fun j h₁ h₂ => by
        rw [← Bool.not_eq_true, h.covers j h₁ h₂]
        simp
      have hB : ∀ q, p ≤ q → q ≤ p + cur.length → B q = [] :=
        fun q h₁ h₂ => h.rest q h₁ h₂ (by simp)
      have hweave : weave B p (mask A p cur) = cur := by
        rw [weave, weaveTo_of_no_block fun q h₁ h₂ => hB q h₁ (by
            rw [length_mask] at h₂
            omega),
          length_mask, hB _ (Nat.le_add_right _ _) (Nat.le_refl _), hmask,
          reduceOption_map_some, List.append_nil]
      rw [hweave]
      exact Diff.nil p cur
  | cons c cs ih =>
      intro A B p cur h
      obtain ⟨hpc, hcc, hcn⟩ := h.bounds c List.mem_cons_self
      obtain ⟨hfirst, hrest⟩ := List.pairwise_cons.mp h.apart
      have hext : c.to_ ≤ c.extent ∧ c.from_ < c.extent := by
        simp only [SubChange.extent]
        omega
      -- cut the list into the kept run, the added range and the rest
      obtain ⟨K, Z, cur', rfl, hK, hZ⟩ : ∃ K Z cur', cur = K ++ (Z ++ cur') ∧
          c.from_ = p + K.length ∧ c.to_ = c.from_ + Z.length := by
        refine ⟨cur.take (c.from_ - p), (cur.drop (c.from_ - p)).take
          (c.to_ - c.from_), (cur.drop (c.from_ - p)).drop (c.to_ - c.from_),
          by rw [List.take_append_drop, List.take_append_drop], ?_, ?_⟩
        · rw [List.length_take]
          omega
        · rw [List.length_take, List.length_drop]
          omega
      simp only [List.length_append] at hcn
      have hlen : p + (K ++ (Z ++ cur')).length = c.to_ + cur'.length := by
        simp only [List.length_append]
        omega
      have hKmask : mask A p K = K.map some := mask_eq_map_some fun j h₁ h₂ => by
        rw [← Bool.not_eq_true, h.covers j h₁ (by omega)]
        rintro ⟨d, hd, hd₁, -⟩
        rcases List.mem_cons.mp hd with rfl | hd
        · omega
        · have := hfirst d hd
          omega
      have hZmask : mask A c.from_ Z = List.replicate Z.length none :=
        mask_eq_replicate_none fun j h₁ h₂ =>
          (h.covers j (by omega) (by omega)).mpr
            ⟨c, List.mem_cons_self, h₁, by omega⟩
      have hKno : ∀ q, p ≤ q → q < p + (K.map some).length → B q = [] := by
        intro q h₁ h₂
        rw [List.length_map] at h₂
        refine h.rest q h₁ (by omega) fun d hd => ?_
        rcases List.mem_cons.mp hd with rfl | hd
        · omega
        · have := hfirst d hd
          omega
      have hold : c.hunk.old = (List.range' c.from_ (c.extent - c.from_)).flatMap B :=
        h.removed c List.mem_cons_self
      -- the layout of the rest, with the position of `c` emptied
      have htail : Laid A (if Z = [] then Function.update B c.from_ [] else B)
          c.to_ cur'.length cs := by
        have hsame : ∀ q, c.extent ≤ q →
            (if Z = [] then Function.update B c.from_ [] else B) q = B q := by
          intro q hq
          by_cases hZnil : Z = []
          · rw [if_pos hZnil, Function.update_of_ne (by omega)]
          · rw [if_neg hZnil]
        refine ⟨?_, hrest, ?_, ?_, ?_⟩
        · intro d hd
          have h₁ := hfirst d hd
          have h₂ := h.bounds d (List.mem_cons_of_mem _ hd)
          omega
        · intro q h₁ h₂
          rw [h.covers q (by omega) (by omega)]
          constructor
          · rintro ⟨d, hd, hd'⟩
            rcases List.mem_cons.mp hd with rfl | hd
            · omega
            · exact ⟨d, hd, hd'⟩
          · rintro ⟨d, hd, hd'⟩
            exact ⟨d, List.mem_cons_of_mem _ hd, hd'⟩
        · intro d hd
          rw [h.removed d (List.mem_cons_of_mem _ hd)]
          refine congrArg List.flatten (List.map_congr_left fun q hq => ?_)
          have h₁ := hfirst d hd
          exact (hsame q (by have := (List.mem_range'_1.mp hq).1; omega)).symm
        · intro q h₁ h₂ hq
          by_cases hcq : q < c.extent
          · -- only possible for the position of a mere removal
            have hZnil : Z = [] := by
              refine List.eq_nil_of_length_eq_zero ?_
              simp only [SubChange.extent] at hcq
              omega
            have hqc : q = c.from_ := by
              subst hZnil
              simp only [SubChange.extent, List.length_nil] at hcq hZ
              omega
            rw [if_pos hZnil, hqc, Function.update_self]
          · rw [hsame q (by omega)]
            refine h.rest q (by omega) (by omega) fun d hd => ?_
            rcases List.mem_cons.mp hd with rfl | hd
            · omega
            · exact hq d hd
      have hcons := Diff.cons p K Z _ cur' c.hunk (hunks cs) hK hZ (ih _ _ _ _ htail)
      have hweave : weave B p (mask A p (K ++ (Z ++ cur'))) = K ++ (c.hunk.old ++
          weave (if Z = [] then Function.update B c.from_ [] else B) c.to_
            (mask A c.to_ cur')) := by
        rw [mask_append, mask_append, ← hK, ← hZ, hKmask, hZmask, weave_append,
          weaveTo_of_no_block hKno, reduceOption_map_some, List.length_map, ← hK,
          hold]
        by_cases hZnil : Z = []
        · subst hZnil
          rw [List.length_nil, Nat.add_zero] at hZ
          have hone : c.extent - c.from_ = 1 := by
            simp only [SubChange.extent]
            omega
          rw [if_pos rfl, hone, hZ, List.length_nil, List.replicate_zero,
            List.nil_append, weave_head]
          simp
        · have hpos : 0 < Z.length := List.length_pos_iff.mpr hZnil
          have hfull : c.extent - c.from_ = Z.length := by
            simp only [SubChange.extent]
            omega
          rw [if_neg hZnil, weave_append, weaveTo_replicate_none, hfull,
            List.length_replicate, ← hZ]
      rw [hweave]
      exact hcons

/-! ## Building the runs -/

theorem flatMap_update_of_not_mem {B : ℕ → List α} {i : ℕ} {r : List α}
    {l : List ℕ} (h : i ∉ l) : l.flatMap (Function.update B i r) = l.flatMap B := by
  refine congrArg List.flatten (List.map_congr_left fun q hq => ?_)
  refine Function.update_of_ne ?_ _ _
  rintro rfl
  exact h hq

theorem extent_of_lt {c : SubChange α} (h : c.from_ < c.to_) :
    c.extent = c.to_ := by
  simp only [SubChange.extent]
  omega

/-- The last run grows by the position behind it. -/
theorem Laid.extend {A : ℕ → Bool} {B : ℕ → List α} {n i : ℕ}
    {pre : List (SubChange α)} {c c' : SubChange α} {r : List α}
    (h : Laid A B 0 n (pre ++ [c])) (hlt : c.from_ < c.to_) (hi : c.to_ = i)
    (hin : i < n) (hA : A i = false) (hfrom : c'.from_ = c.from_)
    (hto : c'.to_ = i + 1) (hrem : c'.removed.getD [] = c.removed.getD [] ++ r) :
    Laid (Function.update A i true) (Function.update B i r) 0 n (pre ++ [c']) := by
  have hpre : ∀ d ∈ pre, d.extent ≤ c.from_ := fun d hd =>
    (List.pairwise_append.mp h.apart).2.2 d hd c (by simp)
  have hc'ext : c'.extent = i + 1 := by
    rw [extent_of_lt (by omega), hto]
  refine ⟨?_, ?_, ?_, ?_, ?_⟩
  · intro d hd
    rcases List.mem_append.mp hd with hd | hd
    · exact h.bounds d (List.mem_append_left _ hd)
    · rw [List.mem_singleton.mp hd]
      omega
  · refine List.pairwise_append.mpr ⟨(List.pairwise_append.mp h.apart).1,
      List.pairwise_singleton _ _, fun a ha b hb => ?_⟩
    rw [List.mem_singleton.mp hb, hfrom]
    exact hpre a ha
  · intro q h₁ h₂
    by_cases hq : q = i
    · subst hq
      rw [Function.update_self]
      exact ⟨fun _ => ⟨c', by simp, by omega, by omega⟩, fun _ => rfl⟩
    · rw [Function.update_of_ne hq, h.covers q h₁ h₂]
      constructor
      · rintro ⟨d, hd, hd'⟩
        rcases List.mem_append.mp hd with hd | hd
        · exact ⟨d, List.mem_append_left _ hd, hd'⟩
        · rw [List.mem_singleton.mp hd] at hd'
          exact ⟨c', by simp, by omega, by omega⟩
      · rintro ⟨d, hd, hd'⟩
        rcases List.mem_append.mp hd with hd | hd
        · exact ⟨d, List.mem_append_left _ hd, hd'⟩
        · rw [List.mem_singleton.mp hd] at hd'
          exact ⟨c, by simp, by omega, by omega⟩
  · intro d hd
    rcases List.mem_append.mp hd with hd | hd
    · rw [h.removed d (List.mem_append_left _ hd), flatMap_update_of_not_mem]
      intro hmem
      have := List.mem_range'_1.mp hmem
      have := hpre d hd
      omega
    · rw [List.mem_singleton.mp hd, hrem, h.removed c (by simp), hc'ext, hfrom,
        extent_of_lt hlt, hi]
      have hsplit : List.range' c.from_ (i + 1 - c.from_) =
          List.range' c.from_ (i - c.from_) ++ [i] := by
        have : i + 1 - c.from_ = (i - c.from_) + 1 := by omega
        rw [this, List.range'_concat]
        congr 2
        omega
      rw [hsplit, List.flatMap_append, List.flatMap_singleton,
        Function.update_self, flatMap_update_of_not_mem]
      intro hmem
      have := List.mem_range'_1.mp hmem
      omega
  · intro q h₁ h₂ hq
    have hqi : q ≠ i := by
      rintro rfl
      exact hq c' (by simp) ⟨by omega, by omega⟩
    rw [Function.update_of_ne hqi]
    refine h.rest q h₁ h₂ fun d hd => ?_
    rcases List.mem_append.mp hd with hd | hd
    · exact hq d (List.mem_append_left _ hd)
    · rw [List.mem_singleton.mp hd, extent_of_lt hlt]
      have := hq c' (by simp)
      omega

/-- A new sub-change is put between those that end before it and those that
start behind it: a run of one position, or a mere removal. -/
theorem Laid.insert {A : ℕ → Bool} {B : ℕ → List α} {n i : ℕ}
    {pre post : List (SubChange α)} {c : SubChange α}
    (h : Laid A B 0 n (pre ++ post)) (A' : ℕ → Bool) (hpre : ∀ d ∈ pre, d.extent ≤ i)
    (hpost : ∀ d ∈ post, i < d.from_) (hfrom : c.from_ = i) (hci : i ≤ c.to_)
    (hcn : c.to_ ≤ n) (hone : c.to_ ≤ i + 1)
    (hAi : A' i = decide (c.to_ = i + 1)) (hA : ∀ q, q ≠ i → A' q = A q) :
    Laid A' (Function.update B i (c.removed.getD [])) 0 n (pre ++ c :: post) := by
  have hext : c.extent = i + 1 := by
    simp only [SubChange.extent]
    omega
  have hmem : ∀ d, d ∈ pre ++ c :: post ↔ d = c ∨ d ∈ pre ++ post := by
    intro d
    simp only [List.mem_append, List.mem_cons]
    tauto
  have hclear : ∀ d ∈ pre ++ post, ¬(d.from_ ≤ i ∧ i < d.extent) := by
    intro d hd hdi
    rcases List.mem_append.mp hd with hd | hd
    · have := hpre d hd
      omega
    · have := hpost d hd
      omega
  have hto : ∀ d : SubChange α, d.to_ ≤ d.extent := fun d => Nat.le_max_left _ _
  refine ⟨?_, ?_, ?_, ?_, ?_⟩
  · intro d hd
    rcases (hmem d).mp hd with rfl | hd
    · omega
    · exact h.bounds d hd
  · obtain ⟨h₁, h₂, h₃⟩ := List.pairwise_append.mp h.apart
    refine List.pairwise_append.mpr ⟨h₁, List.pairwise_cons.mpr ⟨fun d hd => ?_, h₂⟩,
      fun a ha b hb => ?_⟩
    · have := hpost d hd
      omega
    · rcases List.mem_cons.mp hb with rfl | hb
      · rw [hfrom]
        exact hpre a ha
      · exact h₃ a ha b hb
  · intro q h₁ h₂
    by_cases hq : q = i
    · subst hq
      rw [hAi, decide_eq_true_iff]
      constructor
      · intro hc
        exact ⟨c, (hmem c).mpr (Or.inl rfl), by omega, by omega⟩
      · rintro ⟨d, hd, hd'⟩
        rcases (hmem d).mp hd with rfl | hd
        · omega
        · have := hclear d hd
          have := hto d
          omega
    · rw [hA q hq, h.covers q h₁ h₂]
      constructor
      · rintro ⟨d, hd, hd'⟩
        exact ⟨d, (hmem d).mpr (Or.inr hd), hd'⟩
      · rintro ⟨d, hd, hd'⟩
        rcases (hmem d).mp hd with rfl | hd
        · omega
        · exact ⟨d, hd, hd'⟩
  · intro d hd
    rcases (hmem d).mp hd with rfl | hd
    · rw [hext, hfrom, Nat.add_sub_cancel_left]
      simp
    · rw [h.removed d hd, flatMap_update_of_not_mem]
      intro hi
      have := List.mem_range'_1.mp hi
      exact hclear d hd ⟨by omega, by omega⟩
  · intro q h₁ h₂ hq
    have hqi : q ≠ i := by
      rintro rfl
      exact hq c ((hmem c).mpr (Or.inl rfl)) ⟨by omega, by omega⟩
    rw [Function.update_of_ne hqi]
    exact h.rest q h₁ h₂ fun d hd => hq d ((hmem d).mpr (Or.inr hd))

theorem growRun_cases (updated : Bool) (cs : List (SubChange α)) (i : ℕ) :
    ∃ c' : SubChange α, c'.to_ = i + 1 ∧
      ((∃ pre c, cs = pre ++ [c] ∧ c.to_ = i ∧ growRun updated cs i = pre ++ [c'] ∧
          c'.from_ = c.from_ ∧ c'.removed = c.removed) ∨
        (growRun updated cs i = cs ++ [c'] ∧ c'.from_ = i ∧
          c'.removed = none)) := by
  rw [growRun]
  cases hlast : cs.getLast? with
  | none => exact ⟨_, rfl, Or.inr ⟨rfl, rfl, rfl⟩⟩
  | some last =>
      by_cases hto : last.to_ = i
      · obtain ⟨pre, rfl, hlen⟩ := eq_append_of_getLast? hlast
        simp only [if_pos hto, hlen, set_length_append]
        exact ⟨_, rfl, Or.inl ⟨pre, last, rfl, hto, rfl, rfl, rfl⟩⟩
      · simp only [if_neg hto]
        exact ⟨_, rfl, Or.inr ⟨rfl, rfl, rfl⟩⟩

theorem attachRemoved_eq (i : ℕ) (pre : List (SubChange α)) (c : SubChange α)
    (m : List (ℕ × List α)) :
    ∃ c', (attachRemoved i (pre ++ [c], m)).1 = pre ++ [c'] ∧
      c'.from_ = c.from_ ∧ c'.to_ = c.to_ ∧
      c'.removed.getD [] = c.removed.getD [] ++ (m.lookup i).getD [] := by
  simp only [attachRemoved]
  cases hm : m.lookup i with
  | none => exact ⟨c, rfl, rfl, rfl, by simp⟩
  | some r =>
      have hlen : (pre ++ [c]).length - 1 = pre.length := by simp
      simp only [hlen, modify_length_append]
      exact ⟨_, rfl, rfl, rfl, rfl⟩

/-- One round of the loop over the added positions: either the last run is
extended or a new one is opened, and it takes what was removed at `i`. -/
theorem addRun_cases (cs : List (SubChange α)) (m : List (ℕ × List α)) (i : ℕ) :
    ∃ c' : SubChange α, c'.to_ = i + 1 ∧
      ((∃ pre c, cs = pre ++ [c] ∧ c.to_ = i ∧
          (addRun (cs, m) i).1 = pre ++ [c'] ∧ c'.from_ = c.from_ ∧
          c'.removed.getD [] = c.removed.getD [] ++ (m.lookup i).getD []) ∨
        ((addRun (cs, m) i).1 = cs ++ [c'] ∧ c'.from_ = i ∧
          c'.removed.getD [] = (m.lookup i).getD [])) := by
  obtain ⟨d, hd, hcase⟩ := growRun_cases false cs i
  rw [addRun]
  rcases hcase with ⟨pre, c, rfl, hc, hgrow, hfrom, hrem⟩ | ⟨hgrow, hfrom, hrem⟩
  · obtain ⟨c', h₁, h₂, h₃, h₄⟩ := attachRemoved_eq i pre d m
    refine ⟨c', h₃.trans hd, Or.inl ⟨pre, c, rfl, hc, ?_, h₂.trans hfrom, ?_⟩⟩
    · rw [hgrow, h₁]
    · rw [h₄, hrem]
  · obtain ⟨c', h₁, h₂, h₃, h₄⟩ := attachRemoved_eq i cs d m
    refine ⟨c', h₃.trans hd, Or.inr ⟨?_, h₂.trans hfrom, ?_⟩⟩
    · rw [hgrow, h₁]
    · rw [h₄, hrem, Option.getD_none, List.nil_append]

theorem addRun_snd (cs : List (SubChange α)) (m : List (ℕ × List α)) (i : ℕ) :
    (addRun (cs, m) i).2 = m.filter (fun e => e.1 ≠ i) := by
  simp only [addRun, attachRemoved]
  cases hm : m.lookup i with
  | none =>
      refine (List.filter_eq_self.mpr fun e he => ?_).symm
      have := List.lookup_eq_none_iff.mp hm e he
      have hne : i ≠ e.1 := by simpa using this
      simpa using hne.symm
  | some r => rfl

theorem lookup_filter_of_pos {m : List (ℕ × List α)} {f : ℕ → Bool} {i : ℕ}
    (hi : f i = true) : (m.filter fun e => f e.1).lookup i = m.lookup i := by
  induction m with
  | nil => rfl
  | cons e m ih =>
      by_cases hei : i = e.1
      · have hfe : f e.1 = true := hei ▸ hi
        rw [List.filter_cons, if_pos hfe, List.lookup_cons, List.lookup_cons,
          hei, beq_self_eq_true]
      · have hne : (i == e.1) = false := by simpa using hei
        rw [List.filter_cons, List.lookup_cons, hne]
        by_cases hfe : f e.1 = true
        · rw [if_pos hfe, List.lookup_cons, hne, ih]
        · rw [if_neg hfe, ih]

/-- What the loop over the added positions maintains: `A` are the positions it
has seen, `U` those still to come. -/
structure RunsBuilt (M : List (ℕ × List α)) (n : ℕ) (A : ℕ → Bool) (U : List ℕ)
    (s : List (SubChange α) × List (ℕ × List α)) : Prop where
  laid : Laid A (fun q => if A q then blockAt M q else []) 0 n s.1
  run : ∀ c ∈ s.1, c.from_ < c.to_
  ahead : ∀ c ∈ s.1, ∀ u ∈ U, c.to_ ≤ u
  left : s.2 = M.filter fun e => !A e.1
  unseen : ∀ u ∈ U, A u = false

theorem RunsBuilt.step {M : List (ℕ × List α)} {n i : ℕ} {A : ℕ → Bool}
    {U : List ℕ} {s : List (SubChange α) × List (ℕ × List α)}
    (h : RunsBuilt M n A (i :: U) s) (hin : i < n) (hU : ∀ u ∈ U, i < u) :
    RunsBuilt M n (Function.update A i true) U (addRun s i) := by
  obtain ⟨cs, m⟩ := s
  have hAi := h.unseen i List.mem_cons_self
  have hlook : (m.lookup i).getD [] = blockAt M i := by
    have := h.left
    simp only at this
    rw [this, lookup_filter_of_pos (f := fun q => !A q) (by rw [hAi]; rfl)]
    rfl
  have hB : ∀ q, Function.update (fun q => if A q then blockAt M q else []) i
      ((m.lookup i).getD []) q =
        if Function.update A i true q then blockAt M q else [] := by
    intro q
    by_cases hq : q = i
    · subst hq
      rw [Function.update_self, Function.update_self, if_pos rfl, hlook]
    · rw [Function.update_of_ne hq, Function.update_of_ne hq]
  obtain ⟨c', hc', hcase⟩ := addRun_cases cs m i
  have hleft : (addRun (cs, m) i).2 =
      M.filter fun e => !Function.update A i true e.1 := by
    have := h.left
    simp only at this
    rw [addRun_snd, this, List.filter_filter]
    refine List.filter_congr fun e _ => ?_
    by_cases he : e.1 = i
    · simp [he]
    · simp [he]
  have hunseen : ∀ u ∈ U, Function.update A i true u = false := by
    intro u hu
    rw [Function.update_of_ne (Nat.ne_of_gt (hU u hu))]
    exact h.unseen u (List.mem_cons_of_mem _ hu)
  rcases hcase with ⟨pre, c, rfl, hci, hcs, hfrom, hrem⟩ | ⟨hcs, hfrom, hrem⟩
  · have hrun := h.run c (by simp)
    refine ⟨?_, ?_, ?_, hleft, hunseen⟩
    · rw [hcs]
      exact (h.laid.extend hrun hci hin hAi hfrom hc' hrem).congr
        (fun _ _ _ => rfl) hB
    · rw [hcs]
      intro d hd
      rcases List.mem_append.mp hd with hd | hd
      · exact h.run d (List.mem_append_left _ hd)
      · rw [List.mem_singleton.mp hd]
        omega
    · rw [hcs]
      intro d hd u hu
      rcases List.mem_append.mp hd with hd | hd
      · exact h.ahead d (List.mem_append_left _ hd) u (List.mem_cons_of_mem _ hu)
      · rw [List.mem_singleton.mp hd, hc']
        exact hU u hu
  · refine ⟨?_, ?_, ?_, hleft, hunseen⟩
    · rw [hcs]
      have hlaid := h.laid
      simp only at hlaid
      rw [← List.append_nil cs] at hlaid
      have := hlaid.insert (c := c') (i := i) (Function.update A i true)
        (fun d hd => by
          rw [extent_of_lt (h.run d hd)]
          exact h.ahead d hd i List.mem_cons_self)
        (by simp) hfrom (by omega) (by omega) (by omega)
        (by rw [Function.update_self, hc']; simp)
        (fun q hq => Function.update_of_ne hq _ _)
      rw [hrem] at this
      exact this.congr (fun _ _ _ => rfl) hB
    · rw [hcs]
      intro d hd
      rcases List.mem_append.mp hd with hd | hd
      · exact h.run d hd
      · rw [List.mem_singleton.mp hd]
        omega
    · rw [hcs]
      intro d hd u hu
      rcases List.mem_append.mp hd with hd | hd
      · exact h.ahead d hd u (List.mem_cons_of_mem _ hu)
      · rw [List.mem_singleton.mp hd, hc']
        exact hU u hu

/-- The whole loop over ascending added positions. -/
theorem RunsBuilt.loop {M : List (ℕ × List α)} {n : ℕ} (U : List ℕ) :
    ∀ (A : ℕ → Bool) (s : List (SubChange α) × List (ℕ × List α)),
      RunsBuilt M n A U s → U.Pairwise (· < ·) → (∀ u ∈ U, u < n) →
      RunsBuilt M n (fun q => A q || decide (q ∈ U)) [] (U.foldl addRun s) := by
  induction U with
  | nil =>
      intro A s h _ _
      have hA : (fun q => A q || decide (q ∈ ([] : List ℕ))) = A := by
        funext q
        simp
      rw [hA]
      exact h
  | cons i U ih =>
      intro A s h hp hn
      obtain ⟨hi, hU⟩ := List.pairwise_cons.mp hp
      have hstep := h.step (hn i List.mem_cons_self) hi
      have := ih _ _ hstep hU fun u hu => hn u (List.mem_cons_of_mem _ hu)
      have hA : (fun q => Function.update A i true q || decide (q ∈ U)) =
          fun q => A q || decide (q ∈ i :: U) := by
        funext q
        by_cases hq : q = i
        · simp [hq]
        · simp [hq]
      rwa [hA] at this

/-! ## The removals that hit no added element -/

/-- The assertion of the source holds: a position without an added element is
never found inside a run. -/
theorem addStandalone_laid {A : ℕ → Bool} {B : ℕ → List α} {n : ℕ}
    {cs : List (SubChange α)} {e : ℕ × List α} (h : Laid A B 0 n cs)
    (hen : e.1 ≤ n) (hA : e.1 < n → A e.1 = false)
    (hfree : ∀ c ∈ cs, c.from_ = c.to_ → c.from_ ≠ e.1) :
    ∃ pre post, cs = pre ++ post ∧
      addStandalone cs e =
        .ok (pre ++ ⟨e.1, e.1, some e.2, [], false⟩ :: post) ∧
      Laid A (Function.update B e.1 e.2) 0 n
        (pre ++ ⟨e.1, e.1, some e.2, [], false⟩ :: post) := by
  have hfound := findSubChange_spec h.inOrder e.1
  rw [addStandalone]
  generalize findSubChange e.1 cs = r at hfound
  cases hfound with
  | inside pre post c hcs hlo hhi =>
      have hc : c ∈ cs := by rw [hcs]; simp
      have hcn := (h.bounds c hc).2.2
      have hlt : e.1 < n := by omega
      have := (h.covers e.1 (Nat.zero_le _) (by omega)).mpr ⟨c, hc, hlo, hhi⟩
      rw [hA hlt] at this
      cases this
  | between pre post hcs hpre hpost =>
      subst hcs
      refine ⟨pre, post, rfl, by simp only [insertIdx_length_append], ?_⟩
      -- a sub-change in front that adds nothing starts strictly before
      have hext : ∀ d ∈ pre, d.extent ≤ e.1 := by
        intro d hd
        have h₁ := hpre d hd
        have h₂ := h.bounds d (List.mem_append_left _ hd)
        have h₃ := hfree d (List.mem_append_left _ hd)
        simp only [SubChange.extent]
        omega
      have hlast : A e.1 = false ∨ n ≤ e.1 := by
        by_cases hlt : e.1 < n
        · exact Or.inl (hA hlt)
        · exact Or.inr (by omega)
      have := h.insert (i := e.1) (c := ⟨e.1, e.1, some e.2, [], false⟩)
        (Function.update A e.1 false) hext hpost rfl (Nat.le_refl _) hen
        (Nat.le_succ _) (by simp) (fun q hq => Function.update_of_ne hq _ _)
      refine this.congr (fun q _ h₂ => ?_) fun _ => rfl
      by_cases hq : q = e.1
      · subst hq
        rw [Function.update_self, hA (by omega)]
      · rw [Function.update_of_ne hq]

theorem addStandalone_loop {A : ℕ → Bool} {n : ℕ} (rest : List (ℕ × List α)) :
    ∀ (B : ℕ → List α) (cs : List (SubChange α)), Laid A B 0 n cs →
      (rest.map Prod.fst).Nodup → (∀ e ∈ rest, e.1 ≤ n) →
      (∀ e ∈ rest, e.1 < n → A e.1 = false) →
      (∀ e ∈ rest, ∀ c ∈ cs, c.from_ = c.to_ → c.from_ ≠ e.1) →
      ∃ cs', rest.foldlM addStandalone cs = .ok cs' ∧
        Laid A (fun q => ((rest.lookup q).getD (B q))) 0 n cs' := by
  induction rest with
  | nil =>
      intro B cs h _ _ _ _
      exact ⟨cs, rfl, h.congr (fun _ _ _ => rfl) fun _ => rfl⟩
  | cons e rest ih =>
      intro B cs h hnd hn hA hfree
      rw [List.map_cons, List.nodup_cons] at hnd
      obtain ⟨pre, post, rfl, hstep, hlaid⟩ := addStandalone_laid h
        (hn e List.mem_cons_self) (hA e List.mem_cons_self)
        (hfree e List.mem_cons_self)
      obtain ⟨cs', hcs', hlaid'⟩ := ih _ _ hlaid hnd.2
        (fun x hx => hn x (List.mem_cons_of_mem _ hx))
        (fun x hx => hA x (List.mem_cons_of_mem _ hx))
        (fun x hx c hc hcc => by
          have hmem : c = ⟨e.1, e.1, some e.2, [], false⟩ ∨ c ∈ pre ++ post := by
            simp only [List.mem_append, List.mem_cons] at hc ⊢
            tauto
          rcases hmem with rfl | hc
          · intro heq
            have heq' : e.1 = x.1 := heq
            rw [heq'] at hnd
            exact hnd.1 (List.mem_map_of_mem hx)
          · exact hfree x (List.mem_cons_of_mem _ hx) c hc hcc)
      refine ⟨cs', by rw [List.foldlM_cons, hstep, except_ok_bind, hcs'],
        hlaid'.congr (fun _ _ _ => rfl) fun q => ?_⟩
      rw [List.lookup_cons]
      by_cases hq : q = e.1
      · subst hq
        have hnone : rest.lookup e.1 = none := by
          refine List.lookup_eq_none_iff.mpr fun x hx => ?_
          have hne : e.1 ≠ x.1 := by
            intro heq
            rw [heq] at hnd
            exact hnd.1 (List.mem_map_of_mem hx)
          simpa using hne
        rw [hnone, Option.getD_none, Function.update_self]
        simp
      · have hne : (q == e.1) = false := by simpa using hq
        rw [hne, Function.update_of_ne hq]

/-! ## The new script -/

theorem treeSet_pairwise (l : List ℕ) : (treeSet l).Pairwise (· < ·) := by
  have hnd : (treeSet l).Nodup :=
    (List.perm_insertionSort _ _).nodup_iff.mpr (List.nodup_dedup l)
  have hle : (treeSet l).Pairwise (· ≤ ·) := List.pairwise_insertionSort _ _
  exact (hle.and hnd).imp fun h => Nat.lt_of_le_of_ne h.1 h.2

theorem mem_treeSet {l : List ℕ} {q : ℕ} : q ∈ treeSet l ↔ q ∈ l := by
  rw [treeSet, List.mem_insertionSort, List.mem_dedup]

/-- The removed lists at their new positions; of two that meet, the later one
stays. -/
def rehomed (π : ℕ → ℕ) (cs : List (SubChange α)) : List (ℕ × List α) :=
  cs.foldl (fun m c =>
    match c.removed with
    | none => m
    | some r => mapPut m (π c.from_) r) []

theorem mapPut_nodup {m : List (ℕ × List α)} (h : (m.map Prod.fst).Nodup) (k : ℕ)
    (v : List α) : ((mapPut m k v).map Prod.fst).Nodup := by
  rw [mapPut, List.map_append, List.nodup_append]
  refine ⟨h.sublist (List.filter_sublist.map _), by simp, ?_⟩
  intro a ha b hb heq
  obtain ⟨e, he, rfl⟩ := List.mem_map.mp ha
  have hb' : b = k := by simpa using hb
  have := (List.mem_filter.mp he).2
  rw [hb'] at heq
  simp [heq] at this

theorem mem_mapPut {m : List (ℕ × List α)} {k : ℕ} {v : List α}
    {e : ℕ × List α} (h : e ∈ mapPut m k v) : e ∈ m ∨ e = (k, v) := by
  rcases List.mem_append.mp h with h | h
  · exact Or.inl (List.mem_filter.mp h).1
  · exact Or.inr (List.mem_singleton.mp h)

theorem rehomed_spec (π : ℕ → ℕ) (cs : List (SubChange α)) :
    ((rehomed π cs).map Prod.fst).Nodup ∧
      ∀ e ∈ rehomed π cs, ∃ c ∈ cs, π c.from_ = e.1 := by
  induction cs using List.reverseRecOn with
  | nil => simp [rehomed]
  | append_singleton cs c ih =>
      have hfold : rehomed π (cs ++ [c]) =
          match c.removed with
          | none => rehomed π cs
          | some r => mapPut (rehomed π cs) (π c.from_) r := by
        rw [rehomed, List.foldl_append]
        rfl
      rw [hfold]
      cases hr : c.removed with
      | none =>
          refine ⟨ih.1, fun e he => ?_⟩
          obtain ⟨d, hd, hde⟩ := ih.2 e he
          exact ⟨d, List.mem_append_left _ hd, hde⟩
      | some r =>
          refine ⟨mapPut_nodup ih.1 _ _, fun e he => ?_⟩
          rcases mem_mapPut he with he | rfl
          · obtain ⟨d, hd, hde⟩ := ih.2 e he
            exact ⟨d, List.mem_append_left _ hd, hde⟩
          · exact ⟨c, by simp, rfl⟩

section Rehome

variable {from_ : ℕ} {perm : List ℕ} {O cur cur' : List α}
  {cs : List (SubChange α)}

theorem rehome_eq (from_ : ℕ) (perm : List ℕ) (cs : List (SubChange α)) :
    rehome from_ (from_ + perm.length) perm cs =
      (let s := (treeSet (cs.map fun c =>
          (List.range' c.from_ (c.to_ - c.from_)).map (target from_ perm)).flatten)
        |>.foldl addRun ([], rehomed (target from_ perm) cs)
      s.2.foldlM addStandalone s.1) := by
  have hadded : cs.mapM (permutedRange from_ (from_ + perm.length) perm) =
      (.ok (cs.map fun c => (List.range' c.from_ (c.to_ - c.from_)).map
        (target from_ perm)) : Except Exn _) :=
    mapM_eq_ok fun c _ => mapM_eq_ok fun j _ => permutedIndex_eq rfl j
  have hremoved : cs.foldlM (putRemoved from_ (from_ + perm.length) perm) [] =
      (.ok (rehomed (target from_ perm) cs) : Except Exn _) := by
    refine (foldlM_eq_ok (fun _ => True) (fun m c _ _ => ⟨?_, trivial⟩)
      trivial).1
    rw [putRemoved, permutedIndex_eq rfl]
    cases c.removed <;> rfl
  rw [rehome, hadded, except_ok_bind, hremoved, except_ok_bind]

/-- **The re-homed script.** The second half of `nextPermutation` never throws
and records a script onto the permuted list. -/
theorem rehome_spec {A' : ℕ → Bool} (h : Diff 0 O (hunks cs) cur)
    (hperm : IsPerm from_ perm) (hto : from_ + perm.length ≤ cur.length)
    (hmov : Moves (target from_ perm) cur cur')
    (hA : ∀ j, j < cur.length →
      A' (target from_ perm j) = covered (hunks cs) j) :
    ∃ cs', rehome from_ (from_ + perm.length) perm cs = .ok cs' ∧
      Diff 0 (weave (blockAt (rehomed (target from_ perm) cs)) 0
        (mask A' 0 cur')) (hunks cs') cur' := by
  have hlen := hmov.length_eq
  have hbounds := fun c hc => h.bounds (SubChange.hunk c) (List.mem_map_of_mem hc)
  generalize hU : treeSet (cs.map fun c =>
    (List.range' c.from_ (c.to_ - c.from_)).map (target from_ perm)).flatten = U
  -- the added positions are those of `A'`
  have hmemU : ∀ q, q ∈ U ↔
      ∃ j, covered (hunks cs) j = true ∧ target from_ perm j = q := by
    intro q
    rw [← hU, mem_treeSet]
    simp only [List.mem_flatten, List.mem_map, covered_eq_true]
    constructor
    · rintro ⟨_, ⟨c, hc, rfl⟩, hq⟩
      obtain ⟨j, hj, rfl⟩ := List.mem_map.mp hq
      obtain ⟨h₁, h₂⟩ := List.mem_range'_1.mp hj
      exact ⟨j, ⟨c.hunk, ⟨c, hc, rfl⟩, h₁, by
        simp only [SubChange.hunk]; omega⟩, rfl⟩
    · rintro ⟨j, ⟨_, ⟨c, hc, rfl⟩, h₁, h₂⟩, rfl⟩
      refine ⟨_, ⟨c, hc, rfl⟩, List.mem_map_of_mem (List.mem_range'_1.mpr ?_)⟩
      simp only [SubChange.hunk] at h₁ h₂
      omega
  have hcovered : ∀ j, covered (hunks cs) j = true → j < cur.length := by
    intro j hj
    obtain ⟨x, hx, h₁, h₂⟩ := covered_eq_true.mp hj
    have := h.bounds x hx
    omega
  have hUlt : ∀ u ∈ U, u < cur'.length := by
    intro u hu
    obtain ⟨j, hj, rfl⟩ := (hmemU u).mp hu
    exact hmov.target_lt (hcovered j hj)
  have hA' : ∀ q, q < cur'.length → A' q = decide (q ∈ U) := by
    intro q hq
    obtain ⟨j, hj, rfl⟩ := hmov.exists_source hperm.target_injective hq
    rw [hA j hj, Bool.eq_iff_iff, decide_eq_true_iff, hmemU]
    constructor
    · intro hcov
      exact ⟨j, hcov, rfl⟩
    · rintro ⟨k, hk, hkj⟩
      rw [← hperm.target_injective hkj]
      exact hk
  -- first the runs, then the removals
  obtain ⟨hnd, hkeys⟩ := rehomed_spec (target from_ perm) cs
  have hstart : RunsBuilt (rehomed (target from_ perm) cs) cur'.length
      (fun _ => false) U ([], rehomed (target from_ perm) cs) := by
    refine ⟨⟨by simp, List.Pairwise.nil, by simp, by simp, by simp⟩, by simp,
      by simp, by simp, by simp⟩
  have hloop := hstart.loop _ _ _ (hU ▸ treeSet_pairwise _) hUlt
  have hkeyle : ∀ e ∈ rehomed (target from_ perm) cs, e.1 ≤ cur'.length := by
    intro e he
    obtain ⟨c, hc, hce⟩ := hkeys e he
    have hb := hbounds c hc
    simp only [SubChange.hunk] at hb
    rw [← hce]
    rcases Nat.lt_or_ge c.from_ cur.length with hlt | hge
    · exact Nat.le_of_lt (hmov.target_lt hlt)
    · rw [target_of_not (by omega)]
      omega
  obtain ⟨cs', hcs', hlaid⟩ := addStandalone_loop
    (U.foldl addRun ([], rehomed (target from_ perm) cs)).2 _ _ hloop.laid
    (by
      rw [hloop.left]
      exact hnd.sublist (List.filter_sublist.map _))
    (fun e he => by
      rw [hloop.left] at he
      exact hkeyle e (List.mem_filter.mp he).1)
    (fun e he _ => by
      rw [hloop.left] at he
      simpa using (List.mem_filter.mp he).2)
    (fun e _ c hc hcc => absurd hcc (Nat.ne_of_lt (hloop.run c hc)))
  refine ⟨cs', by rw [rehome_eq, hU]; exact hcs', ?_⟩
  refine Laid.diff cs' A' _ 0 cur' (hlaid.congr (fun q _ hq => ?_) fun q => ?_)
  · rw [hA' q (by omega), Bool.false_or]
  · rw [hloop.left]
    by_cases hq : q ∈ U
    · have hnone : ((rehomed (target from_ perm) cs).filter
          fun e => !(false || decide (e.1 ∈ U))).lookup q = none := by
        refine List.lookup_eq_none_iff.mpr fun e he => ?_
        have he' := (List.mem_filter.mp he).2
        have hne : q ≠ e.1 := by
          rintro rfl
          simp [hq] at he'
        simpa using hne
      rw [hnone, Option.getD_none, Bool.false_or, decide_eq_true hq, if_pos rfl]
    · rw [lookup_filter_of_pos (f := fun q => !(false || decide (q ∈ U)))
        (by simp [hq]), Bool.false_or, decide_eq_false hq, if_neg (by simp)]
      rfl

end Rehome

/-! ## When the removals land where the permutation put them

`reconstruct` keeps a removed block behind as many surviving elements as
before; `rehome` moves it along with the element its sub-change starts at. The
two agree when the permutation does not change that number, keeps the order of
the removals, and no removed list overwrites another one. -/

def SubChange.removesSome (c : SubChange α) : Bool := !(c.removed.getD []).isEmpty

/-- The element at `j` was there before the block. -/
def survives (cs : List (SubChange α)) (j : ℕ) : Bool := !covered (hunks cs) j

def Rehomes (π : ℕ → ℕ) (size : ℕ) (cs : List (SubChange α)) : Prop :=
  (∀ c ∈ cs, c.removesSome = true →
    (List.range size).countP (fun j => survives cs j && decide (j < c.from_)) =
      (List.range size).countP
        (fun j => survives cs j && decide (π j < π c.from_))) ∧
  cs.Pairwise (fun a b => a.removesSome = true → b.removesSome = true →
    π a.from_ < π b.from_) ∧
  cs.Pairwise (fun a b => a.removesSome = true → b.removed.isSome = true →
    a.from_ ≠ b.from_)

instance (π : ℕ → ℕ) (size : ℕ) (cs : List (SubChange α)) :
    Decidable (Rehomes π size cs) := by
  unfold Rehomes
  infer_instance

theorem rank_mask (A : ℕ → Bool) (l : List α) (q : ℕ) :
    rank (mask A 0 l) q =
      (List.range l.length).countP fun j => !A j && decide (j < q) := by
  induction l using List.reverseRecOn with
  | nil => simp [rank, mask]
  | append_singleton l x ih =>
      have hlast : (((mask A (0 + l.length) [x]).take (q - l.length)).reduceOption).length
          = [l.length].countP fun j => !A j && decide (j < q) := by
        rw [Nat.zero_add]
        by_cases hq : l.length < q
        · obtain ⟨d, hd⟩ : ∃ d, q - l.length = d + 1 := ⟨q - l.length - 1, by omega⟩
          cases hA : A l.length <;> simp [mask, hA, hq, hd, List.reduceOption]
        · have hd : q - l.length = 0 := by omega
          simp [hd, hq]
      rw [mask_append, rank, List.take_append, List.reduceOption_append,
        List.length_append, length_mask, hlast, List.length_append,
        List.length_singleton, List.range_succ, List.countP_append, ← ih, rank]

theorem blockAt_mapPut (m : List (ℕ × List α)) (k q : ℕ) (v : List α) :
    blockAt (mapPut m k v) q = if q = k then v else blockAt m q := by
  rw [blockAt, mapPut, List.lookup_append]
  by_cases hq : q = k
  · subst hq
    have hnone : (m.filter fun e => decide (e.1 ≠ q)).lookup q = none := by
      refine List.lookup_eq_none_iff.mpr fun e he => ?_
      have := (List.mem_filter.mp he).2
      have hne : q ≠ e.1 := by
        rintro rfl
        simp at this
      simpa using hne
    rw [hnone, if_pos rfl]
    simp
  · have hsame := lookup_filter_of_pos (m := m)
      (f := fun p => decide (p ≠ k)) (i := q) (by simpa using hq)
    have hne : (q == k) = false := by simpa using hq
    rw [hsame, if_neg hq, List.lookup_cons, hne, List.lookup_nil, Option.or_none,
      blockAt]

/-- The non-empty removals at their new positions. -/
def movedRemovals (π : ℕ → ℕ) (cs : List (SubChange α)) : List (ℕ × List α) :=
  (cs.filter SubChange.removesSome).map fun c => (π c.from_, c.removed.getD [])

/-- Where nothing is overwritten, every removal is found at its new position. -/
theorem blockAt_rehomed {π : ℕ → ℕ} (hinj : Function.Injective π)
    (cs : List (SubChange α))
    (hp : cs.Pairwise (fun a b => a.removesSome = true →
      b.removed.isSome = true → a.from_ ≠ b.from_)) (q : ℕ) :
    blockAt (rehomed π cs) q = blockAt (movedRemovals π cs) q := by
  induction cs using List.reverseRecOn with
  | nil => rfl
  | append_singleton cs c ih =>
      obtain ⟨hcs, -, hlast⟩ := List.pairwise_append.mp hp
      have hfree : c.removed.isSome = true →
          ∀ e ∈ movedRemovals π cs, e.1 ≠ π c.from_ := by
        intro hsome e he heq
        obtain ⟨a, ha, rfl⟩ := List.mem_map.mp he
        obtain ⟨ha, hra⟩ := List.mem_filter.mp ha
        exact hlast a ha c (by simp) hra hsome (hinj heq)
      have hmoved : movedRemovals π (cs ++ [c]) = movedRemovals π cs ++
          if c.removesSome then [(π c.from_, c.removed.getD [])] else [] := by
        rw [movedRemovals, List.filter_append, List.map_append]
        cases h : c.removesSome <;> simp [h, movedRemovals]
      have hfold : rehomed π (cs ++ [c]) =
          match c.removed with
          | none => rehomed π cs
          | some r => mapPut (rehomed π cs) (π c.from_) r := by
        rw [rehomed, List.foldl_append]
        rfl
      rw [hmoved, hfold]
      cases hr : c.removed with
      | none =>
          have hno : c.removesSome = false := by simp [SubChange.removesSome, hr]
          rw [hno, if_neg (by simp), List.append_nil]
          exact ih hcs
      | some r =>
          have hfree' := hfree (by rw [hr]; rfl)
          simp only [blockAt_mapPut]
          rw [ih hcs]
          rcases r with _ | ⟨y, ys⟩
          · have hno : c.removesSome = false := by
              simp [SubChange.removesSome, hr]
            simp only [hno, Bool.false_eq_true, if_false, List.append_nil]
            by_cases hq : q = π c.from_
            · rw [if_pos hq, hq, blockAt_of_not_mem hfree']
            · rw [if_neg hq]
          · have hyes : c.removesSome = true := by
              simp [SubChange.removesSome, hr]
            simp only [hyes, if_true, blockAt, List.lookup_append]
            by_cases hq : q = π c.from_
            · subst hq
              have hlook : (movedRemovals π cs).lookup (π c.from_) = none := by
                refine List.lookup_eq_none_iff.mpr fun e he => ?_
                simpa using (hfree' e he).symm
              rw [hlook, if_pos rfl]
              simp
            · have hne : (q == π c.from_) = false := by simpa using hq
              rw [if_neg hq, List.lookup_cons, hne, List.lookup_nil,
                Option.or_none]

/-- **Agreement.** Under `Rehomes` the list the re-homed script starts from is
the permuted original list. -/
theorem weave_rehomed {from_ : ℕ} {perm : List ℕ} {O cur cur' : List α}
    {cs : List (SubChange α)} {A' : ℕ → Bool} (h : Diff 0 O (hunks cs) cur)
    (hperm : IsPerm from_ perm) (hto : from_ + perm.length ≤ cur.length)
    (hmov : Moves (target from_ perm) cur cur')
    (hA : ∀ j, j < cur.length →
      A' (target from_ perm j) = covered (hunks cs) j)
    (hr : Rehomes (target from_ perm) cur.length cs) :
    weave (blockAt (rehomed (target from_ perm) cs)) 0 (mask A' 0 cur') =
      fill 0 (blocks 0 0 (hunks cs)) (mask A' 0 cur').reduceOption := by
  obtain ⟨hcount, horder, hdistinct⟩ := hr
  have hinj := hperm.target_injective
  have hlen := hmov.length_eq
  -- the survivors before a position, counted after and before the move
  have hrank : ∀ c ∈ cs, c.removesSome = true →
      rank (mask A' 0 cur') (target from_ perm c.from_) =
        rank (mask (covered (hunks cs)) 0 cur) c.from_ := by
    intro c hc hsome
    have hrange : ((List.range cur.length).map (target from_ perm)).Perm
        (List.range cur.length) := by
      have := @isPerm_map_range' 0 cur.length _ hinj
        fun j _ hj => ⟨Nat.zero_le _, by
          have := hmov.target_lt (i := j) (by omega)
          omega⟩
      rwa [IsPerm, List.length_map, List.length_range', ← List.range_eq_range']
        at this
    rw [rank_mask, rank_mask, hlen, ← hrange.countP_eq, List.countP_map]
    have hsurv := (hcount c hc hsome).symm
    simp only [survives] at hsurv
    rw [← hsurv]
    refine List.countP_congr fun j hj => ?_
    rw [Function.comp_apply, hA j (List.mem_range.mp hj)]
  have hpw : (movedRemovals (target from_ perm) cs).Pairwise
      (fun a b => a.1 < b.1) := by
    rw [movedRemovals, List.pairwise_map, List.pairwise_filter]
    exact horder.imp fun hab ha hb => hab ha hb
  have hpos : ∀ e ∈ movedRemovals (target from_ perm) cs,
      0 ≤ e.1 ∧ e.1 ≤ 0 + (mask A' 0 cur').length := by
    intro e he
    obtain ⟨c, hc, rfl⟩ := List.mem_map.mp he
    have hb := h.bounds c.hunk (List.mem_map_of_mem (List.mem_filter.mp hc).1)
    simp only [SubChange.hunk] at hb
    rw [length_mask, hlen, Nat.zero_add]
    refine ⟨Nat.zero_le _, ?_⟩
    rcases Nat.lt_or_ge c.from_ cur.length with hlt | hge
    · exact Nat.le_of_lt (hlen ▸ hmov.target_lt hlt)
    · simp only
      rw [target_of_not (by omega)]
      omega
  rw [weave_eq_fill (movedRemovals (target from_ perm) cs) _ 0 0 _ hpw hpos
    fun q _ _ => blockAt_rehomed hinj cs hdistinct q]
  have hb := blocks_pairwise (hunks cs) 0 0
  rw [← fill_filter (blocks 0 0 (hunks cs)) 0 _ hb.1 hb.2, h.blocks_eq 0]
  congr 1
  rw [movedRemovals, List.map_map, List.filter_map, hunks, List.filter_map,
    List.map_map]
  refine List.map_congr_left fun c hc => ?_
  obtain ⟨hc, hsome⟩ := List.mem_filter.mp hc
  simp only [Function.comp_apply, Nat.sub_zero, Nat.zero_add]
  rw [hrank c hc hsome]
  rfl

/-! ## Kinds -/

theorem growRun_forall {P : SubChange α → Prop} {updated : Bool}
    (hP : ∀ i, P ⟨i, i + 1, none, [], updated⟩)
    (hto : ∀ c t, P c → P { c with to_ := t }) {cs : List (SubChange α)}
    (h : ∀ c ∈ cs, P c) (i : ℕ) : ∀ c ∈ growRun updated cs i, P c := by
  have hopen : ∀ c ∈ cs ++ [(⟨i, i + 1, none, [], updated⟩ : SubChange α)], P c := by
    intro c hc
    rcases List.mem_append.mp hc with hc | hc
    · exact h c hc
    · rw [List.mem_singleton.mp hc]
      exact hP i
  rw [growRun]
  cases hlast : cs.getLast? with
  | none => exact hopen
  | some last =>
      simp only
      split
      · exact forall_mem_set h (hto last _ (h last (List.mem_of_getLast? hlast))) _
      · exact hopen

theorem rehomeUpdates_isUpdate (from_ : ℕ) (perm : List ℕ)
    (cs : List (SubChange α)) :
    ∃ cs', rehomeUpdates from_ (from_ + perm.length) perm cs = .ok cs' ∧
      ∀ c ∈ cs', c.IsUpdate := by
  have hranges : cs.mapM (permutedRange from_ (from_ + perm.length) perm) =
      (.ok (cs.map fun c => (List.range' c.from_ (c.to_ - c.from_)).map
        (target from_ perm)) : Except Exn _) :=
    mapM_eq_ok fun c _ => mapM_eq_ok fun j _ => permutedIndex_eq rfl j
  refine ⟨_, by rw [rehomeUpdates, hranges]; rfl, ?_⟩
  generalize treeSet _ = U
  induction U using List.reverseRecOn with
  | nil => simp
  | append_singleton U i ih =>
      rw [List.foldl_append]
      exact growRun_forall (fun _ => ⟨rfl, rfl, rfl⟩) (fun c _ hc => hc) ih i

theorem addRun_isAddRemove {s : List (SubChange α) × List (ℕ × List α)}
    (h : ∀ c ∈ s.1, c.IsAddRemove) (i : ℕ) :
    ∀ c ∈ (addRun s i).1, c.IsAddRemove := by
  have hgrow : ∀ c ∈ growRun false s.1 i, c.IsAddRemove :=
    growRun_forall (fun _ => ⟨rfl, rfl⟩) (fun c _ hc => hc) h i
  rw [addRun, attachRemoved]
  split
  · exact hgrow
  · refine forall_mem_modify hgrow ?_ _
    exact fun c hc => hc

theorem addStandalone_isAddRemove {cs cs' : List (SubChange α)}
    {e : ℕ × List α} (h : ∀ c ∈ cs, c.IsAddRemove)
    (hcs' : addStandalone cs e = .ok cs') : ∀ c ∈ cs', c.IsAddRemove := by
  rw [addStandalone] at hcs'
  split at hcs'
  · cases hcs'
  · cases hcs'
    exact forall_mem_insertIdx h (d := ⟨e.1, e.1, some e.2, [], false⟩)
      ⟨rfl, rfl⟩ _

theorem rehome_isAddRemove {from_ : ℕ} {perm : List ℕ}
    {cs cs' : List (SubChange α)}
    (hcs' : rehome from_ (from_ + perm.length) perm cs = .ok cs') :
    ∀ c ∈ cs', c.IsAddRemove := by
  rw [rehome_eq] at hcs'
  simp only at hcs'
  generalize treeSet _ = U at hcs'
  have hruns : ∀ (U : List ℕ) (s : List (SubChange α) × List (ℕ × List α)),
      (∀ c ∈ s.1, c.IsAddRemove) →
      ∀ c ∈ (U.foldl addRun s).1, c.IsAddRemove := by
    intro U
    induction U with
    | nil => intro s hs; exact hs
    | cons i U ih => intro s hs; exact ih _ (addRun_isAddRemove hs i)
  have hrest : ∀ (rest : List (ℕ × List α)) (cs : List (SubChange α)),
      (∀ c ∈ cs, c.IsAddRemove) → rest.foldlM addStandalone cs = .ok cs' →
      ∀ c ∈ cs', c.IsAddRemove := by
    intro rest
    induction rest with
    | nil => intro cs h hcs; cases hcs; exact h
    | cons e rest ih =>
        intro cs h hcs
        rw [List.foldlM_cons] at hcs
        obtain ⟨cs₁, h₁, h₂⟩ := except_bind_eq_ok.mp hcs
        exact ih cs₁ (addStandalone_isAddRemove h h₁) h₂
  exact hrest _ _ (hruns U _ (by simp)) hcs'

end JavaFx.Collections
