import JavaFx.Collections.AddRemove
import JavaFx.Lib.ScriptViews

/-!
# Carrying a permutation over to the original list

The first half of `nextPermutation`. When sub-changes are recorded, a
permutation of the current list is turned into one of the original list: the
removed elements stay where they are, the others take the free places in the
order in which they stand after the permutation. `reconstruct_spec` says that
`reconstruct` succeeds and returns exactly that permutation.
-/

namespace JavaFx.Collections

open EditScript Weave IndexPerm

variable {α : Type}

/-! ## Writing an array once -/

/-- `m[π (p + k)] = vs[k]` for every `k`. -/
def writeAll {β : Type} (π : ℕ → ℕ) (vs : List β) (p : ℕ) (m : List β) :
    List β :=
  (vs.zipIdx p).foldl (fun m e => m.set (π e.2) e.1) m

theorem writeAll_append {β : Type} (π : ℕ → ℕ) (vs ws : List β) (p : ℕ)
    (m : List β) :
    writeAll π (vs ++ ws) p m = writeAll π ws (p + vs.length) (writeAll π vs p m) := by
  rw [writeAll, List.zipIdx_append, List.foldl_append]
  rfl

@[simp] theorem length_writeAll {β : Type} (π : ℕ → ℕ) (vs : List β) :
    ∀ (p : ℕ) (m : List β), (writeAll π vs p m).length = m.length := by
  induction vs with
  | nil => intro p m; rfl
  | cons v vs ih =>
      intro p m
      have := ih (p + 1) (m.set (π p) v)
      rw [List.length_set] at this
      exact this

theorem getElem?_writeAll_of_ne {β : Type} {π : ℕ → ℕ} {q : ℕ} (vs : List β) :
    ∀ (p : ℕ) (m : List β), (∀ j, p ≤ j → j < p + vs.length → π j ≠ q) →
      (writeAll π vs p m)[q]? = m[q]? := by
  induction vs with
  | nil => intro p m _; rfl
  | cons v vs ih =>
      intro p m h
      rw [List.length_cons] at h
      have := ih (p + 1) (m.set (π p) v) fun j h₁ h₂ => h j (by omega) (by omega)
      rw [List.getElem?_set_ne (h p (Nat.le_refl _) (by omega))] at this
      exact this

theorem getElem?_writeAll {β : Type} {π : ℕ → ℕ} (hinj : Function.Injective π)
    (vs : List β) : ∀ (p : ℕ) (m : List β) (k : ℕ), k < vs.length →
      π (p + k) < m.length → (writeAll π vs p m)[π (p + k)]? = vs[k]? := by
  induction vs with
  | nil => intro p m k hk _; simp at hk
  | cons v vs ih =>
      intro p m k hk hlt
      cases k with
      | zero =>
          have := getElem?_writeAll_of_ne (π := π) (q := π p) vs (p + 1)
            (m.set (π p) v) fun j h₁ _ heq => by
              have := hinj heq
              omega
          rw [Nat.add_zero] at hlt ⊢
          rw [List.getElem?_set_self hlt] at this
          exact this
      | succ k =>
          have := ih (p + 1) (m.set (π p) v) k (by simpa using hk)
            (by rw [List.length_set, Nat.add_right_comm]; exact hlt)
          rw [Nat.add_right_comm] at this
          exact this

/-- An array written at every position holds the values moved by `π`. -/
theorem writeAll_moves {β : Type} {π : ℕ → ℕ} (hinj : Function.Injective π)
    {vs m : List β} (hlen : m.length = vs.length)
    (hlt : ∀ k, k < vs.length → π k < vs.length) :
    Moves π vs (writeAll π vs 0 m) where
  length_eq := by rw [length_writeAll, hlen]
  get := fun k hk => by
    have := getElem?_writeAll hinj vs 0 m k hk
      (by rw [Nat.zero_add, hlen]; exact hlt k hk)
    rwa [Nat.zero_add] at this

theorem writeAll_map {β γ : Type} (f : β → γ) (π : ℕ → ℕ) (vs : List β) :
    ∀ (p : ℕ) (m : List β),
      writeAll π (vs.map f) p (m.map f) = (writeAll π vs p m).map f := by
  induction vs with
  | nil => intro p m; rfl
  | cons v vs ih =>
      intro p m
      have := ih (p + 1) (m.set (π p) v)
      rw [List.map_set] at this
      exact this

/-! ## `mapToOriginal` -/

section MapToOriginal

variable {from_ to_ : ℕ} {perm : List ℕ}

theorem permutedIndex_eq (hto : to_ = from_ + perm.length) (j : ℕ) :
    permutedIndex from_ to_ perm j = .ok (target from_ perm j) := by
  rw [permutedIndex]
  by_cases hj : j < from_ ∨ to_ ≤ j
  · rw [if_pos hj, target_of_not (by omega)]
  · rw [if_neg hj]
    obtain ⟨k, rfl⟩ := Nat.exists_eq_add_of_le (show from_ ≤ j by omega)
    have hk : k < perm.length := by omega
    have hsub : ((from_ + k : ℕ) : ℤ) - from_ = (k : ℤ) := by omega
    rw [hsub, arrayGet_of_lt hk, target_of_mem hk]

theorem mapRange_eq (hperm : IsPerm from_ perm) (hto : to_ = from_ + perm.length)
    (value : ℕ → ℤ) {lo hi : ℕ} {m : List ℤ} (htom : to_ ≤ m.length)
    (hhi : hi ≤ m.length) :
    mapRange from_ to_ perm lo hi value m =
      .ok (writeAll (target from_ perm) ((List.range' lo (hi - lo)).map value)
        lo m) := by
  have hfold : ∀ (n lo : ℕ) (m' : List ℤ), m'.length = m.length →
      lo + n ≤ m.length →
      (List.range' lo n).foldlM (fun m j => do
          let p ← permutedIndex from_ to_ perm j
          arraySet m p (value j)) m' =
        (.ok (writeAll (target from_ perm) ((List.range' lo n).map value) lo m') :
          Except Exn (List ℤ)) := by
    intro n
    induction n with
    | zero => intro lo m' _ _; rfl
    | succ n ih =>
        intro lo m' hm' hlo
        have hlt : target from_ perm lo < m'.length :=
          hperm.target_lt (by omega) (by omega)
        rw [List.range'_succ, List.foldlM_cons, permutedIndex_eq hto,
          except_ok_bind, arraySet_of_lt _ hlt, except_ok_bind,
          ih (lo + 1) _ (by rw [List.length_set, hm']) (by omega)]
        rfl
  rw [mapRange]
  by_cases hle : lo ≤ hi
  · exact hfold (hi - lo) lo m rfl (by omega)
  · have : hi - lo = 0 := by omega
    rw [this]
    rfl

/-- How `mapToOriginal` stores an origin. -/
def encodeOrigin : Option ℕ → ℤ
  | none => -1
  | some i => i

theorem map_offset_eq {p s : ℕ} {ofs : ℤ} (h : (p : ℤ) + ofs = s) (n : ℕ) :
    (List.range' p n).map (fun i : ℕ => (i : ℤ) + ofs) =
      ((List.range' s n).map some).map encodeOrigin := by
  rw [List.map_map]
  refine List.ext_getElem? fun j => ?_
  by_cases hj : j < n
  · simp only [List.getElem?_map, List.getElem?_range' hj, Option.map_some,
      Function.comp_apply, encodeOrigin]
    congr 1
    push_cast
    omega
  · rw [List.getElem?_eq_none (by simp; omega),
      List.getElem?_eq_none (by simp; omega)]

theorem map_minus_one (p n : ℕ) :
    (List.range' p n).map (fun _ : ℕ => (-1 : ℤ)) =
      (List.replicate n none).map encodeOrigin := by
  rw [List.map_const', List.length_range', List.map_replicate]
  rfl

/-- One sub-change of the loop: the kept run before it and its added range. -/
theorem mapChange_eq (hperm : IsPerm from_ perm)
    (hto : to_ = from_ + perm.length) {c : SubChange α} {p s : ℕ} {ofs : ℤ}
    {m : List ℤ} (rem : List ℤ) {K A : List α} (hlo : c.from_ = p + K.length)
    (hhi : c.to_ = c.from_ + A.length) (hofs : (p : ℤ) + ofs = s)
    (hm : c.to_ ≤ m.length) (htom : to_ ≤ m.length) :
    mapChange from_ to_ perm ⟨m, rem, p, ofs⟩ c = .ok {
      mapToOriginal := writeAll (target from_ perm)
        (((List.range' s K.length).map some ++
          List.replicate A.length none).map encodeOrigin) p m
      removed := rem ++
        (List.range' (s + K.length) c.hunk.old.length).map Nat.cast
      last := c.to_
      offset := ofs + ((c.hunk.old.length : ℤ) - A.length) } := by
  have hKlen : c.from_ - p = K.length := by omega
  have hAlen : c.to_ - c.from_ = A.length := by omega
  have hsize : c.removedSize = c.hunk.old.length := rfl
  have hrem : (List.range c.hunk.old.length).map
      (fun k : ℕ => (c.from_ : ℤ) + ofs + k) =
      (List.range' (s + K.length) c.hunk.old.length).map Nat.cast := by
    rw [List.range'_eq_map_range, List.map_map]
    refine List.map_congr_left fun k _ => ?_
    simp only [Function.comp_apply]
    push_cast
    omega
  have hadded : (c.to_ : ℤ) - c.from_ = A.length := by omega
  rw [mapChange, mapRange_eq hperm hto _ htom (by omega),
    except_ok_bind,
    mapRange_eq hperm hto _ (by rw [length_writeAll]; exact htom)
      (by rw [length_writeAll]; exact hm), except_ok_bind]
  simp only [hKlen, hAlen, List.map_append, writeAll_append, List.length_map,
    List.length_range', map_offset_eq hofs, map_minus_one, hsize, hrem, hadded,
    ← hlo]
  rfl

/-- The loop over the sub-changes together with the final one: every position
of the current list gets its origin, and the removed indices are collected. -/
theorem mapChanges_eq (hperm : IsPerm from_ perm)
    (hto : to_ = from_ + perm.length) (cs : List (SubChange α)) :
    ∀ (p s k : ℕ) (ofs : ℤ) (O cur : List α) (m rem : List ℤ),
      Diff p O (hunks cs) cur → (p : ℤ) + ofs = s → m.length = p + cur.length →
      to_ ≤ m.length →
      ∃ st : MapState,
        cs.foldlM (mapChange from_ to_ perm) ⟨m, rem, p, ofs⟩ = .ok st ∧
        st.removed = rem ++
          ((idxBlocks p s k (hunks cs)).flatMap Prod.snd).map Nat.cast ∧
        st.offset = ofs + ((O.length : ℤ) - cur.length) ∧
        mapRange from_ to_ perm st.last m.length
            (fun i : ℕ => (i : ℤ) + st.offset) st.mapToOriginal =
          .ok (writeAll (target from_ perm)
            ((origin p s (hunks cs) cur.length).map encodeOrigin) p m) := by
  induction cs with
  | nil =>
      intro p s k ofs O cur m rem hd hofs hm htom
      have hO := hd.kept_eq
      subst hO
      refine ⟨⟨m, rem, p, ofs⟩, rfl, by simp [idxBlocks], by simp, ?_⟩
      have hlen : m.length - p = O.length := by omega
      rw [mapRange_eq hperm hto _ htom (Nat.le_refl _), hlen, hunks,
        List.map_nil, origin, map_offset_eq hofs]
  | cons c cs ih =>
      intro p s k ofs O cur m rem hd hofs hm htom
      cases hd with
      | cons _ K A O' cur' _ _ hlo hhi htail =>
          have hlo' : c.from_ = p + K.length := hlo
          have hhi' : c.to_ = c.from_ + A.length := hhi
          simp only [List.length_append] at hm
          have hstep := mapChange_eq hperm hto rem hlo' hhi' hofs
            (m := m) (by omega) htom
          obtain ⟨st, hst, hrem, hoff, hmap⟩ := ih c.to_
            (s + K.length + c.hunk.old.length) (k + K.length)
            (ofs + ((c.hunk.old.length : ℤ) - A.length)) O' cur'
            (writeAll (target from_ perm) (((List.range' s K.length).map some ++
              List.replicate A.length none).map encodeOrigin) p m)
            (rem ++ (List.range' (s + K.length) c.hunk.old.length).map Nat.cast)
            htail (by push_cast; omega) (by rw [length_writeAll]; omega)
            (by rw [length_writeAll]; exact htom)
          have hK : c.hunk.lo - p = K.length := by
            rw [hlo]
            omega
          have hA : c.hunk.hi - c.hunk.lo = A.length := by
            rw [hhi]
            omega
          have hrest : (K ++ (A ++ cur')).length - (c.hunk.hi - p) =
              cur'.length := by
            simp only [List.length_append]
            omega
          have hto' : c.hunk.hi = c.to_ := rfl
          refine ⟨st, ?_, ?_, ?_, ?_⟩
          · rw [List.foldlM_cons, hstep, except_ok_bind, hst]
          · rw [hrem, hunks_cons, idxBlocks, List.flatMap_cons,
              List.map_append, hK, hto', List.append_assoc]
          · rw [hoff]
            simp only [List.length_append]
            push_cast
            omega
          · rw [length_writeAll] at hmap
            have hlen : p + (List.map encodeOrigin
                ((List.range' s K.length).map some ++
                  List.replicate A.length none)).length = c.to_ := by
              simp only [List.length_map, List.length_append,
                List.length_range', List.length_replicate]
              omega
            rw [hmap, hunks_cons, origin, hrest, hK, hA, hto',
              ← List.append_assoc, @List.map_append _ _ encodeOrigin (_ ++ _),
              writeAll_append, hlen]

end MapToOriginal

/-! ## `newPerm`

Round `i` of the last loop writes `i` to one place of `newPerm`: to `i` itself
for a removed element, else to the next origin in `mapToOriginal`. -/

/-- The places written in the rounds `is`, where `qs` are the origins still to
come. -/
def slots (removed : List ℕ) : List ℕ → List ℕ → List ℕ
  | [], _ => []
  | i :: is, qs =>
      if i ∈ removed then i :: slots removed is qs
      else
        match qs with
        | [] => []
        | q :: qs => q :: slots removed is qs

theorem slots_of_mem {removed : List ℕ} {i : ℕ} (h : i ∈ removed)
    (is qs : List ℕ) : slots removed (i :: is) qs = i :: slots removed is qs := by
  cases qs <;> rw [slots, if_pos h]

theorem slots_of_not_mem {removed : List ℕ} {i : ℕ} (h : i ∉ removed)
    (is : List ℕ) (q : ℕ) (qs : List ℕ) :
    slots removed (i :: is) (q :: qs) = q :: slots removed is qs := by
  rw [slots, if_neg h]

theorem slots_append_removed {removed : List ℕ} (is js : List ℕ) (qs : List ℕ)
    (h : ∀ i ∈ is, i ∈ removed) :
    slots removed (is ++ js) qs = is ++ slots removed js qs := by
  induction is with
  | nil => rfl
  | cons i is ih =>
      rw [List.cons_append, slots_of_mem (h i List.mem_cons_self),
        ih fun j hj => h j (List.mem_cons_of_mem _ hj)]
      rfl

theorem slots_append_kept {removed : List ℕ} (is js : List ℕ) :
    ∀ qs : List ℕ, (∀ i ∈ is, i ∉ removed) → is.length ≤ qs.length →
      slots removed (is ++ js) qs =
        qs.take is.length ++ slots removed js (qs.drop is.length) := by
  induction is with
  | nil => intro qs _ _; rfl
  | cons i is ih =>
      intro qs h hlen
      cases qs with
      | nil => simp at hlen
      | cons q qs =>
          rw [List.cons_append, slots_of_not_mem (h i List.mem_cons_self),
            ih qs (fun j hj => h j (List.mem_cons_of_mem _ hj))
              (by simpa using hlen)]
          rfl

theorem idxBlocks_ge (hs : List (Hunk α)) : ∀ (p s k : ℕ),
    ∀ i ∈ (idxBlocks p s k hs).flatMap Prod.snd, s ≤ i := by
  induction hs with
  | nil => intro p s k i hi; simp [idxBlocks] at hi
  | cons h hs ih =>
      intro p s k i hi
      rw [idxBlocks, List.flatMap_cons, List.mem_append] at hi
      rcases hi with hi | hi
      · have := List.mem_range'_1.mp hi
        omega
      · have := ih _ _ _ i hi
        omega

/-- Over the whole old list the places are the removed indices filled into the
origins that are left. -/
theorem Diff.slots_eq_fill {p : ℕ} {O cur : List α} {hs : List (Hunk α)}
    (h : Diff p O hs cur) : ∀ (s k : ℕ) (removed qs : List ℕ),
      (∀ i, s ≤ i →
        (i ∈ removed ↔ i ∈ (idxBlocks p s k hs).flatMap Prod.snd)) →
      qs.length = (origin p s hs cur.length).reduceOption.length →
      slots removed (List.range' s O.length) qs =
        fill k (idxBlocks p s k hs) qs := by
  induction h with
  | nil p K =>
      intro s k removed qs hrem hlen
      rw [origin, reduceOption_map_some, List.length_range'] at hlen
      have := @slots_append_kept removed (List.range' s K.length) []
        qs (fun i hi hmem => by
          have := (hrem i (List.mem_range'_1.mp hi).1).mp hmem
          simp [idxBlocks] at this)
        (by rw [List.length_range']; omega)
      rw [List.append_nil] at this
      rw [this, List.length_range', List.take_of_length_le (by omega)]
      simp [slots, idxBlocks, fill]
  | cons p K A O cur x hs hlo hhi hd ih =>
      intro s k removed qs hrem hlen
      have hrest : (K ++ (A ++ cur)).length - (x.hi - p) = cur.length := by
        simp only [List.length_append]
        omega
      have hK : x.lo - p = K.length := by omega
      rw [origin, hrest, hK, List.reduceOption_append, List.reduceOption_append,
        reduceOption_map_some, reduceOption_replicate_none, List.nil_append,
        List.length_append, List.length_range'] at hlen
      rw [idxBlocks, hK, List.flatMap_cons] at hrem
      have hrange : List.range' s (K ++ (x.old ++ O)).length =
          List.range' s K.length ++ (List.range' (s + K.length) x.old.length ++
            List.range' (s + K.length + x.old.length) O.length) := by
        rw [List.range'_append_1, List.range'_append_1, List.length_append,
          List.length_append]
      have hkept : ∀ i ∈ List.range' s K.length, i ∉ removed := by
        intro i hi hmem
        obtain ⟨h₁, h₂⟩ := List.mem_range'_1.mp hi
        rcases List.mem_append.mp ((hrem i h₁).mp hmem) with hi | hi
        · have := List.mem_range'_1.mp hi
          omega
        · have := idxBlocks_ge _ _ _ _ i hi
          omega
      have hgone : ∀ i ∈ List.range' (s + K.length) x.old.length,
          i ∈ removed := by
        intro i hi
        have := (List.mem_range'_1.mp hi).1
        exact (hrem i (by omega)).mpr (List.mem_append_left _ hi)
      rw [hrange, slots_append_kept _ _ _ hkept (by rw [List.length_range']; omega),
        slots_append_removed _ _ _ hgone, List.length_range', idxBlocks, fill, hK,
        Nat.add_sub_cancel_left,
        ih (s + K.length + x.old.length) (k + K.length) removed
          (qs.drop K.length) ?_ ?_]
      · intro i hi
        rw [hrem i (by omega), List.mem_append]
        constructor
        · rintro (hmem | hmem)
          · have := List.mem_range'_1.mp hmem
            omega
          · exact hmem
        · exact Or.inr
      · rw [List.length_drop]
        omega

/-- `m[labs[k]] = i + k` for every `k`. -/
def writeInv (labs : List ℕ) (i : ℕ) (m : List ℕ) : List ℕ :=
  (labs.zipIdx i).foldl (fun m e => m.set e.1 e.2) m

@[simp] theorem length_writeInv (labs : List ℕ) :
    ∀ (i : ℕ) (m : List ℕ), (writeInv labs i m).length = m.length := by
  induction labs with
  | nil => intro i m; rfl
  | cons l labs ih =>
      intro i m
      have := ih (i + 1) (m.set l i)
      rw [List.length_set] at this
      exact this

theorem getElem?_writeInv_of_not_mem {q : ℕ} (labs : List ℕ) :
    ∀ (i : ℕ) (m : List ℕ), q ∉ labs → (writeInv labs i m)[q]? = m[q]? := by
  induction labs with
  | nil => intro i m _; rfl
  | cons l labs ih =>
      intro i m h
      rw [List.mem_cons, not_or] at h
      have := ih (i + 1) (m.set l i) h.2
      rw [List.getElem?_set_ne (Ne.symm h.1)] at this
      exact this

theorem getElem?_writeInv {labs : List ℕ} (hnd : labs.Nodup) :
    ∀ (i : ℕ) (m : List ℕ) (k : ℕ) (hk : k < labs.length),
      labs[k] < m.length → (writeInv labs i m)[labs[k]]? = some (i + k) := by
  induction labs with
  | nil => intro i m k hk; simp at hk
  | cons l labs ih =>
      intro i m k hk hlt
      obtain ⟨hl, hnd'⟩ := List.nodup_cons.mp hnd
      cases k with
      | zero =>
          have := getElem?_writeInv_of_not_mem labs (i + 1) (m.set l i) hl
          rw [List.getElem?_set_self (show l < m.length from hlt)] at this
          exact this
      | succ k =>
          have := ih hnd' (i + 1) (m.set l i) k (by simpa using hk)
            (by simpa using hlt)
          rw [Nat.add_right_comm] at this
          exact this

/-- Writing the rounds to the places `labs` inverts `labs`. -/
theorem writeInv_spec {labs m : List ℕ} (h : IsPerm 0 labs)
    (hm : m.length = labs.length) :
    IsPerm 0 (writeInv labs 0 m) ∧
      ∀ k (hk : k < labs.length), target 0 (writeInv labs 0 m) labs[k] = k := by
  have hlt : ∀ k (hk : k < labs.length), labs[k] < labs.length := by
    intro k hk
    simpa using (h.mem_iff.mp (List.getElem_mem hk)).2
  have hget : ∀ k (hk : k < labs.length),
      (writeInv labs 0 m)[labs[k]]? = some k := by
    intro k hk
    have := getElem?_writeInv h.nodup 0 m k hk (by rw [hm]; exact hlt k hk)
    rwa [Nat.zero_add] at this
  have hsource : ∀ p, p < labs.length →
      ∃ k, ∃ hk : k < labs.length, labs[k] = p := by
    intro p hp
    obtain ⟨k, hk, rfl⟩ := List.mem_iff_getElem.mp
      (h.mem_iff.mpr ⟨Nat.zero_le p, by omega⟩)
    exact ⟨k, hk, rfl⟩
  refine ⟨perm_range'_of_nodup (List.nodup_iff_injective_getElem.mpr ?_) ?_, ?_⟩
  · rintro ⟨p, hp⟩ ⟨q, hq⟩ heq
    rw [length_writeInv, hm] at hp hq
    obtain ⟨i, hi, rfl⟩ := hsource p hp
    obtain ⟨j, hj, rfl⟩ := hsource q hq
    have h₁ := hget i hi
    have h₂ := hget j hj
    rw [List.getElem?_eq_getElem (by rw [length_writeInv, hm]; exact hp)] at h₁
    rw [List.getElem?_eq_getElem (by rw [length_writeInv, hm]; exact hq)] at h₂
    have hij : i = j := by
      rw [← Option.some.inj h₁, ← Option.some.inj h₂]
      exact heq
    simp only [hij]
  · intro x hx
    obtain ⟨p, hp, rfl⟩ := List.mem_iff_getElem.mp hx
    have hp' := hp
    rw [length_writeInv, hm] at hp'
    obtain ⟨k, hk, rfl⟩ := hsource p hp'
    have h₁ := hget k hk
    rw [List.getElem?_eq_getElem hp] at h₁
    rw [Option.some.inj h₁, length_writeInv, hm]
    omega
  · intro k hk
    have hlen : labs[k] < (writeInv labs 0 m).length := by
      rw [length_writeInv, hm]
      exact hlt k hk
    have h₁ := hget k hk
    rw [List.getElem?_eq_getElem hlen] at h₁
    have h₂ := @target_of_mem 0 _ _ hlen
    rw [Nat.zero_add] at h₂
    rw [h₂, Option.some.inj h₁]

/-- Skipping the `-1` entries leads to the next origin. -/
theorem skipAdded_eq {o : List (Option ℕ)} : ∀ {ptr q : ℕ} {qs : List ℕ},
    (o.drop ptr).reduceOption = q :: qs →
      ∃ ptr', skipAdded (o.map encodeOrigin) ptr = .ok ptr' ∧
        o[ptr']? = some (some q) ∧ (o.drop (ptr' + 1)).reduceOption = qs := by
  intro ptr q qs h
  have hidx : ∀ (o : List (Option ℕ)), o.reduceOption = q :: qs →
      ∃ k, (o.map encodeOrigin).findIdx? (· ≠ -1) = some k ∧
        o[k]? = some (some q) ∧ (o.drop (k + 1)).reduceOption = qs := by
    intro o
    induction o with
    | nil => intro h; cases h
    | cons v o ih =>
        intro h
        cases v with
        | none =>
            rw [List.reduceOption_cons_of_none] at h
            obtain ⟨k, hk, hget, hrest⟩ := ih h
            refine ⟨k + 1, ?_, hget, hrest⟩
            rw [List.map_cons, List.findIdx?_cons, if_neg (by simp [encodeOrigin]),
              hk]
            rfl
        | some r =>
            rw [List.reduceOption_cons_of_some] at h
            obtain ⟨rfl, rfl⟩ := List.cons.inj h
            refine ⟨0, ?_, rfl, rfl⟩
            rw [List.map_cons, List.findIdx?_cons,
              if_pos (by simp [encodeOrigin])]
  obtain ⟨k, hk, hget, hrest⟩ := hidx _ h
  refine ⟨ptr + k, ?_, ?_, ?_⟩
  · rw [skipAdded, ← List.map_drop, hk]
  · rwa [List.getElem?_drop] at hget
  · rwa [List.drop_drop] at hrest

/-- The loop that fills `newPerm`. -/
theorem fillPerm_loop {o : List (Option ℕ)} {removed : List ℕ} (n : ℕ) :
    ∀ (i ptr : ℕ) (m qs : List ℕ), (o.drop ptr).reduceOption = qs →
      (slots removed (List.range' i n) qs).length = n →
      (∀ l ∈ slots removed (List.range' i n) qs, l < m.length) →
      (∃ ptr', (List.range' i n).foldlM
        (fillPerm (o.map encodeOrigin) (removed.map Nat.cast)) (m, ptr) =
          .ok (writeInv (slots removed (List.range' i n) qs) i m, ptr')) := by
  induction n with
  | zero => intro i ptr m qs _ _ _; exact ⟨ptr, rfl⟩
  | succ n ih =>
      intro i ptr m qs hqs hlen hlt
      rw [List.range'_succ] at hlen hlt ⊢
      have hcast : ((i : ℤ) ∈ removed.map Nat.cast) ↔ i ∈ removed := by
        simp
      by_cases hi : i ∈ removed
      · rw [slots_of_mem hi] at hlen hlt ⊢
        have him := hlt i List.mem_cons_self
        have hround : fillPerm (o.map encodeOrigin) (removed.map Nat.cast)
            (m, ptr) i = .ok (m.set i i, ptr) := by
          rw [fillPerm, if_pos (hcast.mpr hi), arraySet_of_lt _ him]
          rfl
        obtain ⟨ptr', hptr'⟩ := ih (i + 1) ptr (m.set i i) qs hqs
          (by simpa using hlen)
          (fun l hl => by
            rw [List.length_set]
            exact hlt l (List.mem_cons_of_mem _ hl))
        refine ⟨ptr', ?_⟩
        rw [List.foldlM_cons, hround, except_ok_bind, hptr']
        rfl
      · cases qs with
        | nil => simp [slots, hi] at hlen
        | cons q qs =>
            rw [slots_of_not_mem hi] at hlen hlt ⊢
            have hqm := hlt q List.mem_cons_self
            obtain ⟨k, hskip, hget, hrest⟩ := skipAdded_eq hqs
            have hk : arrayGet (o.map encodeOrigin) (k : ℤ) = .ok (q : ℤ) := by
              refine arrayGet_eq_of_getElem? (Int.natCast_nonneg k) ?_
              rw [Int.toNat_natCast, List.getElem?_map, hget]
              rfl
            have hround : fillPerm (o.map encodeOrigin) (removed.map Nat.cast)
                (m, ptr) i = .ok (m.set q i, k + 1) := by
              rw [fillPerm, if_neg (mt hcast.mp hi), hskip, except_ok_bind, hk,
                except_ok_bind, arraySet_of_lt _ hqm]
              rfl
            obtain ⟨ptr', hptr'⟩ := ih (i + 1) (k + 1) (m.set q i) qs hrest
              (by simpa using hlen)
              (fun l hl => by
                rw [List.length_set]
                exact hlt l (List.mem_cons_of_mem _ hl))
            refine ⟨ptr', ?_⟩
            rw [List.foldlM_cons, hround, except_ok_bind, hptr']
            rfl

/-! ## The reconstructed permutation -/

section Reconstruct

variable {from_ : ℕ} {perm : List ℕ} {O cur cur' : List α}
  {cs : List (SubChange α)}

/-- Masking commutes with a permutation of the positions. -/
theorem mask_moves {π : ℕ → ℕ} {A A' : ℕ → Bool} (h : Moves π cur cur')
    (hA : ∀ j, j < cur.length → A' (π j) = A j) :
    Moves π (mask A 0 cur) (mask A' 0 cur') where
  length_eq := by rw [length_mask, length_mask, h.length_eq]
  get := fun j hj => by
    rw [length_mask] at hj
    rw [getElem?_mask, getElem?_mask, h.get j hj, Nat.zero_add, Nat.zero_add,
      hA j hj]

/-- The result of `reconstruct`: the places `labs`, inverted. -/
theorem reconstruct_eq (h : Diff 0 O (hunks cs) cur) (hperm : IsPerm from_ perm)
    (hto : from_ + perm.length ≤ cur.length) :
    ∃ (o : List (Option ℕ)) (labs : List ℕ),
      Moves (target from_ perm) (origin 0 0 (hunks cs) cur.length) o ∧
      labs = fill 0 (idxBlocks 0 0 0 (hunks cs)) o.reduceOption ∧
      IsPerm 0 labs ∧ labs.length = O.length ∧
      reconstruct cur.length from_ (from_ + perm.length) perm cs =
        .ok (writeInv labs 0 (List.replicate O.length 0)) := by
  have hog := h.length_origin 0
  have hinj := hperm.target_injective
  obtain ⟨st, hst, hrem, hoff, hmap⟩ := mapChanges_eq hperm rfl cs 0 0 0 0 O cur
    (List.replicate cur.length 0) [] h rfl (by simp) (by simpa using hto)
  rw [List.nil_append] at hrem
  rw [Int.zero_add] at hoff
  -- `mapToOriginal` as a list of origins
  let o := writeAll (target from_ perm) (origin 0 0 (hunks cs) cur.length) 0
    (List.replicate cur.length (some 0))
  have hmov : Moves (target from_ perm) (origin 0 0 (hunks cs) cur.length) o := by
    refine writeAll_moves hinj (by rw [List.length_replicate, hog]) ?_
    intro k hk
    rw [hog] at hk ⊢
    exact hperm.target_lt hto hk
  have hmap' : mapRange from_ (from_ + perm.length) perm st.last cur.length
      (fun i : ℕ => (i : ℤ) + st.offset) st.mapToOriginal =
        .ok (o.map encodeOrigin) := by
    rw [List.length_replicate] at hmap
    have hzero : List.replicate cur.length (0 : ℤ) =
        (List.replicate cur.length (some 0)).map encodeOrigin := by
      rw [List.map_replicate]
      rfl
    rw [hmap, hzero, writeAll_map]
  -- the places written
  have hqs : o.reduceOption.Perm
      (origin 0 0 (hunks cs) cur.length).reduceOption :=
    (hmov.perm hinj).filterMap id
  have hslots : slots ((idxBlocks 0 0 0 (hunks cs)).flatMap Prod.snd)
      (List.range' 0 O.length) o.reduceOption =
        fill 0 (idxBlocks 0 0 0 (hunks cs)) o.reduceOption :=
    Diff.slots_eq_fill h 0 0 _ _ (fun i _ => Iff.rfl) hqs.length_eq
  have hlabs : (fill 0 (idxBlocks 0 0 0 (hunks cs)) o.reduceOption).Perm
      (List.range' 0 O.length) := by
    rw [← h.fill_idxBlocks 0 0]
    exact (fill_perm _ _ _).trans
      ((hqs.append_left _).trans (fill_perm _ _ _).symm)
  have hlen : (fill 0 (idxBlocks 0 0 0 (hunks cs)) o.reduceOption).length =
      O.length := by
    rw [hlabs.length_eq, List.length_range']
  obtain ⟨ptr, hloop⟩ := @fillPerm_loop o
    ((idxBlocks 0 0 0 (hunks cs)).flatMap Prod.snd) O.length 0 0
    (List.replicate O.length 0) o.reduceOption rfl (by rw [hslots, hlen])
    (fun l hl => by
      rw [hslots] at hl
      simpa using (List.mem_range'_1.mp (hlabs.mem_iff.mp hl)).2)
  refine ⟨o, _, hmov, rfl, by rw [IsPerm, hlen]; exact hlabs, hlen, ?_⟩
  have hsize : (cur.length : ℤ) + st.offset = O.length := by
    rw [hoff]
    omega
  rw [reconstruct, hst, except_ok_bind, hmap', except_ok_bind, hsize,
    if_neg (by omega), Int.toNat_natCast, List.range_eq_range', hrem, hloop,
    except_ok_bind, hslots]
  rfl

/-- **The permutation of the original list.** It exists, and it turns the old
list into the kept elements in their new order with the removed blocks still
behind as many kept elements as before. -/
theorem reconstruct_spec {A' : ℕ → Bool} (h : Diff 0 O (hunks cs) cur)
    (hperm : IsPerm from_ perm) (hto : from_ + perm.length ≤ cur.length)
    (hmov : Moves (target from_ perm) cur cur')
    (hA : ∀ j, j < cur.length →
      A' (target from_ perm j) = covered (hunks cs) j) :
    ∃ newPerm,
      reconstruct cur.length from_ (from_ + perm.length) perm cs = .ok newPerm ∧
      newPerm.length = O.length ∧ IsPerm 0 newPerm ∧
      Moves (target 0 newPerm) O (fill 0 (blocks 0 0 (hunks cs))
        (mask A' 0 cur').reduceOption) := by
  obtain ⟨o, labs, ho, hlabs, hlperm, hllen, hrec⟩ := reconstruct_eq h hperm hto
  obtain ⟨hnew, htarget⟩ := writeInv_spec (m := List.replicate O.length 0) hlperm
    (by rw [List.length_replicate, hllen])
  refine ⟨_, hrec, by simp, hnew, ?_⟩
  -- the origins, looked up in the old list, are the kept elements
  have hlook : o.map (fun v => v.bind fun i => O[i]?) = mask A' 0 cur' := by
    have h₁ := ho.map fun v => v.bind fun i => O[i]?
    have h₂ := h.origin_lookup []
    rw [List.length_nil, List.nil_append] at h₂
    rw [h₂] at h₁
    exact h₁.unique hperm.target_injective (mask_moves hmov hA)
  have hin : ∀ q ∈ o.reduceOption, q < O.length := by
    intro q hq
    have hmem : q ∈ labs := by
      rw [hlabs, (fill_perm _ _ _).mem_iff, List.mem_append]
      exact Or.inr hq
    have := hlperm.mem_iff.mp hmem
    omega
  have hkept : o.reduceOption.map (fun i => O[i]?) =
      ((mask A' 0 cur').reduceOption).map some := by
    rw [← hlook]
    clear hlook ho hlabs hlperm
    induction o with
    | nil => rfl
    | cons v o ih =>
        cases v with
        | none =>
            rw [List.reduceOption_cons_of_none] at hin
            rw [List.map_cons, Option.bind_none, List.reduceOption_cons_of_none,
              List.reduceOption_cons_of_none, ih hin]
        | some q =>
            rw [List.reduceOption_cons_of_some] at hin
            have hq := hin q List.mem_cons_self
            rw [List.map_cons, Option.bind_some, List.getElem?_eq_getElem hq,
              List.reduceOption_cons_of_some, List.reduceOption_cons_of_some,
              List.map_cons, List.map_cons, List.getElem?_eq_getElem hq,
              ih fun r hr => hin r (List.mem_cons_of_mem _ hr)]
  have hfill : labs.map (fun i => O[i]?) =
      (fill 0 (blocks 0 0 (hunks cs)) (mask A' 0 cur').reduceOption).map some := by
    have hb := h.idxBlocks_lookup 0 []
    rw [List.length_nil, List.nil_append] at hb
    rw [hlabs, fill_map, fill_map, hb, hkept]
  refine ⟨?_, fun i hi => ?_⟩
  · have := congrArg List.length hfill
    rw [List.length_map, List.length_map] at this
    omega
  · obtain ⟨k, hk, rfl⟩ := List.mem_iff_getElem.mp
      (hlperm.mem_iff.mpr ⟨Nat.zero_le i, by omega⟩)
    have := congrArg (fun l => l[k]?) hfill
    simp only [List.getElem?_map, List.getElem?_eq_getElem hk,
      Option.map_some] at this
    rw [htarget k hk]
    cases hf : (fill 0 (blocks 0 0 (hunks cs))
        (mask A' 0 cur').reduceOption)[k]? with
    | none => rw [hf] at this; cases this
    | some y =>
        rw [hf] at this
        exact (Option.some.inj this).symm

end Reconstruct

end JavaFx.Collections
