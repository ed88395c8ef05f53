import JavaFx.Lib.IndexPerm
import Mathlib.Data.List.Lookmap
import Mathlib.Data.List.ReduceOption

/-!
# Interleaving a list with blocks

Two descriptions of the same list: `weave` walks over positions, where some
elements are masked out and a block may stand in front of each position;
`fill` walks over the blocks and says how many elements come before each.
`weave_eq_fill` translates one into the other.
-/

namespace Weave

variable {α β : Type*}

/-! ## Masking -/

/-- The elements of `l`, which starts at position `p`, with those at masked
positions left out. -/
def mask (A : ℕ → Bool) (p : ℕ) (l : List α) : List (Option α) :=
  (l.zipIdx p).map fun e => if A e.2 then none else some e.1

@[simp] theorem length_mask (A : ℕ → Bool) (p : ℕ) (l : List α) :
    (mask A p l).length = l.length := by
  simp [mask]

theorem getElem?_mask (A : ℕ → Bool) (p : ℕ) (l : List α) (j : ℕ) :
    (mask A p l)[j]? = l[j]?.map fun x => if A (p + j) then none else some x := by
  simp only [mask, List.getElem?_map, List.getElem?_zipIdx]
  cases l[j]? <;> rfl

theorem mask_append (A : ℕ → Bool) (p : ℕ) (l l' : List α) :
    mask A p (l ++ l') = mask A p l ++ mask A (p + l.length) l' := by
  simp [mask, List.zipIdx_append]

theorem mask_congr {A A' : ℕ → Bool} {p : ℕ} {l : List α}
    (h : ∀ j, p ≤ j → j < p + l.length → A j = A' j) :
    mask A p l = mask A' p l := by
  refine List.ext_getElem? fun j => ?_
  rw [getElem?_mask, getElem?_mask]
  by_cases hj : j < l.length
  · rw [h (p + j) (by omega) (by omega)]
  · rw [List.getElem?_eq_none (by omega)]
    rfl

theorem mask_eq_map_some {A : ℕ → Bool} {p : ℕ} {l : List α}
    (h : ∀ j, p ≤ j → j < p + l.length → A j = false) :
    mask A p l = l.map some := by
  refine List.ext_getElem? fun j => ?_
  rw [getElem?_mask, List.getElem?_map]
  by_cases hj : j < l.length
  · rw [h (p + j) (by omega) (by omega)]
    rfl
  · rw [List.getElem?_eq_none (by omega)]
    rfl

theorem mask_eq_replicate_none {A : ℕ → Bool} {p : ℕ} {l : List α}
    (h : ∀ j, p ≤ j → j < p + l.length → A j = true) :
    mask A p l = List.replicate l.length none := by
  refine List.ext_getElem? fun j => ?_
  rw [getElem?_mask, List.getElem?_replicate]
  by_cases hj : j < l.length
  · rw [h (p + j) (by omega) (by omega), List.getElem?_eq_getElem hj, if_pos hj]
    rfl
  · rw [List.getElem?_eq_none (by omega), if_neg hj]
    rfl

theorem reduceOption_map_some (l : List α) : (l.map some).reduceOption = l := by
  simp [List.reduceOption, List.filterMap_map]

theorem reduceOption_replicate_none (n : ℕ) :
    (List.replicate n (none : Option α)).reduceOption = [] := by
  simp

/-! ## Weaving by position -/

/-- Walk over `v` from position `p`: at each position first its block, then the
element unless it is masked out. -/
def weaveTo (B : ℕ → List α) : ℕ → List (Option α) → List α
  | _, [] => []
  | p, v :: vs => B p ++ (v.toList ++ weaveTo B (p + 1) vs)

/-- The whole walk, with the block at the end position. -/
def weave (B : ℕ → List α) (p : ℕ) (v : List (Option α)) : List α :=
  weaveTo B p v ++ B (p + v.length)

theorem weaveTo_append (B : ℕ → List α) (v v' : List (Option α)) :
    ∀ p, weaveTo B p (v ++ v') =
      weaveTo B p v ++ weaveTo B (p + v.length) v' := by
  induction v with
  | nil => intro p; rfl
  | cons x v ih =>
      intro p
      rw [List.cons_append, weaveTo, weaveTo, ih, List.length_cons,
        List.append_assoc, List.append_assoc]
      congr 4
      omega

theorem weave_append (B : ℕ → List α) (p : ℕ) (v v' : List (Option α)) :
    weave B p (v ++ v') = weaveTo B p v ++ weave B (p + v.length) v' := by
  rw [weave, weave, weaveTo_append, List.append_assoc, List.length_append,
    Nat.add_assoc]

theorem weaveTo_congr {B B' : ℕ → List α} {v : List (Option α)} :
    ∀ {p : ℕ}, (∀ q, p ≤ q → q < p + v.length → B q = B' q) →
      weaveTo B p v = weaveTo B' p v := by
  induction v with
  | nil => intro p _; rfl
  | cons x v ih =>
      intro p h
      rw [weaveTo, weaveTo, h p (Nat.le_refl _) (by simp),
        ih fun q h₁ h₂ => h q (by omega) (by rw [List.length_cons]; omega)]

/-- Without blocks only the unmasked elements remain. -/
theorem weaveTo_of_no_block {B : ℕ → List α} {v : List (Option α)} :
    ∀ {p : ℕ}, (∀ q, p ≤ q → q < p + v.length → B q = []) →
      weaveTo B p v = v.reduceOption := by
  induction v with
  | nil => intro p _; rfl
  | cons x v ih =>
      intro p h
      rw [weaveTo, h p (Nat.le_refl _) (by simp), List.nil_append,
        ih fun q h₁ h₂ => h q (by omega) (by rw [List.length_cons]; omega)]
      cases x <;> simp

/-- Over masked positions only the blocks remain. -/
theorem weaveTo_replicate_none (B : ℕ → List α) (n : ℕ) :
    ∀ p, weaveTo B p (List.replicate n none) =
      (List.range' p n).flatMap B := by
  induction n with
  | zero => intro p; rfl
  | succ n ih =>
      intro p
      rw [List.replicate_succ, weaveTo, ih, List.range'_succ, List.flatMap_cons]
      rfl

/-- The block at the first position comes first. -/
theorem weave_head (B : ℕ → List α) (p : ℕ) (v : List (Option α)) :
    weave B p v = B p ++ weave (Function.update B p []) p v := by
  cases v with
  | nil => simp [weave, weaveTo]
  | cons x v =>
      have hne : p + (x :: v).length ≠ p := by simp
      have hsame : weaveTo (Function.update B p []) (p + 1) v =
          weaveTo B (p + 1) v :=
        weaveTo_congr fun q hq _ => Function.update_of_ne (by omega) _ _
      rw [weave, weave, weaveTo, weaveTo, Function.update_self,
        Function.update_of_ne hne, List.nil_append, List.append_assoc, hsame]

/-! ## Filling by block -/

/-- Put each block behind as many elements of `ks` as its count says; `k` of
them have been placed already. -/
def fill (k : ℕ) : List (ℕ × List β) → List β → List β
  | [], ks => ks
  | (n, R) :: bs, ks => ks.take (n - k) ++ (R ++ fill n bs (ks.drop (n - k)))

theorem fill_map (f : α → β) (bs : List (ℕ × List α)) :
    ∀ (k : ℕ) (ks : List α), (fill k bs ks).map f =
      fill k (bs.map fun e => (e.1, e.2.map f)) (ks.map f) := by
  induction bs with
  | nil => intro k ks; rfl
  | cons b bs ih =>
      intro k ks
      simp only [fill, List.map_cons, List.map_append, ih, List.map_take,
        List.map_drop]

theorem fill_perm (bs : List (ℕ × List β)) :
    ∀ (k : ℕ) (ks : List β),
      (fill k bs ks).Perm ((bs.flatMap Prod.snd) ++ ks) := by
  induction bs with
  | nil => intro k ks; exact List.Perm.refl _
  | cons b bs ih =>
      intro k ks
      rw [fill, List.flatMap_cons, List.append_assoc]
      have h₁ := (ih b.1 (ks.drop (b.1 - k))).append_left b.2
      have h₂ := h₁.append_left (ks.take (b.1 - k))
      refine h₂.trans ?_
      have h₃ := (@List.perm_append_comm _ (ks.take (b.1 - k))
        (b.2 ++ bs.flatMap Prod.snd)).append_right (ks.drop (b.1 - k))
      simpa [List.append_assoc] using h₃

theorem fill_skip {k n : ℕ} (hkn : k ≤ n) (bs : List (ℕ × List β))
    (hbs : ∀ e ∈ bs, n ≤ e.1) (ks : List β) :
    ks.take (n - k) ++ fill n bs (ks.drop (n - k)) = fill k bs ks := by
  cases bs with
  | nil => simp [fill]
  | cons b bs =>
      have hb := hbs b List.mem_cons_self
      have hsum : b.1 - k = (n - k) + (b.1 - n) := by omega
      rw [fill, fill, hsum, List.take_add, List.drop_drop, List.append_assoc]

/-- Empty blocks may be left out. -/
theorem fill_filter (bs : List (ℕ × List β)) :
    ∀ (k : ℕ) (ks : List β), (∀ e ∈ bs, k ≤ e.1) →
      bs.Pairwise (fun a b => a.1 ≤ b.1) →
      fill k (bs.filter fun e => !e.2.isEmpty) ks = fill k bs ks := by
  induction bs with
  | nil => intro k ks _ _; rfl
  | cons b bs ih =>
      intro k ks hk hp
      obtain ⟨hb, hbs⟩ := List.pairwise_cons.mp hp
      have hkb := hk b List.mem_cons_self
      obtain ⟨n, R⟩ := b
      rcases R with _ | ⟨y, R⟩
      · rw [List.filter_cons_of_neg (by simp), fill, List.nil_append,
          ih k ks (fun e he => hk e (List.mem_cons_of_mem _ he)) hbs,
          fill_skip hkb bs hb]
      · rw [List.filter_cons_of_pos (by simp), fill, fill, ih n _ hb hbs]

/-! ## From positions to counts -/

/-- How many elements stand unmasked before position `q`. -/
def rank (v : List (Option α)) (q : ℕ) : ℕ := (v.take q).reduceOption.length

theorem rank_append_right (v v' : List (Option α)) (q : ℕ) :
    rank (v ++ v') (v.length + q) = v.reduceOption.length + rank v' q := by
  rw [rank, rank, List.take_length_add_append, List.reduceOption_append,
    List.length_append]

/-- The block at position `q`, read off a list of positioned blocks. -/
def blockAt (bl : List (ℕ × List α)) (q : ℕ) : List α := (bl.lookup q).getD []

theorem blockAt_of_not_mem {bl : List (ℕ × List α)} {q : ℕ}
    (h : ∀ e ∈ bl, e.1 ≠ q) : blockAt bl q = [] := by
  rw [blockAt, List.lookup_eq_none_iff.mpr, Option.getD_none]
  intro e he
  simpa using (h e he).symm

/-- **Positions to counts.** Blocks in ascending positions, woven into `v`, are
the blocks filled in behind as many elements as are unmasked before them. -/
theorem weave_eq_fill (bl : List (ℕ × List α)) :
    ∀ (B : ℕ → List α) (p k : ℕ) (v : List (Option α)),
      bl.Pairwise (fun a b => a.1 < b.1) →
      (∀ e ∈ bl, p ≤ e.1 ∧ e.1 ≤ p + v.length) →
      (∀ q, p ≤ q → q ≤ p + v.length → B q = blockAt bl q) →
      weave B p v =
        fill k (bl.map fun e => (k + rank v (e.1 - p), e.2)) v.reduceOption := by
  induction bl with
  | nil =>
      intro B p k v _ _ hB
      have hnone : ∀ q, p ≤ q → q ≤ p + v.length → B q = [] := fun q h₁ h₂ => by
        rw [hB q h₁ h₂]
        rfl
      rw [weave, weaveTo_of_no_block fun q h₁ h₂ => hnone q h₁ (Nat.le_of_lt h₂),
        hnone _ (Nat.le_add_right _ _) (Nat.le_refl _), List.append_nil]
      rfl
  | cons b bl ih =>
      intro B p k v hp hpos hB
      obtain ⟨hb, hbl⟩ := List.pairwise_cons.mp hp
      obtain ⟨q, R⟩ := b
      obtain ⟨hpq, hqv⟩ := hpos _ List.mem_cons_self
      simp only at hpq hqv hb
      -- cut `v` at the first block
      obtain ⟨v₁, v₂, rfl, hlen⟩ : ∃ v₁ v₂, v = v₁ ++ v₂ ∧ v₁.length = q - p :=
        ⟨v.take (q - p), v.drop (q - p), (List.take_append_drop _ _).symm, by
          rw [List.length_take]; omega⟩
      rw [List.length_append] at hqv
      have hstart : p + v₁.length = q := by omega
      have hno : ∀ j, p ≤ j → j < p + v₁.length → B j = [] := by
        intro j h₁ h₂
        rw [hB j h₁ (by rw [List.length_append]; omega)]
        refine blockAt_of_not_mem fun e he => ?_
        rcases List.mem_cons.mp he with rfl | he
        · simp only; omega
        · have := hb e he
          omega
      have hR : B q = R := by
        rw [hB q hpq (by rw [List.length_append]; omega)]
        simp [blockAt]
      have hrest : ∀ j, q ≤ j → j ≤ q + v₂.length →
          Function.update B q [] j = blockAt bl j := by
        intro j h₁ h₂
        by_cases hj : j = q
        · subst hj
          rw [Function.update_self, blockAt_of_not_mem]
          intro e he
          have := hb e he
          omega
        · rw [Function.update_of_ne hj, hB j (by omega)
            (by rw [List.length_append]; omega)]
          have hne : (j == q) = false := by simpa using hj
          simp [blockAt, List.lookup_cons, hne]
      have hrank : ∀ e ∈ bl, k + rank (v₁ ++ v₂) (e.1 - p) =
          (k + v₁.reduceOption.length) + rank v₂ (e.1 - q) := by
        intro e he
        have := hb e he
        have hsplit : e.1 - p = v₁.length + (e.1 - q) := by omega
        rw [hsplit, rank_append_right, Nat.add_assoc]
      have hmap : (bl.map fun e => (k + rank (v₁ ++ v₂) (e.1 - p), e.2)) =
          bl.map fun e =>
            ((k + v₁.reduceOption.length) + rank v₂ (e.1 - q), e.2) :=
        List.map_congr_left fun e he => by rw [hrank e he]
      have hhead : rank (v₁ ++ v₂) (q - p) = v₁.reduceOption.length := by
        have := rank_append_right v₁ v₂ 0
        rw [Nat.add_zero, hlen] at this
        rw [this]
        simp [rank]
      rw [weave_append, weaveTo_of_no_block hno, hstart, weave_head, hR,
        ih (Function.update B q []) q (k + v₁.reduceOption.length) v₂ hbl
          (fun e he => ⟨Nat.le_of_lt (hb e he), by
            have := (hpos e (List.mem_cons_of_mem _ he)).2
            rw [List.length_append] at this
            omega⟩) hrest,
        List.map_cons, fill, hmap, hhead, Nat.add_sub_cancel_left,
        List.reduceOption_append, List.take_left, List.drop_left]

end Weave
