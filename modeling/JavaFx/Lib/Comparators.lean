import Mathlib.Data.BitVec
import Mathlib.Data.Finite.Prod
import Mathlib.Data.Set.Finite.Lemmas
import Mathlib.Tactic

/-!
# Comparators

A comparator answers with the sign of an integer. It is lawful on a set when its answers are those
of an order: the sign turns with the arguments, and what is not after is transitive. The rules here
say exactly when a comparator that is put together from others is lawful.
-/

namespace Comparator

variable {α κ : Type*} {s t : Set α} {compare f g : α → α → ℤ}

/-- The contract of a comparator, for the elements of a set. -/
structure Lawful (compare : α → α → ℤ) (s : Set α) : Prop where
  antisymm : ∀ a ∈ s, ∀ b ∈ s, (compare a b).sign = -(compare b a).sign
  trans : ∀ a ∈ s, ∀ b ∈ s, ∀ c ∈ s, compare a b ≤ 0 → compare b c ≤ 0 → compare a c ≤ 0

theorem sign_eq_neg_sign_iff {x y : ℤ} :
    x.sign = -y.sign ↔ (x < 0 ↔ 0 < y) ∧ (0 < x ↔ y < 0) := by
  rcases lt_trichotomy x 0 with hx | rfl | hx
  · rcases lt_trichotomy y 0 with hy | rfl | hy
    · rw [Int.sign_eq_neg_one_of_neg hx, Int.sign_eq_neg_one_of_neg hy]
      omega
    · rw [Int.sign_eq_neg_one_of_neg hx, Int.sign_zero]
      omega
    · rw [Int.sign_eq_neg_one_of_neg hx, Int.sign_eq_one_of_pos hy]
      omega
  · rw [Int.sign_zero, eq_comm, neg_eq_zero, Int.sign_eq_zero_iff_zero]
    omega
  · rcases lt_trichotomy y 0 with hy | rfl | hy
    · rw [Int.sign_eq_one_of_pos hx, Int.sign_eq_neg_one_of_neg hy]
      omega
    · rw [Int.sign_eq_one_of_pos hx, Int.sign_zero]
      omega
    · rw [Int.sign_eq_one_of_pos hx, Int.sign_eq_one_of_pos hy]
      omega

namespace Lawful

theorem neg_iff (h : Lawful compare s) {a b : α} (ha : a ∈ s) (hb : b ∈ s) :
    compare a b < 0 ↔ 0 < compare b a := (sign_eq_neg_sign_iff.mp (h.antisymm a ha b hb)).1

theorem pos_iff (h : Lawful compare s) {a b : α} (ha : a ∈ s) (hb : b ∈ s) :
    0 < compare a b ↔ compare b a < 0 := (sign_eq_neg_sign_iff.mp (h.antisymm a ha b hb)).2

theorem self (h : Lawful compare s) {a : α} (ha : a ∈ s) : compare a a = 0 := by
  have := h.neg_iff ha ha
  omega

theorem mono (h : Lawful compare s) (hts : t ⊆ s) : Lawful compare t :=
  ⟨fun a ha b hb => h.antisymm a (hts ha) b (hts hb),
    fun a ha b hb c hc => h.trans a (hts ha) b (hts hb) c (hts hc)⟩

theorem congr (h : Lawful f s) (hfg : ∀ a ∈ s, ∀ b ∈ s, f a b = g a b) : Lawful g s := by
  refine ⟨fun a ha b hb => ?_, fun a ha b hb c hc => ?_⟩
  · rw [← hfg a ha b hb, ← hfg b hb a ha]
    exact h.antisymm a ha b hb
  · rw [← hfg a ha b hb, ← hfg b hb c hc, ← hfg a ha c hc]
    exact h.trans a ha b hb c hc

/-- Only the signs matter. -/
theorem of_sign_eq (h : Lawful f s) (hfg : ∀ a ∈ s, ∀ b ∈ s, (g a b).sign = (f a b).sign) :
    Lawful g s := by
  have hpos : ∀ a ∈ s, ∀ b ∈ s, (g a b ≤ 0 ↔ f a b ≤ 0) := by
    intro a ha b hb
    rw [← not_lt, ← not_lt, ← Int.sign_eq_one_iff_pos, ← Int.sign_eq_one_iff_pos, hfg a ha b hb]
  refine ⟨fun a ha b hb => ?_, fun a ha b hb c hc => ?_⟩
  · rw [hfg a ha b hb, hfg b hb a ha]
    exact h.antisymm a ha b hb
  · rw [hpos a ha b hb, hpos b hb c hc, hpos a ha c hc]
    exact h.trans a ha b hb c hc

/-- Among finitely many elements there is one that is after none. -/
theorem exists_least (h : Lawful compare s) (hs : s.Finite) (hne : s.Nonempty) :
    ∃ m ∈ s, ∀ x ∈ s, compare m x ≤ 0 := by
  induction s, hs using Set.Finite.induction_on with
  | empty => exact absurd hne Set.not_nonempty_empty
  | @insert a s _ hs ih =>
      rcases s.eq_empty_or_nonempty with rfl | hne'
      · refine ⟨a, Set.mem_insert a _, fun x hx => ?_⟩
        rw [Set.mem_insert_iff] at hx
        rcases hx with rfl | hx
        · exact (h.self (Set.mem_insert x _)).le
        · exact absurd hx (Set.notMem_empty x)
      · obtain ⟨m, hm, hleast⟩ := ih (h.mono (Set.subset_insert a s)) hne'
        have ham := Set.mem_insert a s
        have hmm := Set.mem_insert_of_mem a hm
        rcases le_or_gt (compare m a) 0 with hle | hgt
        · refine ⟨m, hmm, fun x hx => ?_⟩
          rcases Set.mem_insert_iff.mp hx with rfl | hx
          · exact hle
          · exact hleast x hx
        · refine ⟨a, ham, fun x hx => ?_⟩
          rcases Set.mem_insert_iff.mp hx with rfl | hx'
          · exact (h.self ham).le
          · exact h.trans a ham m hmm x hx ((h.pos_iff hmm ham).mp hgt).le (hleast x hx')

end Lawful

/-- A comparator that compares ranks. -/
theorem lawful_of_rank (rank : α → ℤ)
    (hrank : ∀ a ∈ s, ∀ b ∈ s, (compare a b < 0 ↔ rank a < rank b) ∧
      (0 < compare a b ↔ rank b < rank a)) : Lawful compare s := by
  refine ⟨fun a ha b hb => ?_, fun a ha b hb c hc hab hbc => ?_⟩
  · rw [sign_eq_neg_sign_iff, (hrank a ha b hb).1, (hrank a ha b hb).2, (hrank b hb a ha).1,
      (hrank b hb a ha).2]
    exact ⟨Iff.rfl, Iff.rfl⟩
  · have h₁ := (hrank a ha b hb).2
    have h₂ := (hrank b hb c hc).2
    have h₃ := (hrank a ha c hc).2
    omega

/-- A comparator that subtracts numbers. -/
theorem lawful_sub (rank : α → ℤ) (s : Set α) : Lawful (fun a b => rank a - rank b) s :=
  lawful_of_rank rank fun _ _ _ _ => ⟨sub_neg, sub_pos⟩

theorem lawful_image_iff {compare : κ → κ → ℤ} (key : α → κ) :
    Lawful compare (key '' s) ↔ Lawful (fun a b => compare (key a) (key b)) s := by
  constructor
  · intro h
    exact ⟨fun a ha b hb => h.antisymm _ ⟨a, ha, rfl⟩ _ ⟨b, hb, rfl⟩,
      fun a ha b hb c hc => h.trans _ ⟨a, ha, rfl⟩ _ ⟨b, hb, rfl⟩ _ ⟨c, hc, rfl⟩⟩
  · intro h
    refine ⟨?_, ?_⟩
    · rintro _ ⟨a, ha, rfl⟩ _ ⟨b, hb, rfl⟩
      exact h.antisymm a ha b hb
    · rintro _ ⟨a, ha, rfl⟩ _ ⟨b, hb, rfl⟩ _ ⟨c, hc, rfl⟩
      exact h.trans a ha b hb c hc

/-! ## One comparator after the other -/

/-- The second decides where the first finds no difference. -/
def thenBy (f g : α → α → ℤ) (a b : α) : ℤ := if f a b = 0 then g a b else f a b

/-- The comparator only sees a key, and tells two keys apart. -/
structure Sees (f : α → α → ℤ) (key : α → κ) : Prop where
  eq_zero_iff : ∀ a b, f a b = 0 ↔ key a = key b
  congr_left : ∀ {a a'}, key a = key a' → ∀ b, f a b = f a' b
  congr_right : ∀ {b b'}, key b = key b' → ∀ a, f a b = f a b'

theorem thenBy_of_eq {key : α → κ} (hf : Sees f key) {a b : α} (h : key a = key b) :
    thenBy f g a b = g a b := if_pos ((hf.eq_zero_iff a b).mpr h)

theorem thenBy_of_ne {key : α → κ} (hf : Sees f key) {a b : α} (h : key a ≠ key b) :
    thenBy f g a b = f a b := if_neg (mt (hf.eq_zero_iff a b).mp h)

theorem lawful_left_of_thenBy {key : α → κ} (hf : Sees f key) (h : Lawful (thenBy f g) s) :
    Lawful f s := by
  have hle : ∀ a ∈ s, ∀ b ∈ s, key a ≠ key b → (f a b ≤ 0 ↔ thenBy f g a b ≤ 0) := by
    intro a _ b _ hne
    rw [thenBy_of_ne hf hne]
  refine ⟨fun a ha b hb => ?_, fun a ha b hb c hc hab hbc => ?_⟩
  · by_cases hkey : key a = key b
    · rw [(hf.eq_zero_iff a b).mpr hkey, (hf.eq_zero_iff b a).mpr hkey.symm]
      rfl
    · rw [← thenBy_of_ne (g := g) hf hkey, ← thenBy_of_ne (g := g) hf (Ne.symm hkey)]
      exact h.antisymm a ha b hb
  · by_cases hkab : key a = key b
    · rw [hf.congr_left hkab]
      exact hbc
    · by_cases hkbc : key b = key c
      · rw [← hf.congr_right hkbc]
        exact hab
      · by_cases hkac : key a = key c
        · exact ((hf.eq_zero_iff a c).mpr hkac).le
        · rw [hle a ha c hc hkac]
          exact h.trans a ha b hb c hc ((hle a ha b hb hkab).mp hab) ((hle b hb c hc hkbc).mp hbc)

/-- **Two comparators** in a row are lawful when the first is, and the second among elements that
the first does not tell apart. -/
theorem lawful_thenBy_iff {key : α → κ} (hf : Sees f key) :
    Lawful (thenBy f g) s ↔ Lawful f s ∧ ∀ k, Lawful g {a ∈ s | key a = k} := by
  constructor
  · intro h
    refine ⟨lawful_left_of_thenBy hf h, fun k => ?_⟩
    refine (h.mono (Set.sep_subset s _)).congr ?_
    rintro a ⟨-, hka⟩ b ⟨-, hkb⟩
    exact thenBy_of_eq hf (hka.trans hkb.symm)
  · rintro ⟨hfirst, hsecond⟩
    refine ⟨fun a ha b hb => ?_, fun a ha b hb c hc hab hbc => ?_⟩
    · by_cases hkey : key a = key b
      · rw [thenBy_of_eq hf hkey, thenBy_of_eq hf hkey.symm]
        exact (hsecond (key a)).antisymm a ⟨ha, rfl⟩ b ⟨hb, hkey.symm⟩
      · rw [thenBy_of_ne hf hkey, thenBy_of_ne hf (Ne.symm hkey)]
        exact hfirst.antisymm a ha b hb
    · by_cases hkab : key a = key b
      · by_cases hkbc : key b = key c
        · rw [thenBy_of_eq hf hkab] at hab
          rw [thenBy_of_eq hf hkbc] at hbc
          rw [thenBy_of_eq hf (hkab.trans hkbc)]
          exact (hsecond (key a)).trans a ⟨ha, rfl⟩ b ⟨hb, hkab.symm⟩ c
            ⟨hc, (hkab.trans hkbc).symm⟩ hab hbc
        · have hkac : key a ≠ key c := fun h => hkbc (hkab.symm.trans h)
          rw [thenBy_of_ne hf hkac, hf.congr_left hkab, ← thenBy_of_ne (g := g) hf hkbc]
          exact hbc
      · rw [thenBy_of_ne hf hkab] at hab
        have hlt : f a b < 0 := lt_of_le_of_ne hab (mt (hf.eq_zero_iff a b).mp hkab)
        by_cases hkbc : key b = key c
        · have hkac : key a ≠ key c := fun h => hkab (h.trans hkbc.symm)
          rw [thenBy_of_ne hf hkac, ← hf.congr_right hkbc]
          exact hab
        · rw [thenBy_of_ne hf hkbc] at hbc
          have hkac : key a ≠ key c := by
            -- or the first comparator would go round
            intro hkac
            have hback := (hfirst.neg_iff ha hb).mp hlt
            rw [hf.congr_right hkac] at hback
            omega
          rw [thenBy_of_ne hf hkac]
          exact hfirst.trans a ha b hb c hc hab hbc

/-! ## Elements that are put last -/

/-- An element with the property comes after those without it, whatever `f` says; but only when it
is the first argument. -/
def lastIf (p : α → Bool) (f : α → α → ℤ) (a b : α) : ℤ := if p a && !p b then 1 else f a b

theorem lastIf_of_eq (p : α → Bool) {a b : α} (h : p a = p b) : lastIf p f a b = f a b := by
  rw [lastIf, h, Bool.and_not_self]
  rfl

/-- **The special case** is lawful only when `f` does the same in the other direction. -/
theorem lawful_lastIf_iff (p : α → Bool) :
    Lawful (lastIf p f) s ↔ (∀ a ∈ s, ∀ b ∈ s, p a = true → p b = false → f b a < 0) ∧
      ∀ v, Lawful f {a ∈ s | p a = v} := by
  constructor
  · intro h
    refine ⟨fun a ha b hb hpa hpb => ?_, fun v => ?_⟩
    · have hafter : lastIf p f a b = 1 := by
        rw [lastIf, hpa, hpb]
        rfl
      have hbefore : lastIf p f b a = f b a := by
        rw [lastIf, hpa, hpb]
        rfl
      have hneg := h.pos_iff ha hb
      rw [hafter, hbefore] at hneg
      exact hneg.mp one_pos
    · refine (h.mono (Set.sep_subset s _)).congr ?_
      rintro a ⟨-, hpa⟩ b ⟨-, hpb⟩
      exact lastIf_of_eq p (hpa.trans hpb.symm)
  · rintro ⟨hlast, hsame⟩
    have hafter : ∀ {a b : α}, p a = true → p b = false → lastIf p f a b = 1 := by
      intro a b hpa hpb
      rw [lastIf, hpa, hpb]
      rfl
    have hbefore : ∀ a ∈ s, ∀ b ∈ s, p a = false → p b = true → lastIf p f a b < 0 := by
      intro a ha b hb hpa hpb
      rw [lastIf, hpa]
      exact hlast b hb a ha hpb hpa
    refine ⟨fun a ha b hb => ?_, fun a ha b hb c hc hab hbc => ?_⟩
    · by_cases heq : p a = p b
      · rw [lastIf_of_eq p heq, lastIf_of_eq p heq.symm]
        exact (hsame (p a)).antisymm a ⟨ha, rfl⟩ b ⟨hb, heq.symm⟩
      · cases hpa : p a with
        | true =>
            have hpb : p b = false := by
              rw [hpa] at heq
              exact Bool.eq_false_iff.mpr (Ne.symm heq)
            have hba := hbefore b hb a ha hpb hpa
            rw [hafter hpa hpb, Int.sign_eq_neg_one_of_neg hba]
            rfl
        | false =>
            have hpb : p b = true := by
              rw [hpa] at heq
              exact (Bool.not_eq_false _).mp (Ne.symm heq)
            have hab := hbefore a ha b hb hpa hpb
            rw [hafter hpb hpa, Int.sign_eq_neg_one_of_neg hab]
            rfl
    · -- no step goes from an element with the property to one without
      have hup : ∀ {x y : α}, lastIf p f x y ≤ 0 → p x = true → p y = true := by
        intro x y hle hpx
        by_contra hpy
        rw [hafter hpx (Bool.eq_false_iff.mpr hpy)] at hle
        exact absurd hle (by norm_num)
      by_cases heq : p a = p c
      · have hpb : p b = p a := by
          cases hpa : p a with
          | true => exact hup hab hpa
          | false =>
              by_contra hpb
              have := hup hbc ((Bool.not_eq_false _).mp hpb)
              rw [← heq, hpa] at this
              cases this
        rw [lastIf_of_eq p hpb.symm] at hab
        rw [lastIf_of_eq p (hpb.trans heq)] at hbc
        rw [lastIf_of_eq p heq]
        exact (hsame (p a)).trans a ⟨ha, rfl⟩ b ⟨hb, hpb⟩ c ⟨hc, heq.symm⟩ hab hbc
      · cases hpa : p a with
        | true =>
            have hpc := hup hbc (hup hab hpa)
            exact absurd (hpa.trans hpc.symm) heq
        | false =>
            have hpc : p c = true := by
              rw [hpa] at heq
              exact (Bool.not_eq_false _).mp (Ne.symm heq)
            exact (hbefore a ha c hc hpa hpc).le

/-! ## Differences of words -/

/-- The words lie within less than half of the circle that ends at some word. -/
def WithinHalf {w : ℕ} (s : Set (BitVec w)) : Prop := ∃ m : BitVec w, ∀ x ∈ s, 0 ≤ (m - x).toInt

/-- Within half of the circle no difference is wrapped. -/
theorem toInt_sub_of_nonneg {w : ℕ} {m x y : BitVec w} (hx : 0 ≤ (m - x).toInt)
    (hy : 0 ≤ (m - y).toInt) : (y - x).toInt = (m - x).toInt - (m - y).toInt := by
  have hsub : y - x = (m - x) - (m - y) := (sub_sub_sub_cancel_left x y m).symm
  rw [hsub, BitVec.toInt_sub]
  have hxlt := BitVec.two_mul_toInt_lt (x := m - x)
  have hylt := BitVec.two_mul_toInt_lt (x := m - y)
  exact Int.bmod_eq_of_le_mul_two (by push_cast; omega) (by push_cast; omega)

/-- **A difference** of words is a lawful comparator when the words lie within half of the circle. -/
theorem lawful_sub_iff {w : ℕ} {s : Set (BitVec w)} :
    Lawful (fun x y => (y - x).toInt) s ↔ WithinHalf s := by
  constructor
  · intro h
    rcases s.eq_empty_or_nonempty with rfl | hne
    · exact ⟨0, nofun⟩
    · have hfinite : Finite (BitVec w) := Finite.of_injective BitVec.toFin BitVec.toFin_injective
      obtain ⟨m, hm, hleast⟩ := h.exists_least (Set.toFinite s) hne
      refine ⟨m, fun x hx => ?_⟩
      have hle := hleast x hx
      have hpos := h.pos_iff hm hx
      have hneg := h.neg_iff hm hx
      omega
  · rintro ⟨m, hm⟩
    refine lawful_of_rank (fun x => (m - x).toInt) fun x hx y hy => ?_
    rw [toInt_sub_of_nonneg (hm x hx) (hm y hy)]
    exact ⟨sub_neg, sub_pos⟩

end Comparator
