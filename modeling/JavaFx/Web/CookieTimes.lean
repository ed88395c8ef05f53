import JavaFx.Lib.Comparators
import JavaFx.Web.CookieStore

/-!
# The orders of cookies by time

Differences of milliseconds are narrowed to an `int` before their sign is read. The sign is kept
while the difference, without full rounds of `2^32` milliseconds, is less than half a round.
-/

namespace JavaFx.Web

open Comparator
open Css (lit)

/-! ## Narrowed differences -/

/-- The sign of the difference survives the narrowing in both directions. -/
def KeepsSign (d : ℤ) : Prop := d = 0 ∨ 0 < |d| % 4294967296 ∧ |d| % 4294967296 < 2147483648

/-- Full rounds of the narrowed difference. -/
def FullRounds (d : ℤ) : Prop := d ≠ 0 ∧ |d| % 4294967296 = 0

theorem sign_toInt_iff (d : ℤ) :
    (toInt d).sign = d.sign ∧ (toInt (-d)).sign = (-d).sign ↔ KeepsSign d := by
  have hsign : ∀ x y : ℤ, x.sign = y.sign ↔ (x < 0 ↔ y < 0) ∧ (0 < x ↔ 0 < y) := by
    intro x y
    have := @sign_eq_neg_sign_iff x (-y)
    rw [Int.sign_neg, neg_neg, neg_lt_zero, Left.neg_pos_iff] at this
    exact this
  rw [hsign, hsign, KeepsSign, toInt, toInt]
  rcases abs_cases d with ⟨habs, hd⟩ | ⟨habs, hd⟩
  · rw [habs]
    omega
  · rw [habs]
    omega

theorem toInt_eq_zero_iff (d : ℤ) : toInt d = 0 ↔ |d| % 4294967296 = 0 := by
  rw [toInt]
  rcases abs_cases d with ⟨habs, hd⟩ | ⟨habs, hd⟩
  · rw [habs]
    omega
  · rw [habs]
    omega

/-! ## The two orders -/

/-- The difference of two times, which is that of the subtimes when the base times are equal. -/
def ExtendedTime.difference (t u : ExtendedTime) : ℤ :=
  if t.baseTime - u.baseTime = 0 then t.subtime - u.subtime else t.baseTime - u.baseTime

/-- Two times that are compared as they should be. -/
def ExtendedTime.Comparable (t u : ExtendedTime) : Prop :=
  KeepsSign (t.baseTime - u.baseTime) ∨ FullRounds (t.baseTime - u.baseTime) ∧
    (t.subtime - u.subtime).sign = (t.baseTime - u.baseTime).sign

/-- A subtime is an `int` that counts from zero. -/
def ExtendedTime.Counts (t : ExtendedTime) : Prop := 0 ≤ t.subtime ∧ t.subtime ≤ maxInt

theorem toInt_subtime {t u : ExtendedTime} (ht : t.Counts) (hu : u.Counts) :
    toInt (t.subtime - u.subtime) = t.subtime - u.subtime := by
  have h₁ := ht.1
  have h₂ := ht.2
  have h₃ := hu.1
  have h₄ := hu.2
  refine toInt_of_mem ?_ ?_
  · unfold maxInt at *
    omega
  · omega

/-- **Creation times** have the sign of their difference in both directions exactly when they are
comparable. -/
theorem sign_compareTo_iff {t u : ExtendedTime} (ht : t.Counts) (hu : u.Counts) :
    (t.compareTo u).sign = (t.difference u).sign ∧ (u.compareTo t).sign = (u.difference t).sign ↔
      t.Comparable u := by
  obtain ⟨d, hd⟩ : ∃ d, d = t.baseTime - u.baseTime := ⟨_, rfl⟩
  obtain ⟨e, he⟩ : ∃ e, e = t.subtime - u.subtime := ⟨_, rfl⟩
  have hd' : u.baseTime - t.baseTime = -d := by omega
  have he' : u.subtime - t.subtime = -e := by omega
  have hnarrow : toInt e = e := he ▸ toInt_subtime ht hu
  have hnarrow' : toInt (-e) = -e := he' ▸ toInt_subtime hu ht
  have hzero := toInt_eq_zero_iff d
  have hzero' := toInt_eq_zero_iff (-d)
  rw [abs_neg] at hzero'
  simp only [ExtendedTime.compareTo, ExtendedTime.difference, ExtendedTime.Comparable,
    hd', he', ← hd, ← he, hnarrow, hnarrow', neg_eq_zero]
  by_cases hround : |d| % 4294967296 = 0
  · rw [if_neg (not_not.mpr (hzero.mpr hround)), if_neg (not_not.mpr (hzero'.mpr hround))]
    by_cases hne : d = 0
    · rw [if_pos hne, if_pos hne]
      exact iff_of_true ⟨rfl, rfl⟩ (Or.inl (Or.inl hne))
    · -- full rounds, and the subtimes decide
      rw [if_neg hne, if_neg hne, Int.sign_neg, Int.sign_neg, neg_inj, and_self]
      constructor
      · exact fun hsign => Or.inr ⟨⟨hne, hround⟩, hsign⟩
      · rintro (hkeeps | ⟨-, hsign⟩)
        · rcases hkeeps with hz | ⟨hpos, -⟩
          · exact absurd hz hne
          · omega
        · exact hsign
  · have hne : d ≠ 0 := by
      rintro rfl
      exact hround rfl
    rw [if_pos (mt hzero.mp hround), if_pos (mt hzero'.mp hround), if_neg hne, if_neg hne,
      sign_toInt_iff]
    exact ⟨Or.inl, fun h => h.resolve_right fun hfull => hround hfull.1.2⟩

/-! ## Lawfulness -/

variable {s : Set Stored}

theorem lawful_difference (s : Set Stored) :
    Lawful (fun a b : Stored => a.creationTime.difference b.creationTime) s := by
  have hsees : Sees (fun a b : Stored => a.creationTime.baseTime - b.creationTime.baseTime)
      fun c => c.creationTime.baseTime :=
    ⟨fun a b => sub_eq_zero, fun h b => by rw [h], fun h a => by rw [h]⟩
  exact (lawful_thenBy_iff hsees).mpr ⟨lawful_sub _ s, fun _ => lawful_sub _ _⟩

/-- `GetComparator` is lawful when the comparison of creation times is. -/
theorem lawful_getCompare
    (h : Lawful (fun a b : Stored => a.creationTime.compareTo b.creationTime) s) :
    Lawful CookieStore.getCompare s := by
  have hsees : Sees (fun a b : Stored => (b.path.length : ℤ) - a.path.length)
      fun c => c.path.length := by
    refine ⟨fun a b => ?_, fun h b => ?_, fun h a => ?_⟩
    · omega
    · simp only [h]
    · simp only [h]
  have hlengths : Lawful (fun a b : Stored => (b.path.length : ℤ) - a.path.length) s :=
    (lawful_sub (fun c : Stored => -(c.path.length : ℤ)) s).congr fun a _ b _ => by omega
  refine ((lawful_thenBy_iff hsees).mpr ⟨hlengths, fun _ => h.mono (Set.sep_subset s _)⟩).congr ?_
  intro a _ b _
  rw [thenBy, CookieStore.getCompare]
  simp only [ite_not]

/-- Two cookies whose times are compared as they should be. -/
def TimesComparable (a b : Stored) : Prop :=
  a.creationTime.Comparable b.creationTime ∧ KeepsSign (a.lastAccessTime - b.lastAccessTime)

/-- **The time orders** of a set of cookies have the right signs, and are consistent, exactly when
all times are pairwise comparable. -/
theorem time_orders_iff (s : Set Stored) (hcounts : ∀ c ∈ s, c.creationTime.Counts) :
    ((∀ a ∈ s, ∀ b ∈ s,
        (a.creationTime.compareTo b.creationTime).sign =
          (a.creationTime.difference b.creationTime).sign ∧
        (CookieStore.removalCompare a b).sign = (a.lastAccessTime - b.lastAccessTime).sign) ∧
      Lawful (fun a b : Stored => a.creationTime.compareTo b.creationTime) s ∧
      Lawful CookieStore.getCompare s ∧ Lawful CookieStore.removalCompare s) ↔
      ∀ a ∈ s, ∀ b ∈ s, TimesComparable a b := by
  have hremoval : ∀ a b : Stored, (CookieStore.removalCompare a b).sign =
      (a.lastAccessTime - b.lastAccessTime).sign ∧ (CookieStore.removalCompare b a).sign =
      (b.lastAccessTime - a.lastAccessTime).sign ↔
        KeepsSign (a.lastAccessTime - b.lastAccessTime) := by
    intro a b
    rw [← sign_toInt_iff, neg_sub, CookieStore.removalCompare, CookieStore.removalCompare]
  constructor
  · rintro ⟨hsigns, -⟩ a ha b hb
    exact ⟨(sign_compareTo_iff (hcounts a ha) (hcounts b hb)).mp
        ⟨(hsigns a ha b hb).1, (hsigns b hb a ha).1⟩,
      (hremoval a b).mp ⟨(hsigns a ha b hb).2, (hsigns b hb a ha).2⟩⟩
  · intro h
    have hcreation : ∀ a ∈ s, ∀ b ∈ s, (a.creationTime.compareTo b.creationTime).sign =
        (a.creationTime.difference b.creationTime).sign := fun a ha b hb =>
      ((sign_compareTo_iff (hcounts a ha) (hcounts b hb)).mpr (h a ha b hb).1).1
    have haccess : ∀ a ∈ s, ∀ b ∈ s, (CookieStore.removalCompare a b).sign =
        (a.lastAccessTime - b.lastAccessTime).sign := fun a ha b hb =>
      ((hremoval a b).mpr (h a ha b hb).2).1
    have hlawful := (lawful_difference s).of_sign_eq hcreation
    exact ⟨fun a ha b hb => ⟨hcreation a ha b hb, haccess a ha b hb⟩, hlawful,
      lawful_getCompare hlawful, (lawful_sub _ s).of_sign_eq haccess⟩

/-- A cookie that was created and last used at the given times. -/
def cookieAt (creationTime : ExtendedTime) (lastAccessTime : ℤ) : Stored where
  name := lit "a"
  value := []
  expiryTime := Animation.maxLong
  domain := lit "b"
  path := lit "/"
  creationTime := creationTime
  lastAccessTime := lastAccessTime
  persistent := false
  hostOnly := true
  secureOnly := false
  httpOnly := false

/-- A minute apart. -/
theorem minute_apart :
    ((cookieAt ⟨60000, 0⟩ 60000).creationTime.compareTo (cookieAt ⟨0, 3⟩ 0).creationTime).sign = 1 ∧
      (CookieStore.removalCompare (cookieAt ⟨60000, 0⟩ 60000) (cookieAt ⟨0, 3⟩ 0)).sign = 1 := by
  have h := (time_orders_iff {cookieAt ⟨60000, 0⟩ 60000, cookieAt ⟨0, 3⟩ 0} (by
    rintro c (rfl | rfl)
    · exact ⟨by decide, by decide⟩
    · exact ⟨by decide, by decide⟩)).mpr (by
    have hself : ∀ x : ℤ, KeepsSign (x - x) := fun x => Or.inl (sub_self x)
    rintro a (rfl | rfl) b (rfl | rfl)
    · exact ⟨Or.inl (hself _), hself _⟩
    · exact ⟨Or.inl (Or.inr (by decide)), Or.inr (by decide)⟩
    · exact ⟨Or.inl (Or.inr (by decide)), Or.inr (by decide)⟩
    · exact ⟨Or.inl (hself _), hself _⟩)
  exact h.1 _ (Set.mem_insert _ _) _ (Set.mem_insert_of_mem _ rfl)

/-- Twenty-five days apart, the later cookie comes first. -/
theorem days_apart :
    (cookieAt ⟨2160000000, 0⟩ 2160000000).creationTime.compareTo
        (cookieAt ⟨0, 0⟩ 0).creationTime < 0 ∧
      CookieStore.removalCompare (cookieAt ⟨2160000000, 0⟩ 2160000000) (cookieAt ⟨0, 0⟩ 0) < 0 := by
  decide

end JavaFx.Web
