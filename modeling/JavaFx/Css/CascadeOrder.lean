import JavaFx.Css.StyleMap
import JavaFx.Lib.Comparators

/-!
# `CascadingStyle.compareTo`

The comparison of any two styles, with the machine's integers and with rules that may be missing.
The styles of one style map (`StyleMap`) all have a rule, and small numbers.
-/

namespace JavaFx.Css.Cascade

open Comparator

/-- What `compareTo` reads of a style. -/
structure CascadingStyle where
  property : JString
  important : Bool
  /-- The rule of the declaration, by its origin. -/
  rule : Option (Option StyleOrigin)
  specificity : BitVec 32
  ordinal : BitVec 32
deriving DecidableEq

namespace CascadingStyle

def skinProp (s : CascadingStyle) : Bool := s.property = lit "-fx-skin"

/-- `rule != null ? rule.getOrigin() : null` -/
def origin (s : CascadingStyle) : Option StyleOrigin := s.rule.join

/-- `rule != null ? otherRule.getOrigin() : null`, where it is the rule of the first style that is
tested. -/
def otherOrigin (this other : CascadingStyle) : Except Exn (Option StyleOrigin) :=
  match this.rule with
  | none => .ok none
  | some _ =>
    match other.rule with
    | none => .error .nullPointer
    | some origin => .ok origin

def compareTo (this other : CascadingStyle) : Except Exn ℤ := do
  let source := this.origin
  let otherSource ← this.otherOrigin other
  let c : ℤ :=
    if this.skinProp && !other.skinProp then 1
    else if this.important ≠ other.important then (if this.important then -1 else 1)
    else if source ≠ otherSource then Css.CascadingStyle.compareOrigins source otherSource
    else (other.specificity - this.specificity).toInt
  return if c = 0 then (other.ordinal - this.ordinal).toInt else c

/-- The style that a style of a style map is. -/
def ofStyle {P S V : Type} [Indexed P] [Indexed S] (s : Css.CascadingStyle P S V) :
    CascadingStyle where
  property := s.declaration.property
  important := s.declaration.important
  rule := some s.declaration.origin
  specificity := BitVec.ofNat 32 s.specificity
  ordinal := BitVec.ofNat 32 s.ordinal

/-- In a style map nothing is wrapped. -/
theorem compareTo_ofStyle {P S V : Type} [Indexed P] [Indexed S] (a b : Css.CascadingStyle P S V)
    (ha : a.specificity < 2 ^ 31 ∧ a.ordinal < 2 ^ 31)
    (hb : b.specificity < 2 ^ 31 ∧ b.ordinal < 2 ^ 31) :
    (ofStyle a).compareTo (ofStyle b) = .ok (a.compareTo b) := by
  have htoInt : ∀ {n : ℕ}, n < 2 ^ 31 → (BitVec.ofNat 32 n).toInt = n := by
    intro n hn
    rw [BitVec.toInt_eq_toNat_of_lt, BitVec.toNat_ofNat, Nat.mod_eq_of_lt (by omega)]
    rw [BitVec.toNat_ofNat, Nat.mod_eq_of_lt (by omega)]
    omega
  have hsub : ∀ {m n : ℕ}, m < 2 ^ 31 → n < 2 ^ 31 →
      (BitVec.ofNat 32 n - BitVec.ofNat 32 m).toInt = (n : ℤ) - m := by
    intro m n hm hn
    rw [BitVec.toInt_sub, htoInt hm, htoInt hn]
    exact Int.bmod_eq_of_le_mul_two (by omega) (by omega)
  rw [compareTo, Css.CascadingStyle.compareTo]
  simp only [ofStyle, hsub ha.1 hb.1, hsub ha.2 hb.2]
  rfl

/-! ## The comparison in its parts -/

/-- By importance, then by origin. -/
def byOrigin (a b : CascadingStyle) : ℤ :=
  if a.important ≠ b.important then (if a.important then -1 else 1)
  else if a.origin ≠ b.origin then Css.CascadingStyle.compareOrigins a.origin b.origin
  else 0

def bySpecificity (a b : CascadingStyle) : ℤ := (b.specificity - a.specificity).toInt

def byOrdinal (a b : CascadingStyle) : ℤ := (b.ordinal - a.ordinal).toInt

/-- The comparison without the special case. -/
def cascade : CascadingStyle → CascadingStyle → ℤ :=
  thenBy byOrigin (thenBy bySpecificity byOrdinal)

theorem compareTo_eq_lastIf {a b : CascadingStyle} (h : a.otherOrigin b = .ok b.origin) :
    a.compareTo b = .ok (lastIf skinProp cascade a b) := by
  rw [compareTo, h, lastIf]
  simp only [pure, bind, Except.bind, Except.pure]
  split
  · rfl
  · rw [cascade, thenBy, thenBy, byOrigin, bySpecificity, byOrdinal]
    by_cases himportant : a.important = b.important
    · by_cases horigin : a.origin = b.origin
      · simp only [himportant, horigin, ne_eq, not_true_eq_false, if_false, if_true]
      · have hne := (Css.CascadingStyle.compareOrigins_spec horigin).2.1
        simp only [himportant, horigin, hne, ne_eq, not_true_eq_false, not_false_eq_true, if_false,
          if_true]
    · have hne : (if a.important = true then (-1 : ℤ) else 1) ≠ 0 := by
        split
        · decide
        · decide
      simp only [himportant, hne, ne_eq, not_false_eq_true, if_false, if_true]

/-- The place of a style by importance and origin. -/
def originKey (s : CascadingStyle) : Bool × Option StyleOrigin := (s.important, s.origin)

def originPlace (s : CascadingStyle) : ℤ :=
  (if s.important then 0 else 5) + Css.CascadingStyle.originRank s.origin

theorem originRank_mem (origin : Option StyleOrigin) :
    0 ≤ Css.CascadingStyle.originRank origin ∧ Css.CascadingStyle.originRank origin < 5 := by
  cases origin with
  | none => decide
  | some origin =>
      cases origin with
      | _ => decide

theorem byOrigin_spec (a b : CascadingStyle) :
    (byOrigin a b < 0 ↔ a.originPlace < b.originPlace) ∧
      (0 < byOrigin a b ↔ b.originPlace < a.originPlace) ∧
      (byOrigin a b = 0 ↔ a.originKey = b.originKey) := by
  have ha := originRank_mem a.origin
  have hb := originRank_mem b.origin
  rw [byOrigin, originPlace, originPlace, originKey, originKey, Prod.mk.injEq]
  by_cases himportant : a.important = b.important
  · by_cases horigin : a.origin = b.origin
    · simp [himportant, horigin]
    · obtain ⟨hrank, hne, hle⟩ := Css.CascadingStyle.compareOrigins_spec horigin
      simp only [himportant, horigin, ne_eq, not_true_eq_false, not_false_eq_true, if_false,
        if_true, and_false, iff_false]
      omega
  · cases hia : a.important with
    | true =>
        have hib : b.important = false := by
          rw [hia] at himportant
          exact Bool.eq_false_iff.mpr (Ne.symm himportant)
        simp [hib]
        omega
    | false =>
        have hib : b.important = true := by
          rw [hia] at himportant
          exact (Bool.not_eq_false _).mp (Ne.symm himportant)
        simp [hib]
        omega

theorem sees_byOrigin : Sees byOrigin originKey where
  eq_zero_iff a b := (byOrigin_spec a b).2.2
  congr_left h b := by
    obtain ⟨himportant, horigin⟩ := Prod.mk.inj h
    rw [byOrigin, byOrigin, himportant, horigin]
  congr_right h a := by
    obtain ⟨himportant, horigin⟩ := Prod.mk.inj h
    rw [byOrigin, byOrigin, himportant, horigin]

theorem sees_bySpecificity : Sees bySpecificity specificity where
  eq_zero_iff a b := by
    rw [bySpecificity, ← BitVec.toInt_zero (w := 32), BitVec.toInt_inj]
    exact sub_eq_zero.trans eq_comm
  congr_left h b := by rw [bySpecificity, bySpecificity, h]
  congr_right h a := by rw [bySpecificity, bySpecificity, h]

theorem lawful_byOrigin (s : Set CascadingStyle) : Lawful byOrigin s :=
  lawful_of_rank originPlace fun a _ b _ => ⟨(byOrigin_spec a b).1, (byOrigin_spec a b).2.1⟩

/-! ## The contract -/

/-- The contract for three styles. -/
def Contract (a b c : CascadingStyle) : Prop :=
  ∃ ab ba bc ac, a.compareTo b = .ok ab ∧ b.compareTo a = .ok ba ∧ b.compareTo c = .ok bc ∧
    a.compareTo c = .ok ac ∧ ab.sign = -ba.sign ∧ (ab ≤ 0 → bc ≤ 0 → ac ≤ 0)

/-- `a` comes before `b` by importance, origin, specificity or ordinal. -/
def Precedes (a b : CascadingStyle) : Prop :=
  a.originPlace < b.originPlace ∨ a.originKey = b.originKey ∧
    ((b.specificity - a.specificity).toInt < 0 ∨ a.specificity = b.specificity ∧
      (b.ordinal - a.ordinal).toInt < 0)

/-- The styles that agree with each other up to their specificity. -/
def alike (s : Set CascadingStyle) (skin : Bool) (key : Bool × Option StyleOrigin) :
    Set CascadingStyle := {a ∈ s | a.skinProp = skin ∧ a.originKey = key}

/-- What a set of styles needs for the contract. -/
structure Comparable (s : Set CascadingStyle) : Prop where
  rules : (∀ a ∈ s, a.rule ≠ none) ∨ ∀ a ∈ s, a.rule = none
  skin : ∀ a ∈ s, ∀ b ∈ s, a.skinProp = true → b.skinProp = false → Precedes b a
  specificities : ∀ skin key, WithinHalf (specificity '' alike s skin key)
  ordinals : ∀ skin key n, WithinHalf (ordinal '' {a ∈ alike s skin key | a.specificity = n})

theorem returns_iff (a b : CascadingStyle) :
    (∃ c, a.compareTo b = .ok c) ↔ (a.rule = none ∨ b.rule ≠ none) := by
  have hreturns : ∀ o, a.otherOrigin b = .ok o → ∃ c, a.compareTo b = .ok c := by
    intro o ho
    rw [compareTo, ho]
    exact ⟨_, rfl⟩
  cases ha : a.rule with
  | none => exact ⟨fun _ => Or.inl rfl, fun _ => hreturns none (by rw [otherOrigin, ha])⟩
  | some origin =>
      cases hb : b.rule with
      | none =>
          have hthrows : a.otherOrigin b = .error .nullPointer := by rw [otherOrigin, ha, hb]
          constructor
          · rintro ⟨c, hc⟩
            rw [compareTo, hthrows] at hc
            cases hc
          · rintro (h | h)
            · cases h
            · exact absurd rfl h
      | some origin' =>
          exact ⟨fun _ => Or.inr nofun, fun _ => hreturns origin' (by rw [otherOrigin, ha, hb])⟩

theorem rules_iff (s : Set CascadingStyle) :
    (∀ a ∈ s, ∀ b ∈ s, ∃ c, a.compareTo b = .ok c) ↔
      (∀ a ∈ s, a.rule ≠ none) ∨ ∀ a ∈ s, a.rule = none := by
  simp only [returns_iff]
  constructor
  · intro h
    by_cases hall : ∀ b ∈ s, b.rule ≠ none
    · exact Or.inl hall
    · obtain ⟨b, hb, hnone⟩ : ∃ b ∈ s, b.rule = none := by
        by_contra hnot
        exact hall fun b hb hnone => hnot ⟨b, hb, hnone⟩
      exact Or.inr fun a ha => (h a ha b hb).resolve_right (not_not.mpr hnone)
  · rintro (h | h)
    · exact fun a _ b hb => Or.inr (h b hb)
    · exact fun a ha b _ => Or.inl (h a ha)

theorem otherOrigin_of_rules {s : Set CascadingStyle}
    (h : (∀ a ∈ s, a.rule ≠ none) ∨ ∀ a ∈ s, a.rule = none) {a b : CascadingStyle} (ha : a ∈ s)
    (hb : b ∈ s) : a.otherOrigin b = .ok b.origin := by
  rw [otherOrigin, origin]
  rcases h with h | h
  · obtain ⟨origin, hrule⟩ := Option.ne_none_iff_exists'.mp (h a ha)
    obtain ⟨origin', hrule'⟩ := Option.ne_none_iff_exists'.mp (h b hb)
    rw [hrule, hrule']
    rfl
  · rw [h a ha, h b hb]
    rfl

theorem cascade_neg_iff (a b : CascadingStyle) : cascade a b < 0 ↔ Precedes a b := by
  obtain ⟨hneg, hpos, hzero⟩ := byOrigin_spec a b
  have hzero' := sees_bySpecificity.eq_zero_iff a b
  rw [cascade, Precedes, thenBy, thenBy, ← hneg, ← hzero, ← hzero']
  rw [byOrdinal]
  change _ ↔ _ ∨ _ ∧ (bySpecificity a b < 0 ∨ _)
  split
  · split
    · omega
    · omega
  · omega

theorem lawful_cascade_iff (s : Set CascadingStyle) :
    Lawful cascade s ↔
      (∀ key, WithinHalf (specificity '' {a ∈ s | a.originKey = key})) ∧
        ∀ key n, WithinHalf (ordinal '' {a ∈ s | a.originKey = key ∧ a.specificity = n}) := by
  have hspecificity : ∀ t : Set CascadingStyle,
      Lawful bySpecificity t ↔ WithinHalf (specificity '' t) := fun t => by
    rw [← lawful_sub_iff, lawful_image_iff]
    rfl
  have hordinal : ∀ t : Set CascadingStyle, Lawful byOrdinal t ↔ WithinHalf (ordinal '' t) :=
    fun t => by
      rw [← lawful_sub_iff, lawful_image_iff]
      rfl
  rw [cascade, lawful_thenBy_iff sees_byOrigin]
  simp only [lawful_byOrigin, true_and, lawful_thenBy_iff sees_bySpecificity, hspecificity,
    hordinal, forall_and, Set.mem_ofPred_eq, and_assoc]

theorem lawful_compareTo_iff (s : Set CascadingStyle) :
    Lawful (lastIf skinProp cascade) s ↔
      (∀ a ∈ s, ∀ b ∈ s, a.skinProp = true → b.skinProp = false → Precedes b a) ∧
        (∀ skin key, WithinHalf (specificity '' alike s skin key)) ∧
          ∀ skin key n, WithinHalf (ordinal '' {a ∈ alike s skin key | a.specificity = n}) := by
  rw [lawful_lastIf_iff]
  simp only [cascade_neg_iff, lawful_cascade_iff, forall_and, alike, Set.mem_ofPred_eq, and_assoc]

/-- **The contract** holds in a set of styles exactly when they are comparable. -/
theorem contract_iff (s : Set CascadingStyle) :
    (∀ a ∈ s, ∀ b ∈ s, ∀ c ∈ s, Contract a b c) ↔ Comparable s := by
  constructor
  · intro h
    have hrules := (rules_iff s).mp fun a ha b hb => by
      obtain ⟨ab, ba, bc, ac, hab, -⟩ := h a ha b hb b hb
      exact ⟨ab, hab⟩
    have hcompare : ∀ a ∈ s, ∀ b ∈ s, a.compareTo b = .ok (lastIf skinProp cascade a b) :=
      fun a ha b hb => compareTo_eq_lastIf (otherOrigin_of_rules hrules ha hb)
    have hcontract : ∀ a ∈ s, ∀ b ∈ s, ∀ c ∈ s,
        (lastIf skinProp cascade a b).sign = -(lastIf skinProp cascade b a).sign ∧
          (lastIf skinProp cascade a b ≤ 0 → lastIf skinProp cascade b c ≤ 0 →
            lastIf skinProp cascade a c ≤ 0) := by
      intro a ha b hb c hc
      obtain ⟨ab, ba, bc, ac, hab, hba, hbc, hac, hcontract⟩ := h a ha b hb c hc
      cases (hcompare a ha b hb).symm.trans hab
      cases (hcompare b hb a ha).symm.trans hba
      cases (hcompare b hb c hc).symm.trans hbc
      cases (hcompare a ha c hc).symm.trans hac
      exact hcontract
    obtain ⟨hskin, hspecificities, hordinals⟩ := (lawful_compareTo_iff s).mp
      ⟨fun a ha b hb => (hcontract a ha b hb b hb).1,
        fun a ha b hb c hc => (hcontract a ha b hb c hc).2⟩
    exact ⟨hrules, hskin, hspecificities, hordinals⟩
  · intro h a ha b hb c hc
    have hcompare : ∀ a ∈ s, ∀ b ∈ s, a.compareTo b = .ok (lastIf skinProp cascade a b) :=
      fun a ha b hb => compareTo_eq_lastIf (otherOrigin_of_rules h.rules ha hb)
    have hlawful := (lawful_compareTo_iff s).mpr ⟨h.skin, h.specificities, h.ordinals⟩
    exact ⟨_, _, _, _, hcompare a ha b hb, hcompare b hb a ha, hcompare b hb c hc,
      hcompare a ha c hc, hlawful.antisymm a ha b hb, hlawful.trans a ha b hb c hc⟩

/-- An important declaration of `-fx-skin` and a normal one of another property: each is after the
other. -/
theorem skin_against_normal :
    ¬ Contract ⟨lit "-fx-skin", true, some (some .author), 16, 0⟩
      ⟨lit "-fx-fill", false, some (some .author), 16, 1⟩
      ⟨lit "-fx-fill", false, some (some .author), 16, 1⟩ := by
  rintro ⟨ab, ba, bc, ac, hab, hba, -, -, hsign, -⟩
  cases (show ab = 1 from Except.ok.inj (hab.symm.trans (by decide)))
  cases (show ba = 1 from Except.ok.inj (hba.symm.trans (by decide)))
  exact absurd hsign (by decide)

end CascadingStyle

end JavaFx.Css.Cascade
