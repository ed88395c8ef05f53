import Mathlib.Data.Prod.Lex
import JavaFx.Css.Match
import JavaFx.JavaInt

/-!
# `Match.compareTo`

A match is compared by one `int`, in which the counts of style-classes and pseudo-classes
have four bits each. A count of 16 or more reaches the next field, where it is or-ed to the
count that is there.
-/

namespace JavaFx.Css

variable {P S : Type} [Indexed P] [Indexed S]

/-! ## The code -/

def Match.compareTo (m o : Match P) : ℤ := toInt (toInt m.specificity - toInt o.specificity)

/-! ## The counts -/

/-- The numbers of ids, of style-classes and of pseudo-classes, compared in this order. -/
abbrev Counts : Type := ℕ ×ₗ ℕ ×ₗ ℕ

def Counts.of (ids styleClasses pseudoClasses : ℕ) : Counts :=
  toLex (ids, toLex (styleClasses, pseudoClasses))

/-- What `createMatch` collects; `:dir()` is one of the pseudo-classes of a simple selector. -/
def Selector.counts : Selector P S → Counts
  | .simple s =>
      .of s.createMatch.idCount s.createMatch.styleClassCount
        (s.pseudoClassState.size + if s.nodeOrientation ≠ .inherit then 1 else 0)
  | .compound c =>
      .of c.createMatch.idCount c.createMatch.styleClassCount c.createMatch.pseudoClasses.size

namespace Counts

/-- The bits of a count that its field has no room for are or-ed to the next count. -/
def carried (c : Counts) : Counts :=
  .of (c.1 ||| c.2.1 / 16 ||| c.2.2 / 256) ((c.2.1 ||| c.2.2 / 16) % 16) (c.2.2 % 16)

/-- How far two triples are apart, in steps of the last count. -/
def distance (a b : Counts) : ℤ :=
  256 * ((a.1 : ℤ) - b.1) + 16 * ((a.2.1 : ℤ) - b.2.1) + ((a.2.2 : ℤ) - b.2.2)

/-- The order of two triples of counts is that of the carried triples, read modulo `2 ^ 32`. -/
def OrderKept (a b : Counts) : Prop :=
  (a < b → 2147483648 ≤ a.carried.distance b.carried % 4294967296) ∧
    (b < a → 0 < a.carried.distance b.carried % 4294967296 ∧
      a.carried.distance b.carried % 4294967296 < 2147483648)

theorem lt_iff {a b : Counts} : a < b ↔
    a.1 < b.1 ∨ a.1 = b.1 ∧ (a.2.1 < b.2.1 ∨ a.2.1 = b.2.1 ∧ a.2.2 < b.2.2) := by
  rw [Prod.Lex.lt_iff, Prod.Lex.lt_iff]
  rfl

/-- The packed number. -/
def packed (c : Counts) : ℕ := (c.1 <<< 8) ||| (c.2.1 <<< 4) ||| c.2.2

/-- The fields of the packed number. -/
theorem packed_eq (c : Counts) :
    c.packed = 256 * c.carried.1 + 16 * c.carried.2.1 + c.carried.2.2 := by
  have hdiv (k a b : ℕ) : (a ||| b) / 2 ^ k = a / 2 ^ k ||| b / 2 ^ k := Nat.or_div_two_pow
  have hmod (k a b : ℕ) : (a ||| b) % 2 ^ k = a % 2 ^ k ||| b % 2 ^ k := Nat.or_mod_two_pow
  have hhigh : c.packed / 2 ^ 8 = c.1 ||| c.2.1 / 2 ^ 4 ||| c.2.2 / 2 ^ 8 := by
    rw [packed, hdiv, hdiv, Nat.shiftLeft_eq, Nat.shiftLeft_eq,
      Nat.mul_div_cancel _ (by decide), show c.2.1 * 2 ^ 4 / 2 ^ 8 = c.2.1 / 2 ^ 4 by omega]
  have hmiddle : c.packed / 2 ^ 4 % 2 ^ 4 = (c.2.1 ||| c.2.2 / 2 ^ 4) % 2 ^ 4 := by
    rw [packed, hdiv, hdiv, hmod, hmod, hmod, Nat.shiftLeft_eq, Nat.shiftLeft_eq,
      Nat.mul_div_cancel _ (by decide), show c.1 * 2 ^ 8 / 2 ^ 4 % 2 ^ 4 = 0 by omega,
      Nat.zero_or]
  have hlow : c.packed % 2 ^ 4 = c.2.2 % 2 ^ 4 := by
    rw [packed, hmod, hmod, Nat.shiftLeft_eq, Nat.shiftLeft_eq,
      show c.1 * 2 ^ 8 % 2 ^ 4 = 0 by omega, Nat.mul_mod_left, Nat.zero_or, Nat.zero_or]
  change c.packed = 256 * (c.1 ||| c.2.1 / 2 ^ 4 ||| c.2.2 / 2 ^ 8) +
    16 * ((c.2.1 ||| c.2.2 / 2 ^ 4) % 2 ^ 4) + c.2.2 % 2 ^ 4
  omega

theorem packed_sub (a b : Counts) :
    (a.packed : ℤ) - b.packed = a.carried.distance b.carried := by
  rw [packed_eq, packed_eq, distance]
  push_cast
  ring

/-- Counts that stay in their fields are not carried. -/
theorem carried_of_lt {c : Counts} (hstyle : c.2.1 < 16) (hpseudo : c.2.2 < 16) :
    c.carried = c := by
  have h (n m : ℕ) (hn : n < 16) (hm : m < 16) : (n ||| m / 16) % 16 = n := by
    rw [Nat.div_eq_of_lt hm, Nat.or_zero, Nat.mod_eq_of_lt hn]
  show Counts.of (c.1 ||| c.2.1 / 16 ||| c.2.2 / 256) ((c.2.1 ||| c.2.2 / 16) % 16) (c.2.2 % 16) = c
  rw [h _ _ hstyle hpseudo, Nat.div_eq_of_lt hstyle, Nat.div_eq_of_lt (by omega),
    Nat.mod_eq_of_lt hpseudo, Nat.or_zero, Nat.or_zero]
  rfl

/-- While the `int` does not overflow the order kept is the lexicographic one. -/
theorem orderKept_iff {a b : Counts} (ha : a.carried.1 < 8388608) (hb : b.carried.1 < 8388608) :
    a.OrderKept b ↔ (a < b → a.carried < b.carried) ∧ (b < a → b.carried < a.carried) := by
  have hfields (c : Counts) : c.carried.2.1 < 16 ∧ c.carried.2.2 < 16 :=
    ⟨Nat.mod_lt _ (by decide), Nat.mod_lt _ (by decide)⟩
  have hfa := hfields a
  have hfb := hfields b
  have hbehind : 2147483648 ≤ a.carried.distance b.carried % 4294967296 ↔
      a.carried < b.carried := by
    rw [lt_iff, distance]
    omega
  have hahead : (0 < a.carried.distance b.carried % 4294967296 ∧
      a.carried.distance b.carried % 4294967296 < 2147483648) ↔ b.carried < a.carried := by
    rw [lt_iff, distance]
    omega
  rw [OrderKept, hbehind, hahead]

/-- The order is kept for counts that stay in their fields. -/
theorem orderKept_of_lt {a b : Counts} (ha : a.1 < 8388608 ∧ a.2.1 < 16 ∧ a.2.2 < 16)
    (hb : b.1 < 8388608 ∧ b.2.1 < 16 ∧ b.2.2 < 16) : a.OrderKept b := by
  have hca := carried_of_lt ha.2.1 ha.2.2
  have hcb := carried_of_lt hb.2.1 hb.2.2
  apply (orderKept_iff (by rw [hca]; exact ha.1) (by rw [hcb]; exact hb.1)).mpr
  rw [hca, hcb]
  exact ⟨id, id⟩

end Counts

/-! ## The order of matches -/

theorem Selector.specificity_eq (s : Selector P S) :
    s.createMatch.specificity = s.counts.packed := by
  cases s with
  | simple s =>
      by_cases hdir : s.nodeOrientation = .inherit
      · simp only [createMatch, SimpleSelector.createMatch, Match.new, counts, hdir, ne_eq, not_true,
          if_false]
        rfl
      · simp only [createMatch, SimpleSelector.createMatch, Match.new, counts, hdir, ne_eq,
          not_false_eq_true, if_true]
        rfl
  | compound c => rfl

/-- The sign of `compareTo` is that of the order of the counts. -/
def Selector.ComparedByCounts (s t : Selector P S) : Prop :=
  (s.createMatch.compareTo t.createMatch < 0 ↔ s.counts < t.counts) ∧
    (0 < s.createMatch.compareTo t.createMatch ↔ t.counts < s.counts)

theorem Selector.compareTo_eq (s t : Selector P S) : s.createMatch.compareTo t.createMatch =
    toInt (s.counts.carried.distance t.counts.carried) := by
  rw [Match.compareTo, specificity_eq, specificity_eq, ← Counts.packed_sub, toInt, toInt, toInt,
    toInt]
  omega

/-- **Matches are compared by the counts** if and only if what is carried from one field to
the next, and the overflow of the `int`, do not change the order. -/
theorem Selector.comparedByCounts_iff (s t : Selector P S) :
    s.ComparedByCounts t ↔ s.counts.OrderKept t.counts := by
  rw [ComparedByCounts, compareTo_eq, Counts.OrderKept]
  have hneg (d : ℤ) : toInt d < 0 ↔ 2147483648 ≤ d % 4294967296 := by
    rw [toInt]
    omega
  have hpos (d : ℤ) : 0 < toInt d ↔ 0 < d % 4294967296 ∧ d % 4294967296 < 2147483648 := by
    rw [toInt]
    omega
  rw [hneg, hpos]
  constructor
  · rintro ⟨hlt, hgt⟩
    exact ⟨hlt.mpr, hgt.mpr⟩
  · rintro ⟨hlt, hgt⟩
    rcases lt_trichotomy s.counts t.counts with h | h | h
    · have := hlt h
      refine ⟨iff_of_true this h, iff_of_false ?_ (lt_asymm h)⟩
      omega
    · rw [h, Counts.distance]
      simp
    · have := hgt h
      refine ⟨iff_of_false ?_ (lt_asymm h), iff_of_true this h⟩
      omega

/-- `.c0.c1 … .c15` -/
def sixteenClasses : Selector ℕ ℕ := .simple (.new none (List.range 16) [] none)

/-- `#x` -/
def oneId : Selector ℕ ℕ := .simple (.new none [] [] (some "x"))

/-- Sixteen style-classes weigh as much as an id. -/
theorem sixteen_classes_equal_id : sixteenClasses.counts = .of 0 16 0 ∧
    oneId.counts = .of 1 0 0 ∧
    sixteenClasses.createMatch.compareTo oneId.createMatch = 0 ∧
    ¬ sixteenClasses.ComparedByCounts oneId := by
  have hsixteen : sixteenClasses.counts = .of 0 16 0 := by decide +kernel
  have hid : oneId.counts = .of 1 0 0 := by decide +kernel
  have hcompare : sixteenClasses.createMatch.compareTo oneId.createMatch = 0 := by
    rw [Selector.compareTo_eq, hsixteen, hid]
    decide +kernel
  refine ⟨hsixteen, hid, hcompare, ?_⟩
  rintro ⟨hlt, -⟩
  rw [hcompare, hsixteen, hid] at hlt
  exact absurd (hlt.mpr (by decide)) (lt_irrefl 0)

end JavaFx.Css
