import JavaFx.Prism.RectanglePacker
import JavaFx.Lib.Runs

/-!
# Packed rectangles

Levels take disjoint stretches of the size of the area, and the rectangles of a level disjoint
stretches of its length. So no two rectangles overlap, as long as no sum leaves the range of an
`int`. The levels are sorted by their sizes, which are multiples of 4; that is what the binary
search needs, and what the place of a new level keeps.
-/

namespace JavaFx.Prism

open Runs

/-! ## What is asked for -/

def Rectangle.Disjoint (r r' : Rectangle) : Prop :=
  r.x + r.width ≤ r'.x ∨ r'.x + r'.width ≤ r.x ∨ r.y + r.height ≤ r'.y ∨ r'.y + r'.height ≤ r.y

def Rectangle.Inside (r area : Rectangle) : Prop :=
  area.x ≤ r.x ∧ r.x + r.width ≤ area.x + area.width ∧
    area.y ≤ r.y ∧ r.y + r.height ≤ area.y + area.height

instance (r area : Rectangle) : Decidable (r.Inside area) := inferInstanceAs (Decidable (_ ∧ _))

inductive PackerCall where
  | add (rect : Rectangle)
  | clear

/-- The packer, and the rectangles it has placed since it was cleared. -/
structure Packing where
  packer : RectanglePacker
  placed : List Rectangle := []

/-- A call of the packer. -/
def Packing.call (s : Packing) : PackerCall → Except Exn Packing
  | .add rect => do
      let (packer, placed) ← s.packer.add rect
      return { packer := packer, placed := placed.toList ++ s.placed }
  | .clear => .ok { packer := s.packer.clear }

/-- A packer of an area, at the start. -/
def Packing.start (area : Rectangle) (vertical : Bool) : Packing where
  packer := RectanglePacker.create area.x area.y area.width area.height vertical

/-- **What a packer keeps**, with all its indexes in range. -/
structure WellPacked (area : Rectangle) (s : Packing) : Prop where
  inside : ∀ r ∈ s.placed, r.Inside area
  disjoint : s.placed.Pairwise Rectangle.Disjoint
  sorted : s.packer.levels.Pairwise fun a b => a.size ≤ b.size
  index : s.packer.recentUsedLevelIndex < s.packer.levels.length ∨
    (s.packer.levels = [] ∧ s.packer.recentUsedLevelIndex = 0)

namespace RectanglePacker

/-- No sum that decides about a rectangle that would fit the area leaves the range of an `int`. -/
def NoOverflow (packer : RectanglePacker) (rect : Rectangle) : Prop :=
  packer.requestedLength rect ≤ packer.length → packer.requestedSize rect ≤ packer.size →
    max MIN_SIZE (packer.requestedSize rect) + 3 ≤ maxInt ∧
    packer.sizeOffset + roundUp (packer.requestedSize rect) ≤ maxInt ∧
    ∀ level ∈ packer.levels, packer.requestedSize rect ≤ level.size →
      level.lengthOffset + packer.requestedLength rect ≤ maxInt

instance (packer : RectanglePacker) (rect : Rectangle) : Decidable (packer.NoOverflow rect) :=
  inferInstanceAs (Decidable (_ → _ → _ ∧ _ ∧ ∀ level ∈ packer.levels, _ → _))

end RectanglePacker

/-- The calls that go right: rectangles of positive sides, without overflow. -/
def Sound (s : Packing) : PackerCall → Prop
  | .add rect => 0 < rect.width ∧ 0 < rect.height ∧ s.packer.NoOverflow rect
  | .clear => True

instance (s : Packing) : ∀ call, Decidable (Sound s call)
  | .add _ => inferInstanceAs (Decidable (_ ∧ _ ∧ RectanglePacker.NoOverflow _ _))
  | .clear => .isTrue trivial

/-! ## The binary search -/

namespace RectanglePacker

section Search

variable {levels : List Level} {k : ℤ}

/-- The levels as they are kept. -/
structure Sorted (levels : List Level) : Prop where
  sorted : levels.Pairwise fun a b => a.size ≤ b.size
  quantized : ∀ level ∈ levels, level.size % 4 = 0

/-- Up to an index the levels are not larger than `k`, and after it not smaller. -/
structure GoodIndex (levels : List Level) (k : ℤ) (i : ℕ) : Prop where
  le_length : i ≤ levels.length
  before : ∀ j level, levels[j]? = some level → j < i → level.size ≤ k
  after : ∀ j level, levels[j]? = some level → i < j → k ≤ level.size

theorem Sorted.le (h : Sorted levels) {i j : ℕ} {a b : Level} (hij : i ≤ j)
    (ha : levels[i]? = some a) (hb : levels[j]? = some b) : a.size ≤ b.size := by
  rcases Nat.eq_or_lt_of_le hij with rfl | hlt
  · rw [ha, Option.some_inj] at hb
    rw [hb]
  · obtain ⟨hi, rfl⟩ := List.getElem?_eq_some_iff.mp ha
    obtain ⟨hj, rfl⟩ := List.getElem?_eq_some_iff.mp hb
    exact List.pairwise_iff_getElem.mp h.sorted i j hi hj hlt

/-- `b` levels are not larger than `k`. -/
structure Bound (levels : List Level) (k : ℤ) (b : ℕ) : Prop where
  le_length : b ≤ levels.length
  before : ∀ j level, levels[j]? = some level → j < b → level.size ≤ k
  after : ∀ j level, levels[j]? = some level → b ≤ j → k < level.size

/-- What the search has found out: below `from_` the levels are not larger than `k`, above `to_`
they are larger, and one end lies beside the level last looked at. -/
structure Narrowed (levels : List Level) (k from_ to_ mid midSize : ℤ) : Prop where
  from_nonneg : 0 ≤ from_
  le : from_ ≤ to_ + 1
  to_lt : to_ < levels.length
  before : ∀ (j : ℕ) level, levels[j]? = some level → j < from_ → level.size ≤ k
  after : ∀ (j : ℕ) level, levels[j]? = some level → to_ < j → k < level.size
  last : to_ < from_ → (k < midSize ∧ mid = from_) ∨ (midSize ≤ k ∧ mid = from_ - 1)

theorem search_step {key from_ to_ mid midSize : ℤ} {level : Level} (h : from_ ≤ to_)
    (hget : arrayGet levels ((from_ + to_) / 2) = .ok level) :
    search levels key from_ to_ mid midSize =
      if key < level.size then
        search levels key from_ ((from_ + to_) / 2 - 1) ((from_ + to_) / 2) level.size
      else search levels key ((from_ + to_) / 2 + 1) to_ ((from_ + to_) / 2) level.size := by
  rw [search, dif_pos h]
  simp only [hget]
  rfl

/-- **The loop** finds the number of levels that are not larger. -/
theorem search_spec (h : Sorted levels) (hk : k % 4 = 0) {from_ to_ mid midSize : ℤ}
    (hs : Narrowed levels k from_ to_ mid midSize) :
    ∃ b mid' midSize', search levels (k + 1) from_ to_ mid midSize = .ok (mid', midSize') ∧
      Bound levels k b ∧ ((k < midSize' ∧ mid' = b) ∨ (midSize' ≤ k ∧ mid' = b - 1)) := by
  obtain ⟨n, hn⟩ : ∃ n, (to_ + 1 - from_).toNat = n := ⟨_, rfl⟩
  induction n using Nat.strong_induction_on generalizing from_ to_ mid midSize with
  | _ n ih =>
      have hfrom := hs.from_nonneg
      have hto := hs.to_lt
      by_cases hgo : from_ ≤ to_
      · obtain ⟨m, hm⟩ := Int.eq_ofNat_of_zero_le (show 0 ≤ (from_ + to_) / 2 by omega)
        have hlt : m < levels.length := by omega
        have hget : levels[m]? = some levels[m] := List.getElem?_eq_getElem hlt
        have harray : arrayGet levels ((from_ + to_) / 2) = .ok levels[m] := by
          rw [hm]
          exact arrayGet_of_lt hlt
        have hquantized := h.quantized levels[m] (List.getElem_mem hlt)
        rw [search_step hgo harray]
        split_ifs with hlarger
        · -- go on below
          refine ih (((from_ + to_) / 2 - 1) + 1 - from_).toNat (by omega) ?_ rfl
          refine ⟨hfrom, by omega, by omega, hs.before, ?_, fun hend => Or.inl ⟨by omega, by omega⟩⟩
          intro j level hj hlate
          have hle := h.le (show m ≤ j by omega) hget hj
          omega
        · -- go on above; no level has the size `k + 1`
          refine ih (to_ + 1 - ((from_ + to_) / 2 + 1)).toNat (by omega) ?_ rfl
          refine ⟨by omega, by omega, hto, ?_, hs.after, fun hend => Or.inr ⟨by omega, by omega⟩⟩
          intro j level hj hearly
          have hle := h.le (show j ≤ m by omega) hj hget
          omega
      · rw [search, dif_neg hgo]
        have hle := hs.le
        refine ⟨from_.toNat, mid, midSize, rfl, ⟨by omega, ?_, ?_⟩, ?_⟩
        · intro j level hj hearly
          exact hs.before j level hj (by omega)
        · intro j level hj hlate
          exact hs.after j level hj (by omega)
        · rw [Int.toNat_of_nonneg hfrom]
          exact hs.last (by omega)

theorem Bound.good {b i : ℕ} (h : Bound levels k b) (hle : i ≤ b) (hge : b ≤ i + 1) :
    GoodIndex levels k i where
  le_length := hle.trans h.le_length
  before := fun j level hj hlt => h.before j level hj (by omega)
  after := fun j level hj hlt => le_of_lt (h.after j level hj (by omega))

theorem binarySearch_spec (h : Sorted levels) (hk : k % 4 = 0) (hk' : 0 ≤ k) (hmax : k < maxInt) :
    ∃ i, binarySearch levels k = .ok i ∧ GoodIndex levels k i := by
  rw [binarySearch]
  by_cases hempty : levels = []
  · subst hempty
    exact ⟨0, rfl, le_refl _, fun j level hj => by simp at hj, fun j level hj => by simp at hj⟩
  · have hpos : 0 < levels.length := List.length_pos_iff.mpr hempty
    have hwhole : Narrowed levels k 0 (levels.length - 1) 0 0 := by
      refine ⟨le_refl 0, by omega, by omega, fun j level hj hlt => by omega, ?_, by omega⟩
      intro j level hj hlt
      have := (List.getElem?_eq_some_iff.mp hj).1
      omega
    obtain ⟨b, mid, midSize, hsearch, hbound, hmid⟩ := search_spec h hk hwhole
    have hlength := hbound.le_length
    rw [if_neg hempty, toInt_of_nonneg (by omega) (by omega)]
    refine ⟨(if midSize < k then mid + 1
      else if k < midSize then (if 0 < mid then mid - 1 else 0) else mid).toNat, ?_, ?_⟩
    · show (do let r ← search levels (k + 1) 0 (levels.length - 1) 0 0; _) = _
      rw [hsearch]
      rfl
    · rcases hmid with ⟨hlarger, rfl⟩ | ⟨hsmaller, rfl⟩
      · rw [if_neg (by omega), if_pos hlarger]
        split_ifs with hzero
        · exact hbound.good (by omega) (by omega)
        · exact hbound.good (by omega) (by omega)
      · split_ifs with hless hlarger hzero
        · exact hbound.good (by omega) (by omega)
        · omega
        · omega
        · exact hbound.good (by omega) (by omega)

theorem firstIndex_spec {packer : RectanglePacker} (h : Sorted packer.levels) (hk : k % 4 = 0)
    (hk' : 0 ≤ k) (hmax : k < maxInt)
    (hindex : packer.recentUsedLevelIndex < packer.levels.length ∨
      (packer.levels = [] ∧ packer.recentUsedLevelIndex = 0)) :
    ∃ i, packer.firstIndex k = .ok i ∧ GoodIndex packer.levels k i := by
  rw [firstIndex]
  rcases hindex with hlt | ⟨hempty, hzero⟩
  · have hget : packer.levels[packer.recentUsedLevelIndex]? = _ := List.getElem?_eq_getElem hlt
    rw [if_pos hlt, listGet, hget]
    show ∃ i, (if packer.levels[packer.recentUsedLevelIndex].size ≠ k then _ else _) = _ ∧ _
    split_ifs with hsize
    · exact binarySearch_spec h hk hk' hmax
    · -- the level used last has the size that is looked for
      rw [ne_eq, not_not] at hsize
      refine ⟨packer.recentUsedLevelIndex, rfl, hlt.le, ?_, ?_⟩
      · intro j level hj hjlt
        exact hsize ▸ h.le hjlt.le hj hget
      · intro j level hj hjlt
        exact hsize ▸ h.le hjlt.le hget hj
  · rw [hempty, hzero, if_neg (by decide)]
    exact ⟨0, rfl, le_refl _, fun j level hj => by simp at hj, fun j level hj => by simp at hj⟩

end Search

theorem roundUp_eq {requestedSize : ℤ} (h : max MIN_SIZE requestedSize + 3 ≤ maxInt) :
    roundUp requestedSize % 4 = 0 ∧ max MIN_SIZE requestedSize ≤ roundUp requestedSize ∧
      roundUp requestedSize ≤ max MIN_SIZE requestedSize + 3 := by
  rw [roundUp, ROUND_UP]
  unfold MIN_SIZE maxInt toInt at *
  omega

/-! ## Levels and rectangles -/

/-- The place of a rectangle along the levels. -/
def lengthOffset (packer : RectanglePacker) (rect : Rectangle) : ℤ :=
  if packer.vertical then rect.y - packer.y else rect.x - packer.x

/-- The place of a rectangle across the levels. -/
def sizeOffset' (packer : RectanglePacker) (rect : Rectangle) : ℤ :=
  if packer.vertical then rect.x - packer.x else rect.y - packer.y

/-- The rectangle is one of the level. -/
structure Holds (packer : RectanglePacker) (rect : Rectangle) (level : Level) : Prop where
  sizeOffset : packer.sizeOffset' rect = level.sizeOffset
  size : packer.requestedSize rect ≤ level.size
  nonneg : 0 ≤ packer.lengthOffset rect
  le : packer.lengthOffset rect + packer.requestedLength rect ≤ level.lengthOffset

/-- A level of the packer. -/
structure LevelOf (packer : RectanglePacker) (level : Level) : Prop where
  length : level.length = packer.length
  pos : 0 < level.size
  quantized : level.size % 4 = 0
  nonneg : 0 ≤ level.sizeOffset
  le : level.sizeOffset + level.size ≤ packer.sizeOffset
  filled_nonneg : 0 ≤ level.lengthOffset
  filled_le : level.lengthOffset ≤ level.length

/-- Two levels take different stretches of the area. -/
def Apart (a b : Level) : Prop :=
  a.sizeOffset + a.size ≤ b.sizeOffset ∨ b.sizeOffset + b.size ≤ a.sizeOffset

/-- The state of a packer, with the rectangles it has placed. -/
structure Laid (packer : RectanglePacker) (placed : List Rectangle) : Prop where
  levels : ∀ level ∈ packer.levels, LevelOf packer level
  nonneg : 0 ≤ packer.sizeOffset
  le : packer.levels ≠ [] → packer.sizeOffset ≤ packer.size
  apart : packer.levels.Pairwise Apart
  sorted : packer.levels.Pairwise fun a b => a.size ≤ b.size
  index : packer.recentUsedLevelIndex < packer.levels.length ∨
    (packer.levels = [] ∧ packer.recentUsedLevelIndex = 0)
  positive : ∀ rect ∈ placed, 0 < packer.requestedLength rect ∧ 0 < packer.requestedSize rect
  held : ∀ rect ∈ placed, ∃ level ∈ packer.levels, Holds packer rect level
  disjoint : placed.Pairwise Rectangle.Disjoint

section Laid

variable {packer : RectanglePacker} {placed : List Rectangle} {rect rect' : Rectangle}
  {level level' : Level}

theorem disjoint_of_size
    (h : packer.sizeOffset' rect + packer.requestedSize rect ≤ packer.sizeOffset' rect' ∨
      packer.sizeOffset' rect' + packer.requestedSize rect' ≤ packer.sizeOffset' rect) :
    rect.Disjoint rect' := by
  unfold sizeOffset' requestedSize at h
  unfold Rectangle.Disjoint
  split_ifs at h <;> omega

theorem disjoint_of_length
    (h : packer.lengthOffset rect + packer.requestedLength rect ≤ packer.lengthOffset rect' ∨
      packer.lengthOffset rect' + packer.requestedLength rect' ≤ packer.lengthOffset rect) :
    rect.Disjoint rect' := by
  unfold lengthOffset requestedLength at h
  unfold Rectangle.Disjoint
  split_ifs at h <;> omega

/-- A rectangle that a level takes. -/
structure Taken (packer : RectanglePacker) (rect : Rectangle) (level level' : Level)
    (rect' : Rectangle) : Prop where
  level_eq : level' =
    { level with lengthOffset := level.lengthOffset + packer.requestedLength rect }
  fits : level.lengthOffset + packer.requestedLength rect ≤ level.length
  size : packer.requestedSize rect ≤ level.size
  requestedLength : packer.requestedLength rect' = packer.requestedLength rect
  requestedSize : packer.requestedSize rect' = packer.requestedSize rect
  lengthOffset : packer.lengthOffset rect' = level.lengthOffset
  sizeOffset : packer.sizeOffset' rect' = level.sizeOffset

/-- The area lies within the coordinates. -/
structure Coordinates (packer : RectanglePacker) : Prop where
  x_ge : -2147483648 ≤ packer.x
  y_ge : -2147483648 ≤ packer.y
  x_le : packer.x + (if packer.vertical then packer.size else packer.length) ≤ maxInt
  y_le : packer.y + (if packer.vertical then packer.length else packer.size) ≤ maxInt
  length_le : packer.length ≤ maxInt

/-- **`Level.add`** puts a rectangle behind the others of its level. -/
theorem add_taken (hc : Coordinates packer) (hlevel : 0 ≤ level.lengthOffset)
    (hlevel' : level.length = packer.length) (hoffset : 0 ≤ level.sizeOffset)
    (hend : level.sizeOffset ≤ packer.size) (hpos : 0 < packer.requestedLength rect)
    (hmax : packer.requestedSize rect ≤ level.size →
      level.lengthOffset + packer.requestedLength rect ≤ maxInt)
    (hadd : level.add rect packer.x packer.y (packer.requestedLength rect)
      (packer.requestedSize rect) packer.vertical = some (level', rect')) :
    Taken packer rect level level' rect' := by
  by_cases hroom : toInt (level.lengthOffset + packer.requestedLength rect) ≤ level.length ∧
      packer.requestedSize rect ≤ level.size
  · rw [Level.add, if_pos hroom] at hadd
    obtain ⟨hfits, hsize⟩ := hroom
    rw [toInt_of_nonneg (by omega) (hmax hsize)] at hfits hadd
    have hx := hc.x_ge
    have hy := hc.y_ge
    have hx' := hc.x_le
    have hy' := hc.y_le
    cases hv : packer.vertical with
    | false =>
        rw [hv, if_neg Bool.false_ne_true] at hx' hy'
        have hxInt : toInt (level.lengthOffset + packer.x) = level.lengthOffset + packer.x :=
          toInt_of_mem (by omega) (by omega)
        have hyInt : toInt (level.sizeOffset + packer.y) = level.sizeOffset + packer.y :=
          toInt_of_mem (by omega) (by omega)
        rw [hv] at hadd
        cases hadd
        refine ⟨rfl, hfits, hsize, rfl, rfl, ?_, ?_⟩
        · rw [lengthOffset, hv]
          show toInt (level.lengthOffset + packer.x) - packer.x = _
          rw [hxInt, add_sub_cancel_right]
        · rw [sizeOffset', hv]
          show toInt (level.sizeOffset + packer.y) - packer.y = _
          rw [hyInt, add_sub_cancel_right]
    | true =>
        rw [hv, if_pos rfl] at hx' hy'
        have hxInt : toInt (level.sizeOffset + packer.x) = level.sizeOffset + packer.x :=
          toInt_of_mem (by omega) (by omega)
        have hyInt : toInt (level.lengthOffset + packer.y) = level.lengthOffset + packer.y :=
          toInt_of_mem (by omega) (by omega)
        rw [hv] at hadd
        cases hadd
        refine ⟨rfl, hfits, hsize, rfl, rfl, ?_, ?_⟩
        · rw [lengthOffset, hv]
          show toInt (level.lengthOffset + packer.y) - packer.y = _
          rw [hyInt, add_sub_cancel_right]
        · rw [sizeOffset', hv]
          show toInt (level.sizeOffset + packer.x) - packer.x = _
          rw [hxInt, add_sub_cancel_right]
  · rw [Level.add, if_neg hroom] at hadd
    cases hadd

/-- The loop over the levels finds one that takes the rectangle. -/
theorem place_some {newSize : ℤ} {newLevelFlag : Bool} {length size : ℤ} {levels : List Level}
    {i j : ℕ} (h : place packer rect length size newSize newLevelFlag levels i =
      some (j, level', rect')) :
    ∃ m level, j = i + m ∧ levels[m]? = some level ∧
      level.add rect packer.x packer.y length size packer.vertical = some (level', rect') := by
  induction levels generalizing i with
  | nil => cases h
  | cons level levels ih =>
      rw [place] at h
      split_ifs at h with hbreak
      cases hadd : level.add rect packer.x packer.y length size packer.vertical with
      | some r =>
          rw [hadd] at h
          cases h
          exact ⟨0, level, rfl, rfl, hadd⟩
      | none =>
          rw [hadd] at h
          obtain ⟨m, level, rfl, hget, hadd⟩ := ih h
          exact ⟨m + 1, level, by omega, hget, hadd⟩

theorem Apart.symm {a b : Level} (h : Apart a b) : Apart b a := Or.symm h

/-- A rectangle of another level, or one before the end of the same level. -/
theorem Taken.disjoint (h : Taken packer rect level level' rect') {other : Rectangle} {l : Level}
    (hother : Holds packer other l) (hl : l = level ∨ Apart l level) : rect'.Disjoint other := by
  have hsize := h.size
  have hoffset := h.sizeOffset
  have hsize' := h.requestedSize
  have hotherSize := hother.size
  have hotherOffset := hother.sizeOffset
  rcases hl with rfl | hapart
  · apply @disjoint_of_length packer
    right
    rw [h.lengthOffset]
    exact hother.le
  · apply @disjoint_of_size packer
    rcases hapart with hle | hle
    · right
      omega
    · left
      omega

theorem Taken.holds (h : Taken packer rect level level' rect') (hlevel : 0 ≤ level.lengthOffset) :
    Holds packer rect' level' := by
  rw [h.level_eq]
  exact ⟨h.sizeOffset, h.requestedSize.trans_le h.size, h.lengthOffset ▸ hlevel,
    (by rw [h.lengthOffset, h.requestedLength])⟩

theorem Holds.longer {l : Level} (h : Holds packer rect l) {length : ℤ}
    (hle : l.lengthOffset ≤ length) : Holds packer rect { l with lengthOffset := length } :=
  ⟨h.sizeOffset, h.size, h.nonneg, h.le.trans hle⟩

/-- The packer with another list of levels. -/
def withLevels (packer : RectanglePacker) (levels : List Level) (index : ℕ) (offset : ℤ) :
    RectanglePacker :=
  { packer with levels := levels, recentUsedLevelIndex := index, sizeOffset := offset }

theorem LevelOf.withLevels {levels : List Level} {index : ℕ} {offset : ℤ}
    (h : LevelOf packer level) (hoffset : packer.sizeOffset ≤ offset) :
    LevelOf (packer.withLevels levels index offset) level :=
  ⟨h.length, h.pos, h.quantized, h.nonneg, h.le.trans hoffset, h.filled_nonneg, h.filled_le⟩

theorem Holds.withLevels {levels : List Level} {index : ℕ} {offset : ℤ}
    (h : Holds packer rect level) : Holds (packer.withLevels levels index offset) rect level :=
  ⟨h.sizeOffset, h.size, h.nonneg, h.le⟩

/-- **One more rectangle** keeps the state, whether its level is one of the levels or a new one
that takes its place by size. -/
theorem Laid.put (h : Laid packer placed) {before middle after : List Level} {offset : ℤ}
    (hsplit : packer.levels = before ++ (middle ++ after)) (hmiddle : ∀ l ∈ middle, l = level)
    (hlevel : LevelOf (packer.withLevels [] 0 offset) level)
    (hoffset : packer.sizeOffset ≤ offset) (hle : offset ≤ packer.size)
    (hbefore : ∀ l ∈ before, Apart l level ∧ l.size ≤ level.size)
    (hafter : ∀ l ∈ after, Apart level l ∧ level.size ≤ l.size)
    (htaken : Taken packer rect level level' rect')
    (hpos : 0 < packer.requestedLength rect ∧ 0 < packer.requestedSize rect) :
    Laid (packer.withLevels (before ++ level' :: after) before.length offset)
      (rect' :: placed) := by
  have hlevels : ∀ l ∈ before ++ after, LevelOf packer l := by
    intro l hl
    apply h.levels
    rw [hsplit]
    simp only [List.mem_append] at hl ⊢
    exact hl.imp_right Or.inr
  have hapart := h.apart
  rw [hsplit, List.pairwise_append, List.pairwise_append] at hapart
  have hsorted := h.sorted
  rw [hsplit, List.pairwise_append, List.pairwise_append] at hsorted
  have hlevel' := htaken.level_eq
  constructor
  case levels =>
    intro l hl
    rcases List.mem_append.mp hl with hl | hl
    · exact (hlevels l (List.mem_append_left _ hl)).withLevels hoffset
    · rcases List.mem_cons.mp hl with rfl | hl
      · subst hlevel'
        have hfilled := hlevel.filled_nonneg
        exact ⟨hlevel.length, hlevel.pos, hlevel.quantized, hlevel.nonneg, hlevel.le,
          by dsimp only; omega, htaken.fits⟩
      · exact (hlevels l (List.mem_append_right _ hl)).withLevels hoffset
  case nonneg => exact h.nonneg.trans hoffset
  case le => exact fun _ => hle
  case apart =>
    show (before ++ level' :: after).Pairwise Apart
    subst hlevel'
    refine List.pairwise_append.mpr ⟨hapart.1, List.pairwise_cons.mpr ⟨?_, hapart.2.1.2.1⟩, ?_⟩
    · exact fun l hl => (hafter l hl).1
    · intro l hl l' hl'
      rcases List.mem_cons.mp hl' with rfl | hl'
      · exact (hbefore l hl).1
      · exact hapart.2.2 l hl l' (List.mem_append_right _ hl')
  case sorted =>
    show (before ++ level' :: after).Pairwise fun a b => a.size ≤ b.size
    subst hlevel'
    refine List.pairwise_append.mpr ⟨hsorted.1, List.pairwise_cons.mpr ⟨?_, hsorted.2.1.2.1⟩, ?_⟩
    · exact fun l hl => (hafter l hl).2
    · intro l hl l' hl'
      rcases List.mem_cons.mp hl' with rfl | hl'
      · exact (hbefore l hl).2
      · exact hsorted.2.2 l hl l' (List.mem_append_right _ hl')
  case index =>
    left
    show before.length < (before ++ level' :: after).length
    rw [List.length_append, List.length_cons]
    omega
  case positive =>
    intro r hr
    rcases List.mem_cons.mp hr with rfl | hr
    · have hlength := htaken.requestedLength
      have hsize := htaken.requestedSize
      exact ⟨hlength ▸ hpos.1, hsize ▸ hpos.2⟩
    · exact h.positive r hr
  case held =>
    intro r hr
    rcases List.mem_cons.mp hr with rfl | hr
    · refine ⟨level', List.mem_append_right _ List.mem_cons_self, ?_⟩
      exact (htaken.holds hlevel.filled_nonneg).withLevels
    · obtain ⟨l, hl, hr⟩ := h.held r hr
      rw [hsplit, List.mem_append, List.mem_append] at hl
      rcases hl with hl | hl | hl
      · exact ⟨l, List.mem_append_left _ hl, hr.withLevels⟩
      · -- the level is the one that has been filled further
        obtain rfl := hmiddle l hl
        refine ⟨level', List.mem_append_right _ List.mem_cons_self, Holds.withLevels ?_⟩
        rw [hlevel']
        exact hr.longer (by omega)
      · exact ⟨l, List.mem_append_right _ (List.mem_cons_of_mem _ hl), hr.withLevels⟩
  case disjoint =>
    refine List.pairwise_cons.mpr ⟨?_, h.disjoint⟩
    intro r hr
    obtain ⟨l, hl, hr⟩ := h.held r hr
    apply htaken.disjoint hr
    rw [hsplit, List.mem_append, List.mem_append] at hl
    rcases hl with hl | hl | hl
    · exact Or.inr (hbefore l hl).1
    · exact Or.inl (hmiddle l hl)
    · exact Or.inr (hafter l hl).1.symm

theorem Laid.sorted' (h : Laid packer placed) : Sorted packer.levels :=
  ⟨h.sorted, fun l hl => (h.levels l hl).quantized⟩

/-- A rectangle that fits, in a level that is there. -/
theorem Laid.set (h : Laid packer placed) {i : ℕ} (hget : packer.levels[i]? = some level)
    (htaken : Taken packer rect level level' rect')
    (hpos : 0 < packer.requestedLength rect ∧ 0 < packer.requestedSize rect) :
    Laid { packer with levels := packer.levels.set i level', recentUsedLevelIndex := i }
      (rect' :: placed) := by
  obtain ⟨hi, rfl⟩ := List.getElem?_eq_some_iff.mp hget
  have hsplit : packer.levels = packer.levels.take i ++ ([packer.levels[i]] ++
      packer.levels.drop (i + 1)) := by
    rw [List.singleton_append, List.cons_getElem_drop_succ, List.take_append_drop]
  have hset : packer.levels.set i level' =
      packer.levels.take i ++ level' :: packer.levels.drop (i + 1) := by
    rw [List.set_eq_take_append_cons_drop, if_pos hi]
  have hapart := h.apart
  rw [hsplit, List.pairwise_append, List.singleton_append, List.pairwise_cons] at hapart
  have hsorted := h.sorted
  rw [hsplit, List.pairwise_append, List.singleton_append, List.pairwise_cons] at hsorted
  have hput := h.put hsplit (fun l hl => List.mem_singleton.mp hl)
    ((h.levels _ (List.getElem_mem hi)).withLevels le_rfl) le_rfl
    (h.le (List.ne_nil_of_length_pos (by omega)))
    (fun l hl => ⟨hapart.2.2 l hl _ List.mem_cons_self, hsorted.2.2 l hl _ List.mem_cons_self⟩)
    (fun l hl => ⟨hapart.2.1.1 l hl, hsorted.2.1.1 l hl⟩) htaken hpos
  rw [← hset, List.length_take_of_le hi.le] at hput
  exact hput

theorem insertIdx_eq_take_drop {levels : List Level} {i : ℕ} (hi : i ≤ levels.length) :
    levels.insertIdx i level = levels.take i ++ level :: levels.drop i := by
  induction levels generalizing i with
  | nil =>
      obtain rfl := Nat.le_zero.mp hi
      rfl
  | cons l levels ih =>
      cases i with
      | zero => rfl
      | succ i =>
          rw [List.insertIdx_succ_cons, ih (Nat.le_of_succ_le_succ hi)]
          rfl

/-- A rectangle that fits, in a new level. -/
theorem Laid.insert (h : Laid packer placed) {i : ℕ} (hi : i ≤ packer.levels.length)
    (hlevel : LevelOf (packer.withLevels [] 0 (packer.sizeOffset + level.size)) level)
    (hstart : level.sizeOffset = packer.sizeOffset)
    (hle : packer.sizeOffset + level.size ≤ packer.size)
    (hbefore : ∀ j l, packer.levels[j]? = some l → j < i → l.size ≤ level.size)
    (hafter : ∀ j l, packer.levels[j]? = some l → i ≤ j → level.size ≤ l.size)
    (htaken : Taken packer rect level level' rect')
    (hpos : 0 < packer.requestedLength rect ∧ 0 < packer.requestedSize rect) :
    Laid (packer.withLevels (packer.levels.insertIdx i level') i (packer.sizeOffset + level.size))
      (rect' :: placed) := by
  have hsplit : packer.levels = packer.levels.take i ++ ([] ++ packer.levels.drop i) := by
    rw [List.nil_append, List.take_append_drop]
  have hput := h.put hsplit (by simp) hlevel (by have := hlevel.pos; omega) hle
    (fun l hl => ?_) (fun l hl => ?_) htaken hpos
  · rw [← insertIdx_eq_take_drop hi, List.length_take_of_le hi] at hput
    exact hput
  · have hold := h.levels l (List.mem_of_mem_take hl)
    obtain ⟨j, hj, rfl⟩ := List.mem_take_iff_getElem.mp hl
    exact ⟨Or.inl (hstart ▸ hold.le),
      hbefore j _ (List.getElem?_eq_getElem (by omega)) (by omega)⟩
  · have hold := h.levels l (List.mem_of_mem_drop hl)
    obtain ⟨j, hj, rfl⟩ := List.mem_drop_iff_getElem.mp hl
    exact ⟨Or.inr (hstart ▸ hold.le),
      hafter (i + j) _ (List.getElem?_eq_getElem (by omega)) (by omega)⟩

/-- The new level takes the rectangle it is made for. -/
theorem newLevel_add (hpos : 0 < packer.requestedLength rect)
    (hfits : packer.requestedLength rect ≤ packer.length) (hmax : packer.length ≤ maxInt)
    {newSize : ℤ} (hsize : packer.requestedSize rect ≤ newSize) :
    ∃ r, (packer.newLevel newSize).add rect packer.x packer.y (packer.requestedLength rect)
      (packer.requestedSize rect) packer.vertical = some r := by
  have hint : toInt ((packer.newLevel newSize).lengthOffset + packer.requestedLength rect) =
      packer.requestedLength rect := by
    show toInt (0 + packer.requestedLength rect) = _
    rw [zero_add]
    exact toInt_of_nonneg hpos.le (hfits.trans hmax)
  rw [Level.add, if_pos ⟨hint.trans_le hfits, hsize⟩]
  exact ⟨_, rfl⟩

/-- The index at which a new level goes in. -/
theorem GoodIndex.behind {levels : List Level} {k : ℤ} {i : ℕ} (h : GoodIndex levels k i) :
    ∃ b, isBehind levels i k = .ok b ∧
      (if b then i + 1 else i) ≤ levels.length ∧
      (∀ j l, levels[j]? = some l → j < (if b then i + 1 else i) → l.size ≤ k) ∧
      ∀ j l, levels[j]? = some l → (if b then i + 1 else i) ≤ j → k ≤ l.size := by
  by_cases hlt : i < levels.length
  · have hget : levels[i]? = some levels[i] := List.getElem?_eq_getElem hlt
    refine ⟨decide (levels[i].size ≤ k), ?_, ?_⟩
    · rw [isBehind, if_pos hlt, listGet, hget]
      rfl
    · by_cases hsize : levels[i].size ≤ k
      · rw [if_pos (decide_eq_true hsize)]
        refine ⟨hlt, fun j l hj hjlt => ?_, fun j l hj hle => h.after j l hj hle⟩
        rcases Nat.lt_succ_iff_lt_or_eq.mp hjlt with hjlt | rfl
        · exact h.before j l hj hjlt
        · rw [hget] at hj
          cases hj
          exact hsize
      · rw [if_neg (by rw [decide_eq_true_iff]; exact hsize)]
        refine ⟨hlt.le, h.before, fun j l hj hle => ?_⟩
        rcases Nat.eq_or_lt_of_le hle with rfl | hlt'
        · rw [hget] at hj
          cases hj
          exact le_of_not_ge hsize
        · exact h.after j l hj hlt'
  · refine ⟨false, by rw [isBehind, if_neg hlt], h.le_length, h.before, ?_⟩
    intro j l hj hle
    have := (List.getElem?_eq_some_iff.mp hj).1
    exact absurd (hle.trans_lt this) hlt

/-! ## The branches of `add` -/

/-- A rectangle that is too large for the area. -/
theorem add_refused (h : packer.length < packer.requestedLength rect ∨
    packer.size < packer.requestedSize rect) : packer.add rect = .ok (packer, none) := by
  rw [RectanglePacker.add]
  by_cases hlong : packer.length < packer.requestedLength rect
  · rw [if_pos hlong]
    rfl
  · rw [if_neg hlong, if_pos (h.resolve_left hlong)]
    rfl

section Fits

variable {i : ℕ} (hlong : ¬packer.length < packer.requestedLength rect)
  (hlarge : ¬packer.size < packer.requestedSize rect)
  (hfirst : packer.firstIndex (roundUp (packer.requestedSize rect)) = .ok i)

include hlong hlarge hfirst

/-- There is a level with room. -/
theorem add_placed {newLevelFlag : Bool} {j : ℕ} {r : Level × Rectangle}
    (hflag : newLevelFlag =
      decide (toInt (packer.sizeOffset + roundUp (packer.requestedSize rect)) ≤ packer.size))
    (hplace : place packer rect (packer.requestedLength rect) (packer.requestedSize rect)
      (roundUp (packer.requestedSize rect)) newLevelFlag (packer.levels.drop i) i = some (j, r)) :
    packer.add rect =
      .ok ({ packer with levels := packer.levels.set j r.1, recentUsedLevelIndex := j },
        some r.2) := by
  subst hflag
  rw [RectanglePacker.add, if_neg hlong, if_neg hlarge]
  simp only [hfirst, bind, Except.bind, hplace]
  rfl

/-- There is no room, neither in a level nor for a new one. -/
theorem add_full
    (hflag : ¬toInt (packer.sizeOffset + roundUp (packer.requestedSize rect)) ≤ packer.size)
    (hplace : place packer rect (packer.requestedLength rect) (packer.requestedSize rect)
      (roundUp (packer.requestedSize rect)) false (packer.levels.drop i) i = none) :
    packer.add rect = .ok (packer, none) := by
  rw [RectanglePacker.add, if_neg hlong, if_neg hlarge]
  simp only [hfirst, bind, Except.bind, decide_eq_false hflag, hplace]
  rfl

/-- There is a new level. -/
theorem add_newLevel {behind : Bool} {levels : List Level} {r : Level × Rectangle}
    (hflag : toInt (packer.sizeOffset + roundUp (packer.requestedSize rect)) ≤ packer.size)
    (hplace : place packer rect (packer.requestedLength rect) (packer.requestedSize rect)
      (roundUp (packer.requestedSize rect)) true (packer.levels.drop i) i = none)
    (hbehind : isBehind packer.levels i (roundUp (packer.requestedSize rect)) = .ok behind)
    (hadd : (packer.newLevel (roundUp (packer.requestedSize rect))).add rect packer.x packer.y
      (packer.requestedLength rect) (packer.requestedSize rect) packer.vertical = some r)
    (hinsert : insertLevel packer.levels (if behind then i + 1 else i) r.1 = .ok levels) :
    packer.add rect =
      .ok (packer.withLevels levels (if behind then i + 1 else i)
        (toInt (packer.sizeOffset + roundUp (packer.requestedSize rect))), some r.2) := by
  rw [RectanglePacker.add, if_neg hlong, if_neg hlarge]
  simp only [hfirst, bind, Except.bind, decide_eq_true hflag, hplace, hbehind, hadd, Option.elim,
    hinsert, Bool.not_true, Bool.false_eq_true, if_false]
  rfl

end Fits

/-- **`add`** keeps the state. -/
theorem Laid.add (h : Laid packer placed) (hc : Coordinates packer)
    (hpos : 0 < packer.requestedLength rect ∧ 0 < packer.requestedSize rect)
    (hmax : packer.NoOverflow rect) :
    ∃ levels index offset r, packer.add rect = .ok (packer.withLevels levels index offset, r) ∧
      Laid (packer.withLevels levels index offset) (r.toList ++ placed) := by
  by_cases hlong : packer.length < packer.requestedLength rect
  · exact ⟨_, _, _, none, add_refused (Or.inl hlong), h⟩
  by_cases hlarge : packer.size < packer.requestedSize rect
  · exact ⟨_, _, _, none, add_refused (Or.inr hlarge), h⟩
  obtain ⟨hround, hoffset, hlevels⟩ := hmax (le_of_not_gt hlong) (le_of_not_gt hlarge)
  obtain ⟨hquantized, hge, hle⟩ := roundUp_eq hround
  have hmin : 8 ≤ max MIN_SIZE (packer.requestedSize rect) := le_max_left _ _
  have hrequested : packer.requestedSize rect ≤ max MIN_SIZE (packer.requestedSize rect) :=
    le_max_right _ _
  have hmaxInt : maxInt % 4 = 3 := by decide
  obtain ⟨i, hfirst, hgood⟩ :=
    firstIndex_spec h.sorted' hquantized (by omega) (by omega) h.index
  have hnonneg := h.nonneg
  obtain ⟨flag, hflag⟩ : ∃ flag, flag =
      decide (toInt (packer.sizeOffset + roundUp (packer.requestedSize rect)) ≤ packer.size) :=
    ⟨_, rfl⟩
  cases hplace : place packer rect (packer.requestedLength rect) (packer.requestedSize rect)
      (roundUp (packer.requestedSize rect)) flag (packer.levels.drop i) i with
  | some found =>
      obtain ⟨j, level', rect'⟩ := found
      refine ⟨_, _, packer.sizeOffset, _, add_placed hlong hlarge hfirst hflag hplace, ?_⟩
      obtain ⟨m, level, rfl, hget, hadd⟩ := place_some hplace
      rw [List.getElem?_drop] at hget
      have hmem := List.mem_of_getElem? hget
      have hlevel := h.levels level hmem
      have hend := hlevel.le
      have hsize := h.le (List.ne_nil_of_mem hmem)
      have hlevelPos := hlevel.pos
      exact h.set hget (add_taken hc hlevel.filled_nonneg hlevel.length hlevel.nonneg (by omega)
        hpos.1 (hlevels level hmem) hadd) hpos
  | none =>
      by_cases hroom :
          toInt (packer.sizeOffset + roundUp (packer.requestedSize rect)) ≤ packer.size
      · rw [hflag, decide_eq_true hroom] at hplace
        obtain ⟨behind, hbehind, hindex, hbefore, hafter⟩ := hgood.behind
        obtain ⟨r, hadd⟩ := newLevel_add hpos.1 (le_of_not_gt hlong) hc.length_le
          (hrequested.trans hge)
        have hinsert : insertLevel packer.levels (if behind then i + 1 else i) r.1 =
            .ok (packer.levels.insertIdx (if behind then i + 1 else i) r.1) := if_pos hindex
        refine ⟨_, _, _, _, add_newLevel hlong hlarge hfirst hroom hplace hbehind hadd hinsert, ?_⟩
        rw [toInt_of_nonneg (by omega) hoffset] at hroom ⊢
        have hlength : 0 ≤ packer.length := by omega
        have hlevel : LevelOf (packer.withLevels [] 0
            (packer.sizeOffset + roundUp (packer.requestedSize rect)))
            (packer.newLevel (roundUp (packer.requestedSize rect))) := by
          refine ⟨rfl, ?_, hquantized, hnonneg, le_rfl, le_rfl, hlength⟩
          show 0 < roundUp (packer.requestedSize rect)
          omega
        refine @Laid.insert packer placed rect _ (packer.newLevel _) _ h _ hindex hlevel rfl hroom
          hbefore hafter ?_ hpos
        · refine add_taken hc le_rfl rfl hnonneg ?_ hpos.1 ?_ hadd
          · show packer.sizeOffset ≤ packer.size
            omega
          · intro _
            show 0 + packer.requestedLength rect ≤ maxInt
            have := hc.length_le
            omega
      · rw [hflag, decide_eq_false hroom] at hplace
        exact ⟨_, _, _, none, add_full hlong hlarge hfirst hroom hplace, h⟩

theorem laid_clear (packer : RectanglePacker) : Laid packer.clear [] where
  levels := by rintro _ ⟨⟩
  nonneg := le_rfl
  le := fun hne => absurd rfl hne
  apart := List.Pairwise.nil
  sorted := List.Pairwise.nil
  index := Or.inr ⟨rfl, rfl⟩
  positive := by rintro _ ⟨⟩
  held := by rintro _ ⟨⟩
  disjoint := List.Pairwise.nil

/-- The rectangles of the levels lie in the area. -/
theorem Laid.inside (h : Laid packer placed) {r : Rectangle} (hr : r ∈ placed) :
    0 ≤ packer.lengthOffset r ∧ packer.lengthOffset r + packer.requestedLength r ≤ packer.length ∧
      0 ≤ packer.sizeOffset' r ∧ packer.sizeOffset' r + packer.requestedSize r ≤ packer.size := by
  obtain ⟨level, hmem, hholds⟩ := h.held r hr
  have hlevel := h.levels level hmem
  have hsize := h.le (List.ne_nil_of_mem hmem)
  have hlength := hlevel.length
  have hfilled := hlevel.filled_le
  have hend := hlevel.le
  have hstart := hlevel.nonneg
  have hholdsOffset := hholds.sizeOffset
  have hholdsSize := hholds.size
  have hholdsLe := hholds.le
  exact ⟨hholds.nonneg, by omega, by omega, by omega⟩

end Laid

end RectanglePacker

/-! ## Runs -/

open RectanglePacker

/-- The state between the calls. -/
structure Placed (area : Rectangle) (vertical : Bool) (s : Packing) : Prop where
  laid : Laid s.packer s.placed
  x : s.packer.x = area.x
  y : s.packer.y = area.y
  length : s.packer.length = if vertical then area.height else area.width
  size : s.packer.size = if vertical then area.width else area.height
  vertical : s.packer.vertical = vertical

section Runs

variable {area : Rectangle} {vertical : Bool} {s : Packing}

theorem Placed.start (area : Rectangle) (vertical : Bool) :
    Placed area vertical (Packing.start area vertical) :=
  ⟨⟨by rintro _ ⟨⟩, le_rfl, fun hne => absurd rfl hne, List.Pairwise.nil, List.Pairwise.nil,
    Or.inr ⟨rfl, rfl⟩, by rintro _ ⟨⟩, by rintro _ ⟨⟩, List.Pairwise.nil⟩, rfl, rfl, rfl, rfl, rfl⟩

theorem Placed.wellPacked (h : Placed area vertical s) : WellPacked area s where
  inside := by
    intro r hr
    obtain ⟨h₁, h₂, h₃, h₄⟩ := h.laid.inside hr
    unfold lengthOffset requestedLength at *
    unfold sizeOffset' requestedSize at *
    rw [h.length] at h₂
    rw [h.size] at h₄
    rw [h.vertical, h.x, h.y] at *
    unfold Rectangle.Inside
    cases vertical with
    | false =>
        simp only [Bool.false_eq_true, if_false] at *
        omega
    | true =>
        simp only [if_true] at *
        omega
  disjoint := h.laid.disjoint
  sorted := h.laid.sorted
  index := h.laid.index

/-- The area is one of coordinates that are `int`s. -/
structure InCoordinates (area : Rectangle) : Prop where
  x : -2147483648 ≤ area.x
  y : -2147483648 ≤ area.y
  width : area.width ≤ maxInt
  height : area.height ≤ maxInt
  right : area.x + area.width ≤ maxInt
  bottom : area.y + area.height ≤ maxInt

theorem Placed.coordinates (h : Placed area vertical s) (harea : InCoordinates area) :
    Coordinates s.packer := by
  obtain ⟨hx, hy, hwidth, hheight, hright, hbottom⟩ := harea
  refine ⟨h.x ▸ hx, h.y ▸ hy, ?_, ?_, ?_⟩
  · rw [h.x, h.vertical, h.length, h.size]
    cases vertical
    · exact hright
    · exact hright
  · rw [h.y, h.vertical, h.length, h.size]
    cases vertical
    · exact hbottom
    · exact hbottom
  · rw [h.length]
    cases vertical
    · exact hwidth
    · exact hheight

/-- **A call** that goes right. -/
theorem Placed.call (harea : InCoordinates area) (h : Placed area vertical s) {call : PackerCall}
    (hsound : Sound s call) : ∃ s', s.call call = .ok s' ∧ Placed area vertical s' := by
  cases call with
  | clear => exact ⟨_, rfl, laid_clear _, h.x, h.y, h.length, h.size, h.vertical⟩
  | add rect =>
      obtain ⟨hwidth, hheight, hmax⟩ := hsound
      have hpos : 0 < s.packer.requestedLength rect ∧ 0 < s.packer.requestedSize rect := by
        unfold requestedLength requestedSize
        split_ifs
        · exact ⟨hheight, hwidth⟩
        · exact ⟨hwidth, hheight⟩
      obtain ⟨levels, index, offset, r, hadd, hlaid⟩ :=
        h.laid.add (h.coordinates harea) hpos hmax
      refine ⟨⟨s.packer.withLevels levels index offset, r.toList ++ s.placed⟩, ?_, hlaid, h.x, h.y,
        h.length, h.size, h.vertical⟩
      rw [Packing.call, hadd]
      rfl

/-- **The packer never overlaps**, as long as no sum leaves the range of an `int`: at any time its
rectangles are disjoint parts of the area, and the levels are sorted. -/
theorem wellPacked_of_sound (harea : InCoordinates area) (vertical : Bool) {calls : List PackerCall}
    (hsound : Along Packing.call Sound (Packing.start area vertical) calls) :
    ∀ pre, pre <+: calls → ∃ s, runAll Packing.call (Packing.start area vertical) pre = .ok s ∧
      WellPacked area s := by
  rintro pre ⟨rest, rfl⟩
  obtain ⟨s, hrun, hplaced⟩ := runAll_invariant (fun s call h hcall => h.call harea hcall)
    (Placed.start area vertical) hsound.append_left
  exact ⟨s, hrun, hplaced.wellPacked⟩

theorem wellPacked_two_glyphs :
    ∃ s, runAll Packing.call (Packing.start ⟨0, 0, 64, 64⟩ false)
      [.add ⟨0, 0, 20, 10⟩, .clear, .add ⟨0, 0, 7, 12⟩] = .ok s ∧
      WellPacked ⟨0, 0, 64, 64⟩ s := by
  have harea : InCoordinates ⟨0, 0, 64, 64⟩ :=
    ⟨by decide, by decide, by decide, by decide, by decide, by decide⟩
  exact wellPacked_of_sound harea false (by decide) _ List.prefix_rfl

/-- The end of the second rectangle is not an `int`, and it reaches past the area. -/
theorem overflowing_rectangle :
    ¬∃ s, runAll Packing.call (Packing.start ⟨0, 0, maxInt, 8⟩ false)
      [.add ⟨0, 0, 1500000000, 8⟩, .add ⟨0, 0, 1500000000, 8⟩] = .ok s ∧
      WellPacked ⟨0, 0, maxInt, 8⟩ s := by
  rintro ⟨s, hrun, hpacked⟩
  have hplaced : s.placed = [⟨1500000000, 0, 1500000000, 8⟩, ⟨0, 0, 1500000000, 8⟩] := by
    cases hrun
    rfl
  have hinside := hpacked.inside ⟨1500000000, 0, 1500000000, 8⟩ (by rw [hplaced]; exact .head _)
  exact absurd hinside (by decide)

/-! ## The room that is taken -/

/-- The pixels of a rectangle. -/
def Rectangle.pixels (r : Rectangle) : Finset (ℤ × ℤ) :=
  (Finset.range r.width.toNat ×ˢ Finset.range r.height.toNat).image fun p => (r.x + p.1, r.y + p.2)

theorem Rectangle.mem_pixels {r : Rectangle} {q : ℤ × ℤ} : q ∈ r.pixels ↔
    r.x ≤ q.1 ∧ q.1 < r.x + r.width ∧ r.y ≤ q.2 ∧ q.2 < r.y + r.height := by
  simp only [pixels, Finset.mem_image, Finset.mem_product, Finset.mem_range, Prod.ext_iff]
  constructor
  · rintro ⟨p, ⟨hwidth, hheight⟩, hx, hy⟩
    omega
  · intro hq
    exact ⟨((q.1 - r.x).toNat, (q.2 - r.y).toNat), by omega, by omega, by omega⟩

theorem Rectangle.card_pixels (r : Rectangle) :
    r.pixels.card = r.width.toNat * r.height.toNat := by
  rw [pixels, Finset.card_image_of_injective, Finset.card_product, Finset.card_range,
    Finset.card_range]
  intro p q hpq
  obtain ⟨hx, hy⟩ := Prod.ext_iff.mp hpq
  exact Prod.ext (by simpa using hx) (by simpa using hy)

/-- Disjoint parts of a set have no more members together than it has. -/
theorem sum_card_le {β : Type} [DecidableEq β] {parts : List (Finset β)} {whole : Finset β}
    (hparts : ∀ p ∈ parts, p ⊆ whole) (hdisjoint : parts.Pairwise Disjoint) :
    (parts.map Finset.card).sum ≤ whole.card := by
  induction parts generalizing whole with
  | nil => exact Nat.zero_le _
  | cons p parts ih =>
      obtain ⟨hp, hdisjoint⟩ := List.pairwise_cons.mp hdisjoint
      have hrest : (parts.map Finset.card).sum ≤ (whole \ p).card := by
        refine ih (fun q hq => ?_) hdisjoint
        exact Finset.subset_sdiff.mpr ⟨hparts q (.tail _ hq), (hp q hq).symm⟩
      have hcard := Finset.card_sdiff_add_card_eq_card (hparts p (.head _))
      rw [List.map_cons, List.sum_cons]
      omega

/-- **The accepted rectangles fit the area together**, as long as no sum overflows. -/
theorem area_le_of_sound (harea : InCoordinates area) (vertical : Bool) {calls : List PackerCall}
    (hsound : Along Packing.call Sound (Packing.start area vertical) calls) :
    ∃ s, runAll Packing.call (Packing.start area vertical) calls = .ok s ∧
      (s.placed.map fun r => r.width.toNat * r.height.toNat).sum ≤
        area.width.toNat * area.height.toNat := by
  obtain ⟨s, hrun, hplaced⟩ := runAll_invariant (fun s call h hcall => h.call harea hcall)
    (Placed.start area vertical) hsound
  refine ⟨s, hrun, ?_⟩
  have hpacked := hplaced.wellPacked
  have hcard : ((s.placed.map Rectangle.pixels).map Finset.card).sum ≤ area.pixels.card := by
    refine sum_card_le ?_ (List.pairwise_map.mpr (hpacked.disjoint.imp fun hdisjoint => ?_))
    · intro p hp
      obtain ⟨r, hr, rfl⟩ := List.mem_map.mp hp
      obtain ⟨hleft, hright, htop, hbottom⟩ := hpacked.inside r hr
      intro q hq
      rw [Rectangle.mem_pixels] at hq ⊢
      omega
    · rw [Finset.disjoint_left]
      intro q hq hq'
      rw [Rectangle.mem_pixels] at hq hq'
      unfold Rectangle.Disjoint at hdisjoint
      omega
  rw [List.map_map, Rectangle.card_pixels] at hcard
  simpa only [Function.comp_def, Rectangle.card_pixels] using hcard

theorem area_le_two_glyphs :
    ∃ s, runAll Packing.call (Packing.start ⟨0, 0, 64, 64⟩ false)
      [.add ⟨0, 0, 20, 10⟩, .add ⟨0, 0, 7, 12⟩] = .ok s ∧
      (s.placed.map fun r => r.width.toNat * r.height.toNat).sum ≤ 64 * 64 :=
  @area_le_of_sound ⟨0, 0, 64, 64⟩
    ⟨by decide, by decide, by decide, by decide, by decide, by decide⟩ false _ (by decide)

end Runs

end JavaFx.Prism
