import Mathlib.Data.Finset.Basic
import Mathlib.Logic.Function.Basic
import Mathlib.Tactic
import JavaFx.Lib.Runs

/-!
# `SelectedCellsMap`

The selected cells of a table are kept twice: as a list in the order of selection, and as a map
from rows to bit sets that answers `isSelected` quickly. Column −1 stands for the whole row and
sets no bit; a row that is in the map with no bit set is a selected row.

The two views are updated one after the other. A whole row shares its bit set with the cells of
the row, so removing the last cell of a row takes the row away from the map even if the list
still holds it as a whole.
-/

namespace JavaFx.Control

/-- A position of a table: two positions are equal if row and column are. -/
structure TablePosition where
  row : ℕ
  column : ℤ
  column_ge : -1 ≤ column
deriving DecidableEq

/-- `Map<Integer, BitSet>` -/
abbrev BitSetMap := ℕ → Option (Finset ℕ)

structure SelectedCellsMap where
  selectedCells : List TablePosition
  selectedCellBitSetMap : BitSetMap

/-- The bit set of a row, which is a new one if the row has none. -/
def BitSetMap.bitset (map : BitSetMap) (row : ℕ) : Finset ℕ := (map row).getD ∅

/-- The loop body that `addAll` and `setAll` share, and the first half of `add`. -/
def BitSetMap.mark (map : BitSetMap) (tp : TablePosition) : BitSetMap :=
  Function.update map tp.row (some
    (if 0 ≤ tp.column then insert tp.column.toNat (map.bitset tp.row) else map.bitset tp.row))

namespace SelectedCellsMap

/-- `new SelectedCellsMap(listener)` -/
def new : SelectedCellsMap where
  selectedCells := []
  selectedCellBitSetMap := fun _ => none

def add (s : SelectedCellsMap) (tp : TablePosition) : SelectedCellsMap where
  selectedCells :=
    if 0 ≤ tp.column then
      if tp.column.toNat ∈ s.selectedCellBitSetMap.bitset tp.row then s.selectedCells
      else s.selectedCells ++ [tp]
    else if tp ∈ s.selectedCells then s.selectedCells
    else s.selectedCells ++ [tp]
  selectedCellBitSetMap := s.selectedCellBitSetMap.mark tp

def addAll (s : SelectedCellsMap) (cells : List TablePosition) : SelectedCellsMap where
  selectedCells := s.selectedCells ++ cells
  selectedCellBitSetMap := cells.foldl BitSetMap.mark s.selectedCellBitSetMap

def setAll (_ : SelectedCellsMap) (cells : List TablePosition) : SelectedCellsMap where
  selectedCells := cells
  selectedCellBitSetMap := cells.foldl BitSetMap.mark fun _ => none

/-- The half of `remove` that is about the map. -/
def removeBit (map : BitSetMap) (tp : TablePosition) : BitSetMap :=
  match map tp.row with
  | none => map
  | some bitset =>
      let cleared := if 0 ≤ tp.column then bitset.erase tp.column.toNat else bitset
      if cleared = ∅ then Function.update map tp.row none
      else Function.update map tp.row (some cleared)

def remove (s : SelectedCellsMap) (tp : TablePosition) : SelectedCellsMap where
  selectedCells := s.selectedCells.erase tp
  selectedCellBitSetMap := removeBit s.selectedCellBitSetMap tp

def clear (_ : SelectedCellsMap) : SelectedCellsMap := new

def isSelected (s : SelectedCellsMap) (row : ℕ) (columnIndex : ℤ) : Bool :=
  if columnIndex < 0 then (s.selectedCellBitSetMap row).isSome
  else
    match s.selectedCellBitSetMap row with
    | some bitset => columnIndex.toNat ∈ bitset
    | none => false

inductive Op where
  | add (tp : TablePosition)
  | addAll (cells : List TablePosition)
  | setAll (cells : List TablePosition)
  | remove (tp : TablePosition)
  | clear

def perform (s : SelectedCellsMap) : Op → SelectedCellsMap
  | .add tp => s.add tp
  | .addAll cells => s.addAll cells
  | .setAll cells => s.setAll cells
  | .remove tp => s.remove tp
  | .clear => s.clear

/-! ## The two views agree -/

/-- The list has no position twice, and `isSelected` says what is in it. -/
structure Agrees (s : SelectedCellsMap) : Prop where
  nodup : s.selectedCells.Nodup
  cell : ∀ (row : ℕ) (column : ℤ), 0 ≤ column →
    (s.isSelected row column = true ↔ ∃ p ∈ s.selectedCells, p.row = row ∧ p.column = column)
  wholeRow : ∀ row : ℕ,
    s.isSelected row (-1) = true ↔ ∃ p ∈ s.selectedCells, p.row = row

/-- The operation neither brings in a position that is there already, nor takes the last cell of a
row away that is also selected as a whole. -/
def Apart (s : SelectedCellsMap) : Op → Prop
  | .add _ => True
  | .addAll cells => cells.Nodup ∧ cells.Disjoint s.selectedCells
  | .setAll cells => cells.Nodup
  | .remove tp => 0 ≤ tp.column →
      (∃ p ∈ s.selectedCells, p.row = tp.row ∧ p.column = -1) →
      ∃ p ∈ s.selectedCells, p.row = tp.row ∧ 0 ≤ p.column ∧ p ≠ tp
  | .clear => True

/-- The rows and the bits of a map are those of a list. -/
structure Indexes (map : BitSetMap) (cells : List TablePosition) : Prop where
  rows : ∀ row, (map row).isSome ↔ ∃ p ∈ cells, p.row = row
  bits : ∀ row column : ℕ,
    column ∈ map.bitset row ↔ ∃ p ∈ cells, p.row = row ∧ p.column = column

variable {s : SelectedCellsMap} {map : BitSetMap} {cells : List TablePosition}

theorem isSelected_cell (s : SelectedCellsMap) (row : ℕ) {column : ℤ} (h : 0 ≤ column) :
    s.isSelected row column = true ↔
      column.toNat ∈ s.selectedCellBitSetMap.bitset row := by
  unfold isSelected BitSetMap.bitset
  rw [if_neg (not_lt.mpr h)]
  cases s.selectedCellBitSetMap row with
  | none => simp
  | some bitset => simp

theorem isSelected_wholeRow (s : SelectedCellsMap) (row : ℕ) :
    s.isSelected row (-1) = true ↔ (s.selectedCellBitSetMap row).isSome :=
  Iff.rfl

/-- What the calls of `isSelected` say of the map. -/
theorem agrees_iff :
    s.Agrees ↔ s.selectedCells.Nodup ∧ Indexes s.selectedCellBitSetMap s.selectedCells := by
  constructor
  · intro h
    refine ⟨h.nodup, fun row => ?_, fun row column => ?_⟩
    · rw [← isSelected_wholeRow]
      exact h.wholeRow row
    · have hcell := h.cell row column (Int.natCast_nonneg column)
      rw [isSelected_cell s row (Int.natCast_nonneg column)] at hcell
      exact hcell
  · rintro ⟨hnodup, hindex⟩
    refine ⟨hnodup, fun row column hcolumn => ?_, fun row => ?_⟩
    · lift column to ℕ using hcolumn
      rw [isSelected_cell s row (Int.natCast_nonneg column)]
      exact hindex.bits row column
    · rw [isSelected_wholeRow]
      exact hindex.rows row

theorem Indexes.empty : Indexes (fun _ => none) [] where
  rows row := by simp
  bits row column := by simp [BitSetMap.bitset]

theorem new_agrees : new.Agrees := agrees_iff.mpr ⟨List.nodup_nil, Indexes.empty⟩

/-! ## Marking -/

theorem mark_isSome (map : BitSetMap) (tp : TablePosition) (row : ℕ) :
    (map.mark tp row).isSome ↔ (map row).isSome ∨ tp.row = row := by
  unfold BitSetMap.mark
  rcases eq_or_ne row tp.row with rfl | hrow
  · simp
  · rw [Function.update_of_ne hrow]
    simp [hrow.symm]

theorem mem_mark (map : BitSetMap) (tp : TablePosition) (row column : ℕ) :
    column ∈ (map.mark tp).bitset row ↔
      column ∈ map.bitset row ∨ (tp.row = row ∧ tp.column = column) := by
  have hge := tp.column_ge
  unfold BitSetMap.mark
  rcases eq_or_ne row tp.row with rfl | hrow
  · rw [BitSetMap.bitset, Function.update_self, Option.getD_some]
    by_cases hcolumn : 0 ≤ tp.column
    · rw [if_pos hcolumn, Finset.mem_insert]
      constructor
      · rintro (rfl | h)
        · exact Or.inr ⟨rfl, (Int.toNat_of_nonneg hcolumn).symm⟩
        · exact Or.inl h
      · rintro (h | ⟨-, h⟩)
        · exact Or.inr h
        · exact Or.inl (by rw [h, Int.toNat_natCast])
    · rw [if_neg hcolumn]
      constructor
      · exact Or.inl
      · rintro (h | ⟨-, h⟩)
        · exact h
        · exact absurd (h ▸ Int.natCast_nonneg column) hcolumn
  · have hkeep (bits : Option (Finset ℕ)) :
        BitSetMap.bitset (Function.update map tp.row bits) row = map.bitset row :=
      congrArg (Option.getD · ∅) (Function.update_of_ne hrow bits map)
    rw [hkeep]
    constructor
    · exact Or.inl
    · rintro (h | ⟨h, -⟩)
      · exact h
      · exact absurd h.symm hrow

theorem Indexes.mark (h : Indexes map cells) (tp : TablePosition) :
    Indexes (map.mark tp) (cells ++ [tp]) where
  rows row := by
    rw [mark_isSome, h.rows]
    simp [or_and_right, exists_or]
  bits row column := by
    rw [mem_mark, h.bits]
    simp [or_and_right, exists_or]

theorem Indexes.markAll (h : Indexes map cells) (more : List TablePosition) :
    Indexes (more.foldl BitSetMap.mark map) (cells ++ more) := by
  induction more generalizing map cells with
  | nil => simpa using h
  | cons tp more ih =>
      have hnext := ih (h.mark tp)
      rw [List.append_assoc] at hnext
      exact hnext

/-- Only what is in the list counts. -/
theorem Indexes.congr {cells' : List TablePosition} (h : Indexes map cells)
    (hmem : ∀ p, p ∈ cells ↔ p ∈ cells') : Indexes map cells' where
  rows row := by simpa only [hmem] using h.rows row
  bits row column := by simpa only [hmem] using h.bits row column

/-! ## Adding -/

theorem Indexes.mem_bitset (h : Indexes map cells) {tp : TablePosition} (hcolumn : 0 ≤ tp.column) :
    tp.column.toNat ∈ map.bitset tp.row ↔ tp ∈ cells := by
  rw [h.bits, Int.toNat_of_nonneg hcolumn]
  constructor
  · rintro ⟨p, hp, hrow, hcol⟩
    obtain ⟨row, column, _⟩ := p
    obtain ⟨row', column', _⟩ := tp
    obtain rfl : row = row' := hrow
    obtain rfl : column = column' := hcol
    exact hp
  · exact fun hp => ⟨tp, hp, rfl, rfl⟩

theorem add_selectedCells (h : s.Agrees) (tp : TablePosition) :
    (s.add tp).selectedCells =
      if tp ∈ s.selectedCells then s.selectedCells else s.selectedCells ++ [tp] := by
  have hindex := (agrees_iff.mp h).2
  unfold add
  by_cases hcolumn : 0 ≤ tp.column
  · simp only [if_pos hcolumn, hindex.mem_bitset hcolumn]
  · simp only [if_neg hcolumn]

theorem Agrees.add (h : s.Agrees) (tp : TablePosition) : (s.add tp).Agrees := by
  obtain ⟨hnodup, hindex⟩ := agrees_iff.mp h
  refine agrees_iff.mpr ?_
  rw [add_selectedCells h]
  by_cases hmem : tp ∈ s.selectedCells
  · rw [if_pos hmem]
    refine ⟨hnodup, (hindex.mark tp).congr fun p => ?_⟩
    rw [List.mem_append, List.mem_singleton]
    constructor
    · rintro (hp | rfl)
      · exact hp
      · exact hmem
    · exact Or.inl
  · rw [if_neg hmem]
    refine ⟨?_, hindex.mark tp⟩
    rw [← List.concat_eq_append]
    exact hnodup.concat hmem

/-! ## Removing -/

/-- The bits a removal leaves in its row. -/
def cleared (map : BitSetMap) (tp : TablePosition) : Finset ℕ :=
  if 0 ≤ tp.column then (map.bitset tp.row).erase tp.column.toNat else map.bitset tp.row

theorem removeBit_of_ne (map : BitSetMap) {tp : TablePosition} {row : ℕ} (h : row ≠ tp.row) :
    removeBit map tp row = map row := by
  unfold removeBit
  cases map tp.row with
  | none => rfl
  | some bitset =>
      dsimp only
      split_ifs <;> exact Function.update_of_ne h _ _

theorem removeBit_row (map : BitSetMap) (tp : TablePosition) :
    removeBit map tp tp.row =
      if cleared map tp = ∅ then none else some (cleared map tp) := by
  unfold removeBit cleared BitSetMap.bitset
  cases hrow : map tp.row with
  | none => simp [hrow]
  | some bitset =>
      dsimp only [Option.getD_some]
      split_ifs <;> exact Function.update_self _ _ _

theorem bitset_removeBit_row (map : BitSetMap) (tp : TablePosition) :
    (removeBit map tp).bitset tp.row = cleared map tp := by
  rw [BitSetMap.bitset, removeBit_row]
  by_cases hempty : cleared map tp = ∅
  · rw [if_pos hempty, hempty, Option.getD_none]
  · rw [if_neg hempty, Option.getD_some]

theorem isSome_removeBit_row (map : BitSetMap) (tp : TablePosition) :
    (removeBit map tp tp.row).isSome ↔ (cleared map tp).Nonempty := by
  rw [removeBit_row, Finset.nonempty_iff_ne_empty]
  by_cases hempty : cleared map tp = ∅
  · simp [hempty]
  · simp [hempty]

theorem mem_cleared (h : Indexes map cells) (tp : TablePosition) (column : ℕ) :
    column ∈ cleared map tp ↔
      ∃ p ∈ cells, p ≠ tp ∧ p.row = tp.row ∧ p.column = column := by
  unfold cleared
  by_cases hcolumn : 0 ≤ tp.column
  · rw [if_pos hcolumn, Finset.mem_erase, h.bits]
    constructor
    · rintro ⟨hne, p, hp, hrow, hcol⟩
      refine ⟨p, hp, ?_, hrow, hcol⟩
      rintro rfl
      exact hne (by rw [hcol, Int.toNat_natCast])
    · rintro ⟨p, hp, hne, hrow, hcol⟩
      refine ⟨?_, p, hp, hrow, hcol⟩
      rintro rfl
      -- the same row and column make the same position
      apply hne
      rw [Int.toNat_of_nonneg hcolumn] at hcol
      obtain ⟨row, c, _⟩ := p
      obtain ⟨row', c', _⟩ := tp
      obtain rfl : row = row' := hrow
      obtain rfl : c = c' := hcol
      rfl
  · rw [if_neg hcolumn, h.bits]
    constructor
    · rintro ⟨p, hp, hrow, hcol⟩
      refine ⟨p, hp, ?_, hrow, hcol⟩
      rintro rfl
      exact hcolumn (hcol ▸ Int.natCast_nonneg column)
    · rintro ⟨p, hp, -, hrow, hcol⟩
      exact ⟨p, hp, hrow, hcol⟩

/-- The bits are right after every removal. -/
theorem bits_removeBit (h : Indexes map cells) (hnodup : cells.Nodup) (tp : TablePosition)
    (row column : ℕ) : column ∈ (removeBit map tp).bitset row ↔
      ∃ p ∈ cells.erase tp, p.row = row ∧ p.column = column := by
  rcases eq_or_ne row tp.row with rfl | hrow
  · rw [bitset_removeBit_row, mem_cleared h]
    simp only [hnodup.mem_erase_iff, and_assoc, and_left_comm]
  · have hkeep : (removeBit map tp).bitset row = map.bitset row :=
      congrArg (Option.getD · ∅) (removeBit_of_ne map hrow)
    rw [hkeep, h.bits]
    constructor
    · rintro ⟨p, hp, rfl, hcol⟩
      refine ⟨p, hnodup.mem_erase_iff.mpr ⟨?_, hp⟩, rfl, hcol⟩
      rintro rfl
      exact hrow rfl
    · rintro ⟨p, hp, hp'⟩
      exact ⟨p, List.mem_of_mem_erase hp, hp'⟩

/-- The row of the removed position is in the map exactly if a cell of the row is left. -/
theorem isSome_removeBit_iff (h : Indexes map cells) (tp : TablePosition) :
    (removeBit map tp tp.row).isSome ↔
      ∃ p ∈ cells, p.row = tp.row ∧ 0 ≤ p.column ∧ p ≠ tp := by
  rw [isSome_removeBit_row]
  constructor
  · rintro ⟨column, hcolumn⟩
    obtain ⟨p, hp, hne, hrow, hcol⟩ := (mem_cleared h tp column).mp hcolumn
    exact ⟨p, hp, hrow, hcol ▸ Int.natCast_nonneg column, hne⟩
  · rintro ⟨p, hp, hrow, hcol, hne⟩
    exact ⟨p.column.toNat, (mem_cleared h tp _).mpr
      ⟨p, hp, hne, hrow, (Int.toNat_of_nonneg hcol).symm⟩⟩

/-- Another position of the row is a cell, or it is the row itself and a cell is removed. -/
theorem apart_remove_iff (hnodup : s.selectedCells.Nodup) (tp : TablePosition) :
    s.Apart (.remove tp) ↔
      ((∃ p ∈ s.selectedCells.erase tp, p.row = tp.row) →
        ∃ p ∈ s.selectedCells, p.row = tp.row ∧ 0 ≤ p.column ∧ p ≠ tp) := by
  constructor
  · rintro h ⟨p, hp, hrow⟩
    obtain ⟨hne, hmem⟩ := hnodup.mem_erase_iff.mp hp
    by_cases hcol : 0 ≤ p.column
    · exact ⟨p, hmem, hrow, hcol, hne⟩
    · have hwhole : p.column = -1 := by
        have := p.column_ge
        omega
      refine h ?_ ⟨p, hmem, hrow, hwhole⟩
      by_contra hcell
      -- the row as a whole is in the list once
      apply hne
      have htp : tp.column = -1 := by
        have := tp.column_ge
        omega
      obtain ⟨row, c, _⟩ := p
      obtain ⟨row', c', _⟩ := tp
      obtain rfl : row = row' := hrow
      obtain rfl : c = -1 := hwhole
      obtain rfl : c' = -1 := htp
      rfl
  · intro h hcell
    rintro ⟨p, hp, hrow, hcol⟩
    refine h ⟨p, hnodup.mem_erase_iff.mpr ⟨?_, hp⟩, hrow⟩
    rintro rfl
    rw [hcol] at hcell
    exact absurd hcell (by decide)

theorem remove_agrees_iff (h : s.Agrees) (tp : TablePosition) :
    (s.remove tp).Agrees ↔ s.Apart (.remove tp) := by
  obtain ⟨hnodup, hindex⟩ := agrees_iff.mp h
  rw [agrees_iff, apart_remove_iff hnodup, ← isSome_removeBit_iff hindex]
  constructor
  · rintro ⟨-, hafter⟩
    exact (hafter.rows tp.row).mpr
  · intro hleft
    refine ⟨hnodup.erase tp, ?_, bits_removeBit hindex hnodup tp⟩
    intro row
    rcases eq_or_ne row tp.row with rfl | hrow
    · refine ⟨fun hsome => ?_, hleft⟩
      obtain ⟨p, hp, hprow, -, hne⟩ := (isSome_removeBit_iff hindex tp).mp hsome
      exact ⟨p, hnodup.mem_erase_iff.mpr ⟨hne, hp⟩, hprow⟩
    · change (removeBit s.selectedCellBitSetMap tp row).isSome ↔ _
      rw [removeBit_of_ne _ hrow, hindex.rows]
      constructor
      · rintro ⟨p, hp, rfl⟩
        refine ⟨p, hnodup.mem_erase_iff.mpr ⟨?_, hp⟩, rfl⟩
        rintro rfl
        exact hrow rfl
      · rintro ⟨p, hp, hprow⟩
        exact ⟨p, List.mem_of_mem_erase hp, hprow⟩

/-! ## Runs -/

/-- One operation keeps the views together exactly if it is one of those allowed. -/
theorem perform_agrees_iff (h : s.Agrees) (op : Op) : (s.perform op).Agrees ↔ s.Apart op := by
  obtain ⟨hnodup, hindex⟩ := agrees_iff.mp h
  cases op with
  | add tp => exact iff_of_true (h.add tp) trivial
  | addAll cells =>
      rw [agrees_iff]
      change (s.selectedCells ++ cells).Nodup ∧ _ ↔ cells.Nodup ∧ _
      rw [List.nodup_append']
      constructor
      · rintro ⟨⟨-, hcells, hdisjoint⟩, -⟩
        exact ⟨hcells, hdisjoint.symm⟩
      · rintro ⟨hcells, hdisjoint⟩
        exact ⟨⟨hnodup, hcells, hdisjoint.symm⟩, hindex.markAll cells⟩
  | setAll cells =>
      rw [agrees_iff]
      exact ⟨fun hafter => hafter.1, fun hcells => ⟨hcells, Indexes.empty.markAll cells⟩⟩
  | remove tp => exact remove_agrees_iff h tp
  | clear => exact iff_of_true new_agrees trivial

/-- **The index and the list agree in every state of a run** exactly when no operation brings in
a position twice or takes the last cell of a row that is selected as a whole. -/
theorem agrees_along_iff (ops : List Op) :
    (∀ n, ((ops.take n).foldl perform new).Agrees) ↔
      ∀ n op, ops[n]? = some op → ((ops.take n).foldl perform new).Apart op :=
  @Runs.takes_iff _ _ perform (fun _ => True) Agrees Apart
    (fun _ op _ h hapart => ⟨trivial, (perform_agrees_iff h op).mpr hapart⟩)
    (fun _ op _ h hapart hafter => hapart ((perform_agrees_iff h op).mp hafter))
    _ trivial new_agrees ops

/-- Row 0 is selected as a whole and by its first cell; taking the cell back takes the row away. -/
theorem whole_row_lost :
    ¬ ([Op.add ⟨0, -1, by decide⟩, .add ⟨0, 0, by decide⟩,
      .remove ⟨0, 0, by decide⟩].foldl perform new).Agrees := by
  intro h
  have hrow := (h.wholeRow 0).mpr ⟨⟨0, -1, by decide⟩, by decide, rfl⟩
  exact absurd hrow (by decide)

end SelectedCellsMap

end JavaFx.Control
