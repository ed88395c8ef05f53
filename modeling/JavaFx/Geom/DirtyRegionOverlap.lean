import JavaFx.Geom.DirtyRegionRuns

/-!
# Regions that do not overlap

A region that is added is compared with the others in one pass, and grows by those it takes in. A
region that the pass has left behind is not looked at again. The regions stay apart exactly when
the pass takes every region in that the final rectangle meets.
-/

namespace JavaFx.Geom

variable {α : Type} [LinearOrder α]

/-! ## Rectangles that meet -/

namespace RectBounds

variable {r r' x h : RectBounds α}

theorem intersects_iff : r.intersects x = true ↔ r.isEmpty = false ∧ x.isEmpty = false ∧
    r.minX ≤ x.maxX ∧ r.minY ≤ x.maxY ∧ x.minX ≤ r.maxX ∧ x.minY ≤ r.maxY := by
  simp only [intersects, Bool.and_eq_true, Bool.not_eq_true', Bool.or_eq_false_iff,
    decide_eq_true_eq]
  tauto

/-- What contains a rectangle meets what the rectangle meets. -/
theorem Contains.intersects (hr : h.Contains r) (hx : r.intersects x = true) :
    h.intersects x = true := by
  rw [intersects_iff] at hx ⊢
  obtain ⟨hr', hx', h₁, h₂, h₃, h₄⟩ := hx
  exact ⟨hr.isEmpty hr', hx', hr.minX.trans h₁, hr.minY.trans h₂, h₃.trans hr.maxX,
    h₄.trans hr.maxY⟩

/-- A rectangle that is not empty meets what contains it. -/
theorem Contains.meets (hx : h.Contains x) (hempty : x.isEmpty = false) :
    h.intersects x = true := by
  have hself := isEmpty_iff.mp hempty
  exact hx.intersects (intersects_iff.mpr ⟨hempty, hempty, hself.1, hself.2, hself.1, hself.2⟩)

end RectBounds

open RectBounds

/-! ## The pass -/

/-- The last of the regions takes the first place. -/
def lastFirst {β : Type} (l : List β) : List β :=
  match l.getLast? with
  | none => []
  | some y => y :: l.dropLast

theorem lastFirst_perm {β : Type} (l : List β) : (lastFirst l).Perm l := by
  cases l using List.reverseRecOn with
  | nil => exact List.Perm.refl []
  | append_singleton l y =>
      rw [lastFirst, List.getLast?_concat, List.dropLast_concat]
      have hperm : (l ++ [y]).Perm ([y] ++ l) := List.perm_append_comm
      exact hperm.symm

/-- The pass of a region over others: what it has become, what it has taken in, and the regions that
are left behind. -/
inductive Pass : RectBounds α → List (RectBounds α) → RectBounds α → List (RectBounds α) →
    List (RectBounds α) → Prop
  | nil {r : RectBounds α} : Pass r [] r [] []
  | skip {r x r' : RectBounds α} {rest merged kept : List (RectBounds α)}
      (h : r.intersects x = false) (hrest : Pass r rest r' merged kept) :
      Pass r (x :: rest) r' merged (x :: kept)
  | merge {r x r' : RectBounds α} {rest merged kept : List (RectBounds α)}
      (h : r.intersects x = true) (hrest : Pass (r.unionWith x) (lastFirst rest) r' merged kept) :
      Pass r (x :: rest) r' (x :: merged) kept

variable {r r' x h : RectBounds α} {rest merged kept : List (RectBounds α)}

theorem Pass.perm (hpass : Pass r rest r' merged kept) : rest.Perm (merged ++ kept) := by
  induction hpass with
  | nil => exact List.Perm.refl []
  | skip _ _ ih => exact (ih.cons _).trans List.perm_middle.symm
  | @merge r x r' rest merged kept _ _ ih => exact ((lastFirst_perm rest).symm.trans ih).cons x

theorem Pass.contains (hpass : Pass r rest r' merged kept) (hr : r.isEmpty = false) :
    r'.Contains r := by
  induction hpass with
  | nil => exact Contains.refl _
  | skip _ _ ih => exact ih hr
  | merge _ _ ih =>
      exact (ih (unionWith_isEmpty hr)).trans (Contains.unionWith hr (Or.inl (Contains.refl _)))

/-- The rectangle `h` is approached without gaps: each region that meets it meets, when its turn
comes, the union of the region `u` with those before it. -/
inductive InOrder (h : RectBounds α) : RectBounds α → List (RectBounds α) → Prop
  | nil {u : RectBounds α} : InOrder h u []
  | away {u x : RectBounds α} {rest : List (RectBounds α)} (hx : h.intersects x = false)
      (hrest : InOrder h u rest) : InOrder h u (x :: rest)
  | meets {u x : RectBounds α} {rest : List (RectBounds α)} (hx : h.intersects x = true)
      (hu : u.intersects x = true) (hrest : InOrder h (u.unionWith x) (lastFirst rest)) :
      InOrder h u (x :: rest)

/-- When the final rectangle meets nothing that is left, it was approached without gaps. -/
theorem Pass.inOrder (hpass : Pass r rest r' merged kept) (hr : r.isEmpty = false)
    (hh : h.Contains r') (hkept : ∀ x ∈ kept, h.intersects x = false) : InOrder h r rest := by
  induction hpass with
  | nil => exact .nil
  | skip _ _ ih =>
      exact .away (hkept _ (List.mem_cons_self ..))
        (ih hr hh fun x hx => hkept x (List.mem_cons_of_mem _ hx))
  | @merge r x r' rest merged kept hx hrest ih =>
      have hnonempty : (r.unionWith x).isEmpty = false := unionWith_isEmpty hr
      have hunion := hh.trans (hrest.contains hnonempty)
      have hxempty := (intersects_iff.mp hx).2.1
      exact .meets ((hunion.trans (Contains.unionWith hxempty (Or.inr (Contains.refl _)))).meets
        hxempty) hx (ih hnonempty hh hkept)

namespace DirtyRegionContainer

variable {area : RectBounds α → RectBounds α → ℤ} {fuel depth : ℕ} {c c' : DirtyRegionContainer α}
  {region : RectBounds α}

/-- The regions that are in use. -/
def live (c : DirtyRegionContainer α) : List (RectBounds α) := c.dirtyRegions.take c.emptyIndex

/-- What a call does to the regions: those that it does not merge stand unchanged before the union
of the others. -/
def Keeps (c : DirtyRegionContainer α) (region : RectBounds α) (c' : DirtyRegionContainer α) :
    Prop :=
  region.isEmpty = true ∧ c' = c ∨ ∃ merged kept, c.live.Perm (merged ++ kept) ∧
    c'.live = kept ++ [merged.foldl unionWith region]

/-- The regions in use do not overlap. -/
def Apart (c : DirtyRegionContainer α) : Prop :=
  c.live.Pairwise fun r r' => r.intersects r' = false

variable (area fuel depth)

end DirtyRegionContainer

end JavaFx.Geom
