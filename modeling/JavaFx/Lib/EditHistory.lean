import JavaFx.Lib.Splice

/-!
# Histories of edits

An edit takes something out of a list and puts something else in its place. A history is a list
of edits with a position: the edits in front of it have been made, those behind it have been
taken back.
-/

namespace JavaFx

/-- What is taken out at `start`, and what is put there. -/
structure Replacement (α : Type) where
  start : ℕ
  removed : List α
  inserted : List α

namespace Replacement

variable {α : Type}

def apply (e : Replacement α) (t : List α) : List α :=
  Splice.splice e.start e.removed.length e.inserted t

/-- What the edit takes out stands where it takes it out. -/
def Fits (e : Replacement α) (t : List α) : Prop :=
  ∃ before after, t = before ++ (e.removed ++ after) ∧ before.length = e.start

/-- The edit that takes back. -/
def inverse (e : Replacement α) : Replacement α := ⟨e.start, e.inserted, e.removed⟩

/-- The edit that also inserts `more`, right behind what it inserts. -/
def extend (e : Replacement α) (more : List α) : Replacement α :=
  { e with inserted := e.inserted ++ more }

theorem apply_split (e : Replacement α) {before after : List α} (h : before.length = e.start) :
    e.apply (before ++ (e.removed ++ after)) = before ++ (e.inserted ++ after) :=
  Splice.splice_append h rfl

theorem Fits.bound {e : Replacement α} {t : List α} (h : e.Fits t) :
    e.start + e.removed.length ≤ t.length := by
  obtain ⟨before, after, rfl, hlength⟩ := h
  rw [List.length_append, List.length_append, hlength]
  omega

theorem Fits.inverse {e : Replacement α} {t : List α} (h : e.Fits t) : e.inverse.Fits (e.apply t) := by
  obtain ⟨before, after, rfl, hlength⟩ := h
  exact ⟨before, after, e.apply_split hlength, hlength⟩

/-- Taking back restores what was there. -/
theorem Fits.inverse_apply {e : Replacement α} {t : List α} (h : e.Fits t) :
    e.inverse.apply (e.apply t) = t := by
  obtain ⟨before, after, rfl, hlength⟩ := h
  rw [e.apply_split hlength]
  exact e.inverse.apply_split hlength

theorem Fits.extend {e : Replacement α} {t : List α} (h : e.Fits t) (more : List α) :
    (e.extend more).Fits t := h

/-- Extending an edit is one more insertion behind it. -/
theorem Fits.extend_apply {e : Replacement α} {t : List α} (h : e.Fits t) (more : List α) :
    (e.extend more).apply t =
      (⟨e.start + e.inserted.length, [], more⟩ : Replacement α).apply (e.apply t) := by
  obtain ⟨before, after, rfl, hlength⟩ := h
  have hbehind : (before ++ e.inserted).length = e.start + e.inserted.length := by
    rw [List.length_append, hlength]
  have hnext : (⟨e.start + e.inserted.length, [], more⟩ : Replacement α).apply
      ((before ++ e.inserted) ++ ([] ++ after)) = (before ++ e.inserted) ++ (more ++ after) :=
    Replacement.apply_split _ hbehind
  simp only [List.nil_append, List.append_assoc] at hnext
  rw [e.apply_split hlength, hnext]
  change (e.extend more).apply (before ++ ((e.extend more).removed ++ after)) = _
  rw [(e.extend more).apply_split hlength]
  simp [Replacement.extend]

/-! ## Edits in a row -/

/-- The list after some edits in order. -/
def applyAll (edits : List (Replacement α)) (t : List α) : List α :=
  edits.foldl (fun t e => e.apply t) t

/-- Each edit fits where it is made. -/
def FitAll : List α → List (Replacement α) → Prop
  | _, [] => True
  | t, e :: edits => e.Fits t ∧ FitAll (e.apply t) edits

theorem applyAll_append (edits edits' : List (Replacement α)) (t : List α) :
    applyAll (edits ++ edits') t = applyAll edits' (applyAll edits t) :=
  List.foldl_append ..

theorem fitAll_append {edits edits' : List (Replacement α)} :
    ∀ {t : List α}, FitAll t (edits ++ edits') ↔
      FitAll t edits ∧ FitAll (applyAll edits t) edits' := by
  induction edits with
  | nil =>
      intro t
      exact ⟨fun h => ⟨trivial, h⟩, fun h => h.2⟩
  | cons e edits ih =>
      intro t
      constructor
      · rintro ⟨hfits, hrest⟩
        obtain ⟨hedits, hrest⟩ := ih.mp hrest
        exact ⟨⟨hfits, hedits⟩, hrest⟩
      · rintro ⟨⟨hfits, hedits⟩, hrest⟩
        exact ⟨hfits, ih.mpr ⟨hedits, hrest⟩⟩

end Replacement

/-! ## A position in a history -/

/-- From `t₀`, the first `index` edits have led to `t`. -/
structure Tracks {α : Type} (t₀ : List α) (edits : List (Replacement α)) (index : ℕ) (t : List α) :
    Prop where
  le : index ≤ edits.length
  fits : Replacement.FitAll t₀ edits
  text : t = Replacement.applyAll (edits.take index) t₀

namespace Tracks

open Replacement

variable {α : Type} {t₀ t : List α} {edits : List (Replacement α)} {index : ℕ}

theorem start (t₀ : List α) : Tracks t₀ [] 0 t₀ := ⟨le_refl _, trivial, rfl⟩

/-- Forgetting what has been taken back. -/
theorem truncate (h : Tracks t₀ edits index t) : Tracks t₀ (edits.take index) index t where
  le := by
    rw [List.length_take]
    have := h.le
    omega
  fits := by
    have hfits := h.fits
    rw [← List.take_append_drop index edits, fitAll_append] at hfits
    exact hfits.1
  text := by
    rw [List.take_take, min_self]
    exact h.text

/-- **One more edit**, with nothing to be made again. -/
theorem push (h : Tracks t₀ edits edits.length t) {e : Replacement α} (he : e.Fits t) :
    Tracks t₀ (edits ++ [e]) (edits.length + 1) (e.apply t) := by
  have htext : t = applyAll edits t₀ := by
    rw [h.text, List.take_length]
  refine ⟨by simp, fitAll_append.mpr ⟨h.fits, ?_, trivial⟩, ?_⟩
  · rw [← htext]
    exact he
  · rw [List.take_of_length_le (by simp), applyAll_append, ← htext]
    rfl

/-- **The last edit grows** by what is inserted right behind it. -/
theorem extend {e : Replacement α} (h : Tracks t₀ (edits ++ [e]) (edits.length + 1) t)
    (more : List α) :
    Tracks t₀ (edits ++ [e.extend more]) (edits.length + 1)
      ((⟨e.start + e.inserted.length, [], more⟩ : Replacement α).apply t) := by
  have hfits := fitAll_append.mp h.fits
  have hlast : e.Fits (applyAll edits t₀) := hfits.2.1
  have htext : t = e.apply (applyAll edits t₀) := by
    rw [h.text, List.take_of_length_le (by simp), applyAll_append]
    rfl
  refine ⟨by simp, fitAll_append.mpr ⟨hfits.1, hlast.extend more, trivial⟩, ?_⟩
  rw [List.take_of_length_le (by simp), applyAll_append, htext, ← hlast.extend_apply]
  rfl

/-- The edits around a position. -/
theorem split_at (edits : List (Replacement α)) {e : Replacement α} (he : edits[index]? = some e) :
    edits.take (index + 1) = edits.take index ++ [e] := by
  rw [List.take_add_one, he]
  rfl

theorem fits_at (h : Tracks t₀ edits index t) {i : ℕ} {e : Replacement α} (he : edits[i]? = some e) :
    e.Fits (applyAll (edits.take i) t₀) := by
  have hfits := h.fits
  rw [← List.take_append_drop (i + 1) edits, fitAll_append, split_at edits he,
    fitAll_append] at hfits
  exact hfits.1.2.1

/-- **Taking back** the last edit that was made. -/
theorem back (h : Tracks t₀ edits (index + 1) t) {e : Replacement α} (he : edits[index]? = some e) :
    e.inverse.Fits t ∧ Tracks t₀ edits index (e.inverse.apply t) := by
  have hfits := h.fits_at he
  have htext : t = e.apply (applyAll (edits.take index) t₀) := by
    rw [h.text, split_at edits he, applyAll_append]
    rfl
  rw [htext]
  refine ⟨hfits.inverse, ?_, h.fits, hfits.inverse_apply⟩
  have := h.le
  omega

/-- **Making again** the first edit that was taken back. -/
theorem forward (h : Tracks t₀ edits index t) {e : Replacement α} (he : edits[index]? = some e) :
    e.Fits t ∧ Tracks t₀ edits (index + 1) (e.apply t) := by
  have hfits := h.fits_at he
  rw [← h.text] at hfits
  refine ⟨hfits, ?_, h.fits, ?_⟩
  · exact (List.getElem?_eq_some_iff.mp he).1
  · rw [split_at edits he, applyAll_append, ← h.text]
    rfl

end Tracks

end JavaFx
