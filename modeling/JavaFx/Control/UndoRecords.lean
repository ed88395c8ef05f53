import JavaFx.Control.LooseText
import JavaFx.Control.TextInputControlBehavior
import JavaFx.Lib.EditHistory

/-!
# What the undo manager keeps

The chain is a history of edits from the text the behavior started with, and the current index
a position in it. Closing a change does not show in the edit it stands for.
-/

namespace JavaFx.Control

open Css (JString)

/-- The edit a change stands for. -/
def Change.edit (c : Change) : Replacement (BitVec 16) :=
  ⟨c.start.toNat, c.oldText.getD [], c.newText.getD []⟩

/-- A change whose texts survive the filter of the content. -/
structure Change.Good {C : Content} (F : Filters C) (c : Change) : Prop where
  start : 0 ≤ c.start
  oldText : F.Keeps (c.oldText.getD [])
  newText : F.Keeps (c.newText.getD [])
  appendable : c.appendable = true → c.newText.isSome = true

namespace UndoManager

variable {C : Content} {F : Filters C} {t₀ t : JString} {u : UndoManager}

/-- From `t₀`, the changes up to the current index lead to `t`. -/
structure Records (F : Filters C) (t₀ : JString) (u : UndoManager) (t : JString) : Prop where
  tracks : Tracks t₀ (u.chain.map Change.edit) u.currentIndex t
  good : ∀ c ∈ u.chain, c.Good F

theorem Records.start (F : Filters C) (t₀ : JString) : Records F t₀ new t₀ :=
  ⟨Tracks.start t₀, nofun⟩

theorem Records.le (h : Records F t₀ u t) : u.currentIndex ≤ u.chain.length := by
  have hle := h.tracks.le
  rwa [List.length_map] at hle

/-! ## Closing a change -/

theorem map_edit_modify (chain : List Change) (i : ℕ) :
    (chain.modify i close).map Change.edit = chain.map Change.edit := by
  apply List.ext_getElem?
  intro j
  rw [List.getElem?_map, List.getElem?_map, List.getElem?_modify]
  cases chain[j]? with
  | none => rfl
  | some c =>
      change some (Change.edit (if i = j then close c else c)) = some c.edit
      split
      · rfl
      · rfl

theorem good_modify {chain : List Change} (h : ∀ c ∈ chain, c.Good F) (i : ℕ) :
    ∀ c ∈ chain.modify i close, c.Good F := by
  intro c hc
  obtain ⟨j, hj⟩ := List.mem_iff_getElem?.mp hc
  rw [List.getElem?_modify] at hj
  obtain ⟨d, hd, hdc⟩ := Option.map_eq_some_iff.mp hj
  have hgood := h d (List.mem_of_getElem? hd)
  split at hdc
  · subst hdc
    exact ⟨hgood.start, hgood.oldText, hgood.newText, nofun⟩
  · subst hdc
    exact hgood

theorem Records.truncate (h : Records F t₀ u t) : Records F t₀ u.truncate t ∧
    u.truncate.chain.length = u.truncate.currentIndex := by
  have hle := h.le
  have hclosed : ∀ chain : List Change, chain.map Change.edit = u.chain.map Change.edit →
      (∀ c ∈ chain, c.Good F) →
      Records F t₀ ⟨chain.take u.currentIndex, u.currentIndex⟩ t ∧
        (chain.take u.currentIndex).length = u.currentIndex := by
    intro chain hedit hgood
    have hlength : chain.length = u.chain.length := by
      have := congrArg List.length hedit
      rwa [List.length_map, List.length_map] at this
    refine ⟨⟨?_, fun c hc => hgood c (List.mem_of_mem_take hc)⟩, ?_⟩
    · rw [List.map_take, hedit]
      exact h.tracks.truncate
    · rw [List.length_take]
      omega
  rw [UndoManager.truncate]
  split
  · exact hclosed _ (map_edit_modify _ _) (good_modify h.good _)
  · exact hclosed _ rfl h.good

/-! ## Recording a change -/

theorem Records.push (h : Records F t₀ u t) (hend : u.chain.length = u.currentIndex) {c : Change}
    (hc : c.Good F) (hfits : c.edit.Fits t) : Records F t₀ (u.push c) (c.edit.apply t) := by
  have htracks := h.tracks
  have hlength : (u.chain.map Change.edit).length = u.currentIndex := by
    rw [List.length_map, hend]
  rw [← hlength] at htracks
  refine ⟨?_, fun d hd => ?_⟩
  · have hpush := htracks.push hfits
    rw [hlength] at hpush
    simpa [UndoManager.push] using hpush
  · rcases List.mem_append.mp hd with hd | hd
    · exact h.good d hd
    · rw [List.mem_singleton.mp hd]
      exact hc

theorem Records.extend (h : Records F t₀ u t) {before : List Change} {c : Change} {text : JString}
    (hchain : u.chain = before ++ [c]) (hindex : u.currentIndex = before.length + 1)
    (htext : c.newText = some text) {more : JString} (hmore : F.Keeps more) :
    Records F t₀ (u.extend c (text ++ more))
      ((⟨c.start.toNat + text.length, [], more⟩ : Replacement (BitVec 16)).apply t) := by
  have hset : (u.extend c (text ++ more)).chain =
      before ++ [{ c with newText := some (text ++ more) }] := by
    rw [UndoManager.extend, hchain, hindex]
    simp
  have hedit : ({ c with newText := some (text ++ more) } : Change).edit = c.edit.extend more := by
    simp [Change.edit, Replacement.extend, htext]
  have htracks := h.tracks
  rw [hchain, hindex, List.map_append, List.map_singleton] at htracks
  have hgood : c.Good F := h.good c (by simp [hchain])
  refine ⟨?_, fun d hd => ?_⟩
  · rw [hset, List.map_append, List.map_singleton, hedit]
    change Tracks t₀ _ u.currentIndex _
    have hlength : (before.map Change.edit).length = before.length := List.length_map _
    rw [hindex, ← hlength]
    rw [← hlength] at htracks
    have hextend := htracks.extend more
    simpa [Change.edit, htext] using hextend
  · rw [hset] at hd
    rcases List.mem_append.mp hd with hd | hd
    · exact h.good d (by simp [hchain, hd])
    · rw [List.mem_singleton.mp hd]
      refine ⟨hgood.start, hgood.oldText, ?_, fun _ => rfl⟩
      have hold := hgood.newText
      rw [htext] at hold
      intro x hx
      rcases List.mem_append.mp hx with hx | hx
      · exact hold x hx
      · exact hmore x hx

/-- **Recording a change** that fits the text: the manager then records the text with the
change made. -/
theorem Records.addChange (h : Records F t₀ u t) {start : ℤ} {oldText : JString}
    {newText : Option JString} {appendable : Bool}
    (hgood : (⟨start, some oldText, newText, appendable⟩ : Change).Good F)
    (hfits : (⟨start, some oldText, newText, appendable⟩ : Change).edit.Fits t) :
    ∃ u', (addChange start (some oldText) newText appendable).run u = (.ok (), u') ∧
      Records F t₀ u' ((⟨start, some oldText, newText, appendable⟩ : Change).edit.apply t) := by
  obtain ⟨hrecords, hend⟩ := h.truncate
  have hpush := hrecords.push hend hgood hfits
  rw [UndoManager.addChange, Method.run_modify_bind, Method.run_this_bind]
  by_cases hgrows : appendable = true ∧ 0 < u.truncate.currentIndex ∧
      ((some oldText).getD []).isEmpty = true
  · rw [if_pos hgrows]
    obtain ⟨happendable, hpos, hempty⟩ := hgrows
    have hnil : oldText = [] := List.isEmpty_iff.mp hempty
    have hlast : u.truncate.currentIndex - 1 < u.truncate.chain.length := by omega
    obtain ⟨before, c, hchain⟩ : ∃ before c, u.truncate.chain = before ++ [c] := by
      refine ⟨u.truncate.chain.dropLast, u.truncate.chain.getLast ?_, ?_⟩
      · exact List.ne_nil_of_length_pos (by omega)
      · exact (List.dropLast_append_getLast _).symm
    have hindex : u.truncate.currentIndex = before.length + 1 := by
      rw [← hend, hchain]
      simp
    have hget : listGet u.truncate.chain (u.truncate.currentIndex - 1) = .ok c := by
      rw [listGet, hchain, hindex]
      simp
    rw [hget, Method.run_lift_ok_bind]
    by_cases hopen : c.appendable = true
    · rw [if_pos hopen]
      have hcgood : c.Good F := hrecords.good c (by simp [hchain])
      obtain ⟨text, htext⟩ := Option.isSome_iff_exists.mp (hcgood.appendable hopen)
      rw [htext]
      simp only []
      by_cases hbehind : start = c.start + text.length
      · rw [if_pos hbehind]
        obtain ⟨more, hmore⟩ := Option.isSome_iff_exists.mp (hgood.appendable happendable)
        have hkeeps : F.Keeps more := by
          have := hgood.newText
          rwa [hmore] at this
        refine ⟨_, rfl, ?_⟩
        have hextend := hrecords.extend hchain hindex htext hkeeps
        have hstart : start.toNat = c.start.toNat + text.length := by
          have := hcgood.start
          omega
        subst hmore
        simpa [Change.edit, hnil, hstart] using hextend
      · rw [if_neg hbehind]
        exact ⟨_, rfl, hpush⟩
    · rw [if_neg hopen]
      exact ⟨_, rfl, hpush⟩
  · rw [if_neg hgrows]
    exact ⟨_, rfl, hpush⟩

/-! ## Undoing and redoing -/

theorem Records.stepBack (h : Records F t₀ u t) (hpos : 0 < u.currentIndex) :
    ∃ c, listGet u.chain (u.currentIndex - 1) = .ok c ∧ c.Good F ∧ c.edit.inverse.Fits t ∧
      Records F t₀ u.stepBack (c.edit.inverse.apply t) := by
  obtain ⟨index, hindex⟩ : ∃ index, u.currentIndex = index + 1 :=
    ⟨_, (Nat.succ_pred_eq_of_pos hpos).symm⟩
  have hle := h.le
  have hget : u.chain[index]? = some (u.chain[index]) := List.getElem?_eq_getElem (by omega)
  have htracks := h.tracks
  rw [hindex] at htracks
  obtain ⟨hfits, hback⟩ := htracks.back (e := (u.chain[index]).edit) (by
    rw [List.getElem?_map, hget]
    rfl)
  refine ⟨u.chain[index], ?_, h.good _ (List.getElem_mem _), hfits, ?_⟩
  · rw [listGet, hindex, Nat.add_sub_cancel, hget]
  · rw [UndoManager.stepBack, hindex, Nat.add_sub_cancel]
    split
    · refine ⟨?_, good_modify h.good _⟩
      rw [map_edit_modify]
      exact hback
    · exact ⟨hback, h.good⟩

theorem Records.stepOn (h : Records F t₀ u t) (hlt : u.currentIndex < u.chain.length) :
    ∃ c, listGet u.chain u.currentIndex = .ok c ∧ c.Good F ∧ c.edit.Fits t ∧
      Records F t₀ u.stepOn (c.edit.apply t) := by
  have hget : u.chain[u.currentIndex]? = some (u.chain[u.currentIndex]) :=
    List.getElem?_eq_getElem hlt
  obtain ⟨hfits, hforward⟩ := h.tracks.forward (e := (u.chain[u.currentIndex]).edit) (by
    rw [List.getElem?_map, hget]
    rfl)
  refine ⟨u.chain[u.currentIndex], ?_, h.good _ (List.getElem_mem _), hfits, ?_⟩
  · rw [listGet, hget]
  · refine ⟨?_, good_modify h.good _⟩
    change Tracks t₀ ((u.chain.modify u.currentIndex close).map Change.edit) _ _
    rw [map_edit_modify]
    exact hforward

end UndoManager

end JavaFx.Control
