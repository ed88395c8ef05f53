import JavaFx.Control.UndoRecords

/-!
# Undo and redo track the text

Every action keeps the control loose and the undo manager in step with its text, also where it
throws. One does not: a `PasswordField` records a cut and then does not cut.
-/

namespace JavaFx.Control

open Css (JString)

/-! ## Deleting a character -/

namespace TextInputControl

variable {C : Content} {F : Filters C} {s : TextInputControl C}

/-- What is selected goes. -/
theorem Loose.deletePreviousChar_selected (h : s.Loose F) (hwritable : s.writable = true)
    (hselected : s.caretPosition ≠ s.anchor) (hpos : 0 ≤ min s.caretPosition s.anchor)
    (hend : max s.caretPosition s.anchor ≤ s.string.length) :
    Writes F (deletePreviousChar >>= fun _ => pure ()) s
      (s.string.take (min s.caretPosition s.anchor).toNat ++
        s.string.drop (max s.caretPosition s.anchor).toNat) := by
  obtain ⟨s', hrun, hs'⟩ := h.replaceSelection hpos hend []
  rw [C.strip_nil, List.nil_append] at hs'
  refine ⟨s', ?_, hs'⟩
  rw [deletePreviousChar, Method.run_bind, Method.run_this_bind, if_pos hwritable,
    Method.run_bind_ok (getText_run h.content), if_pos hselected, Method.run_bind_ok hrun]
  rfl

theorem Loose.deletePreviousChar_caret (h : s.Loose F) (hwritable : s.writable = true)
    (hcaret : s.caretPosition = s.anchor) (hpos : 0 < s.caretPosition)
    (hend : s.caretPosition ≤ s.string.length) (hnull : s.textIsNull = false) {p : ℤ}
    (hp : offsetBefore s.string s.caretPosition = .ok p) :
    Writes F (deletePreviousChar >>= fun _ => pure ()) s
      (s.string.take p.toNat ++ s.string.drop s.caretPosition.toNat) := by
  obtain ⟨hp₀, hple⟩ := offsetBefore_mem hp
  obtain ⟨s', hrun, hloose, hrights, hstring⟩ :=
    (h.withFlag true).replaceText hp₀ hple hend []
  rw [C.strip_nil, List.nil_append] at hstring
  refine ⟨(s'.place p p).setDoNotAdjustCaret false, ?_, (hloose.place p p).withFlag false,
    ⟨hrights.editable, hrights.disabled⟩, hstring⟩
  have hdelete : (deleteText p s.caretPosition).run (s.setDoNotAdjustCaret true) = (.ok (), s') :=
    hrun
  rw [deletePreviousChar, Method.run_bind, Method.run_this_bind, if_pos hwritable,
    Method.run_bind_ok (getText_run h.content), if_neg (not_not.mpr hcaret), if_pos hpos, hnull]
  simp only [Bool.false_eq_true, if_false]
  rw [hp, Method.run_lift_ok_bind, Method.run_modify_bind, Method.run_bind_ok hdelete,
    Method.run_bind_ok (selectRange_run hloose.content p p)]
  rfl

/-- In front of the text there is nothing to delete. -/
theorem Loose.deletePreviousChar_idle (h : s.Loose F) (hcaret : s.caretPosition = s.anchor)
    (hpos : ¬ 0 < s.caretPosition) : (deletePreviousChar.run s).2 = s := by
  rw [deletePreviousChar, Method.run_this_bind]
  by_cases hwritable : s.writable = true
  · rw [if_pos hwritable, Method.run_bind_ok (getText_run h.content),
      if_neg (not_not.mpr hcaret), if_neg hpos]
    rfl
  · rw [if_neg hwritable]
    rfl

theorem Loose.deleteNextChar_selected (P : TextPlatform) (h : s.Loose F)
    (hwritable : s.writable = true) (hselected : s.caretPosition ≠ s.anchor)
    (hpos : 0 ≤ min s.caretPosition s.anchor)
    (hend : max s.caretPosition s.anchor ≤ s.string.length) :
    Writes F (deleteNextChar P >>= fun _ => pure ()) s
      (s.string.take (min s.caretPosition s.anchor).toNat ++
        s.string.drop (max s.caretPosition s.anchor).toNat) := by
  obtain ⟨s', hrun, hloose, hrights, hstring⟩ := h.replaceSelection hpos hend []
  rw [C.strip_nil, List.nil_append] at hstring
  refine ⟨_, ?_, hloose.place (min s.caretPosition s.anchor) (min s.caretPosition s.anchor),
    ⟨hrights.editable, hrights.disabled⟩, hstring⟩
  rw [deleteNextChar, Method.run_bind, Method.run_this_bind, if_pos hwritable,
    Method.run_bind_ok (getText_run h.content), if_pos hselected, Method.run_bind_ok hrun]
  simp only []
  rw [Method.run_bind_ok (selectRange_run hloose.content _ _)]
  rfl

theorem Loose.deleteNextChar_caret {P : TextPlatform} (h : s.Loose F)
    (hwritable : s.writable = true) (hcaret : s.caretPosition = s.anchor)
    (hpos : 0 ≤ s.caretPosition) (hend : s.caretPosition < s.string.length)
    (hnull : s.textIsNull = false) {p : ℤ}
    (hp : P.charIterator.following s.string s.caretPosition = .ok p) :
    Writes F (deleteNextChar P >>= fun _ => pure ()) s
      (s.string.take s.caretPosition.toNat ++ s.string.drop p.toNat) := by
  obtain ⟨hlt, hple⟩ := following_mem hend hp
  obtain ⟨s', hrun, hloose, hrights, hstring⟩ :=
    (h.withFlag true).replaceText hpos (le_of_lt hlt) hple []
  rw [C.strip_nil, List.nil_append] at hstring
  refine ⟨s'.setDoNotAdjustCaret false, ?_, hloose.withFlag false,
    ⟨hrights.editable, hrights.disabled⟩, hstring⟩
  have hdelete : (deleteText s.caretPosition p).run (s.setDoNotAdjustCaret true) = (.ok (), s') :=
    hrun
  have htext : 0 < s.string.length ∧ s.caretPosition < s.string.length := by omega
  rw [deleteNextChar, Method.run_bind, Method.run_this_bind, if_pos hwritable,
    Method.run_bind_ok (getText_run h.content), if_neg (not_not.mpr hcaret), hnull]
  simp only [Bool.false_eq_true, if_false]
  rw [if_pos htext, hp, Method.run_lift_ok_bind, Method.run_modify_bind,
    Method.run_bind_ok hdelete]
  rfl

/-- At the end of the text there is nothing to delete. -/
theorem Loose.deleteNextChar_idle (P : TextPlatform) (h : s.Loose F)
    (hcaret : s.caretPosition = s.anchor) (hend : ¬ s.caretPosition < s.string.length) :
    ((deleteNextChar P).run s).2 = s := by
  rw [deleteNextChar, Method.run_this_bind]
  by_cases hwritable : s.writable = true
  · rw [if_pos hwritable, Method.run_bind_ok (getText_run h.content),
      if_neg (not_not.mpr hcaret)]
    by_cases hnull : s.textIsNull = true
    · rw [if_pos hnull]
      rfl
    · rw [if_neg hnull]
      simp only []
      rw [if_neg fun h => hend h.2]
      rfl
  · rw [if_neg hwritable]
    rfl

/-- A call that leaves the content as it is. -/
theorem onContent_moved {s₀ : TextInputControl C} {m : Method C.State Bool}
    (hsame : ∀ content, C.WellFormed content → (m.run content).2 = content)
    (hloose : Method.Keeps (Loose F) (onContent m)) : Method.Keeps (Moved F s₀) (onContent m) := by
  intro s h
  have hafter := hloose s h.loose
  have hcontent := hsame s.content h.loose.content
  refine h.trans ⟨?_, hafter, ?_⟩
  · rcases hrun : m.run s.content with ⟨_ | fired, content⟩
    · simp only [onContent, hrun]
      exact ⟨rfl, rfl, rfl⟩
    · simp only [onContent, hrun]
      split
      · exact ⟨rfl, rfl, rfl⟩
      · exact ⟨rfl, rfl, rfl⟩
  · rcases hrun : m.run s.content with ⟨_ | fired, content⟩
    · rw [hrun] at hcontent
      simp only [onContent, hrun, TextInputControl.string]
      exact congrArg C.text hcontent
    · rw [hrun] at hcontent
      simp only [onContent, hrun, TextInputControl.string]
      split
      · exact congrArg C.text hcontent
      · exact congrArg C.text hcontent

/-- Where nothing is selected nothing is deleted, in the text or behind it. -/
theorem moved_deleteText (s₀ : TextInputControl C) (index : ℤ) :
    Method.Keeps (Moved F s₀) (deleteText index index : Method (TextInputControl C) _) := by
  refine .ite ((Method.Keeps.throw _).bind fun _ => ?_) ?_
  all_goals
    refine (Moved.movable s₀).getLength.bind fun length => .ite ((Method.Keeps.throw _).bind
      fun _ => ?_) ?_
    all_goals
      exact (onContent_moved (fun _ h => F.delete_self h _ _) (keeps_delete _ _ _)).bind fun _ =>
        (onContent_moved (fun _ h => F.insert_nil h _) (keeps_insert _ _)).bind fun _ =>
          (Moved.movable s₀).selectRange _ _

/-! ## Cutting -/

section Cut

variable {c : TextInputControl C}

/-- Reading the selection moves nothing. -/
structure Read (F : Filters C) (c d : TextInputControl C) : Prop extends Moved F c d where
  caretPosition : d.caretPosition = c.caretPosition
  anchor : d.anchor = c.anchor

theorem Read.refl (h : c.Loose F) : Read F c c := ⟨.refl h, rfl, rfl⟩

theorem Read.marked {d : TextInputControl C} (h : Read F c d) :
    Read F c { d with selection := ⟨true, d.selection.value⟩ } :=
  ⟨h.toMoved.trans ⟨⟨rfl, rfl, rfl⟩, ⟨h.loose.content, h.loose.null, h.loose.length,
    h.loose.selection, h.loose.kept⟩, rfl⟩, h.caretPosition, h.anchor⟩

theorem keeps_read : Method.Keeps (Read F c)
    (TextInputControl.getSelectedText : Method (TextInputControl C) _) :=
  keeps_reading (fun _ h => h.loose.content) (fun _ h => h.marked) fun _ _ h =>
    ⟨h.toMoved.trans ⟨⟨rfl, rfl, rfl⟩, ⟨h.loose.content, h.loose.null, h.loose.length,
      h.loose.selection, h.loose.kept⟩, rfl⟩, h.caretPosition, h.anchor⟩

theorem Read.getSelection_run {d : TextInputControl C} (h : Read F c d) :
    (TextInputControl.getSelection : Method (TextInputControl C) _).run d =
      (.ok (.normalize c.anchor c.caretPosition),
        { d with selection := ⟨true, d.selection.value⟩ }) := by
  rw [← h.anchor, ← h.caretPosition, ← h.loose.selection]
  rfl

/-- Where nothing is selected nothing is cut, in the text or behind it. -/
theorem moved_cut (h : c.Loose F) (hcaret : c.caretPosition = c.anchor) :
    Moved F c (TextInputControl.cut.run c).2 := by
  have hafter := keeps_read c (Read.refl h)
  rw [TextInputControl.cut, Method.run_bind]
  rcases hrun : TextInputControl.getSelectedText.run c with ⟨_ | value, d⟩
  · rw [hrun] at hafter
    exact hafter.toMoved
  · rw [hrun] at hafter
    have hrange : IndexRange.normalize c.anchor c.caretPosition =
        ⟨c.anchor, c.anchor, le_refl _⟩ := by
      simp [IndexRange.normalize, hcaret]
    simp only []
    rw [Method.run_bind_ok hafter.getSelection_run, hrange]
    exact moved_deleteText c _ _ hafter.marked.toMoved

/-- The selected text can be read when it lies in the text. -/
theorem Loose.getSelectedText_ok (h : c.Loose F)
    (hpos : 0 ≤ (IndexRange.normalize c.anchor c.caretPosition).start)
    (hend : (IndexRange.normalize c.anchor c.caretPosition).end_ ≤ c.string.length) :
    ∃ value d, TextInputControl.getSelectedText.run c = (.ok value, d) := by
  have hread : TextInputControl.getSelection.run c =
      (.ok c.selection.value, { c with selection := ⟨true, c.selection.value⟩ }) := rfl
  rw [← h.selection] at hpos hend
  have hle := c.selection.value.le
  rw [TextInputControl.getSelectedText, Method.run_this_bind]
  by_cases hvalid : c.selectedText.valid = true
  · rw [if_pos hvalid]
    exact ⟨_, _, rfl⟩
  · rw [if_neg hvalid, Method.run_bind_ok (getText_run h.content), Method.run_bind_ok hread]
    by_cases hnull : c.textIsNull = true
    · rw [if_pos hnull]
      exact ⟨_, _, rfl⟩
    · rw [if_neg hnull]
      simp only []
      rw [if_neg (show ¬ c.selection.value.start + c.string.length < c.selection.value.end_ by
        omega)]
      by_cases hlast : (c.string.length : ℤ) - 1 < c.selection.value.start
      · rw [if_pos hlast, substring_of_mem (le_refl 0) (le_refl 0) (by omega)]
        exact ⟨_, _, rfl⟩
      · rw [if_neg hlast, substring_of_mem hpos hle hend]
        exact ⟨_, _, rfl⟩

/-- What is selected is cut. -/
theorem Loose.cut_selected (h : c.Loose F)
    (hpos : 0 ≤ (IndexRange.normalize c.anchor c.caretPosition).start)
    (hend : (IndexRange.normalize c.anchor c.caretPosition).end_ ≤ c.string.length) :
    Writes F TextInputControl.cut c
      (c.string.take (IndexRange.normalize c.anchor c.caretPosition).start.toNat ++
        c.string.drop (IndexRange.normalize c.anchor c.caretPosition).end_.toNat) := by
  obtain ⟨value, d, hrun⟩ := h.getSelectedText_ok hpos hend
  have hread := keeps_read c (Read.refl h)
  rw [hrun] at hread
  have hmarked := hread.marked
  rw [← hread.string] at hend
  obtain ⟨e, hdelete, hloose, hrights, hstring⟩ :=
    hmarked.loose.replaceText hpos (IndexRange.normalize c.anchor c.caretPosition).le hend []
  rw [C.strip_nil, List.nil_append, hmarked.string] at hstring
  refine ⟨e, ?_, hloose, ⟨hrights.editable.trans hread.editable,
    hrights.disabled.trans hread.disabled⟩, hstring⟩
  rw [TextInputControl.cut, Method.run_bind_ok hrun, Method.run_bind_ok hread.getSelection_run]
  exact hdelete

end Cut

end TextInputControl

/-! ## One action -/

/-- Nothing follows the end of a text. -/
theorem following_end {it : BreakIterator} {text : JString} {offset p : ℤ}
    (hend : ¬ offset < text.length) (h : it.following text offset = .ok p) : p = -1 := by
  obtain ⟨_, _, hp⟩ := except_bind_eq_ok.mp h
  have hnil : it.boundariesAfter text offset = [] := by
    rw [BreakIterator.boundariesAfter, List.filter_eq_nil_iff]
    intro b hb
    have := it.le_length text b hb
    rw [decide_eq_true_eq]
    omega
  rw [hnil] at hp
  exact (Except.ok.inj hp).symm

theorem substring_eq_ok {t old : JString} {start end_ : ℤ}
    (h : substring t start end_ = .ok old) :
    0 ≤ start ∧ start ≤ end_ ∧ end_ ≤ t.length ∧ old = (t.take end_.toNat).drop start.toNat := by
  unfold substring at h
  split at h
  next hrange => exact ⟨hrange.1, hrange.2.1, hrange.2.2, (Except.ok.inj h).symm⟩
  next => cases h

namespace Behavior

open TextInputControl

variable {k : Kind} {F : Filters k.content} {t₀ : JString} {s : Behavior k} {β γ : Type}

/-- The text of the control. -/
def text (s : Behavior k) : JString := s.control.string

/-- The user may edit, and the undo manager records the text of the control. -/
structure Recorded (F : Filters k.content) (t₀ : JString) (s : Behavior k) : Prop where
  loose : s.control.Loose F
  writable : s.control.writable = true
  records : s.undoManager.Records F t₀ s.text

theorem writable_of_rights {C : Content} {c c' : TextInputControl C} (h : SameRights c c')
    (hc : c.writable = true) : c'.writable = true := by
  rw [TextInputControl.writable, h.editable, h.disabled]
  exact hc

theorem Recorded.moved (h : Recorded F t₀ s) {control : TextInputControl k.content}
    (hmoved : Moved F s.control control) : Recorded F t₀ { s with control := control } := by
  refine ⟨hmoved.loose, writable_of_rights ⟨hmoved.editable, hmoved.disabled⟩ h.writable, ?_⟩
  change s.undoManager.Records F t₀ control.string
  rw [hmoved.string]
  exact h.records

/-- What only moves the caret keeps the record. -/
theorem keeps_onControl {m : Method (TextInputControl k.content) β}
    (hm : ∀ c, Method.Keeps (Moved F c) m) :
    Method.Keeps (Recorded F t₀) (onControl m : Method (Behavior k) β) :=
  fun s h => h.moved (hm s.control s.control (.refl h.loose))

/-- Reading the selection. -/
theorem Recorded.getSelection (h : Recorded F t₀ s) {f : IndexRange → Method (Behavior k) γ}
    (hf : ∀ s' : Behavior k, Recorded F t₀ s' → s'.control.caretPosition = s.control.caretPosition →
      s'.control.anchor = s.control.anchor → s'.text = s.text →
      s'.control.textIsNull = s.control.textIsNull →
      Recorded F t₀ ((f (.normalize s.control.anchor s.control.caretPosition)).run s').2) :
    Recorded F t₀ ((onControl TextInputControl.getSelection >>= f).run s).2 := by
  have hrun : (onControl TextInputControl.getSelection : Method (Behavior k) _).run s =
      (.ok s.control.selection.value, { s with control := { s.control with
        selection := ⟨true, s.control.selection.value⟩ } }) := rfl
  rw [Method.run_bind_ok hrun, h.loose.selection]
  exact hf _ (h.moved ⟨⟨rfl, rfl, rfl⟩, ⟨h.loose.content, h.loose.null, h.loose.length, rfl,
    h.loose.kept⟩, rfl⟩) rfl rfl rfl rfl

theorem getText_run (h : s.control.Loose F) :
    (onControl TextInputControl.getText : Method (Behavior k) _).run s =
      (.ok (if s.control.textIsNull then none else some s.text), s) := by
  rw [onControl]
  simp only [TextInputControl.getText_run h.content]
  rfl

theorem getValueSafe_run (h : s.control.Loose F) :
    (getValueSafe : Method (Behavior k) _).run s = (.ok s.text, s) := by
  rw [getValueSafe, Method.run_bind_ok (getText_run h)]
  by_cases hnull : s.control.textIsNull = true
  · rw [if_pos hnull, Option.getD_none, Behavior.text, h.null hnull]
    rfl
  · rw [if_neg hnull, Option.getD_some]
    rfl

theorem Recorded.withText (h : Recorded F t₀ s) {start end_ : ℤ}
    {f : JString → Method (Behavior k) γ}
    (hf : ∀ oldText, substring s.text start end_ = .ok oldText → s.control.textIsNull = false →
      Recorded F t₀ ((f oldText).run s).2) :
    Recorded F t₀ ((textBetween start end_ >>= f).run s).2 := by
  have hrun : (textBetween start end_ : Method (Behavior k) _).run s =
      (if s.control.textIsNull then .error .nullPointer else substring s.text start end_, s) := by
    rw [Behavior.textBetween, Method.run_bind_ok (getText_run h.loose)]
    by_cases hnull : s.control.textIsNull = true
    · rw [if_pos hnull, if_pos hnull]
      rfl
    · rw [if_neg hnull, if_neg hnull]
      rfl
  by_cases hnull : s.control.textIsNull = true
  · rw [if_pos hnull] at hrun
    rw [Method.run_bind_error hrun]
    exact h
  · rw [if_neg hnull] at hrun
    cases hsub : substring s.text start end_ with
    | error e =>
        rw [hsub] at hrun
        rw [Method.run_bind_error hrun]
        exact h
    | ok oldText =>
        rw [hsub] at hrun
        rw [Method.run_bind_ok hrun]
        exact hf oldText hsub (by simpa using hnull)

/-- The edit of a record that is about to be made. -/
theorem edit_fits {t oldText : JString} {start end_ : ℤ}
    (h : substring t start end_ = .ok oldText) (newText : Option JString) (appendable : Bool) :
    (⟨start, some oldText, newText, appendable⟩ : Change).edit.Fits t ∧
      (⟨start, some oldText, newText, appendable⟩ : Change).edit.apply t =
        t.take start.toNat ++ (newText.getD [] ++ t.drop end_.toNat) := by
  obtain ⟨hpos, hle, hend, hold⟩ := substring_eq_ok h
  have hstart : (t.take start.toNat).length = start.toNat := by
    rw [List.length_take]
    omega
  have hsplit : t = t.take start.toNat ++ (oldText ++ t.drop end_.toNat) := by
    have hmin : min start.toNat end_.toNat = start.toNat := by omega
    have htake : t.take start.toNat = (t.take end_.toNat).take start.toNat := by
      rw [List.take_take, hmin]
    rw [hold, ← List.append_assoc, htake, List.take_append_drop, List.take_append_drop]
  refine ⟨⟨_, _, hsplit, hstart⟩, ?_⟩
  conv_lhs => rw [hsplit]
  exact Replacement.apply_split _ hstart

/-- **A record and its edit.** What is recorded is then done. -/
theorem Recorded.edit (h : Recorded F t₀ s) {start end_ : ℤ} {oldText : JString}
    (hold : substring s.text start end_ = .ok oldText) {newText : Option JString}
    {appendable : Bool} (hnew : F.Keeps (newText.getD []))
    (happendable : appendable = true → newText.isSome = true)
    {m : Method (TextInputControl k.content) Unit}
    (hm : Writes F m s.control
      (s.text.take start.toNat ++ (newText.getD [] ++ s.text.drop end_.toNat))) :
    Recorded F t₀ ((onUndoManager (UndoManager.addChange start (some oldText) newText appendable)
      >>= fun _ => onControl m).run s).2 := by
  obtain ⟨hfits, happly⟩ := edit_fits hold newText appendable
  obtain ⟨hpos, hle, hend, holdText⟩ := substring_eq_ok hold
  have hkeeps : F.Keeps oldText := by
    intro c hc
    rw [holdText] at hc
    exact h.loose.kept c (List.mem_of_mem_take (List.mem_of_mem_drop hc))
  obtain ⟨u, hrecord, hrecords⟩ :=
    h.records.addChange ⟨hpos, hkeeps, hnew, happendable⟩ hfits
  obtain ⟨c, hwrite, hloose, hrights, hstring⟩ := hm
  have hadd : (onUndoManager (UndoManager.addChange start (some oldText) newText appendable) :
      Method (Behavior k) Unit).run s = (.ok (), { s with undoManager := u }) := by
    rw [onUndoManager]
    simp only [hrecord]
  have hdone : (onControl m : Method (Behavior k) Unit).run { s with undoManager := u } =
      (.ok (), ⟨c, u⟩) := by
    rw [onControl]
    simp only [hwrite]
  rw [Method.run_bind_ok hadd, hdone]
  refine ⟨hloose, writable_of_rights hrights h.writable, ?_⟩
  change u.Records F t₀ c.string
  rw [hstring, ← happly]
  exact hrecords

theorem Recorded.replace (h : Recorded F t₀ s) {start end_ : ℤ} {oldText : JString}
    (hold : substring s.text start end_ = .ok oldText) {newText : JString} (hnew : F.Keeps newText)
    {recorded : Option JString} (hrecorded : recorded.getD [] = newText) {appendable : Bool}
    (happendable : appendable = true → recorded.isSome = true) :
    Recorded F t₀ ((onUndoManager (UndoManager.addChange start (some oldText) recorded appendable)
      >>= fun _ => replaceText start end_ (some newText)).run s).2 := by
  obtain ⟨hpos, hle, hend, -⟩ := substring_eq_ok hold
  refine h.edit hold (hrecorded ▸ hnew) happendable ?_
  have hwrite := h.loose.replaceText hpos hle hend newText
  rw [F.strip_of_keeps hnew] at hwrite
  rw [hrecorded]
  exact hwrite

theorem onControl_ignored (m : Method (TextInputControl k.content) β) :
    (onControl m >>= fun _ => pure () : Method (Behavior k) Unit) =
      onControl (m >>= fun _ => pure ()) := by
  refine congrArg Method.mk (funext fun s => ?_)
  simp only [onControl, Method.run_bind]
  rcases m.run s.control with ⟨_ | _, c⟩
  · rfl
  · rfl

theorem deleteChar_true (P : TextPlatform) :
    (deleteChar P true : Method (Behavior k) Unit) =
      onControl (TextInputControl.deletePreviousChar >>= fun _ => pure ()) :=
  onControl_ignored _

theorem deleteChar_false (P : TextPlatform) :
    (deleteChar P false : Method (Behavior k) Unit) =
      onControl (TextInputControl.deleteNextChar P >>= fun _ => pure ()) :=
  onControl_ignored _

/-- An edit that was not recorded because there is nothing to do. -/
theorem Recorded.idle (h : Recorded F t₀ s) {m : Method (TextInputControl k.content) β}
    (hm : (m.run s.control).2 = s.control) :
    Recorded F t₀ ((onControl (m >>= fun _ => pure ()) : Method (Behavior k) Unit).run s).2 := by
  have hsame : ((m >>= fun _ => pure () : Method _ Unit).run s.control).2 = s.control := by
    rw [Method.run_bind]
    rcases hrun : m.run s.control with ⟨_ | _, c⟩
    · rw [hrun] at hm
      exact hm
    · rw [hrun] at hm
      exact hm
  change Recorded F t₀ { s with control := _ }
  rw [hsame]
  exact h

/-! ### Typing -/

theorem keeps_defaultKeyTyped (P : BehaviorPlatform) {event : KeyEvent}
    (hevent : F.Keeps event.character) :
    Method.Keeps (Recorded F t₀) (defaultKeyTyped P event : Method (Behavior k) Unit) := by
  intro s h
  rw [defaultKeyTyped, Method.run_this_bind, if_pos h.writable]
  cases hcharacter : event.character with
  | nil => exact h
  | cons first rest =>
      simp only []
      by_cases hfiltered : filtersOut P event = true
      · rw [if_pos hfiltered]
        exact h
      · rw [if_neg hfiltered]
        by_cases htyped : 0x1F < first.toNat ∧ first ≠ 0x7F#16 ∧ event.metaDown = false
        · rw [if_pos htyped]
          refine h.getSelection fun s' h' _ _ _ _ => ?_
          rw [Method.run_bind_ok (getValueSafe_run h'.loose)]
          cases hold : substring s'.text (IndexRange.normalize s.control.anchor
              s.control.caretPosition).start (IndexRange.normalize s.control.anchor
              s.control.caretPosition).end_ with
          | error e => exact h'
          | ok oldText =>
              rw [Method.run_lift_ok_bind, ← hcharacter]
              exact h'.replace hold hevent rfl fun _ => rfl
        · rw [if_neg htyped]
          exact h

/-! ### Deleting -/

theorem Recorded.delete (h : Recorded F t₀ s) {start end_ : ℤ} {oldText : JString}
    (hold : substring s.text start end_ = .ok oldText)
    {m : Method (TextInputControl k.content) Unit}
    (hm : Writes F m s.control (s.text.take start.toNat ++ s.text.drop end_.toNat)) :
    Recorded F t₀ ((onUndoManager (UndoManager.addChange start (some oldText) none false)
      >>= fun _ => onControl m).run s).2 := by
  have hnil : F.Keeps ((none : Option JString).getD []) := F.keeps_nil
  exact Recorded.edit h hold hnil (fun hfalse => absurd hfalse Bool.false_ne_true) hm

/-- The selection of a control, which is empty where anchor and caret are. -/
theorem selected_iff {a c : ℤ} : (IndexRange.normalize a c).start < (IndexRange.normalize a c).end_ ↔
    c ≠ a := by
  simp only [IndexRange.normalize]
  omega

theorem Recorded.deletePreviousChar_selected (h : Recorded F t₀ s) {oldText : JString}
    (hselected : s.control.caretPosition ≠ s.control.anchor)
    (hold : substring s.text (IndexRange.normalize s.control.anchor s.control.caretPosition).start
      (IndexRange.normalize s.control.anchor s.control.caretPosition).end_ = .ok oldText) :
    Writes F (TextInputControl.deletePreviousChar >>= fun _ => pure ()) s.control
      (s.text.take (IndexRange.normalize s.control.anchor s.control.caretPosition).start.toNat ++
        s.text.drop (IndexRange.normalize s.control.anchor s.control.caretPosition).end_.toNat) := by
  obtain ⟨hpos, -, hend, -⟩ := substring_eq_ok hold
  simp only [IndexRange.normalize, min_comm s.control.anchor, max_comm s.control.anchor]
    at hpos hend ⊢
  exact h.loose.deletePreviousChar_selected h.writable hselected hpos hend

theorem Recorded.deleteNextChar_selected (P : TextPlatform) (h : Recorded F t₀ s)
    {oldText : JString} (hselected : s.control.caretPosition ≠ s.control.anchor)
    (hold : substring s.text (IndexRange.normalize s.control.anchor s.control.caretPosition).start
      (IndexRange.normalize s.control.anchor s.control.caretPosition).end_ = .ok oldText) :
    Writes F (TextInputControl.deleteNextChar P >>= fun _ => pure ()) s.control
      (s.text.take (IndexRange.normalize s.control.anchor s.control.caretPosition).start.toNat ++
        s.text.drop (IndexRange.normalize s.control.anchor s.control.caretPosition).end_.toNat) := by
  obtain ⟨hpos, -, hend, -⟩ := substring_eq_ok hold
  simp only [IndexRange.normalize, min_comm s.control.anchor, max_comm s.control.anchor]
    at hpos hend ⊢
  exact h.loose.deleteNextChar_selected P h.writable hselected hpos hend

theorem keeps_deletePreviousChar (P : TextPlatform) :
    Method.Keeps (Recorded F t₀) (deletePreviousChar P : Method (Behavior k) Unit) := by
  intro s₀ h₀
  rw [deletePreviousChar]
  refine h₀.getSelection fun s h hcaret hanchor _ _ => ?_
  rw [← hcaret, ← hanchor]
  simp only [deleteChar_true]
  set range := IndexRange.normalize s.control.anchor s.control.caretPosition with hrange
  by_cases hsome : 0 < range.start ∨ range.start < range.end_
  · rw [if_pos hsome, Method.run_bind_ok (getText_run h.loose)]
    by_cases hnull : s.control.textIsNull = true
    · rw [if_pos hnull]
      exact h
    · rw [if_neg hnull]
      simp only []
      by_cases hempty : range.start = range.end_
      · -- the character in front of the caret
        have heq : s.control.caretPosition = s.control.anchor := by
          by_contra hne
          exact absurd hempty (ne_of_lt (selected_iff.mpr hne))
        have hstart : range.start = s.control.caretPosition := by
          simp only [hrange, IndexRange.normalize]
          omega
        rw [if_pos hempty]
        cases hp : offsetBefore s.text range.start with
        | error e => exact h
        | ok p =>
            rw [Method.run_lift_ok_bind]
            cases hold : substring s.text p range.end_ with
            | error e => exact h
            | ok oldText =>
                rw [Method.run_lift_ok_bind]
                obtain ⟨-, -, hend, -⟩ := substring_eq_ok hold
                refine h.delete hold ?_
                rw [← hempty, hstart] at hend ⊢
                rw [hstart] at hp
                exact h.loose.deletePreviousChar_caret h.writable heq (by omega) hend
                  (by simpa using hnull) hp
      · rw [if_neg hempty, Method.run_pure_bind]
        cases hold : substring s.text range.start range.end_ with
        | error e => exact h
        | ok oldText =>
            rw [Method.run_lift_ok_bind]
            have hle := range.le
            exact h.delete hold (h.deletePreviousChar_selected
              (selected_iff.mp (lt_of_le_of_ne hle hempty)) hold)
  · rw [if_neg hsome]
    have heq : s.control.caretPosition = s.control.anchor := by
      by_contra hne
      exact hsome (Or.inr (selected_iff.mpr hne))
    refine h.idle (h.loose.deletePreviousChar_idle heq fun hpos => hsome (Or.inl ?_))
    simp only [hrange, IndexRange.normalize]
    omega

theorem Recorded.getLength (h : Recorded F t₀ s) {f : ℤ → Method (Behavior k) γ}
    (hf : ∀ s' : Behavior k, Recorded F t₀ s' → s'.control.caretPosition = s.control.caretPosition →
      s'.control.anchor = s.control.anchor → (s'.text.length : ℤ) ≤ s.control.knownLength →
      Recorded F t₀ ((f s.control.knownLength).run s').2) :
    Recorded F t₀ ((onControl TextInputControl.getLength >>= f).run s).2 := by
  have hrun : (onControl TextInputControl.getLength : Method (Behavior k) _).run s =
      (.ok s.control.knownLength, { s with control := s.control.measured }) := by
    rw [onControl]
    simp only [getLength_run h.loose.content]
  rw [Method.run_bind_ok hrun]
  exact hf _ (h.moved ⟨⟨rfl, rfl, rfl⟩, h.loose.measured, rfl⟩) rfl rfl h.loose.le_knownLength

theorem keeps_deleteNextChar (P : TextPlatform) :
    Method.Keeps (Recorded F t₀) (deleteNextChar P : Method (Behavior k) Unit) := by
  intro s₀ h₀
  rw [deleteNextChar]
  refine h₀.getSelection fun s₁ h₁ hcaret₁ hanchor₁ _ _ => ?_
  refine h₁.getLength fun s h hcaret hanchor hlength => ?_
  rw [← hcaret₁, ← hanchor₁, ← hcaret, ← hanchor]
  simp only [deleteChar_false]
  set range := IndexRange.normalize s.control.anchor s.control.caretPosition with hrange
  by_cases hsome : range.start < s₁.control.knownLength ∨ range.start < range.end_
  · rw [if_pos hsome, Method.run_bind_ok (getText_run h.loose)]
    by_cases hnull : s.control.textIsNull = true
    · rw [if_pos hnull]
      exact h
    · rw [if_neg hnull]
      simp only []
      by_cases hempty : range.start = range.end_
      · -- the character behind the caret
        have heq : s.control.caretPosition = s.control.anchor := by
          by_contra hne
          exact absurd hempty (ne_of_lt (selected_iff.mpr hne))
        have hstart : range.start = s.control.caretPosition := by
          simp only [hrange, IndexRange.normalize]
          omega
        rw [if_pos hempty]
        cases hp : P.charIterator.following s.text range.start with
        | error e => exact h
        | ok p =>
            rw [Method.run_lift_ok_bind]
            cases hold : substring s.text range.start p with
            | error e => exact h
            | ok oldText =>
                rw [Method.run_lift_ok_bind]
                obtain ⟨hpos, hle, hend, -⟩ := substring_eq_ok hold
                refine h.delete hold ?_
                rw [hstart] at hp hpos hle ⊢
                have hlt : s.control.caretPosition < s.text.length := by
                  by_contra hbehind
                  have hp' := following_end hbehind hp
                  omega
                exact h.loose.deleteNextChar_caret h.writable heq hpos hlt
                  (by simpa using hnull) hp
      · rw [if_neg hempty, Method.run_pure_bind]
        cases hold : substring s.text range.start range.end_ with
        | error e => exact h
        | ok oldText =>
            rw [Method.run_lift_ok_bind]
            exact h.delete hold (h.deleteNextChar_selected P
              (selected_iff.mp (lt_of_le_of_ne range.le hempty)) hold)
  · rw [if_neg hsome]
    have heq : s.control.caretPosition = s.control.anchor := by
      by_contra hne
      exact hsome (Or.inr (selected_iff.mpr hne))
    refine h.idle (h.loose.deleteNextChar_idle P heq fun hlt => hsome (Or.inl ?_))
    change s.control.caretPosition < (s.text.length : ℤ) at hlt
    simp only [hrange, IndexRange.normalize]
    omega

theorem keeps_deleteSelection (P : TextPlatform) :
    Method.Keeps (Recorded F t₀) (deleteSelection P : Method (Behavior k) Unit) := by
  intro s₀ h₀
  rw [deleteSelection]
  refine h₀.getSelection fun s h hcaret hanchor _ _ => ?_
  rw [← hcaret, ← hanchor]
  simp only [deleteChar_false]
  by_cases hsome : (IndexRange.normalize s.control.anchor s.control.caretPosition).start <
      (IndexRange.normalize s.control.anchor s.control.caretPosition).end_
  · rw [if_pos hsome]
    refine h.withText fun oldText hold _ => ?_
    exact h.delete hold (h.deleteNextChar_selected P (selected_iff.mp hsome) hold)
  · rw [if_neg hsome]
    exact h

/-- A recorded deletion between two positions. -/
theorem keeps_cutOut (start end_ : ℤ) : Method.Keeps (Recorded F t₀) (do
    let oldText ← textBetween start end_
    onUndoManager (UndoManager.addChange start (some oldText) none false)
    replaceText start end_ (some []) : Method (Behavior k) Unit) :=
  fun _ h => h.withText fun _ hold _ => h.replace hold F.keeps_nil rfl nofun

theorem keeps_deletePreviousWord (P : TextPlatform) :
    Method.Keeps (Recorded F t₀) (deletePreviousWord P : Method (Behavior k) Unit) :=
  .ite (.pure _) (Method.Keeps.this.bind fun _ => .ite
    ((keeps_onControl fun c => (Moved.movable c).previousWord P false).bind fun _ =>
      Method.Keeps.this.bind fun _ => keeps_cutOut _ _) (.pure _))

theorem keeps_nextWord (P : BehaviorPlatform) :
    Method.Keeps (Recorded F t₀) (nextWord P : Method (Behavior k) Unit) :=
  .ite (keeps_onControl fun c => (Moved.movable c).moveForward _ _ _ _)
    (keeps_onControl fun c => (Moved.movable c).moveForward _ _ _ _)

theorem keeps_deleteNextWord (P : BehaviorPlatform) :
    Method.Keeps (Recorded F t₀) (deleteNextWord P : Method (Behavior k) Unit) :=
  .ite (.pure _) (Method.Keeps.this.bind fun _ =>
    (keeps_onControl fun c => (Moved.movable c).getLength).bind fun _ => .ite
      ((keeps_nextWord P).bind fun _ => Method.Keeps.this.bind fun _ => keeps_cutOut _ _)
      (.pure _))

/-! ### Cut and paste -/

/-- A password field is told to cut something. -/
def CutsPassword (s : Behavior k) : BehaviorStep → Prop
  | .action .cut => k = .passwordField ∧ s.control.caretPosition ≠ s.control.anchor ∧
      0 ≤ min s.control.anchor s.control.caretPosition ∧
      max s.control.anchor s.control.caretPosition ≤ s.text.length
  | _ => False

/-- Cutting, except where a password field has something to cut. -/
theorem Recorded.cut (h₀ : Recorded F t₀ s) (hcuts : ¬ s.CutsPassword (.action .cut)) :
    Recorded F t₀ ((cut : Method (Behavior k) Unit).run s).2 := by
  rw [Behavior.cut]
  refine h₀.getSelection fun s' h hcaret hanchor htext _ => ?_
  rw [CutsPassword, ← hcaret, ← hanchor, ← htext] at hcuts
  rw [← hcaret, ← hanchor]
  by_cases hsome : (IndexRange.normalize s'.control.anchor s'.control.caretPosition).start <
      (IndexRange.normalize s'.control.anchor s'.control.caretPosition).end_
  · rw [if_pos hsome]
    refine h.withText fun oldText hold _ => ?_
    obtain ⟨hpos, -, hend, -⟩ := substring_eq_ok hold
    have hkind : k ≠ .passwordField := fun hk =>
      hcuts ⟨hk, selected_iff.mp hsome, hpos, hend⟩
    have hcut := h.delete hold (h.loose.cut_selected hpos hend)
    simp only [cutControl, if_neg hkind]
    exact hcut
  · rw [if_neg hsome]
    have hempty : s'.control.caretPosition = s'.control.anchor := by
      by_contra hne
      exact hsome (selected_iff.mpr hne)
    rw [cutControl]
    split
    · exact h
    · exact h.moved (moved_cut h.loose hempty)

/-- The record of a replacement that has been made. -/
theorem Recorded.made (h : Recorded F t₀ s) {start end_ : ℤ} {deleted newText : JString}
    (hold : substring s.text start end_ = .ok deleted) (hnew : F.Keeps newText)
    {c : TextInputControl k.content} (hloose : c.Loose F) (hrights : SameRights s.control c)
    (hstring : c.string = s.text.take start.toNat ++ (newText ++ s.text.drop end_.toNat)) :
    Recorded F t₀ ((do
      let text ← getValueSafe
      let newText ← liftM (substring text start (text.length - (s.text.length - end_)))
      onUndoManager (UndoManager.addChange start (some deleted) (some newText) false) :
      Method (Behavior k) Unit).run { s with control := c }).2 := by
  obtain ⟨hpos, hle, hend, hdeleted⟩ := substring_eq_ok hold
  obtain ⟨hfits, happly⟩ := edit_fits hold (some newText) false
  have hkeeps : F.Keeps deleted := by
    intro x hx
    rw [hdeleted] at hx
    exact h.loose.kept x (List.mem_of_mem_take (List.mem_of_mem_drop hx))
  have hgood : (⟨start, some deleted, some newText, false⟩ : Change).Good F :=
    ⟨hpos, hkeeps, hnew, nofun⟩
  obtain ⟨u, hrecord, hrecords⟩ := h.records.addChange hgood hfits
  rw [happly] at hrecords
  have htake : (s.text.take start.toNat).length = start.toNat := by
    rw [List.length_take]
    omega
  have hlength : c.string.length = start.toNat + newText.length + (s.text.length - end_.toNat) := by
    rw [hstring, List.length_append, List.length_append, List.length_drop, htake]
    omega
  -- what is behind the tail is what was there before
  have hread : substring c.string start (c.string.length - (s.text.length - end_)) =
      .ok newText := by
    have hcut : ((c.string.length : ℤ) - (s.text.length - end_)).toNat =
        start.toNat + newText.length := by omega
    rw [substring_of_mem hpos (by omega) (by omega), hcut, hstring, List.drop_take,
      List.drop_left' htake, Nat.add_sub_cancel_left, List.take_left]
  have hsafe := getValueSafe_run (s := { s with control := c }) hloose
  have hread' : substring (Behavior.text { s with control := c }) start
      ((Behavior.text { s with control := c }).length - (s.text.length - end_)) = .ok newText :=
    hread
  rw [Method.run_bind_ok hsafe, hread', Method.run_lift_ok_bind]
  have hadd : (onUndoManager (UndoManager.addChange start (some deleted) (some newText) false) :
      Method (Behavior k) Unit).run { s with control := c } = (.ok (), ⟨c, u⟩) := by
    rw [onUndoManager]
    simp only [hrecord]
  rw [hadd]
  refine ⟨hloose, writable_of_rights hrights h.writable, ?_⟩
  change u.Records F t₀ c.string
  rw [hstring]
  exact hrecords

theorem keeps_paste (clipboard : Option JString) :
    Method.Keeps (Recorded F t₀) (paste clipboard : Method (Behavior k) Unit) := by
  intro s₀ h₀
  rw [paste]
  refine h₀.getSelection fun s h hcaret hanchor _ _ => ?_
  rw [← hcaret, ← hanchor, Method.run_bind_ok (getValueSafe_run h.loose)]
  set range := IndexRange.normalize s.control.anchor s.control.caretPosition with hrange
  cases hold : substring s.text range.start range.end_ with
  | error e => exact h
  | ok deleted =>
      rw [Method.run_lift_ok_bind]
      obtain ⟨hpos, hle, hend, hdeleted⟩ := substring_eq_ok hold
      cases clipboard with
      | none =>
          have hkeeps : F.Keeps deleted := by
            intro x hx
            rw [hdeleted] at hx
            exact h.loose.kept x (List.mem_of_mem_take (List.mem_of_mem_drop hx))
          refine h.made hold hkeeps h.loose ⟨rfl, rfl⟩ ?_
          obtain ⟨⟨before, after, hsplit, hlength⟩, happly⟩ := edit_fits hold (some deleted) false
          rw [Option.getD_some] at happly
          rw [← happly]
          conv_rhs => rw [hsplit]
          exact hsplit.trans (Replacement.apply_split _ hlength).symm
      | some text =>
          have hmin : range.start = min s.control.caretPosition s.control.anchor := min_comm _ _
          have hmax : range.end_ = max s.control.caretPosition s.control.anchor := max_comm _ _
          obtain ⟨c, hrun, hloose, hrights, hstring⟩ :=
            h.loose.replaceSelection (hmin ▸ hpos) (hmax ▸ hend) text
          rw [← hmin, ← hmax] at hstring
          have hpaste : (onControl (TextInputControl.paste (some text)) :
              Method (Behavior k) Unit).run s = (.ok (), { s with control := c }) := by
            rw [onControl, TextInputControl.paste]
            simp only [hrun]
          rw [Method.run_bind_ok hpaste]
          exact h.made hold (F.keeps_strip text) hloose hrights hstring

/-! ### Undo and redo -/

/-- An edit of the record makes its replacement in the text. -/
theorem Recorded.replays (h : Recorded F t₀ s) {start : ℤ} (hstart : 0 ≤ start)
    {e : Replacement (BitVec 16)} (he : e.start = start.toNat) (hfits : e.Fits s.text)
    (hkeeps : F.Keeps e.inserted) :
    ∃ c, (replaceText start (start + e.removed.length) (some e.inserted) :
        Method (Behavior k) Unit).run s = (.ok (), { s with control := c }) ∧
      c.Loose F ∧ SameRights s.control c ∧ c.string = e.apply s.text := by
  have hbound := hfits.bound
  have hle : start ≤ start + (e.removed.length : ℤ) := by omega
  have hend : start + (e.removed.length : ℤ) ≤ s.control.string.length := by
    change start + (e.removed.length : ℤ) ≤ s.text.length
    omega
  obtain ⟨c, hrun, hloose, hrights, hstring⟩ := h.loose.replaceText hstart hle hend e.inserted
  rw [F.strip_of_keeps hkeeps] at hstring
  refine ⟨c, ?_, hloose, hrights, ?_⟩
  · rw [Behavior.replaceText, onControl]
    simp only [hrun]
  · rw [hstring, Replacement.apply, Splice.splice, he,
      show (start + (e.removed.length : ℤ)).toNat = start.toNat + e.removed.length by omega]
    rfl

theorem Recorded.undo_run (h : Recorded F t₀ s) (hpos : 0 < s.undoManager.currentIndex) :
    ∃ c, (undo : Method (Behavior k) Unit).run s = (.ok (), ⟨c, s.undoManager.stepBack⟩) ∧
      Recorded F t₀ ⟨c, s.undoManager.stepBack⟩ := by
  obtain ⟨change, hget, hgood, hfits, hrecords⟩ := h.records.stepBack hpos
  obtain ⟨c, hrun, hloose, hrights, hstring⟩ :=
    h.replays hgood.start (e := change.edit.inverse) rfl hfits hgood.oldText
  refine ⟨c, ?_, hloose, writable_of_rights hrights h.writable, ?_⟩
  · have hreplace : (replaceText change.start
        (change.start + (change.newText.getD []).length) (some (change.oldText.getD [])) :
        Method (Behavior k) Unit).run s = (.ok (), { s with control := c }) := hrun
    rw [undo, Method.run_this_bind, if_pos hpos, hget, Method.run_lift_ok_bind,
      Method.run_bind_ok hreplace]
    rfl
  · change s.undoManager.stepBack.Records F t₀ c.string
    rw [hstring]
    exact hrecords

theorem Recorded.redo_run (h : Recorded F t₀ s)
    (hlt : s.undoManager.currentIndex < s.undoManager.chain.length) :
    ∃ c, (redo : Method (Behavior k) Unit).run s = (.ok (), ⟨c, s.undoManager.stepOn⟩) ∧
      Recorded F t₀ ⟨c, s.undoManager.stepOn⟩ := by
  obtain ⟨change, hget, hgood, hfits, hrecords⟩ := h.records.stepOn hlt
  obtain ⟨c, hrun, hloose, hrights, hstring⟩ :=
    h.replays hgood.start (e := change.edit) rfl hfits hgood.newText
  refine ⟨c, ?_, hloose, writable_of_rights hrights h.writable, ?_⟩
  · have hreplace : (replaceText change.start
        (change.start + (change.oldText.getD []).length) (some (change.newText.getD [])) :
        Method (Behavior k) Unit).run s = (.ok (), { s with control := c }) := hrun
    rw [redo, Method.run_this_bind, if_pos hlt, hget, Method.run_lift_ok_bind,
      Method.run_bind_ok hreplace]
    rfl
  · change s.undoManager.stepOn.Records F t₀ c.string
    rw [hstring]
    exact hrecords

theorem keeps_undo : Method.Keeps (Recorded F t₀) (undo : Method (Behavior k) Unit) := by
  intro s h
  by_cases hpos : 0 < s.undoManager.currentIndex
  · obtain ⟨c, hrun, hrecorded⟩ := h.undo_run hpos
    rw [hrun]
    exact hrecorded
  · rw [undo, Method.run_this_bind, if_neg hpos]
    exact h

theorem keeps_redo : Method.Keeps (Recorded F t₀) (redo : Method (Behavior k) Unit) := by
  intro s h
  by_cases hlt : s.undoManager.currentIndex < s.undoManager.chain.length
  · obtain ⟨c, hrun, hrecorded⟩ := h.redo_run hlt
    rw [hrun]
    exact hrecorded
  · rw [redo, Method.run_this_bind, if_neg hlt]
    exact h

end Behavior

/-! ## Whole runs -/

/-- What the content of a control keeps. -/
def Kind.filters : (k : Kind) → Filters k.content
  | .textField => textFieldFilters
  | .textArea => textAreaFilters
  | .passwordField => textFieldFilters

/-- Typed characters are kept, and between the actions only anchor and caret move. -/
def BehaviorStep.Allowed (k : Kind) : BehaviorStep → Prop
  | .action (.inputCharacter event) => k.content.strip event.character = event.character
  | .action _ => True
  | .move op => op.isMove = true

namespace Behavior

open TextInputControl

variable {k : Kind} {F : Filters k.content} {t₀ : JString} {s : Behavior k}

theorem keeps_of_strip {t : JString} (h : k.content.strip t = t) : F.Keeps t := by
  rw [← h]
  exact F.keeps_strip t

theorem Recorded.callAction_run (h : Recorded F t₀ s) (P : BehaviorPlatform) (action : Action) :
    (callAction P action).run s = (perform P action).run s := by
  have heditable : s.control.editable = true := by
    have hwritable := h.writable
    rw [TextInputControl.writable, Bool.and_eq_true] at hwritable
    exact hwritable.1
  rw [callAction, Method.run_this_bind, if_pos heditable]

/-- **One step** keeps the record, unless a password field is told to cut something. -/
theorem Recorded.afterStep (h : Recorded F t₀ s) (P : BehaviorPlatform) {next : BehaviorStep}
    (hallowed : next.Allowed k) (hcuts : ¬ s.CutsPassword next) :
    Recorded F t₀ ((step P next).run s).2 := by
  cases next with
  | move op => exact keeps_onControl (fun c => op.perform_move (Moved.movable c) _ hallowed) s h
  | action action =>
      change Recorded F t₀ ((callAction P action).run s).2
      rw [h.callAction_run]
      cases action with
      | inputCharacter event => exact keeps_defaultKeyTyped P (keeps_of_strip hallowed) s h
      | cut => exact h.cut hcuts
      | paste clipboard => exact keeps_paste clipboard s h
      | deletePreviousChar => exact keeps_deletePreviousChar P.toTextPlatform s h
      | deleteNextChar => exact keeps_deleteNextChar P.toTextPlatform s h
      | deletePreviousWord => exact keeps_deletePreviousWord P.toTextPlatform s h
      | deleteNextWord => exact keeps_deleteNextWord P s h
      | deleteSelection => exact keeps_deleteSelection P.toTextPlatform s h
      | undo => exact keeps_undo s h
      | redo => exact keeps_redo s h

/-- The text of the control is the text the changes up to the current index lead to; undoing
restores the text before the last of them, and redoing makes the next one again. -/
structure TracksText (P : BehaviorPlatform) (t₀ : JString) (s : Behavior k) : Prop where
  text : s.text = Replacement.applyAll
    ((s.undoManager.chain.take s.undoManager.currentIndex).map Change.edit) t₀
  undo : 0 < s.undoManager.currentIndex →
    ((callAction P .undo).run s).2.text = Replacement.applyAll
      ((s.undoManager.chain.take (s.undoManager.currentIndex - 1)).map Change.edit) t₀
  redo : s.undoManager.currentIndex < s.undoManager.chain.length →
    ((callAction P .redo).run s).2.text = Replacement.applyAll
      ((s.undoManager.chain.take (s.undoManager.currentIndex + 1)).map Change.edit) t₀

theorem Recorded.text_eq (h : Recorded F t₀ s) : s.text = Replacement.applyAll
    ((s.undoManager.chain.take s.undoManager.currentIndex).map Change.edit) t₀ := by
  rw [List.map_take]
  exact h.records.tracks.text

theorem Recorded.tracksText (h : Recorded F t₀ s) (P : BehaviorPlatform) : s.TracksText P t₀ where
  text := h.text_eq
  undo hpos := by
    obtain ⟨c, hrun, hback⟩ := h.undo_run hpos
    have htext := hback.records.tracks.text
    have hchain : s.undoManager.stepBack.chain.map Change.edit =
        s.undoManager.chain.map Change.edit := by
      rw [UndoManager.stepBack]
      split
      · exact UndoManager.map_edit_modify _ _
      · rfl
    rw [h.callAction_run]
    change ((Behavior.undo : Method (Behavior k) Unit).run s).2.text = _
    rw [hrun, htext, hchain, List.map_take]
    rfl
  redo hlt := by
    obtain ⟨c, hrun, hon⟩ := h.redo_run hlt
    have htext := hon.records.tracks.text
    have hchain : s.undoManager.stepOn.chain.map Change.edit =
        s.undoManager.chain.map Change.edit := UndoManager.map_edit_modify _ _
    rw [h.callAction_run]
    change ((Behavior.redo : Method (Behavior k) Unit).run s).2.text = _
    rw [hrun, htext, hchain, List.map_take]
    rfl

/-- **A password field** records what it does not cut. -/
theorem Recorded.cut_password (h : Recorded F t₀ s) (P : BehaviorPlatform) {next : BehaviorStep}
    (hcuts : s.CutsPassword next) : ¬ ((step P next).run s).2.TracksText P t₀ := by
  unfold CutsPassword at hcuts
  split at hcuts
  next =>
    obtain ⟨hkind, hne, hpos, hend⟩ := hcuts
    set range := IndexRange.normalize s.control.anchor s.control.caretPosition with hrange
    have hsome : range.start < range.end_ := selected_iff.mpr hne
    change 0 ≤ range.start at hpos
    change range.end_ ≤ (s.text.length : ℤ) at hend
    -- the selection is read, the change recorded, and that is all
    set control : TextInputControl k.content :=
      { s.control with selection := ⟨true, s.control.selection.value⟩ } with hcontrol
    have hread : (onControl TextInputControl.getSelection : Method (Behavior k) _).run s =
        (.ok range, { s with control := control }) := by
      rw [hrange, ← h.loose.selection]
      rfl
    have hloose : control.Loose F :=
      ⟨h.loose.content, h.loose.null, h.loose.length, h.loose.selection, h.loose.kept⟩
    have hnull : control.textIsNull = false := by
      by_contra hnull
      have hnil : s.text = [] := h.loose.null (by simpa using hnull)
      rw [hnil] at hend
      simp only [List.length_nil, Nat.cast_zero] at hend
      omega
    have hold : substring s.text range.start range.end_ =
        .ok ((s.text.take range.end_.toNat).drop range.start.toNat) :=
      substring_of_mem hpos range.le hend
    have hbetween : (textBetween range.start range.end_ : Method (Behavior k) _).run
        { s with control := control } =
          (.ok ((s.text.take range.end_.toNat).drop range.start.toNat),
            { s with control := control }) := by
      rw [textBetween, Method.run_bind_ok (getText_run (s := { s with control := control }) hloose)]
      simp only [hnull, Bool.false_eq_true, if_false]
      rw [Method.run_lift]
      exact Prod.ext hold rfl
    obtain ⟨hfits, happly⟩ := edit_fits hold none false
    have hgood : (⟨range.start, some ((s.text.take range.end_.toNat).drop range.start.toNat), none,
        false⟩ : Change).Good F := by
      refine ⟨hpos, fun x hx => ?_, F.keeps_nil, nofun⟩
      exact h.loose.kept x (List.mem_of_mem_take (List.mem_of_mem_drop hx))
    obtain ⟨u, hrecord, hrecords⟩ := h.records.addChange hgood hfits
    have hafter : ((step P (.action .cut)).run s).2 = ⟨control, u⟩ := by
      change ((callAction P .cut).run s).2 = _
      rw [h.callAction_run]
      change ((Behavior.cut : Method (Behavior k) Unit).run s).2 = _
      rw [Behavior.cut, Method.run_bind_ok hread, if_pos hsome, Method.run_bind_ok hbetween]
      have hadd : (onUndoManager (UndoManager.addChange range.start (some ((s.text.take
          range.end_.toNat).drop range.start.toNat)) none false) :
          Method (Behavior k) Unit).run { s with control := control } = (.ok (), ⟨control, u⟩) := by
        rw [onUndoManager]
        simp only [hrecord]
      rw [Method.run_bind_ok hadd, cutControl, if_pos hkind]
      rfl
    rw [hafter]
    intro htracks
    have htext := hrecords.tracks.text
    rw [← List.map_take, ← htracks.text, happly] at htext
    have hlength := congrArg List.length htext
    change (s.text.take range.start.toNat ++ _).length = s.text.length at hlength
    simp only [Option.getD_none, List.nil_append, List.length_append, List.length_take,
      List.length_drop] at hlength
    omega
  next => exact hcuts.elim

/-- The behavior of a control that has been through some operations. -/
def started (k : Kind) (P : BehaviorPlatform) (editable disabled : Bool)
    (earlier : List TextOp) : Behavior k :=
  new ((TextInputControl.new k.content editable disabled).afterOps P.toTextPlatform earlier)

theorem started_recorded (k : Kind) (P : BehaviorPlatform) {editable disabled : Bool}
    {earlier : List TextOp}
    (hwritable : (started k P editable disabled earlier).control.writable = true) :
    Recorded k.filters (started k P editable disabled earlier).text
      (started k P editable disabled earlier) where
  loose := (new_loose k.filters editable disabled).afterOps _ _
  writable := hwritable
  records := UndoManager.Records.start _ _

theorem after_concat (P : BehaviorPlatform) (s : Behavior k) (steps : List BehaviorStep)
    (next : BehaviorStep) : s.after P (steps ++ [next]) = ((step P next).run (s.after P steps)).2 :=
  List.foldl_concat _ _ _ _

/-- A run in which no password field is told to cut something. -/
theorem Recorded.after (h : Recorded F t₀ s) (P : BehaviorPlatform) {done : List BehaviorStep} :
    ∀ rest : List BehaviorStep, (∀ next ∈ done ++ rest, next.Allowed k) →
      (∀ before next after, done = before ++ next :: after →
        ¬ (s.after P before).CutsPassword next) → Recorded F t₀ (s.after P done) := by
  induction done using List.reverseRecOn with
  | nil => exact fun _ _ _ => h
  | append_singleton done next ih =>
      intro rest hallowed hcuts
      rw [after_concat]
      have hbefore : Recorded F t₀ (s.after P done) := by
        refine ih (next :: rest) ?_ fun before other after hdone => ?_
        · simpa using hallowed
        · exact hcuts before other (after ++ [next]) (by rw [hdone]; simp)
      exact hbefore.afterStep P (hallowed next (by simp)) (hcuts done next [] rfl)

/-- **Undo and redo track the text.** The text is that of the record in every state of a run
exactly when no password field is told to cut something. -/
theorem tracksText_iff (k : Kind) (P : BehaviorPlatform) (editable disabled : Bool)
    (earlier : List TextOp) (steps : List BehaviorStep)
    (hwritable : (started k P editable disabled earlier).control.writable = true)
    (hsteps : ∀ next ∈ steps, next.Allowed k) :
    (∀ done rest, steps = done ++ rest →
        ((started k P editable disabled earlier).after P done).TracksText P
          (started k P editable disabled earlier).text) ↔
      ∀ done next rest, steps = done ++ next :: rest →
        ¬ ((started k P editable disabled earlier).after P done).CutsPassword next := by
  have hstart := started_recorded k P hwritable
  constructor
  · intro h done
    induction hlength : done.length using Nat.strong_induction_on generalizing done with
    | _ n ih =>
        intro next rest hdone hcuts
        -- the run up to here meets the condition
        have hbefore : Recorded k.filters (started k P editable disabled earlier).text
            ((started k P editable disabled earlier).after P done) := by
          refine hstart.after P (next :: rest) (hdone ▸ hsteps) ?_
          intro before other after hsplit
          have hshort : before.length < n := by
            rw [← hlength, hsplit]
            simp
          exact ih before.length hshort before rfl other (after ++ next :: rest)
            (by rw [hdone, hsplit]; simp)
        have hafter := h (done ++ [next]) rest (by rw [hdone]; simp)
        rw [after_concat] at hafter
        exact hbefore.cut_password P hcuts hafter
  · intro h done rest hdone
    refine (hstart.after P rest (hdone ▸ hsteps) ?_).tracksText P
    intro before next after hsplit
    exact h before next (after ++ rest) (by rw [hdone, hsplit]; simp)

/-- A platform whose iterators stop everywhere. -/
def everywhere : BehaviorPlatform where
  charIterator := eachPosition
  wordIterator := eachPosition
  isLetterOrDigit _ := true
  isMac := false
  isLinux := true

/-- Typing `a` into an empty text field and taking it back. -/
theorem tracksText_typed :
    ((started .textField everywhere true false []).after everywhere
      [.action (.inputCharacter ⟨Css.lit "a", false, false, false⟩), .action .undo]).TracksText
        everywhere (started .textField everywhere true false []).text := by
  refine (tracksText_iff .textField everywhere true false [] _ rfl ?_).mpr ?_ _ [] rfl
  · intro next hnext
    rcases List.mem_pair.mp hnext with rfl | rfl
    · change textFieldContent.strip (Css.lit "a") = Css.lit "a"
      decide
    · trivial
  · intro done next rest _ hcuts
    unfold CutsPassword at hcuts
    split at hcuts
    · exact absurd hcuts.1 (by decide)
    · exact hcuts

/-- A password field that holds `ab`, all of which is selected and cut: the text is what it was,
the record says it is gone. -/
theorem cut_password_recorded :
    ¬ ((started .passwordField everywhere true false [.setText (some (Css.lit "ab"))]).after
      everywhere [.move .selectAll, .action .cut]).TracksText everywhere (Css.lit "ab") := by
  intro h
  have htext := h.text
  revert htext
  decide +kernel

/-! ## Taking everything back -/

/-- Undoing `n` times goes back by `n` changes, which stay in the record. -/
theorem Recorded.undo_times (h : Recorded F t₀ s) (P : BehaviorPlatform) {n : ℕ}
    (hn : n ≤ s.undoManager.currentIndex) : ∃ s',
    s.after P (List.replicate n (.action .undo)) = s' ∧ Recorded F t₀ s' ∧
      s'.undoManager.currentIndex + n = s.undoManager.currentIndex ∧
      s'.undoManager.chain.map Change.edit = s.undoManager.chain.map Change.edit := by
  induction n with
  | zero => exact ⟨s, rfl, h, rfl, rfl⟩
  | succ n ih =>
      obtain ⟨s', hafter, hrecorded, hindex, hchain⟩ := ih (by omega)
      obtain ⟨c, hrun, hback⟩ := hrecorded.undo_run (by omega)
      refine ⟨⟨c, s'.undoManager.stepBack⟩, ?_, hback, ?_, ?_⟩
      · rw [List.replicate_succ', after_concat, hafter]
        change ((callAction P .undo).run s').2 = _
        rw [hrecorded.callAction_run]
        exact congrArg Prod.snd hrun
      · change s'.undoManager.currentIndex - 1 + (n + 1) = _
        omega
      · rw [← hchain, UndoManager.stepBack]
        dsimp only
        split
        · exact UndoManager.map_edit_modify _ _
        · rfl

/-- Redoing `n` times makes the next `n` changes again. -/
theorem Recorded.redo_times (h : Recorded F t₀ s) (P : BehaviorPlatform) {n : ℕ}
    (hn : s.undoManager.currentIndex + n ≤ s.undoManager.chain.length) : ∃ s',
    s.after P (List.replicate n (.action .redo)) = s' ∧ Recorded F t₀ s' ∧
      s'.undoManager.currentIndex = s.undoManager.currentIndex + n ∧
      s'.undoManager.chain.map Change.edit = s.undoManager.chain.map Change.edit := by
  induction n with
  | zero => exact ⟨s, rfl, h, rfl, rfl⟩
  | succ n ih =>
      obtain ⟨s', hafter, hrecorded, hindex, hchain⟩ := ih (by omega)
      have hlength := congrArg List.length hchain
      rw [List.length_map, List.length_map] at hlength
      obtain ⟨c, hrun, hon⟩ := hrecorded.redo_run (by omega)
      refine ⟨⟨c, s'.undoManager.stepOn⟩, ?_, hon, ?_, ?_⟩
      · rw [List.replicate_succ', after_concat, hafter]
        change ((callAction P .redo).run s').2 = _
        rw [hrecorded.callAction_run]
        exact congrArg Prod.snd hrun
      · change s'.undoManager.currentIndex + 1 = _
        omega
      · rw [← hchain]
        exact UndoManager.map_edit_modify _ _

/-- **Undoing everything** brings the first text back, and redoing as often as one has undone
brings back the text there was. -/
theorem undone_and_redone (k : Kind) (P : BehaviorPlatform) (editable disabled : Bool)
    (earlier : List TextOp) (steps : List BehaviorStep)
    (hwritable : (started k P editable disabled earlier).control.writable = true)
    (hsteps : ∀ next ∈ steps, next.Allowed k)
    (hcuts : ∀ done next rest, steps = done ++ next :: rest →
      ¬((started k P editable disabled earlier).after P done).CutsPassword next)
    {s : Behavior k} (hs : (started k P editable disabled earlier).after P steps = s) :
    (s.after P (.replicate s.undoManager.currentIndex (.action .undo))).text =
        (started k P editable disabled earlier).text ∧
      ∀ n ≤ s.undoManager.currentIndex,
        (s.after P (.replicate n (.action .undo) ++ .replicate n (.action .redo))).text =
          s.text := by
  have h : Recorded k.filters (started k P editable disabled earlier).text s := by
    rw [← hs]
    refine (started_recorded k P hwritable).after P [] (by simpa using hsteps) ?_
    exact fun before next after hdone => hcuts before next after hdone
  constructor
  · obtain ⟨s', hafter, hrecorded, hindex, -⟩ := h.undo_times P le_rfl
    rw [hafter, hrecorded.text_eq, show s'.undoManager.currentIndex = 0 by omega]
    rfl
  · intro n hn
    obtain ⟨s₁, hundone, h₁, hindex₁, hchain₁⟩ := h.undo_times P hn
    have hlength := congrArg List.length hchain₁
    rw [List.length_map, List.length_map] at hlength
    have hle := h.records.le
    obtain ⟨s₂, hredone, h₂, hindex₂, hchain₂⟩ := h₁.redo_times (n := n) P (by omega)
    rw [after, List.foldl_append]
    change ((s.after P _).after P _).text = _
    rw [hundone, hredone, h₂.text_eq, h.text_eq, List.map_take, List.map_take, hchain₂, hchain₁,
      show s₂.undoManager.currentIndex = s.undoManager.currentIndex by omega]

/-- `a` is typed into an empty text area and deleted again. -/
theorem undone_and_redone_typed : ∃ s : Behavior .textArea,
    (started .textArea everywhere true false []).after everywhere
      [.action (.inputCharacter ⟨Css.lit "a", false, false, false⟩),
        .action .deletePreviousChar] = s ∧
      (s.after everywhere (.replicate s.undoManager.currentIndex (.action .undo))).text =
        (started .textArea everywhere true false []).text := by
  refine ⟨_, rfl, (undone_and_redone .textArea everywhere true false [] _ rfl ?_ ?_ rfl).1⟩
  · intro next hnext
    rcases List.mem_pair.mp hnext with rfl | rfl
    · change textAreaContent.strip (Css.lit "a") = Css.lit "a"
      decide
    · trivial
  · intro done next rest _ hcuts
    unfold CutsPassword at hcuts
    split at hcuts
    · exact absurd hcuts.1 (by decide)
    · exact hcuts

end Behavior

end JavaFx.Control
