import JavaFx.Control.TextConsistency

/-!
# Runs of a text input control

Every operation keeps a control ready, except where something is replaced by a text of which
nothing survives: there the length, once read, is never corrected.
-/

namespace JavaFx.Control

open Css (JString)

namespace TextInputControl

variable {C : Content}

/-! ## Operations that only read and move -/

/-- What reading keeps, and moving the caret. -/
structure Movable (I : TextInputControl C → Prop) : Prop where
  getText : Method.Keeps I (getText : Method (TextInputControl C) _)
  getLength : Method.Keeps I (getLength : Method (TextInputControl C) _)
  getSelection : Method.Keeps I (getSelection : Method (TextInputControl C) _)
  getSelectedText : Method.Keeps I (getSelectedText : Method (TextInputControl C) _)
  selectRange : ∀ anchor caretPosition,
    Method.Keeps I (selectRange anchor caretPosition : Method (TextInputControl C) _)

namespace Movable

variable {I : TextInputControl C → Prop}

theorem deselect (hI : Movable I) : Method.Keeps I (deselect : Method (TextInputControl C) _) :=
  Method.Keeps.this.bind fun _ => hI.selectRange _ _

theorem end_ (hI : Movable I) : Method.Keeps I (end_ : Method (TextInputControl C) _) :=
  hI.getLength.bind fun _ => .ite (hI.selectRange _ _) (.pure _)

theorem iteratorText (hI : Movable I) :
    Method.Keeps I (iteratorText : Method (TextInputControl C) _) := by
  refine hI.getText.bind ?_
  rintro (_ | text)
  · exact .throw _
  · exact .pure _

theorem selectEnd (hI : Movable I) : Method.Keeps I (selectEnd : Method (TextInputControl C) _) :=
  hI.getLength.bind fun _ => Method.Keeps.this.bind fun _ =>
    .ite (hI.selectRange _ _) (.pure _)

theorem extendSelection (hI : Movable I) (pos : ℤ) :
    Method.Keeps I (extendSelection pos : Method (TextInputControl C) _) :=
  hI.getLength.bind fun _ => Method.Keeps.this.bind fun _ =>
    .ite (hI.selectRange _ _) (hI.selectRange _ _)

theorem selectBackward (hI : Movable I) (P : TextPlatform) :
    Method.Keeps I (selectBackward P : Method (TextInputControl C) _) :=
  Method.Keeps.this.bind fun _ => hI.getLength.bind fun _ =>
    .ite (hI.iteratorText.bind fun _ => (Method.Keeps.lift _).bind fun _ =>
      hI.selectRange _ _) (.pure _)

theorem selectForward (hI : Movable I) (P : TextPlatform) :
    Method.Keeps I (selectForward P : Method (TextInputControl C) _) :=
  hI.getLength.bind fun _ => Method.Keeps.this.bind fun _ =>
    .ite (hI.iteratorText.bind fun _ => (Method.Keeps.lift _).bind fun _ =>
      hI.selectRange _ _) (.pure _)

theorem forward (hI : Movable I) (P : TextPlatform) :
    Method.Keeps I (forward P : Method (TextInputControl C) _) := by
  refine hI.getLength.bind fun _ => Method.Keeps.this.bind fun _ => .ite ?_ (.ite ?_ ?_)
  · exact (hI.selectRange _ _).bind fun _ => hI.deselect
  · exact hI.iteratorText.bind fun _ => (Method.Keeps.lift _).bind fun _ =>
      (hI.selectRange _ _).bind fun _ => hI.deselect
  · exact hI.deselect

theorem backward (hI : Movable I) (P : TextPlatform) :
    Method.Keeps I (backward P : Method (TextInputControl C) _) := by
  refine hI.getLength.bind fun _ => Method.Keeps.this.bind fun _ => .ite ?_ (.ite ?_ ?_)
  · exact (hI.selectRange _ _).bind fun _ => hI.deselect
  · exact hI.iteratorText.bind fun _ => (Method.Keeps.lift _).bind fun _ =>
      (hI.selectRange _ _).bind fun _ => hI.deselect
  · exact hI.deselect

theorem previousWord (hI : Movable I) (P : TextPlatform) (select : Bool) :
    Method.Keeps I (previousWord P select : Method (TextInputControl C) _) := by
  refine hI.getLength.bind fun _ => hI.getText.bind fun text => .ite (.pure _) ?_
  cases text with
  | none => exact .throw _
  | some text =>
      exact Method.Keeps.this.bind fun _ => (Method.Keeps.lift _).bind fun _ =>
        (Method.Keeps.lift _).bind fun _ => hI.selectRange _ _

theorem moveForward (hI : Movable I) (P : TextPlatform) (wanted : Bool) (latest : ℤ → ℤ)
    (select : Bool) :
    Method.Keeps I (moveForward P wanted latest select : Method (TextInputControl C) _) := by
  refine hI.getLength.bind fun _ => hI.getText.bind fun text => .ite (.pure _) ?_
  cases text with
  | none => exact .throw _
  | some text =>
      refine Method.Keeps.this.bind fun _ => (Method.Keeps.lift _).bind fun _ =>
        (Method.Keeps.lift _).bind ?_
      rintro (_ | p)
      · exact .ite (hI.selectRange _ _) hI.end_
      · exact .ite (hI.selectRange _ _) (hI.selectRange _ _)

end Movable

/-! ## Deleting a character -/

theorem offsetBefore_mem {text : JString} {index p : ℤ} (h : offsetBefore text index = .ok p) :
    0 ≤ p ∧ p ≤ index := by
  unfold offsetBefore at h
  split at h
  · cases h
  next hguard =>
    obtain ⟨c, -, h⟩ := except_bind_eq_ok.mp h
    split at h
    next hpair =>
      obtain ⟨c', -, h⟩ := except_bind_eq_ok.mp h
      have hp : (if isHighSurrogate c' = true then index - 2 else index - 1) = p :=
        Except.ok.inj h
      split at hp <;> omega
    next =>
      have hp : index - 1 = p := Except.ok.inj h
      omega

theorem following_mem {it : BreakIterator} {text : JString} {offset p : ℤ}
    (hlt : offset < text.length) (h : it.following text offset = .ok p) :
    offset < p ∧ p ≤ text.length := by
  obtain ⟨u, hcheck, hp⟩ := except_bind_eq_ok.mp h
  have hoffset : 0 ≤ offset := by
    unfold BreakIterator.checkOffset at hcheck
    split at hcheck
    · cases hcheck
    · omega
  have hne : text ≠ [] := by
    rintro rfl
    simp at hlt
    omega
  have hmem : text.length ∈ it.boundariesAfter text offset := by
    rw [BreakIterator.boundariesAfter, List.mem_filter]
    exact ⟨it.length_mem text hne, by simpa using hlt⟩
  cases hlist : it.boundariesAfter text offset with
  | nil => rw [hlist] at hmem; cases hmem
  | cons b rest =>
      rw [hlist] at hp
      have hb : b ∈ it.boundariesAfter text offset := by rw [hlist]; exact List.mem_cons_self
      rw [BreakIterator.boundariesAfter, List.mem_filter] at hb
      have hp' : (b : ℤ) = p := Except.ok.inj hp
      have := it.le_length text b hb.1
      have := of_decide_eq_true hb.2
      omega

/-- A deletion in the text, with the caret held. -/
theorem deleteText_held {s : TextInputControl C} (h : s.Ready) {start end_ : ℤ} (hpos : 0 ≤ start)
    (hle : start ≤ end_) (hend : end_ ≤ s.string.length) :
    ∃ s', (deleteText start end_).run (s.setDoNotAdjustCaret true) = (.ok (), s') ∧ s'.Tidy := by
  obtain ⟨s₂, hrun, -, hsynced, -⟩ :=
    replaceText_run (s := s.setDoNotAdjustCaret true) h.content h.le_knownLength hpos hle hend []
  exact ⟨_, hrun, (hsynced (h.toSynced.withFlag true)
    fun hswallowed => hswallowed.2.1 rfl).place _ _⟩

theorem keeps_deletePreviousChar :
    Method.Keeps Ready (deletePreviousChar : Method (TextInputControl C) _) := by
  intro s h
  rw [deletePreviousChar, Method.run_this_bind]
  by_cases hwritable : s.writable = true
  · rw [if_pos hwritable, Method.run_bind_ok (getText_run h.content)]
    by_cases hselected : s.caretPosition ≠ s.anchor
    · rw [if_pos hselected]
      refine Method.Keeps.bind (I := Ready) ?_ (fun _ => .pure true) s h
      intro u hu
      exact hu.replaceSelection fun str hstr hswallowed => by
        cases hstr
        exact hswallowed.2.1 rfl
    · rw [if_neg hselected]
      by_cases hdot : 0 < s.caretPosition
      · rw [if_pos hdot]
        generalize (if s.textIsNull = true then none else some s.string) = text
        cases text with
        | none => exact h
        | some text =>
            simp only []
            cases hp : offsetBefore text s.caretPosition with
            | error e => exact h
            | ok p =>
                obtain ⟨hpos, hle⟩ := offsetBefore_mem hp
                obtain ⟨s', hrun, hs'⟩ := deleteText_held h hpos hle h.toPlaced.caret.2
                rw [Method.run_lift_ok_bind, Method.run_modify_bind, Method.run_bind_ok hrun,
                  Method.run_bind_ok (selectRange_run hs'.content p p)]
                exact (hs'.toSynced.place p p).ready
      · rw [if_neg hdot]
        exact h
  · rw [if_neg hwritable]
    exact h

theorem keeps_deleteNextChar (P : TextPlatform) :
    Method.Keeps Ready (deleteNextChar P : Method (TextInputControl C) _) := by
  intro s h
  rw [deleteNextChar, Method.run_this_bind]
  by_cases hwritable : s.writable = true
  · rw [if_pos hwritable, Method.run_bind_ok (getText_run h.content)]
    by_cases hselected : s.caretPosition ≠ s.anchor
    · rw [if_pos hselected]
      refine Method.Keeps.bind (I := Ready) ?_
        (fun _ => Method.Keeps.bind (fun u hu => ?_) fun _ => .pure true) s h
      swap
      · rw [selectRange_run hu.content]
        exact hu.toSynced.ready_place hu.adjusts _ _
      intro u hu
      exact hu.replaceSelection fun str hstr hswallowed => by
        cases hstr
        exact hswallowed.2.1 rfl
    · rw [if_neg hselected]
      by_cases hnull : s.textIsNull = true
      · rw [if_pos hnull]
        exact h
      · rw [if_neg hnull]
        simp only []
        by_cases hdot : 0 < s.string.length ∧ s.caretPosition < s.string.length
        · rw [if_pos hdot]
          cases hp : P.charIterator.following s.string s.caretPosition with
          | error e => exact h
          | ok p =>
              obtain ⟨hlt, hle⟩ := following_mem hdot.2 hp
              obtain ⟨s', hrun, hs'⟩ :=
                deleteText_held h h.toPlaced.caret.1 (le_of_lt hlt) hle
              rw [Method.run_lift_ok_bind, Method.run_modify_bind, Method.run_bind_ok hrun]
              exact hs'.ready
        · rw [if_neg hdot]
          exact h
  · rw [if_neg hwritable]
    exact h

/-! ## The selected text -/

theorem substring_of_mem {t : JString} {start end_ : ℤ} (h₀ : 0 ≤ start) (h : start ≤ end_)
    (hend : end_ ≤ t.length) :
    substring t start end_ = .ok ((t.take end_.toNat).drop start.toNat) := by
  rw [substring, if_pos ⟨h₀, h, hend⟩]

/-- The selected text has been read. -/
def looked (s : TextInputControl C) : TextInputControl C :=
  { s with
    selection := ⟨true, s.selection.value⟩
    selectedText := ⟨true, slice s.string s.selection.value⟩ }

theorem getSelectedText_run {s : TextInputControl C} (h : s.Ready) :
    ∃ s', getSelectedText.run s = (.ok (slice s.string s.selection.value), s') ∧
      (s' = s ∨ s' = s.looked) := by
  rw [getSelectedText, Method.run_this_bind]
  by_cases hvalid : s.selectedText.valid = true
  · rw [if_pos hvalid, (h.selected hvalid).2]
    exact ⟨s, rfl, Or.inl rfl⟩
  · refine ⟨s.looked, ?_, Or.inr rfl⟩
    have hread : getSelection.run s =
        (.ok s.selection.value, { s with selection := ⟨true, s.selection.value⟩ }) := rfl
    rw [if_neg hvalid, Method.run_bind_ok (getText_run h.content), Method.run_bind_ok hread]
    have hvalue : s.selection.value = .normalize s.anchor s.caretPosition := h.toPlaced.selection
    obtain ⟨hanchor₀, hanchor⟩ := h.toPlaced.anchor
    obtain ⟨hcaret₀, hcaret⟩ := h.toPlaced.caret
    have hstart₀ : 0 ≤ s.selection.value.start := by rw [hvalue]; simp [IndexRange.normalize]; omega
    have hend : s.selection.value.end_ ≤ s.string.length := by
      rw [hvalue]; simp [IndexRange.normalize]; omega
    have hle := s.selection.value.le
    by_cases hnull : s.textIsNull = true
    · have hslice : slice s.string s.selection.value = [] := by simp [slice, h.null hnull]
      simp [hnull, looked, hslice]
    · rw [if_neg hnull]
      simp only []
      rw [if_neg (show ¬ s.selection.value.start + s.string.length < s.selection.value.end_ by
        omega)]
      by_cases hlast : (s.string.length : ℤ) - 1 < s.selection.value.start
      · -- nothing is selected at the end of the text
        have hslice : slice s.string s.selection.value = [] := by
          rw [slice, List.drop_eq_nil_iff, List.length_take]
          omega
        rw [if_pos hlast, substring_of_mem (le_refl 0) (le_refl 0) (by omega), hslice, looked,
          hslice]
        simp
      · rw [if_neg hlast, substring_of_mem hstart₀ hle hend]
        rfl

theorem Ready.looked {s : TextInputControl C} (h : s.Ready) : s.looked.Ready :=
  ⟨⟨⟨h.content, h.null, h.length, fun _ => ⟨rfl, rfl⟩⟩, h.toPlaced.anchor, h.toPlaced.caret,
    h.toPlaced.selection⟩, h.adjusts⟩

theorem Ready.movable : Movable (Ready : TextInputControl C → Prop) where
  getText s h := by
    rw [getText_run h.content]
    exact h
  getLength s h := by
    rw [getLength_run h.content]
    exact h.measured
  getSelection s h :=
    ⟨⟨⟨h.content, h.null, h.length, fun hvalid => ⟨rfl, (h.selected hvalid).2⟩⟩,
      h.toPlaced.anchor, h.toPlaced.caret, h.toPlaced.selection⟩, h.adjusts⟩
  getSelectedText s h := by
    obtain ⟨s', hrun, rfl | rfl⟩ := getSelectedText_run h
    · rw [hrun]
      exact h
    · rw [hrun]
      exact h.looked
  selectRange anchor caretPosition s h := by
    rw [selectRange_run h.content]
    exact h.toSynced.ready_place h.adjusts _ _

/-! ## Consistency -/

/-- The length is that of the text, anchor and caret lie in it, the selection is the range
between them and the selected text what stands there. -/
def Consistent (s : TextInputControl C) : Prop :=
  ∃ txt : Option JString, (getText.run s).1 = .ok txt ∧
    (getLength.run s).1 = .ok ((txt.getD []).length : ℤ) ∧
    (0 ≤ s.anchor ∧ s.anchor ≤ (txt.getD []).length) ∧
    (0 ≤ s.caretPosition ∧ s.caretPosition ≤ (txt.getD []).length) ∧
    s.selection.value = .normalize s.anchor s.caretPosition ∧
    (getSelectedText.run s).1 = .ok (slice (txt.getD []) s.selection.value)

theorem Ready.consistent {s : TextInputControl C} (h : s.Ready) : s.Consistent := by
  obtain ⟨s', hselected, -⟩ := getSelectedText_run h
  have hstring : (if s.textIsNull = true then none else some s.string).getD [] = s.string := by
    by_cases hnull : s.textIsNull = true
    · rw [if_pos hnull, h.null hnull]
      rfl
    · rw [if_neg hnull]
      rfl
  refine ⟨if s.textIsNull = true then none else some s.string, ?_, ?_, ?_, ?_, ?_, ?_⟩
  · rw [getText_run h.content]
  · rw [getLength_run h.content, h.knownLength_eq, hstring]
  · rw [hstring]
    exact h.toPlaced.anchor
  · rw [hstring]
    exact h.toPlaced.caret
  · exact h.toPlaced.selection
  · rw [hselected, hstring]

/-- A length that was read and is not that of the string shows. -/
theorem not_consistent_of_stale {s : TextInputControl C} (h : C.WellFormed s.content)
    (hvalid : s.length.valid = true) (hstale : s.length.value ≠ s.string.length)
    (hnull : s.textIsNull = false) : ¬ s.Consistent := by
  rintro ⟨txt, htxt, hlength, -⟩
  rw [getText_run h, hnull] at htxt
  have htxt' : txt = some s.string := (Except.ok.inj htxt).symm
  rw [getLength_run h, knownLength, if_pos hvalid, htxt'] at hlength
  exact hstale (Except.ok.inj hlength)

end TextInputControl

/-! ## Whole runs -/

namespace TextOp

open TextInputControl

variable {C : Content}

/-- The operation replaces something by a text that is not empty and of which nothing
survives the filter. -/
def Swallows (s : TextInputControl C) : TextOp → Prop
  | .replaceText start end_ (some str) =>
    0 ≤ start ∧ end_ ≤ s.string.length ∧ Swallowed C start end_ str
  | .replaceRange (some range) (some str) =>
    0 ≤ range.start ∧ range.end_ ≤ s.string.length ∧ Swallowed C range.start range.end_ str
  | .replaceSelection (some str) =>
    Swallowed C (min s.caretPosition s.anchor) (max s.caretPosition s.anchor) str
  | _ => False

/-- The operation reads, or moves anchor and caret. -/
def isMove : TextOp → Bool
  | .setText _ | .replaceText _ _ _ | .replaceRange _ _ | .insertText _ _ | .appendText _ => false
  | .deleteText _ _ | .deleteRange _ | .replaceSelection _ | .clear => false
  | .deletePreviousChar | .deleteNextChar => false
  | _ => true

theorem perform_move {I : TextInputControl C → Prop} (hI : Movable I) (P : TextPlatform)
    {op : TextOp} (hop : op.isMove = true) : Method.Keeps I (op.perform P) := by
  cases op with
  | selectRange anchor caretPosition => exact hI.selectRange anchor caretPosition
  | extendSelection pos => exact hI.extendSelection pos
  | positionCaret pos => exact hI.getLength.bind fun _ => hI.selectRange _ _
  | selectPositionCaret pos =>
      exact Method.Keeps.this.bind fun _ => hI.getLength.bind fun _ => hI.selectRange _ _
  | deselect => exact hI.deselect
  | selectAll => exact hI.getLength.bind fun _ => hI.selectRange _ _
  | home => exact hI.selectRange 0 0
  | caretEnd => exact hI.end_
  | selectHome => exact Method.Keeps.this.bind fun _ => hI.selectRange _ _
  | selectEnd => exact hI.selectEnd
  | forward => exact hI.forward P
  | backward => exact hI.backward P
  | selectForward => exact hI.selectForward P
  | selectBackward => exact hI.selectBackward P
  | previousWord select => exact hI.previousWord P select
  | nextWord select => exact hI.moveForward P _ _ select
  | endOfNextWord select => exact hI.moveForward P _ _ select
  | getLength => exact hI.getLength.bind fun _ => .pure ()
  | getSelection => exact hI.getSelection.bind fun _ => .pure ()
  | getSelectedText => exact hI.getSelectedText.bind fun _ => .pure ()
  | _ => cases hop

theorem not_swallowed_nil (start end_ : ℤ) : ¬ Swallowed C start end_ [] := fun h => h.2.1 rfl

theorem not_swallowed_self (start : ℤ) (str : JString) : ¬ Swallowed C start start str :=
  fun h => absurd h.1 (lt_irrefl _)

theorem keeps_deleteText (start end_ : ℤ) :
    Method.Keeps Ready (TextInputControl.deleteText start end_ : Method (TextInputControl C) _) :=
  fun _ h => h.replaceText fun str hstr _ _ => by
    cases hstr
    exact not_swallowed_nil _ _

theorem keeps_insertText (index : ℤ) (text : Option JString) :
    Method.Keeps Ready (TextInputControl.insertText index text : Method (TextInputControl C) _) :=
  fun _ h => h.replaceText fun _ _ _ _ => not_swallowed_self _ _

/-- **One operation.** It keeps a control ready unless it swallows. -/
theorem perform_ready (P : TextPlatform) {s : TextInputControl C} (h : s.Ready) {op : TextOp}
    (hop : ¬ op.Swallows s) : ((op.perform P).run s).2.Ready := by
  by_cases hmove : op.isMove = true
  · exact perform_move Ready.movable P hmove s h
  · cases op with
    | setText value => exact h.setText value
    | replaceText start end_ text =>
        refine h.replaceText fun str hstr hpos hend hswallowed => ?_
        subst hstr
        exact hop ⟨hpos, hend, hswallowed⟩
    | replaceRange range text =>
        cases range with
        | none => exact h
        | some range =>
            have hend : range.start + (range.end_ - range.start) = range.end_ := by omega
            simp only [perform, TextInputControl.replaceRange, hend]
            refine h.replaceText fun str hstr hpos hend hswallowed => ?_
            subst hstr
            exact hop ⟨hpos, hend, hswallowed⟩
    | insertText index text => exact keeps_insertText index text s h
    | appendText text =>
        exact Ready.movable.getLength.bind (fun length => keeps_insertText length text) s h
    | deleteText start end_ => exact keeps_deleteText start end_ s h
    | deleteRange range =>
        cases range with
        | none => exact h
        | some range => exact keeps_deleteText _ _ s h
    | replaceSelection replacement =>
        refine h.replaceSelection fun str hstr hswallowed => ?_
        subst hstr
        exact hop hswallowed
    | clear => exact Ready.movable.deselect.bind (fun _ u hu => hu.setText (some [])) s h
    | deletePreviousChar => exact keeps_deletePreviousChar.bind (fun _ => .pure ()) s h
    | deleteNextChar => exact (keeps_deleteNextChar P).bind (fun _ => .pure ()) s h
    | _ => exact absurd rfl hmove

/-- What `replaceText` leaves when it swallows: the old length with the new text. -/
theorem replaceText_stale {s : TextInputControl C} (h : s.Ready) {start end_ : ℤ} {str : JString}
    (hpos : 0 ≤ start) (hend : end_ ≤ s.string.length) (hswallowed : Swallowed C start end_ str) :
    ¬ ((TextInputControl.replaceText start end_ (some str)).run s).2.Consistent := by
  have hlt := hswallowed.1
  obtain ⟨s₂, hrun, hedit, -, huntold⟩ :=
    replaceText_run h.content h.le_knownLength hpos (le_of_lt hlt) hend str
  have hs₂ := huntold hswallowed
  have hlength : s₂.length = ⟨true, s.knownLength⟩ := by rw [hs₂]; rfl
  have hnull : s.textIsNull = false := by
    by_contra hnull
    rw [h.null (by simpa using hnull)] at hend
    simp at hend
    omega
  rw [hrun]
  refine not_consistent_of_stale hedit.content rfl ?_ ?_
  · change s₂.knownLength ≠ s₂.string.length
    rw [knownLength, hlength, if_pos rfl, h.knownLength_eq, hedit.string, hswallowed.2.2]
    simp only [List.nil_append, List.length_append, List.length_take, List.length_drop]
    omega
  · change s₂.textIsNull = false
    rw [hs₂]
    exact hnull

theorem replaceSelection_stale {s : TextInputControl C} (h : s.Ready) {str : JString}
    (hswallowed : Swallowed C (min s.caretPosition s.anchor) (max s.caretPosition s.anchor) str) :
    ¬ ((TextInputControl.replaceSelection (some str)).run s).2.Consistent := by
  have hlt := hswallowed.1
  obtain ⟨hpos, hend⟩ := h.toPlaced.range
  have hknown : s.knownLength ≠ 0 := by
    rw [h.knownLength_eq]
    omega
  obtain ⟨s₃, p, hrun, hedit, -, huntold⟩ :=
    replaceSelection_run h.content h.le_knownLength hknown hpos hend str
  have hs₃ := huntold hswallowed
  have hlength : s₃.length = ⟨true, s.knownLength⟩ := by rw [hs₃]; rfl
  have hnull : s.textIsNull = false := by
    by_contra hnull
    refine hknown ?_
    rw [h.knownLength_eq, h.null (by simpa using hnull)]
    rfl
  rw [hrun]
  refine not_consistent_of_stale hedit.content rfl ?_ ?_
  · change s₃.knownLength ≠ s₃.string.length
    rw [knownLength, hlength, if_pos rfl, h.knownLength_eq, hedit.string, hswallowed.2.2]
    simp only [List.nil_append, List.length_append, List.length_take, List.length_drop]
    omega
  · change s₃.textIsNull = false
    rw [hs₃]
    exact hnull

theorem perform_stale (P : TextPlatform) {s : TextInputControl C} (h : s.Ready) {op : TextOp}
    (hop : op.Swallows s) : ¬ ((op.perform P).run s).2.Consistent := by
  unfold Swallows at hop
  split at hop
  · exact replaceText_stale h hop.1 hop.2.1 hop.2.2
  next range str =>
    have hend : range.start + (range.end_ - range.start) = range.end_ := by omega
    simp only [perform, TextInputControl.replaceRange, hend]
    exact replaceText_stale h hop.1 hop.2.1 hop.2.2
  · exact replaceSelection_stale h hop
  · exact hop.elim

end TextOp

namespace TextInputControl

variable {C : Content}

theorem new_ready (editable disabled : Bool) : (new C editable disabled).Ready := by
  have hstring : (new C editable disabled).string = [] := C.new_text
  refine ⟨⟨⟨C.new_wellFormed, fun _ => hstring, nofun, nofun⟩, ?_, ?_, rfl⟩, rfl⟩
  · exact ⟨le_refl _, by rw [hstring]; exact le_refl _⟩
  · exact ⟨le_refl _, by rw [hstring]; exact le_refl _⟩

theorem afterOps_concat (P : TextPlatform) (s : TextInputControl C) (ops : List TextOp)
    (op : TextOp) :
    s.afterOps P (ops ++ [op]) = ((op.perform P).run (s.afterOps P ops)).2 :=
  List.foldl_concat _ _ _ _

/-- **Consistency of a text input control.** Every state of a run is consistent exactly when no
operation of the run replaces something by a text of which the filter leaves nothing. -/
theorem afterOps_consistent_iff (C : Content) (P : TextPlatform) (editable disabled : Bool)
    (ops : List TextOp) :
    (∀ done rest, ops = done ++ rest →
        ((new C editable disabled).afterOps P done).Consistent) ↔
      ∀ done op rest, ops = done ++ op :: rest →
        ¬ op.Swallows ((new C editable disabled).afterOps P done) := by
  constructor
  · intro h
    have hready : ∀ done rest, ops = done ++ rest →
        ((new C editable disabled).afterOps P done).Ready := by
      intro done
      induction done using List.reverseRecOn with
      | nil => exact fun _ _ => new_ready editable disabled
      | append_singleton done op ih =>
          intro rest hops
          have hbefore := ih (op :: rest) (by rw [hops]; simp)
          rw [afterOps_concat]
          refine TextOp.perform_ready P hbefore fun hswallows => ?_
          have hafter := h _ rest hops
          rw [afterOps_concat] at hafter
          exact TextOp.perform_stale P hbefore hswallows hafter
    intro done op rest hops hswallows
    have hafter := h (done ++ [op]) rest (by rw [hops]; simp)
    rw [afterOps_concat] at hafter
    exact TextOp.perform_stale P (hready done _ hops) hswallows hafter
  · intro h done
    have hready : ∀ rest, ops = done ++ rest →
        ((new C editable disabled).afterOps P done).Ready := by
      induction done using List.reverseRecOn with
      | nil => exact fun _ _ => new_ready editable disabled
      | append_singleton done op ih =>
          intro rest hops
          rw [afterOps_concat]
          have hops' : ops = done ++ op :: rest := by rw [hops]; simp
          exact TextOp.perform_ready P (ih _ hops') (h done op rest hops')
    exact fun rest hops => (hready rest hops).consistent

/-- A `BreakIterator` that stops everywhere. -/
def eachPosition : BreakIterator where
  boundaries t := List.range (t.length + 1)
  sorted t := List.pairwise_lt_range
  le_length t b hb := by
    have := List.mem_range.mp hb
    omega
  length_mem t _ := List.mem_range.mpr (by omega)

/-- A text field that holds `ab`, of which all is replaced by a control character: the text is
empty, the length still two. -/
theorem swallowed_replacement_stale :
    ¬ ((new textFieldContent true false).afterOps ⟨eachPosition, eachPosition, fun _ => true⟩
      [.setText (some (Css.lit "ab")), .replaceText 0 2 (some [0x1#16])]).Consistent := by
  refine not_consistent_of_stale trivial ?_ ?_ ?_
  · decide
  · decide
  · decide

end TextInputControl

end JavaFx.Control
