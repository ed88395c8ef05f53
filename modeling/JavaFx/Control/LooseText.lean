import JavaFx.Control.TextRuns

/-!
# Text input controls with an old length

A control need not be synced for its text to be right. After a replacement of which nothing
survived the length is too long, and anchor and caret may lie behind the text. What still holds
then is *loose*: a length that was read is no less than that of the text, and every character is
one the content keeps.
-/

namespace JavaFx.Control

open Css (JString)

/-! ## Contents that filter -/

/-- What a call leaves of a content, in range or not, that is given `added`: no other
characters, and no more of them unless the listeners are told. -/
structure Leaves (C : Content) (s : C.State) (added : JString) (r : Except Exn Bool × C.State) :
    Prop where
  wellFormed : C.WellFormed r.2
  mem : ∀ c ∈ C.text r.2, c ∈ C.text s ∨ c ∈ added
  length : r.1 ≠ .ok true → (C.text r.2).length ≤ (C.text s).length

theorem Leaves.same {C : Content} {s : C.State} (h : C.WellFormed s) (added : JString)
    (answer : Except Exn Bool) : Leaves C s added (answer, s) :=
  ⟨h, fun _ hc => Or.inl hc, fun _ => le_refl _⟩

theorem leaves_insert {C : Content} {s : C.State} (h : C.WellFormed s) {index : ℤ}
    (hpos : 0 ≤ index) (hle : index ≤ (C.text s).length) (str : JString) :
    Leaves C s (C.strip str) ((C.insert index (some str) true).run s) := by
  obtain ⟨s', hrun, hs', htext⟩ := C.insert_eq h hpos hle str true
  rw [hrun]
  refine ⟨hs', fun c hc => ?_, fun hquiet => ?_⟩
  · simp only [htext, List.mem_append] at hc
    rcases hc with hc | hc | hc
    · exact Or.inl (List.mem_of_mem_take hc)
    · exact Or.inr hc
    · exact Or.inl (List.mem_of_mem_drop hc)
  · have hempty : C.strip str = [] := by
      by_contra hne
      exact hquiet (by simp [hne])
    rw [htext, hempty]
    simp

theorem leaves_delete {C : Content} {s : C.State} (h : C.WellFormed s) {start end_ : ℤ}
    (hpos : 0 ≤ start) (hle : start ≤ end_) (hend : end_ ≤ (C.text s).length)
    (notifyListeners : Bool) : Leaves C s [] ((C.delete start end_ notifyListeners).run s) := by
  obtain ⟨s', hrun, hs', htext⟩ := C.delete_eq h hpos hle hend notifyListeners
  rw [hrun]
  refine ⟨hs', fun c hc => ?_, fun _ => ?_⟩
  · simp only [htext, List.mem_append] at hc
    rcases hc with hc | hc
    · exact Or.inl (List.mem_of_mem_take hc)
    · exact Or.inl (List.mem_of_mem_drop hc)
  · rw [htext, List.length_append, List.length_take, List.length_drop]
    omega

/-- A content that keeps some characters and strips the others. -/
structure Filters (C : Content) where
  keep : BitVec 16 → Bool
  strip_eq : ∀ t, C.strip t = t.filter keep
  insert : ∀ {s}, C.WellFormed s → ∀ index str,
    Leaves C s (C.strip str) ((C.insert index (some str) true).run s)
  delete : ∀ {s}, C.WellFormed s → ∀ start end_ notifyListeners,
    Leaves C s [] ((C.delete start end_ notifyListeners).run s)
  insert_nil : ∀ {s}, C.WellFormed s → ∀ index, ((C.insert index (some []) true).run s).2 = s
  delete_self : ∀ {s}, C.WellFormed s → ∀ index notifyListeners,
    ((C.delete index index notifyListeners).run s).2 = s

/-- Every character of a text is kept. -/
def Filters.Keeps {C : Content} (F : Filters C) (t : JString) : Prop := ∀ c ∈ t, F.keep c = true

theorem Filters.keeps_nil {C : Content} (F : Filters C) : F.Keeps [] :=
  fun _ hc => absurd hc List.not_mem_nil

theorem Filters.strip_of_keeps {C : Content} (F : Filters C) {t : JString} (h : F.Keeps t) :
    C.strip t = t := by
  rw [F.strip_eq, List.filter_eq_self]
  exact h

theorem Filters.keeps_strip {C : Content} (F : Filters C) (t : JString) : F.Keeps (C.strip t) := by
  intro c hc
  rw [F.strip_eq] at hc
  exact (List.mem_filter.mp hc).2

/-- Nothing inserted leaves a text area's content as it was, in range or not. -/
theorem TextAreaContent.insert_nil (s : TextAreaContent) (index : ℤ) :
    ((TextAreaContent.insert index (some []) true).run s).2 = s := by
  rw [TextAreaContent.insert, Method.run_this_bind]
  by_cases hguard : index < 0 ∨ s.contentLength < index
  · rw [if_pos hguard]
    rfl
  · rw [if_neg hguard]
    rfl

theorem TextAreaContent.delete_self (s : TextAreaContent) (index : ℤ) (notifyListeners : Bool) :
    ((TextAreaContent.delete index index notifyListeners).run s).2 = s := by
  rw [TextAreaContent.delete, Method.run_this_bind, if_neg (lt_irrefl _)]
  by_cases hguard : index < 0 ∨ s.contentLength < index
  · rw [if_pos hguard]
    rfl
  · simp [hguard]

theorem TextFieldContent.delete_self (s : JString) (index : ℤ) (notifyListeners : Bool) :
    ((TextFieldContent.delete index index notifyListeners).run s).2 = s := by
  rw [TextFieldContent.delete, if_neg (lt_irrefl _)]
  rfl

/-- What a text area keeps. -/
def textAreaFilters : Filters textAreaContent where
  keep c := !isInvalidCharacter c false false
  strip_eq t := filterInput_eq_filter t false false
  insert {s} hs index str := by
    by_cases h : (TextAreaContent.ContentOp.insert index (some str) true).Accepted s.text.length
    · exact leaves_insert (C := textAreaContent) hs h.1 h.2.1 str
    · obtain ⟨e, hrun⟩ := TextAreaContent.call_rejected hs h
      change Leaves textAreaContent s _ ((TextAreaContent.ContentOp.insert index (some str)
        true).call.run s)
      rw [hrun]
      exact .same (C := textAreaContent) hs _ _
  delete {s} hs start end_ notifyListeners := by
    by_cases h : (TextAreaContent.ContentOp.delete start end_ notifyListeners).Accepted
        s.text.length
    · exact leaves_delete (C := textAreaContent) hs h.1 h.2.1 h.2.2 notifyListeners
    · obtain ⟨e, hrun⟩ := TextAreaContent.call_rejected hs h
      change Leaves textAreaContent s _ ((TextAreaContent.ContentOp.delete start end_
        notifyListeners).call.run s)
      rw [hrun]
      exact .same (C := textAreaContent) hs _ _
  insert_nil {s} _ := TextAreaContent.insert_nil s
  delete_self {s} _ := TextAreaContent.delete_self s

theorem textField_delete_leaves (s : JString) (start end_ : ℤ) (notifyListeners : Bool) :
    Leaves textFieldContent s []
      ((TextFieldContent.delete start end_ notifyListeners).run s) := by
  rw [TextFieldContent.delete]
  by_cases hlt : start < end_
  · rw [if_pos hlt, Method.run_this_bind, deleteRange]
    split
    next h =>
      refine ⟨trivial, fun c hc => Or.inl ?_, fun _ => ?_⟩
      · have hc' : c ∈ s.take start.toNat ++ s.drop (min end_ s.length).toNat := hc
        rcases List.mem_append.mp hc' with hc | hc
        · exact List.mem_of_mem_take hc
        · exact List.mem_of_mem_drop hc
      · change (s.take start.toNat ++ s.drop (min end_ s.length).toNat).length ≤ s.length
        rw [List.length_append, List.length_take, List.length_drop]
        omega
    next h => exact .same (C := textFieldContent) trivial _ _
  · rw [if_neg hlt]
    exact .same (C := textFieldContent) trivial _ _

theorem textField_insert_rejected {s : JString} {index : ℤ}
    (h : ¬ (0 ≤ index ∧ index ≤ (s.length : ℤ))) (str : JString) :
    ∃ answer, (TextFieldContent.insert index (some str) true).run s = (answer, s) := by
  rw [TextFieldContent.insert]
  by_cases hempty : (filterInput str true true).isEmpty = true
  · exact ⟨.ok false, by simp [hempty]⟩
  · simp only [hempty, Bool.false_eq_true, if_false, Method.run_this_bind, insertAt]
    rw [if_neg h]
    exact ⟨_, rfl⟩

/-- What a text field keeps. -/
def textFieldFilters : Filters textFieldContent where
  keep c := !isInvalidCharacter c true true
  strip_eq t := filterInput_eq_filter t true true
  insert {s} _ index str := by
    by_cases h : 0 ≤ index ∧ index ≤ (s.length : ℤ)
    · exact leaves_insert (C := textFieldContent) trivial h.1 h.2 str
    · obtain ⟨answer, hrun⟩ := textField_insert_rejected h str
      change Leaves textFieldContent s _ ((TextFieldContent.insert index (some str) true).run s)
      rw [hrun]
      exact .same (C := textFieldContent) trivial _ _
  delete {s} _ := textField_delete_leaves s
  insert_nil _ _ := rfl
  delete_self {s} _ := TextFieldContent.delete_self s

/-! ## Loose controls -/

namespace TextInputControl

variable {C : Content} {F : Filters C}

/-- The text is right, and a length that was read not too short. -/
structure Loose (F : Filters C) (s : TextInputControl C) : Prop where
  content : C.WellFormed s.content
  null : s.textIsNull = true → s.string = []
  length : s.length.valid = true → s.string.length ≤ s.length.value
  selection : s.selection.value = .normalize s.anchor s.caretPosition
  kept : F.Keeps s.string

theorem Loose.le_knownLength {s : TextInputControl C} (h : s.Loose F) :
    s.string.length ≤ s.knownLength := by
  rw [knownLength]
  split
  next hvalid => exact h.length hvalid
  next =>
    split
    next hnull => simp [h.null hnull]
    next => exact le_refl _

theorem Loose.measured {s : TextInputControl C} (h : s.Loose F) : s.measured.Loose F :=
  ⟨h.content, h.null, fun _ => h.le_knownLength, h.selection, h.kept⟩

theorem Loose.place {s : TextInputControl C} (h : s.Loose F) (anchor caretPosition : ℤ) :
    (s.place anchor caretPosition).Loose F :=
  ⟨h.content, h.null, fun _ => h.le_knownLength, rfl, h.kept⟩

theorem Loose.withFlag {s : TextInputControl C} (h : s.Loose F) (flag : Bool) :
    (s.setDoNotAdjustCaret flag).Loose F :=
  ⟨h.content, h.null, h.length, h.selection, h.kept⟩

/-- The control is as before, but for the caret and what has been read. -/
structure Moved (F : Filters C) (s₀ s : TextInputControl C) : Prop extends SameFrame s₀ s where
  loose : s.Loose F
  string : s.string = s₀.string

theorem Moved.refl {s : TextInputControl C} (h : s.Loose F) : Moved F s s := ⟨.refl s, h, rfl⟩

theorem Moved.trans {s₁ s₂ s₃ : TextInputControl C} (h : Moved F s₁ s₂) (h' : Moved F s₂ s₃) :
    Moved F s₁ s₃ :=
  ⟨h.toSameFrame.trans h'.toSameFrame, h'.loose, h'.string.trans h.string⟩

/-- Reading the selected text marks the selection as read and remembers the value. -/
theorem keeps_reading {I : TextInputControl C → Prop} (hcontent : ∀ s, I s → C.WellFormed s.content)
    (hread : ∀ s, I s → I { s with selection := ⟨true, s.selection.value⟩ })
    (hremember : ∀ s value, I s → I { s with selectedText := ⟨true, value⟩ }) :
    Method.Keeps I (getSelectedText : Method (TextInputControl C) _) := by
  have hvalue : ∀ value : JString, Method.Keeps I (do
      modify fun s : TextInputControl C => { s with selectedText := ⟨true, value⟩ }
      return value) :=
    fun value => Method.Keeps.bind (fun u hu => hremember u value hu) fun _ => .pure _
  refine Method.Keeps.this.bind fun u => .ite (.pure _) (Method.Keeps.bind ?_ fun txt =>
    Method.Keeps.bind (fun u hu => hread u hu) fun sel => ?_)
  · intro u hu
    rw [getText_run (hcontent u hu)]
    exact hu
  · cases txt with
    | none => exact (Method.Keeps.pure _).bind hvalue
    | some txt => exact .ite ((Method.Keeps.lift _).bind hvalue) ((Method.Keeps.lift _).bind hvalue)

theorem Moved.movable (s₀ : TextInputControl C) : Movable (Moved F s₀) where
  getText s h := by
    rw [getText_run h.loose.content]
    exact h
  getLength s h := by
    rw [getLength_run h.loose.content]
    exact h.trans ⟨⟨rfl, rfl, rfl⟩, h.loose.measured, rfl⟩
  getSelection s h :=
    h.trans ⟨⟨rfl, rfl, rfl⟩, ⟨h.loose.content, h.loose.null, h.loose.length, h.loose.selection,
      h.loose.kept⟩, rfl⟩
  getSelectedText := keeps_reading (fun _ h => h.loose.content)
    (fun _ h => h.trans ⟨⟨rfl, rfl, rfl⟩, ⟨h.loose.content, h.loose.null, h.loose.length,
      h.loose.selection, h.loose.kept⟩, rfl⟩)
    (fun _ _ h => h.trans ⟨⟨rfl, rfl, rfl⟩, ⟨h.loose.content, h.loose.null, h.loose.length,
      h.loose.selection, h.loose.kept⟩, rfl⟩)
  selectRange anchor caretPosition s h := by
    rw [selectRange_run h.loose.content]
    exact h.trans ⟨place_frame s _ _, h.loose.place _ _, rfl⟩

theorem Loose.movable : Movable (Loose F : TextInputControl C → Prop) where
  getText s h := ((Moved.movable s).getText s (.refl h)).loose
  getLength s h := ((Moved.movable s).getLength s (.refl h)).loose
  getSelection s h := ((Moved.movable s).getSelection s (.refl h)).loose
  getSelectedText s h := ((Moved.movable s).getSelectedText s (.refl h)).loose
  selectRange anchor caretPosition s h :=
    ((Moved.movable s).selectRange anchor caretPosition s (.refl h)).loose

/-! ## Editing a loose control -/

/-- A call of the content keeps a control loose when it is given characters that are kept. -/
theorem Loose.onContent {s : TextInputControl C} (h : s.Loose F) {m : Method C.State Bool}
    {added : JString} (hleaves : Leaves C s.content added (m.run s.content))
    (hadded : F.Keeps added) : ((onContent m).run s).2.Loose F := by
  have hkept : F.Keeps (C.text (m.run s.content).2) := by
    intro c hc
    rcases hleaves.mem c hc with hc | hc
    · exact h.kept c hc
    · exact hadded c hc
  rcases hrun : m.run s.content with ⟨answer, content⟩
  rw [hrun] at hleaves hkept
  have hquiet : answer ≠ .ok true → Loose F { s with content := content } := by
    intro hanswer
    have hlength := hleaves.length hanswer
    refine ⟨hleaves.wellFormed, fun hnull => ?_, fun hvalid => ?_, h.selection, hkept⟩
    · have hnil : C.text s.content = [] := h.null hnull
      rw [hnil] at hlength
      exact List.length_eq_zero_iff.mp (Nat.le_zero.mp hlength)
    · have hold := h.length hvalid
      change ((C.text content).length : ℤ) ≤ s.length.value
      exact le_trans (by exact_mod_cast hlength) hold
  cases answer with
  | error e =>
      simp only [TextInputControl.onContent, hrun]
      exact hquiet fun hanswer => by cases hanswer
  | ok fired =>
      simp only [TextInputControl.onContent, hrun]
      cases fired with
      | false => exact hquiet fun hanswer => by cases hanswer
      | true =>
          rw [if_pos rfl]
          refine ⟨hleaves.wellFormed, fun hnull => ?_,
            fun hvalid => absurd hvalid Bool.false_ne_true, h.selection, hkept⟩
          -- the listener clears the flag as soon as there is a character
          simp only [contentInvalidated, markInvalid] at hnull
          split at hnull
          · cases hnull
          next hnone =>
            have hwellFormed : C.WellFormed content := hleaves.wellFormed
            change ¬ 0 < C.length content at hnone
            rw [C.length_eq hwellFormed] at hnone
            change C.text content = []
            have hzero : (C.text content).length = 0 := by omega
            exact List.length_eq_zero_iff.mp hzero

theorem keeps_insert (index : ℤ) (str : JString) :
    Method.Keeps (Loose F) (onContent (C.insert index (some str) true)) :=
  fun _ h => h.onContent (F.insert h.content index str) (F.keeps_strip str)

theorem keeps_delete (start end_ : ℤ) (notifyListeners : Bool) :
    Method.Keeps (Loose F) (onContent (C.delete start end_ notifyListeners)) :=
  fun _ h => h.onContent (F.delete h.content start end_ notifyListeners) nofun

theorem keeps_replaceText (start end_ : ℤ) (text : Option JString) :
    Method.Keeps (Loose F) (replaceText start end_ text : Method (TextInputControl C) _) := by
  refine .ite ((Method.Keeps.throw _).bind fun _ => ?_) ?_
  all_goals
    cases text with
    | none => exact .throw _
    | some text =>
        refine Loose.movable.getLength.bind fun length => .ite ((Method.Keeps.throw _).bind
          fun _ => ?_) ?_
        all_goals
          exact (keeps_delete _ _ _).bind fun _ => (keeps_insert _ _).bind fun _ =>
            Loose.movable.selectRange _ _

theorem keeps_setText (value : Option JString) :
    Method.Keeps (Loose F) (setText value : Method (TextInputControl C) _) := by
  intro s h
  obtain ⟨s', hrun, hs', -, hstring, hselection, -⟩ := setText_run h.content value
  rw [hrun]
  refine ⟨hs'.content, hs'.null, fun hvalid => le_of_eq (hs'.length hvalid).symm,
    hselection h.selection, ?_⟩
  change F.Keeps s'.string
  rw [hstring]
  exact F.keeps_strip _

theorem keeps_flag (flag : Bool) :
    Method.Keeps (Loose F) (modify (setDoNotAdjustCaret flag) : Method (TextInputControl C) _) :=
  fun _ h => h.withFlag flag

theorem keeps_replaceSelection (replacement : Option JString) :
    Method.Keeps (Loose F) (replaceSelection replacement : Method (TextInputControl C) _) := by
  cases replacement with
  | none => exact .throw _
  | some replacement =>
      refine Method.Keeps.this.bind fun s => Loose.movable.getLength.bind fun length => .ite ?_ ?_
      · exact (keeps_flag true).bind fun _ => (keeps_setText _).bind fun _ =>
          Loose.movable.getLength.bind fun _ => (Loose.movable.selectRange _ _).bind fun _ =>
            keeps_flag false
      · refine Loose.movable.deselect.bind fun _ => (keeps_flag true).bind fun _ =>
          Loose.movable.getLength.bind fun oldLength => .ite ?_ ?_
        · exact (keeps_delete _ _ _).bind fun _ => (keeps_insert _ _).bind fun _ =>
            Loose.movable.getLength.bind fun _ => (Loose.movable.selectRange _ _).bind fun _ =>
              keeps_flag false
        · exact (keeps_insert _ _).bind fun _ => Loose.movable.getLength.bind fun _ =>
            (Loose.movable.selectRange _ _).bind fun _ => keeps_flag false

theorem loose_deletePreviousChar :
    Method.Keeps (Loose F) (deletePreviousChar : Method (TextInputControl C) _) := by
  refine Method.Keeps.this.bind fun s => .ite (Loose.movable.getText.bind fun text =>
    .ite ?_ (.ite ?_ (.pure _))) (.pure _)
  · exact (keeps_replaceSelection _).bind fun _ => .pure _
  · cases text with
    | none => exact .throw _
    | some text =>
        exact (Method.Keeps.lift _).bind fun p => (keeps_flag true).bind fun _ =>
          (keeps_replaceText _ _ _).bind fun _ => (Loose.movable.selectRange _ _).bind fun _ =>
            (keeps_flag false).bind fun _ => .pure _

theorem loose_deleteNextChar (P : TextPlatform) :
    Method.Keeps (Loose F) (deleteNextChar P : Method (TextInputControl C) _) := by
  refine Method.Keeps.this.bind fun s => .ite (Loose.movable.getText.bind fun text =>
    .ite ?_ ?_) (.pure _)
  · exact (keeps_replaceSelection _).bind fun _ => (Loose.movable.selectRange _ _).bind fun _ =>
      .pure _
  · cases text with
    | none => exact .throw _
    | some text =>
        exact .ite ((Method.Keeps.lift _).bind fun p => (keeps_flag true).bind fun _ =>
          (keeps_replaceText _ _ _).bind fun _ => (keeps_flag false).bind fun _ => .pure _)
          (.pure _)

end TextInputControl

open TextInputControl

/-- **Whatever is done to it**, a control stays loose. -/
theorem TextOp.perform_loose {C : Content} {F : Filters C} (P : TextPlatform) (op : TextOp) :
    Method.Keeps (Loose F) (op.perform P : Method (TextInputControl C) Unit) := by
  by_cases hmove : op.isMove = true
  · exact op.perform_move Loose.movable P hmove
  · cases op with
    | setText value => exact keeps_setText value
    | replaceText start end_ text => exact keeps_replaceText start end_ text
    | replaceRange range text =>
        cases range with
        | none => exact .throw _
        | some range => exact keeps_replaceText _ _ _
    | insertText index text => exact keeps_replaceText index index text
    | appendText text => exact Loose.movable.getLength.bind fun _ => keeps_replaceText _ _ _
    | deleteText start end_ => exact keeps_replaceText start end_ _
    | deleteRange range =>
        cases range with
        | none => exact .throw _
        | some range => exact keeps_replaceText _ _ _
    | replaceSelection replacement => exact keeps_replaceSelection replacement
    | clear => exact Loose.movable.deselect.bind fun _ => keeps_setText _
    | deletePreviousChar => exact loose_deletePreviousChar.bind fun _ => .pure ()
    | deleteNextChar => exact (loose_deleteNextChar P).bind fun _ => .pure ()
    | _ => exact absurd rfl hmove

namespace TextInputControl

variable {C : Content} {F : Filters C}

theorem new_loose (F : Filters C) (editable disabled : Bool) : (new C editable disabled).Loose F := by
  have hstring : (new C editable disabled).string = [] := C.new_text
  refine ⟨C.new_wellFormed, fun _ => hstring, nofun, rfl, ?_⟩
  rw [hstring]
  exact nofun

theorem Loose.afterOps {s : TextInputControl C} (h : s.Loose F) (P : TextPlatform)
    (ops : List TextOp) : (s.afterOps P ops).Loose F := by
  induction ops using List.reverseRecOn with
  | nil => exact h
  | append_singleton ops op ih =>
      rw [afterOps_concat]
      exact op.perform_loose P _ ih

/-! ## What an edit leaves of a loose control -/

/-- Whether the user may change the text is as before. -/
structure SameRights (s s' : TextInputControl C) : Prop where
  editable : s'.editable = s.editable
  disabled : s'.disabled = s.disabled

/-- The call returns, and the control is loose with the text `t`. -/
def Writes (F : Filters C) (m : Method (TextInputControl C) Unit) (s : TextInputControl C)
    (t : JString) : Prop :=
  ∃ s', m.run s = (.ok (), s') ∧ s'.Loose F ∧ SameRights s s' ∧ s'.string = t

theorem Loose.replaceText {s : TextInputControl C} (h : s.Loose F) {start end_ : ℤ}
    (hpos : 0 ≤ start) (hle : start ≤ end_) (hend : end_ ≤ s.string.length) (str : JString) :
    Writes F (replaceText start end_ (some str)) s
      (s.string.take start.toNat ++ (C.strip str ++ s.string.drop end_.toNat)) := by
  obtain ⟨s₂, hrun, hedit, -⟩ := replaceText_run h.content h.le_knownLength hpos hle hend str
  refine ⟨_, hrun, ?_, ⟨hedit.editable, hedit.disabled⟩, hedit.string⟩
  have hloose := keeps_replaceText start end_ (some str) s h
  rw [hrun] at hloose
  exact hloose

theorem Loose.replaceSelection {s : TextInputControl C} (h : s.Loose F)
    (hpos : 0 ≤ min s.caretPosition s.anchor)
    (hend : max s.caretPosition s.anchor ≤ s.string.length) (str : JString) :
    Writes F (replaceSelection (some str)) s
      (s.string.take (min s.caretPosition s.anchor).toNat ++
        (C.strip str ++ s.string.drop (max s.caretPosition s.anchor).toNat)) := by
  have hloose := keeps_replaceSelection (some str) s h
  by_cases hlength : s.knownLength = 0
  · obtain ⟨s', hrun, -, hframe, hstring⟩ := replaceSelection_empty h.content hlength str
    refine ⟨_, hrun, ?_, ⟨hframe.editable, hframe.disabled⟩, ?_⟩
    · rw [hrun] at hloose
      exact hloose
    · have hle := h.le_knownLength
      have hnil : s.string = [] := List.length_eq_zero_iff.mp (by omega)
      change s'.string = _
      rw [hstring, hnil]
      simp
  · obtain ⟨s₃, p, hrun, hedit, -⟩ :=
      replaceSelection_run h.content h.le_knownLength hlength hpos hend str
    refine ⟨_, hrun, ?_, ⟨hedit.editable, hedit.disabled⟩, hedit.string⟩
    rw [hrun] at hloose
    exact hloose

end TextInputControl

end JavaFx.Control
