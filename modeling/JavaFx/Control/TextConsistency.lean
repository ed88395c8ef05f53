import JavaFx.Control.TextInputControl

/-!
# Text, length, selection and selected text

The two bindings are right as long as every change of the text drops what they remember. A
control in such a state is *synced*; a selection that lies in the text makes it *tidy*.
`selectRange` leaves every synced control tidy, so an operation is right when it is synced by
the time it moves the caret.
-/

namespace JavaFx.Control

open Css (JString)

/-- The characters of a range. -/
def slice (t : JString) (range : IndexRange) : JString :=
  (t.take range.end_.toNat).drop range.start.toNat

theorem clamp_mem (value : ℤ) {max : ℤ} (h : 0 ≤ max) :
    0 ≤ clamp 0 value max ∧ clamp 0 value max ≤ max := by
  unfold clamp
  split
  · omega
  · split
    · omega
    · omega

theorem clamp_of_mem {value max : ℤ} (h₀ : 0 ≤ value) (h : value ≤ max) :
    clamp 0 value max = value := by
  unfold clamp
  rw [if_neg (by omega), if_neg (by omega)]

namespace TextInputControl

variable {C : Content}

/-- The string the content stands for. -/
def string (s : TextInputControl C) : JString := C.text s.content

/-- Nothing remembered is out of date. -/
structure Synced (s : TextInputControl C) : Prop where
  content : C.WellFormed s.content
  null : s.textIsNull = true → s.string = []
  length : s.length.valid = true → s.length.value = s.string.length
  selected : s.selectedText.valid = true → s.selection.valid = true ∧
    s.selectedText.value = slice s.string s.selection.value

/-- Anchor and caret lie in the text, and the selection is between them. -/
structure Placed (s : TextInputControl C) : Prop where
  anchor : 0 ≤ s.anchor ∧ s.anchor ≤ s.string.length
  caret : 0 ≤ s.caretPosition ∧ s.caretPosition ≤ s.string.length
  selection : s.selection.value = .normalize s.anchor s.caretPosition

structure Tidy (s : TextInputControl C) : Prop extends Synced s, Placed s

/-- Between two operations the caret is also free to be adjusted. -/
structure Ready (s : TextInputControl C) : Prop extends Tidy s where
  adjusts : s.doNotAdjustCaret = false

/-- What an operation on the text leaves alone. -/
structure SameFrame (s s' : TextInputControl C) : Prop where
  doNotAdjustCaret : s'.doNotAdjustCaret = s.doNotAdjustCaret
  editable : s'.editable = s.editable
  disabled : s'.disabled = s.disabled

theorem SameFrame.refl (s : TextInputControl C) : SameFrame s s := ⟨rfl, rfl, rfl⟩

theorem SameFrame.trans {s₁ s₂ s₃ : TextInputControl C} (h : SameFrame s₁ s₂)
    (h' : SameFrame s₂ s₃) : SameFrame s₁ s₃ :=
  ⟨h'.doNotAdjustCaret.trans h.doNotAdjustCaret, h'.editable.trans h.editable,
    h'.disabled.trans h.disabled⟩

/-! ## Reading the length and moving the caret -/

theorem getText_run {s : TextInputControl C} (h : C.WellFormed s.content) :
    getText.run s = (.ok (if s.textIsNull then none else some s.string), s) := by
  rw [getText, Method.run_this_bind]
  by_cases hnull : s.textIsNull
  · simp [hnull]
  · simp [hnull, C.get_eq h, string]

/-- What `getLength` answers, up to date or not. -/
def knownLength (s : TextInputControl C) : ℤ :=
  if s.length.valid then s.length.value else if s.textIsNull then 0 else s.string.length

/-- The length has been read. -/
def measured (s : TextInputControl C) : TextInputControl C :=
  { s with length := ⟨true, s.knownLength⟩ }

theorem getLength_run {s : TextInputControl C} (h : C.WellFormed s.content) :
    getLength.run s = (.ok s.knownLength, s.measured) := by
  rw [getLength, Method.run_this_bind]
  by_cases hvalid : s.length.valid
  · have hsame : s.measured = s := by
      rcases s with ⟨content, textIsNull, ⟨valid, value⟩, selectedText, selection⟩
      simp_all [measured, knownLength]
    rw [if_pos hvalid, hsame, knownLength, if_pos hvalid]
    rfl
  · rw [if_neg hvalid, Method.run_bind_ok (getText_run h), measured, knownLength, if_neg hvalid]
    by_cases hnull : s.textIsNull
    · simp [hnull]
    · simp [hnull]

theorem Synced.knownLength_eq {s : TextInputControl C} (h : s.Synced) :
    s.knownLength = s.string.length := by
  rw [knownLength]
  split
  next hvalid => exact h.length hvalid
  next =>
    split
    next hnull => simp [h.null hnull]
    next => rfl

theorem Synced.le_knownLength {s : TextInputControl C} (h : s.Synced) :
    s.string.length ≤ s.knownLength := le_of_eq h.knownLength_eq.symm

theorem Synced.measured {s : TextInputControl C} (h : s.Synced) : s.measured.Synced :=
  ⟨h.content, h.null, fun _ => h.knownLength_eq, h.selected⟩

/-- What `selectRange` leaves. -/
def place (s : TextInputControl C) (anchor caretPosition : ℤ) : TextInputControl C :=
  { s.measured with
    caretPosition := clamp 0 caretPosition s.knownLength
    anchor := clamp 0 anchor s.knownLength }.setSelection
      (.normalize (clamp 0 anchor s.knownLength) (clamp 0 caretPosition s.knownLength))

theorem selectRange_run {s : TextInputControl C} (h : C.WellFormed s.content)
    (anchor caretPosition : ℤ) :
    (selectRange anchor caretPosition).run s = (.ok (), s.place anchor caretPosition) := by
  rw [selectRange, Method.run_bind_ok (getLength_run h), Method.run_modify_bind,
    Method.run_bind_ok (getLength_run (s := { s.measured with
      caretPosition := clamp 0 caretPosition s.knownLength }) h)]
  rfl

theorem Synced.place {s : TextInputControl C} (h : s.Synced) (anchor caretPosition : ℤ) :
    (s.place anchor caretPosition).Tidy := by
  have hlength : (0 : ℤ) ≤ s.knownLength := by
    rw [h.knownLength_eq]
    omega
  refine ⟨⟨h.content, h.null, fun _ => h.knownLength_eq, ?_⟩, ?_, ?_, rfl⟩
  · intro hvalid
    -- the selection was read if the selected text was, so the binding has been told
    simp only [TextInputControl.place, setSelection, TextInputControl.measured] at hvalid
    by_cases hread : s.selection.valid
    · simp [hread] at hvalid
    · simp only [hread, if_false, Bool.false_eq_true] at hvalid
      exact absurd (h.selected hvalid).1 hread
  · have hrange := clamp_mem anchor hlength
    exact h.knownLength_eq ▸ hrange
  · have hrange := clamp_mem caretPosition hlength
    exact h.knownLength_eq ▸ hrange

theorem place_frame (s : TextInputControl C) (anchor caretPosition : ℤ) :
    SameFrame s (s.place anchor caretPosition) := ⟨rfl, rfl, rfl⟩

/-! ## Editing the content -/

/-- Both bindings have been told to forget. -/
def Told (s : TextInputControl C) : Prop :=
  s.length.valid = false ∧ s.selectedText.valid = false

/-- An edit that turns the string into `t`. -/
structure Edited (s s' : TextInputControl C) (t : JString) : Prop extends SameFrame s s' where
  content : C.WellFormed s'.content
  string : s'.string = t
  anchor : s'.anchor = s.anchor
  caretPosition : s'.caretPosition = s.caretPosition
  selection : s'.selection = s.selection
  null : s'.textIsNull = true → s.textIsNull = true
  length : s'.length.valid = true → s'.length = s.length

/-- Only the content is another: nobody was told. -/
def Untold (s s' : TextInputControl C) : Prop := s' = { s with content := s'.content }

theorem Edited.trans {s₁ s₂ s₃ : TextInputControl C} {t u : JString} (h : Edited s₁ s₂ t)
    (h' : Edited s₂ s₃ u) : Edited s₁ s₃ u where
  toSameFrame := h.toSameFrame.trans h'.toSameFrame
  content := h'.content
  string := h'.string
  anchor := h'.anchor.trans h.anchor
  caretPosition := h'.caretPosition.trans h.caretPosition
  selection := h'.selection.trans h.selection
  null hnull := h.null (h'.null hnull)
  length hvalid := by
    have hlength := h'.length hvalid
    rw [hlength] at hvalid
    exact hlength.trans (h.length hvalid)

theorem Untold.trans {s₁ s₂ s₃ : TextInputControl C} (h : Untold s₁ s₂) (h' : Untold s₂ s₃) :
    Untold s₁ s₃ := by
  unfold Untold at *
  rw [h', h]

theorem Edited.synced_of_told {s s' : TextInputControl C} {t : JString} (h : Edited s s' t)
    (htold : s'.Told) (hnull : s'.textIsNull = true → t = []) : s'.Synced where
  content := h.content
  null hs' := h.string.trans (hnull hs')
  length hvalid := by rw [htold.1] at hvalid; cases hvalid
  selected hvalid := by rw [htold.2] at hvalid; cases hvalid

theorem Edited.synced_of_untold {s s' : TextInputControl C} {t : JString} (h : Edited s s' t)
    (huntold : Untold s s') (hs : s.Synced) (ht : t = s.string) : s'.Synced := by
  have hstring : s'.string = s.string := h.string.trans ht
  refine ⟨h.content, fun hnull => hstring.trans (hs.null (h.null hnull)), ?_, ?_⟩
  · intro hvalid
    have hlength : s'.length = s.length := by rw [huntold]
    rw [hlength] at hvalid ⊢
    rw [hstring]
    exact hs.length hvalid
  · intro hvalid
    have hselected : s'.selectedText = s.selectedText := by rw [huntold]
    rw [hselected] at hvalid ⊢
    rw [h.selection, hstring]
    exact hs.selected hvalid

theorem onContent_run {s : TextInputControl C} {m : Method C.State Bool} {fired : Bool}
    {content : C.State} (h : m.run s.content = (.ok fired, content)) :
    (onContent m).run s = (.ok (), if fired then { s with content := content }.contentInvalidated
      else { s with content := content }) := by
  simp only [onContent, h]

theorem contentInvalidated_edited {s : TextInputControl C} {content : C.State}
    (h : C.WellFormed content) :
    Edited s { s with content := content }.contentInvalidated (C.text content) where
  doNotAdjustCaret := rfl
  editable := rfl
  disabled := rfl
  content := h
  string := rfl
  anchor := rfl
  caretPosition := rfl
  selection := rfl
  null hnull := by
    simp only [contentInvalidated, markInvalid] at hnull
    split at hnull
    · cases hnull
    · exact hnull
  length hvalid := by cases hvalid

theorem untold_edited {s : TextInputControl C} {content : C.State} (h : C.WellFormed content) :
    Edited s { s with content := content } (C.text content) :=
  ⟨⟨rfl, rfl, rfl⟩, h, rfl, rfl, rfl, rfl, id, fun _ => rfl⟩

/-- **Inserting.** The listeners are told unless everything was stripped. -/
theorem insert_run {s : TextInputControl C} (h : C.WellFormed s.content) {index : ℤ}
    (hpos : 0 ≤ index) (hle : index ≤ s.string.length) (str : JString) :
    ∃ s', (onContent (C.insert index (some str) true)).run s = (.ok (), s') ∧
      Edited s s' (s.string.take index.toNat ++ (C.strip str ++ s.string.drop index.toNat)) ∧
      (C.strip str ≠ [] → s'.Told ∧ s'.textIsNull = false) ∧
      (C.strip str = [] → Untold s s') := by
  obtain ⟨content, hrun, hcontent, htext⟩ := C.insert_eq h hpos hle str true
  refine ⟨_, onContent_run hrun, ?_, ?_, ?_⟩
  · rw [string, ← htext]
    by_cases hempty : C.strip str = []
    · simpa [hempty] using untold_edited hcontent
    · simpa [hempty] using contentInvalidated_edited hcontent
  · intro hne
    have hlength : 0 < C.length content := by
      rw [C.length_eq hcontent, htext]
      have := List.length_pos_iff.mpr hne
      simp only [List.length_append]
      omega
    simp [hne, contentInvalidated, markInvalid, Told, hlength]
  · intro hempty
    simp [hempty, Untold]

/-- **Deleting.** The listeners are told if they shall and if something goes. -/
theorem delete_run {s : TextInputControl C} (h : C.WellFormed s.content) {start end_ : ℤ}
    (hpos : 0 ≤ start) (hle : start ≤ end_) (hend : end_ ≤ s.string.length)
    (notifyListeners : Bool) :
    ∃ s', (onContent (C.delete start end_ notifyListeners)).run s = (.ok (), s') ∧
      Edited s s' (s.string.take start.toNat ++ s.string.drop end_.toNat) ∧
      (notifyListeners = true → start < end_ → s'.Told) ∧
      (notifyListeners = false ∨ start = end_ → Untold s s') := by
  obtain ⟨content, hrun, hcontent, htext⟩ := C.delete_eq h hpos hle hend notifyListeners
  refine ⟨_, onContent_run hrun, ?_, ?_, ?_⟩
  · rw [string, ← htext]
    by_cases hfired : (notifyListeners && decide (start < end_)) = true
    · rw [if_pos hfired]
      exact contentInvalidated_edited hcontent
    · rw [if_neg hfired]
      exact untold_edited hcontent
  · intro hnotify hlt
    simp [hnotify, hlt, contentInvalidated, markInvalid, Told]
  · rintro (hnotify | rfl)
    · simp [hnotify, Untold]
    · simp [Untold]

/-- Something is replaced by a text of which nothing is left. -/
def Swallowed (C : Content) (start end_ : ℤ) (str : JString) : Prop :=
  start < end_ ∧ str ≠ [] ∧ C.strip str = []

/-- **Replacing.** `delete` is told to be quiet when an insertion is to follow, which then has
to speak. It does not when everything it was given is stripped. -/
theorem replace_run {s : TextInputControl C} (h : C.WellFormed s.content) {start end_ : ℤ}
    (hpos : 0 ≤ start) (hle : start ≤ end_) (hend : end_ ≤ s.string.length) (str : JString) :
    ∃ s₁ s₂, (onContent (C.delete start end_ str.isEmpty)).run s = (.ok (), s₁) ∧
      (onContent (C.insert start (some str) true)).run s₁ = (.ok (), s₂) ∧
      Edited s s₂ (s.string.take start.toNat ++ (C.strip str ++ s.string.drop end_.toNat)) ∧
      (s.Synced → ¬ Swallowed C start end_ str → s₂.Synced) ∧
      (Swallowed C start end_ str → Untold s s₂) := by
  obtain ⟨s₁, hrun₁, hedit₁, htold₁, huntold₁⟩ := delete_run h hpos hle hend str.isEmpty
  have hlength : start ≤ s₁.string.length := by
    rw [hedit₁.string, List.length_append, List.length_take]
    omega
  obtain ⟨s₂, hrun₂, hedit₂, htold₂, huntold₂⟩ := insert_run hedit₁.content hpos hlength str
  have htaken : (s.string.take start.toNat).length = start.toNat := by
    rw [List.length_take]
    omega
  have htext : s₁.string.take start.toNat ++ (C.strip str ++ s₁.string.drop start.toNat) =
      s.string.take start.toNat ++ (C.strip str ++ s.string.drop end_.toNat) := by
    rw [hedit₁.string, List.take_left' htaken, List.drop_left' htaken]
  have hedit := hedit₁.trans hedit₂
  rw [htext] at hedit
  refine ⟨s₁, s₂, hrun₁, hrun₂, hedit, ?_, ?_⟩
  · intro hs hkept
    by_cases hstrip : C.strip str = []
    · have huntold := huntold₂ hstrip
      by_cases hlt : start < end_
      · -- then nothing was given, and the deletion spoke
        have hnil : str = [] := by
          by_contra hne
          exact hkept ⟨hlt, hne, hstrip⟩
        have htold := htold₁ (by simp [hnil]) hlt
        refine hedit.synced_of_told ?_ ?_
        · unfold Untold at huntold
          rw [huntold]
          exact htold
        · intro hnull
          have hempty := hs.null (hedit.null hnull)
          rw [hempty] at hend
          simp at hend
          omega
      · have heq : start = end_ := by omega
        refine hedit.synced_of_untold ((huntold₁ (Or.inr heq)).trans huntold) hs ?_
        rw [hstrip, ← heq]
        simp
    · obtain ⟨htold, hnull⟩ := htold₂ hstrip
      refine hedit.synced_of_told htold ?_
      intro hnull'
      rw [hnull] at hnull'
      cases hnull'
  · rintro ⟨hlt, hne, hstrip⟩
    exact (huntold₁ (Or.inl (by simpa using hne))).trans (huntold₂ hstrip)

/-! ## The operations on the text -/

/-- Setting a property to a value leaves that value, stripped, and a null only over nothing. -/
theorem doSet_run {s : TextInputControl C} (h : C.WellFormed s.content) (value : Option JString) :
    ∃ s', (doSet value).run s =
        (.ok (), if s.doNotAdjustCaret then s' else s'.place 0 0) ∧
      Edited { s with textIsNull := value.isNone } s' (C.strip (value.getD [])) ∧
      (s'.textIsNull = true → s'.string = []) := by
  set s₀ : TextInputControl C := { s with textIsNull := value.isNone } with hs₀
  have hcontent : C.WellFormed s₀.content := h
  have hlength : C.length s₀.content = s₀.string.length := C.length_eq hcontent
  obtain ⟨s₁, hrun₁, hedit₁, -⟩ := delete_run hcontent (le_refl 0)
    (show 0 ≤ C.length s₀.content by omega) (by omega) (value.getD []).isEmpty
  obtain ⟨s₂, hrun₂, hedit₂, -⟩ := insert_run hedit₁.content (le_refl 0)
    (show (0 : ℤ) ≤ s₁.string.length by omega) (value.getD [])
  have hempty : s₁.string = [] := by
    rw [hedit₁.string, hlength]
    simp
  have hedit := hedit₁.trans hedit₂
  rw [hempty] at hedit
  simp only [Int.toNat_zero, List.take_nil, List.drop_nil, List.nil_append,
    List.append_nil] at hedit
  refine ⟨s₂, ?_, hedit, ?_⟩
  · have hflag : s₂.doNotAdjustCaret = s.doNotAdjustCaret := hedit.doNotAdjustCaret
    rw [doSet, Method.run_modify_bind, Method.run_this_bind, Method.run_bind_ok hrun₁,
      Method.run_bind_ok hrun₂, Method.run_this_bind, hflag]
    by_cases hadjust : s.doNotAdjustCaret = true
    · simp [hadjust]
    · simp only [hadjust, Bool.not_false, if_true, if_false, Bool.false_eq_true]
      exact selectRange_run hedit.content 0 0
  · intro hnull
    have hnone : value.isNone = true := hedit.null hnull
    rw [hedit.string, Option.isNone_iff_eq_none.mp hnone]
    exact C.strip_nil

/-- **Setting the text** syncs whatever the listeners heard: `set` tells them at its end. -/
theorem setText_run {s : TextInputControl C} (h : C.WellFormed s.content)
    (value : Option JString) :
    ∃ s', (setText value).run s = (.ok (), s') ∧ s'.Synced ∧ SameFrame s s' ∧
      s'.string = C.strip (value.getD []) ∧
      (s.selection.value = .normalize s.anchor s.caretPosition →
        s'.selection.value = .normalize s'.anchor s'.caretPosition) ∧
      (s.Synced → s.doNotAdjustCaret = false → s'.Placed) := by
  obtain ⟨s₂, hset, hedit, hnull⟩ := doSet_run h value
  by_cases hadjust : s.doNotAdjustCaret = true
  · rw [if_pos hadjust] at hset
    refine ⟨s₂.markInvalid, ?_, ⟨hedit.content, hnull, nofun, nofun⟩,
      ⟨hedit.doNotAdjustCaret, hedit.editable, hedit.disabled⟩, hedit.string, ?_, ?_⟩
    · rw [setText, Method.run_bind_ok hset]
      rfl
    · intro hselection
      change s₂.selection.value = .normalize s₂.anchor s₂.caretPosition
      rw [hedit.selection, hedit.anchor, hedit.caretPosition]
      exact hselection
    · intro _ hfalse
      rw [hadjust] at hfalse
      cases hfalse
  · rw [if_neg hadjust] at hset
    refine ⟨(s₂.place 0 0).markInvalid, ?_, ⟨hedit.content, hnull, nofun, nofun⟩,
      ⟨hedit.doNotAdjustCaret, hedit.editable, hedit.disabled⟩, hedit.string, fun _ => rfl, ?_⟩
    · rw [setText, Method.run_bind_ok hset]
      rfl
    · intro hs _
      have hknown : 0 ≤ s₂.knownLength := by
        rw [knownLength]
        split
        next hvalid =>
            have heq := hedit.length hvalid
            rw [heq] at hvalid ⊢
            have hvalue := hs.length hvalid
            change 0 ≤ s.length.value
            omega
        next => split <;> omega
      have hzero : clamp 0 0 s₂.knownLength = 0 := clamp_of_mem (le_refl 0) hknown
      refine ⟨⟨le_of_eq hzero.symm, ?_⟩, ⟨le_of_eq hzero.symm, ?_⟩, rfl⟩
      · exact le_trans (le_of_eq hzero) (by omega)
      · exact le_trans (le_of_eq hzero) (by omega)

theorem replaceText_run {s : TextInputControl C} (h : C.WellFormed s.content)
    (hknown : s.string.length ≤ s.knownLength) {start end_ : ℤ}
    (hpos : 0 ≤ start) (hle : start ≤ end_) (hend : end_ ≤ s.string.length) (str : JString) :
    ∃ s₂, (replaceText start end_ (some str)).run s =
        (.ok (), s₂.place (start + str.length) (start + str.length)) ∧
      Edited s.measured s₂
        (s.string.take start.toNat ++ (C.strip str ++ s.string.drop end_.toNat)) ∧
      (s.Synced → ¬ Swallowed C start end_ str → s₂.Synced) ∧
      (Swallowed C start end_ str → Untold s.measured s₂) := by
  obtain ⟨s₁, s₂, hrun₁, hrun₂, hedit, hsynced, huntold⟩ :=
    replace_run (s := s.measured) h hpos hle hend str
  refine ⟨s₂, ?_, hedit, fun hs => hsynced hs.measured, huntold⟩
  have hguard : ¬ (start < 0 ∨ s.knownLength < end_) := by omega
  rw [replaceText, if_neg (by omega), Method.run_bind_ok (getLength_run h),
    if_neg hguard, Method.run_bind_ok hrun₁, Method.run_bind_ok hrun₂,
    selectRange_run hedit.content]

/-- Arguments out of range are rejected before anything happens. -/
theorem replaceText_rejected {s : TextInputControl C} (hs : s.Synced) {start end_ : ℤ}
    {text : Option JString}
    (h : ¬ (0 ≤ start ∧ start ≤ end_ ∧ end_ ≤ s.string.length ∧ text.isSome)) :
    ∃ e s', (replaceText start end_ text).run s = (.error e, s') ∧ (s' = s ∨ s' = s.measured) := by
  unfold replaceText
  by_cases horder : end_ < start
  · rw [if_pos horder]
    exact ⟨_, s, rfl, Or.inl rfl⟩
  · rw [if_neg horder]
    cases text with
    | none => exact ⟨_, s, rfl, Or.inl rfl⟩
    | some str =>
        simp only []
        rw [Method.run_bind_ok (getLength_run hs.content), if_pos]
        · exact ⟨_, s.measured, rfl, Or.inr rfl⟩
        · rw [hs.knownLength_eq]
          by_contra hguard
          exact h ⟨by omega, by omega, by omega, rfl⟩

theorem Ready.measured {s : TextInputControl C} (h : s.Ready) : s.measured.Ready :=
  ⟨⟨h.toSynced.measured, h.toPlaced.anchor, h.toPlaced.caret, h.toPlaced.selection⟩, h.adjusts⟩

theorem Synced.ready_place {s : TextInputControl C} (h : s.Synced)
    (hadjusts : s.doNotAdjustCaret = false) (anchor caretPosition : ℤ) :
    (s.place anchor caretPosition).Ready := ⟨h.place anchor caretPosition, hadjusts⟩

theorem Ready.replaceText {s : TextInputControl C} (h : s.Ready) {start end_ : ℤ}
    {text : Option JString}
    (hkept : ∀ str, text = some str → 0 ≤ start → end_ ≤ s.string.length →
      ¬ Swallowed C start end_ str) : ((replaceText start end_ text).run s).2.Ready := by
  by_cases haccepted : 0 ≤ start ∧ start ≤ end_ ∧ end_ ≤ s.string.length ∧ text.isSome
  · obtain ⟨hpos, hle, hend, hsome⟩ := haccepted
    obtain ⟨str, rfl⟩ := Option.isSome_iff_exists.mp hsome
    obtain ⟨s₂, hrun, hedit, hsynced, -⟩ :=
      replaceText_run h.content h.le_knownLength hpos hle hend str
    rw [hrun]
    exact (hsynced h.toSynced (hkept str rfl hpos hend)).ready_place
      (hedit.doNotAdjustCaret.trans h.adjusts) _ _
  · obtain ⟨e, s', hrun, hs'⟩ := replaceText_rejected h.toSynced haccepted
    rw [hrun]
    rcases hs' with rfl | rfl
    · exact h
    · exact h.measured

/-- The caret may be told to stay where it is. -/
theorem Synced.withFlag {s : TextInputControl C} (h : s.Synced) (flag : Bool) :
    (s.setDoNotAdjustCaret flag).Synced :=
  ⟨h.content, h.null, h.length, h.selected⟩

theorem Tidy.ready {s : TextInputControl C} (h : s.Tidy) :
    (s.setDoNotAdjustCaret false).Ready :=
  ⟨⟨h.toSynced.withFlag false, h.anchor, h.caret, h.toPlaced.selection⟩, rfl⟩

/-- What is selected. -/
theorem Placed.range {s : TextInputControl C} (h : s.Placed) :
    0 ≤ min s.caretPosition s.anchor ∧
      max s.caretPosition s.anchor ≤ s.string.length := by
  have h₁ := h.anchor
  have h₂ := h.caret
  omega

theorem deselect_run {s : TextInputControl C} (h : C.WellFormed s.content) :
    deselect.run s = (.ok (), s.place s.caretPosition s.caretPosition) := by
  rw [deselect, Method.run_this_bind, selectRange_run h]

/-- Inserting without a deletion cannot go unheard. -/
theorem insert_synced {s s' : TextInputControl C} (hs : s.Synced) {index : ℤ} {str : JString}
    (hedit : Edited s s' (s.string.take index.toNat ++ (C.strip str ++ s.string.drop index.toNat)))
    (htold : C.strip str ≠ [] → s'.Told ∧ s'.textIsNull = false)
    (huntold : C.strip str = [] → Untold s s') : s'.Synced := by
  by_cases hstrip : C.strip str = []
  · refine hedit.synced_of_untold (huntold hstrip) hs ?_
    rw [hstrip]
    simp
  · obtain ⟨htold, hnull⟩ := htold hstrip
    refine hedit.synced_of_told htold ?_
    intro hnull'
    rw [hnull] at hnull'
    cases hnull'

/-- The control in the middle of `replaceSelection`: nothing selected, the caret held, the
length read. -/
def held (s : TextInputControl C) : TextInputControl C :=
  ((s.measured.place s.measured.caretPosition s.measured.caretPosition).setDoNotAdjustCaret
    true).measured

theorem Synced.held {s : TextInputControl C} (h : s.Synced) : s.held.Synced :=
  ((h.measured.place _ _).toSynced.withFlag true).measured

/-- **Replacing the selection** of a text that is not empty. -/
theorem replaceSelection_run {s : TextInputControl C} (h : C.WellFormed s.content)
    (hknown : s.string.length ≤ s.knownLength) (hlength : s.knownLength ≠ 0)
    (hpos : 0 ≤ min s.caretPosition s.anchor)
    (hend : max s.caretPosition s.anchor ≤ s.string.length) (str : JString) :
    ∃ s₃ p, (replaceSelection (some str)).run s =
        (.ok (), (s₃.measured.place p p).setDoNotAdjustCaret false) ∧
      Edited s.held s₃ (s.string.take (min s.caretPosition s.anchor).toNat ++
        (C.strip str ++ s.string.drop (max s.caretPosition s.anchor).toNat)) ∧
      (s.Synced → ¬ Swallowed C (min s.caretPosition s.anchor) (max s.caretPosition s.anchor) str →
        s₃.Synced) ∧
      (Swallowed C (min s.caretPosition s.anchor) (max s.caretPosition s.anchor) str →
        Untold s.held s₃) := by
  have hle : min s.caretPosition s.anchor ≤ max s.caretPosition s.anchor := by omega
  have hmin : min (max s.caretPosition s.anchor) ((s.measured.place s.measured.caretPosition
      s.measured.caretPosition).setDoNotAdjustCaret true).knownLength =
        max s.caretPosition s.anchor := by
    change min (max s.caretPosition s.anchor) s.knownLength = _
    omega
  unfold replaceSelection
  simp only []
  rw [Method.run_this_bind, Method.run_bind_ok (getLength_run h), if_neg hlength,
    Method.run_bind_ok (deselect_run (s := s.measured) h), Method.run_modify_bind,
    Method.run_bind_ok (getLength_run (s := (s.measured.place s.measured.caretPosition
      s.measured.caretPosition).setDoNotAdjustCaret true) h), hmin, ← held]
  by_cases hlt : min s.caretPosition s.anchor < max s.caretPosition s.anchor
  · obtain ⟨s₁, s₃, hrun₁, hrun₃, hedit, hsynced, huntold⟩ :=
      replace_run (s := s.held) h hpos hle hend str
    refine ⟨s₃, min s.caretPosition s.anchor + s₃.knownLength - (s.knownLength -
      (max s.caretPosition s.anchor - min s.caretPosition s.anchor)), ?_, hedit,
      fun hs => hsynced hs.held, huntold⟩
    rw [if_pos hlt]
    simp only [if_pos hlt]
    rw [Method.run_bind_ok hrun₁, Method.run_bind_ok hrun₃,
      Method.run_bind_ok (getLength_run hedit.content),
      Method.run_bind_ok (selectRange_run (s := s₃.measured) hedit.content _ _)]
    rfl
  · obtain ⟨s₃, hrun₃, hedit, htold, huntold⟩ := insert_run (s := s.held) h hpos
      (show min s.caretPosition s.anchor ≤ s.held.string.length from by
        have : s.held.string = s.string := rfl
        rw [this]
        omega) str
    have heq : max s.caretPosition s.anchor = min s.caretPosition s.anchor := by omega
    refine ⟨s₃, min s.caretPosition s.anchor + s₃.knownLength - s.knownLength, ?_,
      by rw [heq]; exact hedit, fun hs _ => insert_synced hs.held hedit htold huntold,
      fun hswallowed => absurd hswallowed.1 hlt⟩
    rw [if_neg hlt]
    simp only [if_neg hlt]
    rw [Method.run_bind_ok hrun₃, Method.run_bind_ok (getLength_run hedit.content),
      Method.run_bind_ok (selectRange_run (s := s₃.measured) hedit.content _ _)]
    rfl

/-- On a text of length zero the replacement becomes the text. -/
theorem replaceSelection_empty {s : TextInputControl C} (h : C.WellFormed s.content)
    (hlength : s.knownLength = 0) (str : JString) :
    ∃ s' : TextInputControl C,
      (replaceSelection (some str)).run s = (.ok (), s'.setDoNotAdjustCaret false) ∧
      s'.Tidy ∧ SameFrame s (s'.setDoNotAdjustCaret s.doNotAdjustCaret) ∧
      s'.string = C.strip str := by
  obtain ⟨s₁, hrun₁, hs₁, hframe, hstring, -⟩ :=
    setText_run (s := s.measured.setDoNotAdjustCaret true) h (some str)
  refine ⟨s₁.measured.place s₁.knownLength s₁.knownLength, ?_, hs₁.measured.place _ _,
    ⟨rfl, hframe.editable, hframe.disabled⟩, hstring⟩
  unfold replaceSelection
  simp only []
  rw [Method.run_this_bind, Method.run_bind_ok (getLength_run h), if_pos hlength,
    Method.run_modify_bind, Method.run_bind_ok hrun₁,
    Method.run_bind_ok (getLength_run hs₁.content),
    Method.run_bind_ok (selectRange_run (s := s₁.measured) hs₁.content _ _)]
  rfl

theorem Ready.replaceSelection {s : TextInputControl C} (h : s.Ready)
    {replacement : Option JString}
    (hkept : ∀ str, replacement = some str →
      ¬ Swallowed C (min s.caretPosition s.anchor) (max s.caretPosition s.anchor) str) :
    ((replaceSelection replacement).run s).2.Ready := by
  cases replacement with
  | none => exact h
  | some str =>
      by_cases hlength : s.knownLength = 0
      · obtain ⟨s', hrun, hs', -⟩ := replaceSelection_empty h.content hlength str
        rw [hrun]
        exact hs'.ready
      · obtain ⟨s₃, p, hrun, hedit, hsynced, -⟩ := replaceSelection_run h.content
          h.le_knownLength hlength h.toPlaced.range.1 h.toPlaced.range.2 str
        rw [hrun]
        exact ((hsynced h.toSynced (hkept str rfl)).measured.place p p).ready

theorem Ready.setText {s : TextInputControl C} (h : s.Ready) (value : Option JString) :
    ((setText value).run s).2.Ready := by
  obtain ⟨s', hrun, hs', hframe, -, -, hplaced⟩ := setText_run h.content value
  rw [hrun]
  exact ⟨⟨hs', hplaced h.toSynced h.adjusts⟩, hframe.doNotAdjustCaret.trans h.adjusts⟩

end TextInputControl

end JavaFx.Control
