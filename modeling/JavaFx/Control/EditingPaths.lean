import JavaFx.Control.LooseText

/-!
# Two ways to replace a range

`replaceText` puts the caret behind as many characters as it was given and trusts the clamp;
`selectRange` and `replaceSelection` put it where the change of the length says. The texts are
the same. The carets part when characters are stripped in front of the end of the text, and when
the length that is read is an old one.
-/

namespace JavaFx.Control

open Css (JString)

namespace TextInputControl

variable {C : Content} {F : Filters C}

/-- `selectRange(start, end)` and then `replaceSelection(replacement)`. -/
def replaceSelected (start end_ : ℤ) (replacement : Option JString) :
    Method (TextInputControl C) Unit := do
  selectRange start end_
  replaceSelection replacement

/-- Caret and anchor stand at `p`. -/
def StandsAt (s : TextInputControl C) (p : ℤ) : Prop := s.caretPosition = p ∧ s.anchor = p

/-- The text with a range replaced by what is left of a string. -/
def spliced (s : TextInputControl C) (start end_ : ℤ) (str : JString) : JString :=
  s.string.take start.toNat ++ (C.strip str ++ s.string.drop end_.toNat)

/-- The listeners hear of a replacement: something is put in, or something goes and nothing was
to be put in. -/
def Heard (C : Content) (start end_ : ℤ) (str : JString) : Prop :=
  C.strip str ≠ [] ∨ str = [] ∧ start < end_

instance (C : Content) (start end_ : ℤ) (str : JString) : Decidable (Heard C start end_ str) :=
  inferInstanceAs (Decidable (_ ∨ _))

/-- What `getLength` answers after a replacement. -/
def lengthAfter (s : TextInputControl C) (start end_ : ℤ) (str : JString) : ℤ :=
  if Heard C start end_ str then ((s.spliced start end_ str).length : ℤ) else s.knownLength

/-! ## What is known of the length -/

theorem Edited.knownLength_of_told {s s' : TextInputControl C} {t : JString} (h : Edited s s' t)
    (hnull : s.textIsNull = false) (htold : s'.length.valid = false) :
    s'.knownLength = t.length := by
  have hnull' : s'.textIsNull = false := by
    by_contra hne
    have hs := h.null (Bool.not_eq_false _ ▸ hne)
    rw [hnull] at hs
    cases hs
  rw [knownLength, htold, hnull', h.string]
  simp

theorem Untold.length_eq {s s' : TextInputControl C} (h : Untold s s') : s'.length = s.length := by
  rw [Untold] at h
  rw [h]

/-- **Replacing, and the length after it.** -/
theorem replace_known {s : TextInputControl C} (h : C.WellFormed s.content)
    (hnull : s.textIsNull = false) (hvalid : s.length.valid = true) {start end_ : ℤ}
    (hpos : 0 ≤ start) (hle : start ≤ end_) (hend : end_ ≤ s.string.length) (str : JString) :
    ∃ s₁ s₂, (onContent (C.delete start end_ str.isEmpty)).run s = (.ok (), s₁) ∧
      (onContent (C.insert start (some str) true)).run s₁ = (.ok (), s₂) ∧
      Edited s s₂ (s.spliced start end_ str) ∧
      s₂.knownLength = s.lengthAfter start end_ str := by
  obtain ⟨s₁, hrun₁, hedit₁, htold₁, huntold₁⟩ := delete_run h hpos hle hend str.isEmpty
  have hlength : start ≤ s₁.string.length := by
    rw [hedit₁.string, List.length_append, List.length_take]
    omega
  obtain ⟨s₂, hrun₂, hedit₂, htold₂, huntold₂⟩ := insert_run hedit₁.content hpos hlength str
  have htaken : (s.string.take start.toNat).length = start.toNat := by
    rw [List.length_take]
    omega
  have htext : s₁.string.take start.toNat ++ (C.strip str ++ s₁.string.drop start.toNat) =
      s.spliced start end_ str := by
    rw [spliced, hedit₁.string, List.take_left' htaken, List.drop_left' htaken]
  have hedit := hedit₁.trans hedit₂
  rw [htext] at hedit
  have hold : s.knownLength = s.length.value := by rw [knownLength, if_pos hvalid]
  refine ⟨s₁, s₂, hrun₁, hrun₂, hedit, ?_⟩
  rw [lengthAfter]
  by_cases hstrip : C.strip str = []
  · have hsame := (huntold₂ hstrip).length_eq
    by_cases hgone : str = [] ∧ start < end_
    · -- the deletion has spoken
      have hheard : Heard C start end_ str := Or.inr hgone
      rw [if_pos hheard]
      refine hedit.knownLength_of_told hnull ?_
      rw [hsame]
      exact (htold₁ (by simp [hgone.1]) hgone.2).1
    · have hquiet : str.isEmpty = false ∨ start = end_ := by
        by_cases hnil : str = []
        · right
          by_contra hne
          exact hgone ⟨hnil, by omega⟩
        · exact Or.inl (by simpa using hnil)
      have hlengths : s₂.length = s.length := hsame.trans (huntold₁ hquiet).length_eq
      have hunheard : ¬ Heard C start end_ str := by
        rintro (hne | hand)
        · exact hne hstrip
        · exact hgone hand
      rw [if_neg hunheard, knownLength, hlengths, if_pos hvalid, hold]
  · have hheard : Heard C start end_ str := Or.inl hstrip
    rw [if_pos hheard]
    exact hedit.knownLength_of_told hnull (htold₂ hstrip).1.1

/-- Inserting, and the length after it. -/
theorem insert_known {s : TextInputControl C} (h : C.WellFormed s.content)
    (hnull : s.textIsNull = false) (hvalid : s.length.valid = true) {start : ℤ}
    (hpos : 0 ≤ start) (hle : start ≤ s.string.length) (str : JString) :
    ∃ s₂, (onContent (C.insert start (some str) true)).run s = (.ok (), s₂) ∧
      Edited s s₂ (s.spliced start start str) ∧
      s₂.knownLength = s.lengthAfter start start str := by
  obtain ⟨s₂, hrun, hedit, htold, huntold⟩ := insert_run h hpos hle str
  refine ⟨s₂, hrun, hedit, ?_⟩
  rw [lengthAfter]
  by_cases hstrip : C.strip str = []
  · have hunheard : ¬ Heard C start start str := by
      rintro (hne | hand)
      · exact hne hstrip
      · exact lt_irrefl _ hand.2
    rw [if_neg hunheard, knownLength, knownLength, (huntold hstrip).length_eq, if_pos hvalid,
      if_pos hvalid]
  · have hheard : Heard C start start str := Or.inl hstrip
    rw [if_pos hheard]
    exact hedit.knownLength_of_told hnull (htold hstrip).1.1

theorem length_spliced {s : TextInputControl C} {start end_ : ℤ} (hpos : 0 ≤ start)
    (hle : start ≤ end_) (hend : end_ ≤ s.string.length) (str : JString) :
    ((s.spliced start end_ str).length : ℤ) =
      s.string.length - (end_ - start) + (C.strip str).length := by
  rw [spliced, List.length_append, List.length_append, List.length_take, List.length_drop]
  omega

/-! ## The two carets -/

/-- A text that is not empty is not null. -/
theorem Loose.not_null {s : TextInputControl C} (h : s.Loose F) (hne : s.string ≠ []) :
    s.textIsNull = false := by
  by_contra htrue
  exact hne (h.null (Bool.not_eq_false _ ▸ htrue))

theorem replaceText_stands {s : TextInputControl C} (h : s.Loose F) (hne : s.string ≠ [])
    {start end_ : ℤ} (hpos : 0 ≤ start) (hle : start ≤ end_) (hend : end_ ≤ s.string.length)
    (str : JString) :
    ∃ s', (replaceText start end_ (some str)).run s = (.ok (), s') ∧
      s'.string = s.spliced start end_ str ∧
      s'.StandsAt (clamp 0 (start + str.length) (s.lengthAfter start end_ str)) := by
  obtain ⟨s₁, s₂, hrun₁, hrun₂, hedit, hknown⟩ := replace_known (s := s.measured) h.content
    (h.not_null hne) rfl hpos hle hend str
  have hlength := h.le_knownLength
  have hguard : ¬ (start < 0 ∨ s.knownLength < end_) := by omega
  have hafter : s.measured.lengthAfter start end_ str = s.lengthAfter start end_ str := rfl
  refine ⟨s₂.place (start + str.length) (start + str.length), ?_, hedit.string, ?_⟩
  · rw [replaceText, if_neg (by omega), Method.run_bind_ok (getLength_run h.content),
      if_neg hguard, Method.run_bind_ok hrun₁, Method.run_bind_ok hrun₂,
      selectRange_run hedit.content]
  · rw [← hafter, ← hknown]
    exact ⟨rfl, rfl⟩

theorem replaceSelected_stands {s : TextInputControl C} (h : s.Loose F) (hne : s.string ≠ [])
    {start end_ : ℤ} (hpos : 0 ≤ start) (hle : start ≤ end_) (hend : end_ ≤ s.string.length)
    (str : JString) :
    ∃ s', (replaceSelected start end_ (some str)).run s = (.ok (), s') ∧
      s'.string = s.spliced start end_ str ∧
      s'.StandsAt (clamp 0
        (start + s.lengthAfter start end_ str - (s.knownLength - (end_ - start)))
        (s.lengthAfter start end_ str)) := by
  have hlength := h.le_knownLength
  have hsome : 0 < s.string.length := List.length_pos_of_ne_nil hne
  -- the selection is the range
  set s₀ := s.place start end_ with hs₀
  have hanchor : s₀.anchor = start := clamp_of_mem hpos (by omega)
  have hcaret : s₀.caretPosition = end_ := clamp_of_mem (by omega) (by omega)
  have hmin : min s₀.caretPosition s₀.anchor = start := by omega
  have hmax : max s₀.caretPosition s₀.anchor = end_ := by omega
  have hknown₀ : s₀.knownLength = s.knownLength := rfl
  have hzero : s₀.knownLength ≠ 0 := by omega
  have hcut : min end_ ((s₀.measured.place s₀.measured.caretPosition
      s₀.measured.caretPosition).setDoNotAdjustCaret true).knownLength = end_ := by
    change min end_ s.knownLength = end_
    omega
  have hheld : s₀.held.lengthAfter start end_ str = s.lengthAfter start end_ str := rfl
  rw [replaceSelected, Method.run_bind_ok (selectRange_run h.content start end_), ← hs₀]
  unfold replaceSelection
  simp only []
  rw [Method.run_this_bind, hmin, hmax, Method.run_bind_ok (getLength_run (s := s₀) h.content),
    if_neg hzero, Method.run_bind_ok (deselect_run (s := s₀.measured) h.content),
    Method.run_modify_bind,
    Method.run_bind_ok (getLength_run (s := (s₀.measured.place s₀.measured.caretPosition
      s₀.measured.caretPosition).setDoNotAdjustCaret true) h.content), hcut, ← held]
  obtain ⟨s₁, s₂, hrun₁, hrun₂, hedit, hknown⟩ := replace_known (s := s₀.held) h.content
    (h.not_null hne) rfl hpos hle hend str
  rw [hheld] at hknown
  by_cases hlt : start < end_
  · rw [if_pos hlt]
    simp only [if_pos hlt]
    rw [Method.run_bind_ok hrun₁, Method.run_bind_ok hrun₂,
      Method.run_bind_ok (getLength_run hedit.content),
      Method.run_bind_ok (selectRange_run (s := s₂.measured) hedit.content _ _)]
    refine ⟨(s₂.measured.place (start + s₂.knownLength - (s.knownLength - (end_ - start)))
      (start + s₂.knownLength - (s.knownLength - (end_ - start)))).setDoNotAdjustCaret false,
      rfl, hedit.string, ?_⟩
    rw [← hknown]
    exact ⟨rfl, rfl⟩
  · have heq : end_ = start := by omega
    subst heq
    obtain ⟨s₂, hrun, hedit, hknown⟩ := insert_known (s := s₀.held) h.content (h.not_null hne) rfl
      hpos hend str
    rw [if_neg hlt]
    simp only [if_neg hlt]
    rw [Method.run_bind_ok hrun, Method.run_bind_ok (getLength_run hedit.content),
      Method.run_bind_ok (selectRange_run (s := s₂.measured) hedit.content _ _)]
    refine ⟨(s₂.measured.place (end_ + s₂.knownLength - s.knownLength)
      (end_ + s₂.knownLength - s.knownLength)).setDoNotAdjustCaret false, rfl, hedit.string, ?_⟩
    rw [← hheld, ← hknown, sub_self, sub_zero]
    exact ⟨rfl, rfl⟩

/-! ## When they agree -/

/-- The length that is read is that of the text, and nothing is stripped, or the range ends where
the text does and either something is left to put in or nothing is taken out. With an old length
only an empty replacement will do, of nothing or of a range at the start. -/
def PathsAgree (s : TextInputControl C) (start end_ : ℤ) (str : JString) : Prop :=
  if s.knownLength = s.string.length then
    C.strip str = str ∨ end_ = s.string.length ∧ (C.strip str ≠ [] ∨ start = end_)
  else str = [] ∧ (start = 0 ∨ start = end_)

theorem Filters.length_strip_le (F : Filters C) (str : JString) :
    (C.strip str).length ≤ str.length := by
  rw [F.strip_eq]
  exact List.length_filter_le _ _

theorem Filters.strip_eq_self_iff (F : Filters C) (str : JString) :
    C.strip str = str ↔ (C.strip str).length = str.length := by
  rw [F.strip_eq, List.length_filter_eq_length_iff, List.filter_eq_self]

/-- Both carets stand behind what has been inserted exactly when the paths agree. -/
theorem stand_iff {s : TextInputControl C} (h : s.Loose F) {start end_ : ℤ} (hpos : 0 ≤ start)
    (hle : start ≤ end_) (hend : end_ ≤ s.string.length) (str : JString) :
    (clamp 0 (start + str.length) (s.lengthAfter start end_ str) = start + (C.strip str).length ∧
      clamp 0 (start + s.lengthAfter start end_ str - (s.knownLength - (end_ - start)))
        (s.lengthAfter start end_ str) = start + (C.strip str).length) ↔
      PathsAgree s start end_ str := by
  have hlength := h.le_knownLength
  have hspliced := length_spliced hpos hle hend str
  have hstrip_le := Filters.length_strip_le F str
  have hstrip_eq := Filters.strip_eq_self_iff F str
  have hstrip_nil : C.strip str = [] ↔ (C.strip str).length = 0 := List.length_eq_zero_iff.symm
  have hnil : str = [] ↔ str.length = 0 := List.length_eq_zero_iff.symm
  rw [lengthAfter, PathsAgree, hstrip_eq]
  simp only [ne_eq, hstrip_nil, hnil]
  by_cases hheard : Heard C start end_ str
  · rw [if_pos hheard, hspliced]
    rw [Heard, ne_eq, hstrip_nil, hnil] at hheard
    generalize (C.strip str).length = kept at *
    generalize str.length = given at *
    generalize s.string.length = length at *
    unfold clamp
    split_ifs <;> omega
  · rw [if_neg hheard]
    rw [Heard, ne_eq, hstrip_nil, hnil] at hheard
    generalize (C.strip str).length = kept at *
    generalize str.length = given at *
    generalize s.string.length = length at *
    unfold clamp
    split_ifs <;> omega

/-- **The two editing paths.** In every state that operations leave, both return with the same
text. Both leave caret and anchor behind the characters that were inserted exactly when nothing is
stripped, or when the range ends where the text does and the replacement is not swallowed; but
for a length that is an old one. -/
theorem editing_paths_agree_iff {s : TextInputControl C} (h : s.Loose F) (hne : s.string ≠ [])
    {start end_ : ℤ} (hpos : 0 ≤ start) (hle : start ≤ end_) (hend : end_ ≤ s.string.length)
    (str : JString) :
    ∃ s₁ s₂, (replaceText start end_ (some str)).run s = (.ok (), s₁) ∧
      (replaceSelected start end_ (some str)).run s = (.ok (), s₂) ∧
      s₁.string = s.string.take start.toNat ++ (C.strip str ++ s.string.drop end_.toNat) ∧
      s₂.string = s.string.take start.toNat ++ (C.strip str ++ s.string.drop end_.toNat) ∧
      (s₁.StandsAt (start + (C.strip str).length) ∧ s₂.StandsAt (start + (C.strip str).length) ↔
        PathsAgree s start end_ str) := by
  obtain ⟨s₁, hrun₁, hstring₁, hcaret₁, hanchor₁⟩ := replaceText_stands h hne hpos hle hend str
  obtain ⟨s₂, hrun₂, hstring₂, hcaret₂, hanchor₂⟩ :=
    replaceSelected_stands h hne hpos hle hend str
  refine ⟨s₁, s₂, hrun₁, hrun₂, hstring₁, hstring₂, ?_⟩
  rw [← stand_iff h hpos hle hend str, StandsAt, StandsAt, hcaret₁, hanchor₁, hcaret₂, hanchor₂,
    and_self, and_self]

/-- `"x"` for the first of two characters of a text field. -/
theorem editing_paths_ordinary :
    ∃ s₁ s₂, (replaceText 0 1 (some [0x78#16])).run
        ((setText (some [0x61#16, 0x62#16])).run (new textFieldContent true false)).2 =
          (.ok (), s₁) ∧
      (replaceSelected 0 1 (some [0x78#16])).run
        ((setText (some [0x61#16, 0x62#16])).run (new textFieldContent true false)).2 =
          (.ok (), s₂) ∧ s₁.StandsAt 1 ∧ s₂.StandsAt 1 := by
  have hloose : Loose textFieldFilters
      ((setText (some [0x61#16, 0x62#16])).run (new textFieldContent true false)).2 :=
    keeps_setText _ _ (new_loose textFieldFilters true false)
  obtain ⟨s₁, s₂, hrun₁, hrun₂, -, -, hagree⟩ := editing_paths_agree_iff hloose (by decide)
    (show (0 : ℤ) ≤ 0 by decide) (show (0 : ℤ) ≤ 1 by decide) (by decide) [0x78#16]
  obtain ⟨hstands₁, hstands₂⟩ := hagree.mpr (by
    rw [PathsAgree, if_pos (by decide)]
    exact Or.inl (by decide))
  exact ⟨s₁, s₂, hrun₁, hrun₂, hstands₁, hstands₂⟩

/-- `"x"` and a bell in front of two characters of a text field: `replaceText` counts the bell. -/
theorem stripped_character_parts_carets :
    ((setText (some [0x61#16, 0x62#16])).run (new textFieldContent true false)).2.string =
        [0x61#16, 0x62#16] ∧
      textFieldContent.strip [0x78#16, 0x7#16] = [0x78#16] ∧
      ((replaceText 0 0 (some [0x78#16, 0x7#16])).run
        ((setText (some [0x61#16, 0x62#16])).run
          (new textFieldContent true false)).2).2.StandsAt 2 ∧
      ((replaceSelected 0 0 (some [0x78#16, 0x7#16])).run
        ((setText (some [0x61#16, 0x62#16])).run
          (new textFieldContent true false)).2).2.StandsAt 1 := by
  refine ⟨by decide, by decide, ⟨by decide, by decide⟩, by decide, by decide⟩

end TextInputControl

end JavaFx.Control
