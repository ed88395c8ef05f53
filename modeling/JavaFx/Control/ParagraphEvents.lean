import JavaFx.Control.ParagraphText
import JavaFx.Lib.Splice

/-!
# The events of the paragraph list

What `insert` and `delete` tell the listeners of the paragraph list. An event names paragraphs
that are builders, and a listener reads them when the event is delivered: a paragraph that has
been edited in place is reported as removed with the text it has now. After a deletion over
several paragraphs the leading one is reported a second time, in the place of the trailing one.
-/

namespace JavaFx.Control

open Css (JString)
open Lines TextAreaContent

/-- A `ParagraphListChange` as a listener reads it on delivery: the texts of `getRemoved()`, and
the texts of the list. -/
structure ParagraphListChange where
  from_ : ℕ
  to_ : ℕ
  removed : List JString
  list : List JString
deriving DecidableEq

/-- Taking the change over to a copy of the list, which must have had the texts that were
removed. -/
def ParagraphListChange.replay (change : ParagraphListChange) (texts : List JString) :
    Option (List JString) :=
  if change.from_ ≤ texts.length ∧
      (texts.drop change.from_).take change.removed.length = change.removed then
    some (texts.take change.from_ ++ (Splice.slice change.from_ change.to_ change.list ++
      texts.drop (change.from_ + change.removed.length)))
  else none

/-- A content and what its listeners have been told. -/
structure ObservedContent where
  content : TextAreaContent
  fired : List ParagraphListChange
deriving DecidableEq

namespace ObservedContent

/-- A method of the content that tells nobody. -/
def onContent {β : Type} (m : Method TextAreaContent β) : Method ObservedContent β :=
  ⟨fun s => ((m.run s.content).1, { s with content := (m.run s.content).2 })⟩

def fireParagraphListChangeEvent (from_ to_ : ℕ) (removed : List JString) :
    Method ObservedContent Unit :=
  modify fun s => { s with fired := s.fired ++ [⟨from_, to_, removed, s.content.paragraphs⟩] }

/-- The event for a paragraph that stands at its place: the list that is reported as removed has
this very builder in it. -/
def fireEdited (paragraphIndex : ℕ) : Method ObservedContent Unit := do
  let s ← Method.this
  let paragraph ← listGet s.content.paragraphs paragraphIndex
  fireParagraphListChangeEvent paragraphIndex (paragraphIndex + 1) [paragraph]

def insert (index : ℤ) (text : Option JString) (notifyListeners : Bool) :
    Method ObservedContent Bool := do
  let s ← Method.this
  if index < 0 ∨ s.content.contentLength < index then throw .indexOutOfBounds
  match text with
  | none => throw (.illegalArgument "")
  | some text =>
    let text := filterInput text false false
    let length := text.length
    if 0 < length then
      let (closed, line) := text.foldl splitLine ([], [])
      let (paragraphIndex, offset) ← walkBackward s.content.paragraphs index
        s.content.paragraphs.length (s.content.contentLength + 1)
      let start := index - offset
      match closed with
      | [] =>
        onContent (edit paragraphIndex (insertAt · start line))
        fireEdited paragraphIndex
      | first :: middle =>
        let paragraph ← listGet s.content.paragraphs paragraphIndex
        let trailingText ← substring paragraph start paragraph.length
        onContent (edit paragraphIndex (deleteRange · start paragraph.length))
        onContent (edit paragraphIndex (insertAt · start first))
        fireEdited paragraphIndex
        onContent (modify fun s => { s with
          paragraphs := s.paragraphs.take (paragraphIndex + 1) ++
            (middle ++ [line ++ trailingText] ++ s.paragraphs.drop (paragraphIndex + 1)) })
        -- `n` lines: the first, those between and the last
        fireParagraphListChangeEvent (paragraphIndex + 1) (paragraphIndex + (middle.length + 2)) []
      onContent (modify fun s => { s with contentLength := s.contentLength + length })
      return notifyListeners
    else return false

def delete (start end_ : ℤ) (notifyListeners : Bool) : Method ObservedContent Bool := do
  let s ← Method.this
  if end_ < start then throw (.illegalArgument "")
  if start < 0 ∨ s.content.contentLength < end_ then throw .indexOutOfBounds
  let length := end_ - start
  if 0 < length then
    let (trailingParagraphIndex, trailingOffset) ← walkBackward s.content.paragraphs end_
      s.content.paragraphs.length (s.content.contentLength + 1)
    let trailingParagraph ← listGet s.content.paragraphs trailingParagraphIndex
    let (leadingParagraphIndex, leadingOffset) ←
      walkBackward s.content.paragraphs start (trailingParagraphIndex + 1)
        (trailingOffset + (trailingParagraph.length + 1))
    if leadingParagraphIndex = trailingParagraphIndex then
      onContent (edit leadingParagraphIndex
        (deleteRange · (start - leadingOffset) (end_ - leadingOffset)))
      fireEdited leadingParagraphIndex
    else
      let leadingParagraph ← listGet s.content.paragraphs leadingParagraphIndex
      let leadingSegment ← substring leadingParagraph 0 (start - leadingOffset)
      let trailingSegmentLength := (start + length) - trailingOffset
      onContent (edit trailingParagraphIndex (deleteRange · 0 trailingSegmentLength))
      fireEdited trailingParagraphIndex
      if leadingParagraphIndex < trailingParagraphIndex then
        let s ← Method.this
        let removed := Splice.slice leadingParagraphIndex trailingParagraphIndex
          s.content.paragraphs
        onContent (modify fun s => { s with
          paragraphs := s.paragraphs.take leadingParagraphIndex ++
            s.paragraphs.drop trailingParagraphIndex })
        fireParagraphListChangeEvent leadingParagraphIndex leadingParagraphIndex removed
      onContent (edit leadingParagraphIndex (insertAt · 0 leadingSegment))
      -- the leading paragraph is no longer in the list, and has its text
      fireParagraphListChangeEvent leadingParagraphIndex (leadingParagraphIndex + 1)
        [leadingParagraph]
    onContent (modify fun s => { s with contentLength := s.contentLength - length })
    return notifyListeners
  else return false

/-! ## The content below -/

/-- A method that does to the content what another one does, whatever it tells. -/
def Tracks {β : Type} (m : Method ObservedContent β) (m' : Method TextAreaContent β) : Prop :=
  ∀ s, (m.run s).1 = (m'.run s.content).1 ∧ (m.run s).2.content = (m'.run s.content).2

theorem Tracks.pure {β : Type} (b : β) : Tracks (Pure.pure b) (Pure.pure b) :=
  fun _ => ⟨rfl, rfl⟩

theorem Tracks.throw {β : Type} (e : Exn) :
    Tracks (MonadExcept.throw e : Method ObservedContent β) (MonadExcept.throw e) :=
  fun _ => ⟨rfl, rfl⟩

theorem Tracks.content {β : Type} (m : Method TextAreaContent β) : Tracks (onContent m) m :=
  fun _ => ⟨rfl, rfl⟩

theorem Tracks.bind {β γ : Type} {m : Method ObservedContent β} {m' : Method TextAreaContent β}
    {f : β → Method ObservedContent γ} {f' : β → Method TextAreaContent γ} (h : Tracks m m')
    (hf : ∀ b, Tracks (f b) (f' b)) : Tracks (m >>= f) (m' >>= f') := by
  intro s
  obtain ⟨hresult, hcontent⟩ := h s
  rw [Method.run_bind, Method.run_bind]
  generalize m.run s = r at hresult hcontent ⊢
  generalize m'.run s.content = r' at hresult hcontent ⊢
  obtain ⟨result, t⟩ := r
  obtain ⟨result', t'⟩ := r'
  simp only at hresult hcontent
  subst hresult hcontent
  cases result with
  | error e => exact ⟨rfl, rfl⟩
  | ok b => exact hf b t

/-- Only what a computation can return need be looked at. -/
theorem Tracks.lift_bind {β γ : Type} {x : Except Exn β} {f : β → Method ObservedContent γ}
    {f' : β → Method TextAreaContent γ} (hf : ∀ b, x = .ok b → Tracks (f b) (f' b)) :
    Tracks (liftM x >>= f) (liftM x >>= f') := by
  cases x with
  | error e => exact fun _ => ⟨rfl, rfl⟩
  | ok b => exact hf b rfl

theorem Tracks.this_bind {γ : Type} {f : ObservedContent → Method ObservedContent γ}
    {f' : TextAreaContent → Method TextAreaContent γ} (hf : ∀ s, Tracks (f s) (f' s.content)) :
    Tracks (Method.this >>= f) (Method.this >>= f') :=
  fun s => hf s s

theorem Tracks.look_bind {γ : Type} {f : ObservedContent → Method ObservedContent γ}
    {m' : Method TextAreaContent γ} (hf : ∀ s, Tracks (f s) m') :
    Tracks (Method.this >>= f) m' :=
  fun s => hf s s

/-- Telling the listeners leaves the content alone. -/
theorem Tracks.fire_bind {γ : Type} {from_ to_ : ℕ} {removed : List JString}
    {f : Unit → Method ObservedContent γ} {m' : Method TextAreaContent γ}
    (hf : Tracks (f ()) m') :
    Tracks (fireParagraphListChangeEvent from_ to_ removed >>= f) m' := by
  intro s
  rw [fireParagraphListChangeEvent, Method.run_modify_bind]
  exact hf _

theorem onContent_run {β : Type} (m : Method TextAreaContent β) (s : ObservedContent) :
    (onContent m).run s = ((m.run s.content).1, { s with content := (m.run s.content).2 }) := rfl

/-- So does the event for a paragraph that has just been edited. -/
theorem Tracks.edited_bind {γ : Type} {i : ℕ} {g : JString → Except Exn JString}
    {f : Unit → Method ObservedContent γ} {f' : Unit → Method TextAreaContent γ}
    (hf : Tracks (f ()) (f' ())) :
    Tracks (onContent (edit i g) >>= fun _ => fireEdited i >>= f) (edit i g >>= f') := by
  intro s
  rw [Method.run_bind, Method.run_bind, onContent_run]
  cases hget : listGet s.content.paragraphs i with
  | error e =>
      have hrun : (edit i g).run s.content = (.error e, s.content) := by
        rw [edit, Method.run_this_bind, hget, Method.run_lift_error_bind]
      rw [hrun]
      exact ⟨rfl, rfl⟩
  | ok p =>
      have hi : s.content.paragraphs[i]? = some p := by
        unfold listGet at hget
        split at hget
        next q hq =>
          cases hget
          exact hq
        next => cases hget
      cases hg : g p with
      | error e =>
          have hrun : (edit i g).run s.content = (.error e, s.content) := by
            rw [edit, Method.run_this_bind, hget, Method.run_lift_ok_bind, hg,
              Method.run_lift_error_bind]
          rw [hrun]
          exact ⟨rfl, rfl⟩
      | ok q =>
          have hrun : (edit i g).run s.content =
              (.ok (), { s.content with paragraphs := s.content.paragraphs.set i q }) := by
            rw [edit, Method.run_this_bind, hget, Method.run_lift_ok_bind, hg,
              Method.run_lift_ok_bind, Method.run_set]
          have hset : listGet (s.content.paragraphs.set i q) i = .ok q := by
            have hlt : i < s.content.paragraphs.length := by
              rw [List.getElem?_eq_some_iff] at hi
              exact hi.1
            simp [listGet, hlt]
          rw [hrun]
          simp only []
          rw [fireEdited, Method.run_bind, Method.run_this_bind, hset, Method.run_lift_ok_bind,
            fireParagraphListChangeEvent, Method.run_modify]
          exact hf _

/-- The event for a paragraph that is there. -/
theorem fireEdited_run {s : ObservedContent} {pre post : List JString} {p : JString}
    (h : s.content.paragraphs = pre ++ p :: post) :
    (fireEdited pre.length).run s = (.ok (), { s with
      fired := s.fired ++ [⟨pre.length, pre.length + 1, [p], pre ++ p :: post⟩] }) := by
  have hget : listGet s.content.paragraphs pre.length = .ok p := by simp [listGet, h]
  rw [fireEdited, Method.run_this_bind, hget, Method.run_lift_ok_bind,
    fireParagraphListChangeEvent, Method.run_modify, h]

@[simp] theorem run_onContent_modify_bind {γ : Type} (g : TextAreaContent → TextAreaContent)
    (f : Unit → Method ObservedContent γ) (s : ObservedContent) :
    (onContent (modify g) >>= f).run s = (f ()).run { s with content := g s.content } := rfl

@[simp] theorem run_fire_bind {γ : Type} (from_ to_ : ℕ) (removed : List JString)
    (f : Unit → Method ObservedContent γ) (s : ObservedContent) :
    (fireParagraphListChangeEvent from_ to_ removed >>= f).run s = (f ()).run { s with
      fired := s.fired ++ [⟨from_, to_, removed, s.content.paragraphs⟩] } := rfl

theorem onContent_edit_run {s : ObservedContent} {pre post : List JString} {p q : JString}
    {f : JString → Except Exn JString} (hs : s.content.paragraphs = pre ++ p :: post)
    (hf : f p = .ok q) :
    (onContent (edit pre.length f)).run s =
      (.ok (), { s with content := { s.content with paragraphs := pre ++ q :: post } }) := by
  rw [onContent_run, edit_run hs hf]

theorem insert_tracks (index : ℤ) (text : Option JString) (notifyListeners : Bool) :
    Tracks (insert index text notifyListeners)
      (TextAreaContent.insert index text notifyListeners) := by
  unfold insert TextAreaContent.insert
  refine Tracks.this_bind fun s => ?_
  by_cases hguard : index < 0 ∨ s.content.contentLength < index
  · rw [if_pos hguard, if_pos hguard]
    exact Tracks.throw _
  rw [if_neg hguard, if_neg hguard]
  cases text with
  | none => exact Tracks.throw _
  | some text =>
      simp only []
      by_cases hlength : 0 < (filterInput text false false).length
      · rw [if_pos hlength, if_pos hlength]
        refine Tracks.lift_bind fun place _ => ?_
        obtain ⟨paragraphIndex, offset⟩ := place
        simp only []
        generalize ((filterInput text false false).foldl splitLine ([], [])).1 = closed
        cases closed with
        | nil =>
            refine Tracks.edited_bind ?_
            exact Tracks.bind (Tracks.content _) fun _ => Tracks.pure _
        | cons first middle =>
            refine Tracks.lift_bind fun paragraph _ => Tracks.lift_bind fun trailingText _ => ?_
            refine Tracks.bind (Tracks.content _) fun _ => Tracks.edited_bind ?_
            refine Tracks.bind (Tracks.content _) fun _ => Tracks.fire_bind ?_
            exact Tracks.bind (Tracks.content _) fun _ => Tracks.pure _
      · rw [if_neg hlength, if_neg hlength]
        exact Tracks.pure _

theorem walkBackward_lt {paragraphs : List JString} {index : ℤ} {k : ℕ} {offset : ℤ}
    {place : ℕ × ℤ} (h : walkBackward paragraphs index k offset = .ok place) : place.1 < k := by
  induction k generalizing offset with
  | zero => cases h
  | succ k ih =>
      rw [walkBackward] at h
      cases hget : listGet paragraphs k with
      | error e =>
          rw [hget] at h
          cases h
      | ok p =>
          rw [hget, except_ok_bind] at h
          simp only [] at h
          split at h
          · exact Nat.lt_succ_of_lt (ih h)
          · cases h
            exact Nat.lt_succ_self k

theorem delete_tracks (start end_ : ℤ) (notifyListeners : Bool) :
    Tracks (delete start end_ notifyListeners)
      (TextAreaContent.delete start end_ notifyListeners) := by
  unfold delete TextAreaContent.delete
  refine Tracks.this_bind fun s => ?_
  by_cases horder : end_ < start
  · rw [if_pos horder, if_pos horder]
    exact Tracks.throw _
  rw [if_neg horder, if_neg horder]
  by_cases hguard : start < 0 ∨ s.content.contentLength < end_
  · simp only [if_pos hguard]
    exact Tracks.throw _
  simp only [if_neg hguard]
  by_cases hlength : 0 < end_ - start
  · rw [if_pos hlength, if_pos hlength]
    refine Tracks.lift_bind fun last _ => ?_
    obtain ⟨trailing, trailingOffset⟩ := last
    refine Tracks.lift_bind fun trailingParagraph _ => ?_
    refine Tracks.lift_bind fun first hfirst => ?_
    obtain ⟨leading, leadingOffset⟩ := first
    have hle := walkBackward_lt hfirst
    simp only [] at hle ⊢
    by_cases hsame : leading = trailing
    · rw [if_pos hsame, if_pos hsame]
      refine Tracks.edited_bind ?_
      exact Tracks.bind (Tracks.content _) fun _ => Tracks.pure _
    · rw [if_neg hsame, if_neg hsame]
      refine Tracks.lift_bind fun leadingParagraph _ => Tracks.lift_bind fun segment _ => ?_
      refine Tracks.edited_bind ?_
      simp only [if_pos (show leading < trailing by omega)]
      refine Tracks.look_bind fun s => Tracks.bind (Tracks.content _) fun _ => ?_
      refine Tracks.fire_bind ?_
      refine Tracks.bind (Tracks.content _) fun _ => Tracks.fire_bind ?_
      exact Tracks.bind (Tracks.content _) fun _ => Tracks.pure _
  · rw [if_neg hlength, if_neg hlength]
    exact Tracks.pure _

end ObservedContent

end JavaFx.Control
