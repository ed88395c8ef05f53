import JavaFx.Control.ParagraphText

/-!
# `TextInputControl`

The text lives in a `Content`. The length and the selected text are lazy bindings: a value and
a flag, dropped when the text or the selection reports a change and computed again when asked
for. The text property is not bound, and nobody but the control listens.
-/

namespace JavaFx.Control

open Css (JString)

/-! ## The content -/

/-- An implementation of `TextInputControl.Content`, with the string it stands for and what it
strips from the text it is given. `insert` and `delete` return whether the listeners of the
content were told, which they are when asked to and when something changed. -/
structure Content where
  State : Type
  new : State
  get : State → Except Exn JString
  insert : ℤ → Option JString → Bool → Method State Bool
  delete : ℤ → ℤ → Bool → Method State Bool
  length : State → ℤ
  text : State → JString
  strip : JString → JString
  WellFormed : State → Prop
  strip_nil : strip [] = []
  new_wellFormed : WellFormed new
  new_text : text new = []
  get_eq : ∀ {s}, WellFormed s → get s = .ok (text s)
  length_eq : ∀ {s}, WellFormed s → length s = (text s).length
  insert_eq : ∀ {s}, WellFormed s → ∀ {index : ℤ}, 0 ≤ index → index ≤ (text s).length →
    ∀ str notifyListeners, ∃ s', (insert index (some str) notifyListeners).run s =
        (.ok (notifyListeners && !(strip str).isEmpty), s') ∧ WellFormed s' ∧
      text s' = (text s).take index.toNat ++ (strip str ++ (text s).drop index.toNat)
  delete_eq : ∀ {s}, WellFormed s → ∀ {start end_ : ℤ}, 0 ≤ start → start ≤ end_ →
    end_ ≤ (text s).length → ∀ notifyListeners, ∃ s', (delete start end_ notifyListeners).run s =
        (.ok (notifyListeners && decide (start < end_)), s') ∧ WellFormed s' ∧
      text s' = (text s).take start.toNat ++ (text s).drop end_.toNat

/-- `TextArea.TextAreaContent` -/
def textAreaContent : Content where
  State := TextAreaContent
  new := TextAreaContent.new
  get s := s.get 0 s.contentLength
  insert := TextAreaContent.insert
  delete := TextAreaContent.delete
  length s := s.contentLength
  text s := s.text
  strip t := filterInput t false false
  WellFormed s := s.WellFormed
  strip_nil := rfl
  new_wellFormed := TextAreaContent.WellFormed.new
  new_text := rfl
  get_eq hs := by
    have hlength := hs.length
    rw [TextAreaContent.get_eq hs (le_refl 0) (by omega) (le_refl _), hlength]
    simp
  length_eq hs := hs.length
  insert_eq hs := by
    intro index hpos hle str notifyListeners
    obtain ⟨s', hrun, hs'⟩ :=
      TextAreaContent.insert_run hs hpos (by rw [hs.length]; exact hle) str notifyListeners
    exact ⟨s', hrun, hs'.wellFormed, hs'.text⟩
  delete_eq hs := by
    intro start end_ hpos hle hend notifyListeners
    obtain ⟨s', hrun, hs'⟩ :=
      TextAreaContent.delete_run hs hpos hle (by rw [hs.length]; exact hend) notifyListeners
    exact ⟨s', hrun, hs'.wellFormed, hs'.text⟩

namespace TextFieldContent

/-- `TextField.TextFieldContent.insert` -/
def insert (index : ℤ) (text : Option JString) (notifyListeners : Bool) : Method JString Bool := do
  match text with
  | none => throw .nullPointer
  | some text =>
    let text := filterInput text true true
    if text.isEmpty then return false
    let characters ← Method.this
    let characters ← insertAt characters index text
    set characters
    return notifyListeners

/-- `TextField.TextFieldContent.delete` -/
def delete (start end_ : ℤ) (notifyListeners : Bool) : Method JString Bool := do
  if start < end_ then
    let characters ← Method.this
    let characters ← deleteRange characters start end_
    set characters
    return notifyListeners
  else return false

theorem insert_eq {s : JString} (_ : True) {index : ℤ} (hpos : 0 ≤ index)
    (hle : index ≤ s.length) (str : JString) (notifyListeners : Bool) :
    ∃ s', (insert index (some str) notifyListeners).run s =
        (.ok (notifyListeners && !(filterInput str true true).isEmpty), s') ∧ True ∧
      s' = s.take index.toNat ++ (filterInput str true true ++ s.drop index.toNat) := by
  rw [insert]
  by_cases hempty : (filterInput str true true).isEmpty
  · have hnil : filterInput str true true = [] := List.isEmpty_iff.mp hempty
    exact ⟨s, by simp [hempty], trivial, by simp [hnil]⟩
  · refine ⟨s.take index.toNat ++ (filterInput str true true ++ s.drop index.toNat), ?_,
      trivial, rfl⟩
    simp only [hempty, Bool.false_eq_true, if_false, Method.run_this_bind, insertAt]
    rw [if_pos ⟨hpos, hle⟩]
    simp

theorem delete_eq {s : JString} (_ : True) {start end_ : ℤ} (hpos : 0 ≤ start)
    (hle : start ≤ end_) (hend : end_ ≤ s.length) (notifyListeners : Bool) :
    ∃ s', (delete start end_ notifyListeners).run s =
        (.ok (notifyListeners && decide (start < end_)), s') ∧ True ∧
      s' = s.take start.toNat ++ s.drop end_.toNat := by
  rw [delete]
  by_cases hlt : start < end_
  · refine ⟨s.take start.toNat ++ s.drop end_.toNat, ?_, trivial, rfl⟩
    have hmin : min end_ s.length = end_ := by omega
    rw [if_pos hlt, Method.run_this_bind, deleteRange, hmin, if_pos ⟨hpos, hle⟩]
    simp [hlt]
  · have heq : end_ = start := by omega
    exact ⟨s, by simp [hlt], trivial, by simp [heq]⟩

end TextFieldContent

/-- `TextField.TextFieldContent` -/
def textFieldContent : Content where
  State := JString
  new := []
  get s := .ok s
  insert := TextFieldContent.insert
  delete := TextFieldContent.delete
  length s := s.length
  text s := s
  strip t := filterInput t true true
  WellFormed _ := True
  strip_nil := rfl
  new_wellFormed := trivial
  new_text := rfl
  get_eq _ := rfl
  length_eq _ := rfl
  insert_eq := TextFieldContent.insert_eq
  delete_eq := TextFieldContent.delete_eq

/-! ## What the platform decides -/

/-- A `BreakIterator`: the boundaries it finds in a text, in ascending order. They lie in the
text, and the end of a text is one. -/
structure BreakIterator where
  boundaries : JString → List ℕ
  sorted : ∀ t, (boundaries t).Pairwise (· < ·)
  le_length : ∀ t b, b ∈ boundaries t → b ≤ t.length
  length_mem : ∀ t, t ≠ [] → t.length ∈ boundaries t

namespace BreakIterator

/-- `DONE` -/
def done : ℤ := -1

/-- The boundaries behind an offset: what `following` and then `next` return, before `DONE`. -/
def boundariesAfter (it : BreakIterator) (t : JString) (offset : ℤ) : List ℕ :=
  (it.boundaries t).filter fun b : ℕ => offset < (b : ℤ)

/-- The boundaries in front of an offset, the nearest first: what repeated `preceding` returns,
before `DONE`. -/
def boundariesBefore (it : BreakIterator) (t : JString) (offset : ℤ) : List ℕ :=
  ((it.boundaries t).filter fun b : ℕ => (b : ℤ) < offset).reverse

/-- The next of a list of boundaries. -/
def nextOf : List ℕ → ℤ
  | [] => done
  | b :: _ => b

/-- The offset of `following` and `preceding` has to lie in the text. -/
def checkOffset (t : JString) (offset : ℤ) : Except Exn Unit :=
  if offset < 0 ∨ (t.length : ℤ) < offset then .error (.illegalArgument "offset out of bounds")
  else .ok ()

def following (it : BreakIterator) (t : JString) (offset : ℤ) : Except Exn ℤ := do
  checkOffset t offset
  return nextOf (it.boundariesAfter t offset)

def preceding (it : BreakIterator) (t : JString) (offset : ℤ) : Except Exn ℤ := do
  checkOffset t offset
  return nextOf (it.boundariesBefore t offset)

end BreakIterator

/-- The character and word iterators and `Character.isLetterOrDigit`. -/
structure TextPlatform where
  charIterator : BreakIterator
  wordIterator : BreakIterator
  isLetterOrDigit : BitVec 16 → Bool

/-- `Character.isHighSurrogate` -/
def isHighSurrogate (c : BitVec 16) : Bool := 0xd800 ≤ c.toNat && c.toNat ≤ 0xdbff

/-- `Character.isLowSurrogate` -/
def isLowSurrogate (c : BitVec 16) : Bool := 0xdc00 ≤ c.toNat && c.toNat ≤ 0xdfff

/-- `Character.offsetByCodePoints(text, index, -1)` -/
def offsetBefore (text : JString) (index : ℤ) : Except Exn ℤ := do
  if index < 1 ∨ (text.length : ℤ) < index then throw .indexOutOfBounds
  let c ← charAt text (index - 1)
  if isLowSurrogate c = true ∧ 2 ≤ index then
    let c' ← charAt text (index - 2)
    return if isHighSurrogate c' then index - 2 else index - 1
  else return index - 1

/-- `Utils.clamp` -/
def clamp (min value max : ℤ) : ℤ :=
  if value < min then min else if max < value then max else value

/-! ## The control -/

/-- `IndexRange`, whose constructor rejects an end before the start. -/
structure IndexRange where
  start : ℤ
  end_ : ℤ
  le : start ≤ end_
deriving DecidableEq

/-- `IndexRange.normalize` -/
def IndexRange.normalize (v₁ v₂ : ℤ) : IndexRange := ⟨min v₁ v₂, max v₁ v₂, by omega⟩

/-- A value with the flag that says whether it has been read since it last changed. -/
structure Observed (β : Type) where
  valid : Bool
  value : β

structure TextInputControl (C : Content) where
  content : C.State
  textIsNull : Bool
  length : Observed ℤ
  selectedText : Observed JString
  selection : Observed IndexRange
  anchor : ℤ
  caretPosition : ℤ
  doNotAdjustCaret : Bool
  editable : Bool
  disabled : Bool

namespace TextInputControl

variable {C : Content}

/-- The constructor: the bindings have not been computed yet. -/
def new (C : Content) (editable disabled : Bool) : TextInputControl C where
  content := C.new
  textIsNull := false
  length := ⟨false, 0⟩
  selectedText := ⟨false, []⟩
  selection := ⟨true, .normalize 0 0⟩
  anchor := 0
  caretPosition := 0
  doNotAdjustCaret := false
  editable := editable
  disabled := disabled

def getText : Method (TextInputControl C) (Option JString) := do
  let s ← Method.this
  if s.textIsNull then return none
  let txt ← C.get s.content
  return some txt

/-- `length.get()`, with the `computeValue` of its binding. -/
def getLength : Method (TextInputControl C) ℤ := do
  let s ← Method.this
  if s.length.valid then return s.length.value
  let txt ← getText
  let length : ℤ := match txt with
    | none => 0
    | some txt => txt.length
  modify fun s => { s with length := ⟨true, length⟩ }
  return length

def getSelection : Method (TextInputControl C) IndexRange := do
  modify fun s => { s with selection := ⟨true, s.selection.value⟩ }
  let s ← Method.this
  return s.selection.value

/-- `selectedText.get()`, with the `computeValue` of its binding. -/
def getSelectedText : Method (TextInputControl C) JString := do
  let s ← Method.this
  if s.selectedText.valid then return s.selectedText.value
  let txt ← getText
  let sel ← getSelection
  let value ← match txt with
    | none => pure []
    | some txt =>
      let length : ℤ := txt.length
      let end_ := if sel.start + length < sel.end_ then length else sel.end_
      if length - 1 < sel.start then liftM (substring txt 0 0)
      else liftM (substring txt sel.start end_)
  modify fun s => { s with selectedText := ⟨true, value⟩ }
  return value

/-- `TextProperty.markInvalid`: both bindings observe the text. -/
def markInvalid (s : TextInputControl C) : TextInputControl C :=
  { s with
    length := ⟨false, s.length.value⟩
    selectedText := ⟨false, s.selectedText.value⟩ }

/-- The listener the constructor adds to the content. -/
def contentInvalidated (s : TextInputControl C) : TextInputControl C :=
  { s with textIsNull := if 0 < C.length s.content then false else s.textIsNull }.markInvalid

/-- A call of the content, and its listener if the content fires. -/
def onContent (m : Method C.State Bool) : Method (TextInputControl C) Unit where
  run s :=
    match m.run s.content with
    | (.ok fired, content) =>
      let s := { s with content := content }
      (.ok (), if fired then s.contentInvalidated else s)
    | (.error e, content) => (.error e, { s with content := content })

/-- `selection.set`: the binding of the selected text hears of it if the selection was read
since it last changed. -/
def setSelection (range : IndexRange) (s : TextInputControl C) : TextInputControl C :=
  { s with
    selection := ⟨false, range⟩
    selectedText := ⟨if s.selection.valid then false else s.selectedText.valid,
      s.selectedText.value⟩ }

def selectRange (anchor caretPosition : ℤ) : Method (TextInputControl C) Unit := do
  let length ← getLength
  modify fun s => { s with caretPosition := clamp 0 caretPosition length }
  let length ← getLength
  modify fun s => { s with anchor := clamp 0 anchor length }
  modify fun s => s.setSelection (.normalize s.anchor s.caretPosition)

/-- `TextProperty.doSet` -/
def doSet (value : Option JString) : Method (TextInputControl C) Unit := do
  modify fun s => { s with textIsNull := value.isNone }
  let value := value.getD []
  let s ← Method.this
  onContent (C.delete 0 (C.length s.content) value.isEmpty)
  onContent (C.insert 0 (some value) true)
  let s ← Method.this
  if !s.doNotAdjustCaret then selectRange 0 0

/-- `TextProperty.set` of a property that is not bound -/
def setText (value : Option JString) : Method (TextInputControl C) Unit := do
  doSet value
  modify markInvalid

def replaceText (start end_ : ℤ) (text : Option JString) : Method (TextInputControl C) Unit := do
  if end_ < start then throw (.illegalArgument "")
  match text with
  | none => throw .nullPointer
  | some text =>
    let length ← getLength
    if start < 0 ∨ length < end_ then throw .indexOutOfBounds
    onContent (C.delete start end_ text.isEmpty)
    onContent (C.insert start (some text) true)
    selectRange (start + text.length) (start + text.length)

/-- `replaceText(IndexRange, String)` -/
def replaceRange (range : Option IndexRange) (text : Option JString) :
    Method (TextInputControl C) Unit := do
  match range with
  | none => throw .nullPointer
  | some range => replaceText range.start (range.start + (range.end_ - range.start)) text

def insertText (index : ℤ) (text : Option JString) : Method (TextInputControl C) Unit :=
  replaceText index index text

def appendText (text : Option JString) : Method (TextInputControl C) Unit := do
  let length ← getLength
  insertText length text

def deleteText (start end_ : ℤ) : Method (TextInputControl C) Unit :=
  replaceText start end_ (some [])

/-- `deleteText(IndexRange)` -/
def deleteRange (range : Option IndexRange) : Method (TextInputControl C) Unit :=
  replaceRange range (some [])

def deselect : Method (TextInputControl C) Unit := do
  let s ← Method.this
  selectRange s.caretPosition s.caretPosition

def setDoNotAdjustCaret (flag : Bool) (s : TextInputControl C) : TextInputControl C :=
  { s with doNotAdjustCaret := flag }

def replaceSelection (replacement : Option JString) : Method (TextInputControl C) Unit := do
  match replacement with
  | none => throw .nullPointer
  | some replacement =>
    let s ← Method.this
    let start := min s.caretPosition s.anchor
    let end_ := max s.caretPosition s.anchor
    let length ← getLength
    if length = 0 then
      modify (setDoNotAdjustCaret true)
      setText (some replacement)
      let length ← getLength
      selectRange length length
      modify (setDoNotAdjustCaret false)
    else
      deselect
      modify (setDoNotAdjustCaret true)
      let oldLength ← getLength
      let end_ := min end_ oldLength
      if start < end_ then onContent (C.delete start end_ replacement.isEmpty)
      let oldLength := if start < end_ then oldLength - (end_ - start) else oldLength
      onContent (C.insert start (some replacement) true)
      let length ← getLength
      let p := start + length - oldLength
      selectRange p p
      modify (setDoNotAdjustCaret false)

def clear : Method (TextInputControl C) Unit := do
  deselect
  setText (some [])

/-- `isEditable() && !isDisabled()` -/
def writable (s : TextInputControl C) : Bool := s.editable && !s.disabled

def deletePreviousChar : Method (TextInputControl C) Bool := do
  let s ← Method.this
  if s.writable then
    let text ← getText
    if s.caretPosition ≠ s.anchor then
      replaceSelection (some [])
      return true
    else if 0 < s.caretPosition then
      match text with
      | none => throw .nullPointer
      | some text =>
        let p ← offsetBefore text s.caretPosition
        modify (setDoNotAdjustCaret true)
        deleteText p s.caretPosition
        selectRange p p
        modify (setDoNotAdjustCaret false)
        return true
    else return false
  else return false

def deleteNextChar (P : TextPlatform) : Method (TextInputControl C) Bool := do
  let s ← Method.this
  if s.writable then
    let text ← getText
    if s.caretPosition ≠ s.anchor then
      replaceSelection (some [])
      let newDot := min s.caretPosition s.anchor
      selectRange newDot newDot
      return true
    else
      match text with
      | none => throw .nullPointer
      | some text =>
        if 0 < text.length ∧ s.caretPosition < text.length then
          let p ← P.charIterator.following text s.caretPosition
          modify (setDoNotAdjustCaret true)
          deleteText s.caretPosition p
          modify (setDoNotAdjustCaret false)
          return true
        else return false
  else return false

/-! ## Moving the caret -/

def selectAll : Method (TextInputControl C) Unit := do
  let length ← getLength
  selectRange 0 length

def home : Method (TextInputControl C) Unit := selectRange 0 0

def end_ : Method (TextInputControl C) Unit := do
  let textLength ← getLength
  if 0 < textLength then selectRange textLength textLength

def selectHome : Method (TextInputControl C) Unit := do
  let s ← Method.this
  selectRange s.anchor 0

def selectEnd : Method (TextInputControl C) Unit := do
  let textLength ← getLength
  let s ← Method.this
  if 0 < textLength then selectRange s.anchor textLength

def positionCaret (pos : ℤ) : Method (TextInputControl C) Unit := do
  let length ← getLength
  selectRange (clamp 0 pos length) (clamp 0 pos length)

def selectPositionCaret (pos : ℤ) : Method (TextInputControl C) Unit := do
  let s ← Method.this
  let length ← getLength
  selectRange s.anchor (clamp 0 pos length)

def extendSelection (pos : ℤ) : Method (TextInputControl C) Unit := do
  let length ← getLength
  let s ← Method.this
  let p := clamp 0 pos length
  let start := min s.caretPosition s.anchor
  let end_ := max s.caretPosition s.anchor
  if p < start then selectRange end_ p else selectRange start p

/-- `setText(getText())` of an iterator, which a null text does not survive. -/
def iteratorText : Method (TextInputControl C) JString := do
  let text ← getText
  match text with
  | none => throw .nullPointer
  | some text => return text

def selectBackward (P : TextPlatform) : Method (TextInputControl C) Unit := do
  let s ← Method.this
  let length ← getLength
  if 0 < s.caretPosition ∧ 0 < length then
    let text ← iteratorText
    let pos ← P.charIterator.preceding text s.caretPosition
    selectRange s.anchor pos

def selectForward (P : TextPlatform) : Method (TextInputControl C) Unit := do
  let textLength ← getLength
  let s ← Method.this
  if 0 < textLength ∧ s.caretPosition < textLength then
    let text ← iteratorText
    let pos ← P.charIterator.following text s.caretPosition
    selectRange s.anchor pos

def forward (P : TextPlatform) : Method (TextInputControl C) Unit := do
  let textLength ← getLength
  let s ← Method.this
  if s.caretPosition ≠ s.anchor then
    let pos := max s.caretPosition s.anchor
    selectRange pos pos
  else if s.caretPosition < textLength ∧ 0 < textLength then
    let text ← iteratorText
    let pos ← P.charIterator.following text s.caretPosition
    selectRange pos pos
  deselect

def backward (P : TextPlatform) : Method (TextInputControl C) Unit := do
  let textLength ← getLength
  let s ← Method.this
  if s.caretPosition ≠ s.anchor then
    let pos := min s.caretPosition s.anchor
    selectRange pos pos
  else if 0 < s.caretPosition ∧ 0 < textLength then
    let text ← iteratorText
    let pos ← P.charIterator.preceding text s.caretPosition
    selectRange pos pos
  deselect

/-! ## Moving over words -/

/-- `Character.isLetterOrDigit(text.charAt(Utils.clamp(0, pos, textLength-1)))` -/
def letterAt (P : TextPlatform) (text : JString) (textLength pos : ℤ) : Except Exn Bool := do
  let c ← charAt text (clamp 0 pos (textLength - 1))
  return P.isLetterOrDigit c

/-- The loop of `previousWord`, over the boundaries that are left. -/
def skipBackward (P : TextPlatform) (text : JString) (textLength : ℤ) : List ℕ → Except Exn ℤ
  | [] => .ok BreakIterator.done
  | pos :: rest => do
    if ← letterAt P text textLength pos then return pos
    skipBackward P text textLength rest

def previousWord (P : TextPlatform) (select : Bool) : Method (TextInputControl C) Unit := do
  let textLength ← getLength
  let text ← getText
  if textLength ≤ 0 then return
  match text with
  | none => throw .nullPointer
  | some text =>
    let s ← Method.this
    let from_ := clamp 0 s.caretPosition textLength
    BreakIterator.checkOffset text from_
    let pos ← skipBackward P text textLength (P.wordIterator.boundariesBefore text from_)
    selectRange (if select then s.anchor else pos) pos

/-- The `for` loop of `nextWord` and `endOfNextWord`: the first of `todo` positions from `p`
whose character is of the wanted kind. -/
def findFrom (P : TextPlatform) (text : JString) (textLength : ℤ) (wanted : Bool) :
    ℕ → ℤ → Except Exn (Option ℤ)
  | 0, _ => .ok none
  | todo + 1, p => do
    if (← letterAt P text textLength p) = wanted then return some p
    findFrom P text textLength wanted todo (p + 1)

/-- The `while` loop of `nextWord` and `endOfNextWord`, with the boundaries `next()` still has. -/
def skipForward (P : TextPlatform) (text : JString) (textLength : ℤ) (wanted : Bool) :
    ℤ → List ℕ → Except Exn (Option ℤ)
  | _, [] => .ok none
  | last, current :: rest => do
    match ← findFrom P text textLength wanted (current + 1 - last).toNat last with
    | some p => return some p
    | none => skipForward P text textLength wanted current rest

/-- `nextWord` looks for a letter or digit from one before the end at the latest,
`endOfNextWord` for anything else from the end at the latest. -/
def moveForward (P : TextPlatform) (wanted : Bool) (latest : ℤ → ℤ) (select : Bool) :
    Method (TextInputControl C) Unit := do
  let textLength ← getLength
  let text ← getText
  if textLength ≤ 0 then return
  match text with
  | none => throw .nullPointer
  | some text =>
    let s ← Method.this
    let from_ := clamp 0 s.caretPosition (latest textLength)
    BreakIterator.checkOffset text from_
    let found := P.wordIterator.boundariesAfter text from_
    match ← skipForward P text textLength wanted (BreakIterator.nextOf found) found.tail with
    | some p => if select then selectRange s.anchor p else selectRange p p
    | none => if select then selectRange s.anchor textLength else end_

def nextWord (P : TextPlatform) (select : Bool) : Method (TextInputControl C) Unit :=
  moveForward P true (· - 1) select

def endOfNextWord (P : TextPlatform) (select : Bool) : Method (TextInputControl C) Unit :=
  moveForward P false id select

/-! ## The public operations -/

end TextInputControl

inductive TextOp where
  | setText (value : Option JString)
  | replaceText (start end_ : ℤ) (text : Option JString)
  | replaceRange (range : Option IndexRange) (text : Option JString)
  | insertText (index : ℤ) (text : Option JString)
  | appendText (text : Option JString)
  | deleteText (start end_ : ℤ)
  | deleteRange (range : Option IndexRange)
  | replaceSelection (replacement : Option JString)
  | clear
  | deletePreviousChar
  | deleteNextChar
  | selectRange (anchor caretPosition : ℤ)
  | extendSelection (pos : ℤ)
  | positionCaret (pos : ℤ)
  | selectPositionCaret (pos : ℤ)
  | deselect
  | selectAll
  | home
  | caretEnd
  | selectHome
  | selectEnd
  | forward
  | backward
  | selectForward
  | selectBackward
  | previousWord (select : Bool)
  | nextWord (select : Bool)
  | endOfNextWord (select : Bool)
  | getLength
  | getSelection
  | getSelectedText

/-- The operation, without what it answers. -/
def TextOp.perform {C : Content} (P : TextPlatform) : TextOp → Method (TextInputControl C) Unit
  | .setText value => TextInputControl.setText value
  | .replaceText start end_ text => TextInputControl.replaceText start end_ text
  | .replaceRange range text => TextInputControl.replaceRange range text
  | .insertText index text => TextInputControl.insertText index text
  | .appendText text => TextInputControl.appendText text
  | .deleteText start end_ => TextInputControl.deleteText start end_
  | .deleteRange range => TextInputControl.deleteRange range
  | .replaceSelection replacement => TextInputControl.replaceSelection replacement
  | .clear => TextInputControl.clear
  | .deletePreviousChar => TextInputControl.deletePreviousChar >>= fun _ => pure ()
  | .deleteNextChar => TextInputControl.deleteNextChar P >>= fun _ => pure ()
  | .selectRange anchor caretPosition => TextInputControl.selectRange anchor caretPosition
  | .extendSelection pos => TextInputControl.extendSelection pos
  | .positionCaret pos => TextInputControl.positionCaret pos
  | .selectPositionCaret pos => TextInputControl.selectPositionCaret pos
  | .deselect => TextInputControl.deselect
  | .selectAll => TextInputControl.selectAll
  | .home => TextInputControl.home
  | .caretEnd => TextInputControl.end_
  | .selectHome => TextInputControl.selectHome
  | .selectEnd => TextInputControl.selectEnd
  | .forward => TextInputControl.forward P
  | .backward => TextInputControl.backward P
  | .selectForward => TextInputControl.selectForward P
  | .selectBackward => TextInputControl.selectBackward P
  | .previousWord select => TextInputControl.previousWord P select
  | .nextWord select => TextInputControl.nextWord P select
  | .endOfNextWord select => TextInputControl.endOfNextWord P select
  | .getLength => TextInputControl.getLength >>= fun _ => pure ()
  | .getSelection => TextInputControl.getSelection >>= fun _ => pure ()
  | .getSelectedText => TextInputControl.getSelectedText >>= fun _ => pure ()

/-- The control after a sequence of operations, each of which may have thrown. -/
def TextInputControl.afterOps {C : Content} (P : TextPlatform) (s : TextInputControl C)
    (ops : List TextOp) : TextInputControl C :=
  ops.foldl (fun s op => ((op.perform P).run s).2) s

end JavaFx.Control
