import JavaFx.Control.TextInputControl

/-!
# `TextInputControlBehavior`

What the behavior does to its control when an action is called, and what its undo manager
records of it. The skins pass `replaceText` and `deleteChar` on to the control. While an action
runs the behavior is editing, so its listener on the text leaves the undo manager alone, and
between two actions the text does not change; neither the flag nor the listener is kept here.
The clipboard is an argument of the action that reads it, the key event of the one that is typed.
-/

namespace JavaFx.Control

open Css (JString)

/-- The controls whose behaviors are text input behaviors. -/
inductive Kind where
  | textField
  | textArea
  | passwordField
deriving DecidableEq

/-- A `PasswordField` is a `TextField`. -/
def Kind.content : Kind → Content
  | .textField => textFieldContent
  | .textArea => textAreaContent
  | .passwordField => textFieldContent

/-! ## The undo manager -/

structure Change where
  start : ℤ
  oldText : Option JString
  newText : Option JString
  appendable : Bool
deriving DecidableEq

structure UndoManager where
  chain : List Change
  currentIndex : ℕ

namespace UndoManager

def new : UndoManager := ⟨[], 0⟩

/-- `change.appendable = false` -/
def close (change : Change) : Change := { change with appendable := false }

def truncate (u : UndoManager) : UndoManager :=
  let chain :=
    if 0 < u.currentIndex ∧ u.currentIndex < u.chain.length then
      u.chain.modify (u.currentIndex - 1) close
    else u.chain
  { u with chain := chain.take u.currentIndex }

/-- `chain.add(change); currentIndex++` -/
def push (change : Change) (u : UndoManager) : UndoManager :=
  ⟨u.chain ++ [change], u.currentIndex + 1⟩

/-- The last change grows by what is typed right behind it. -/
def extend (change : Change) (text : JString) (u : UndoManager) : UndoManager :=
  { u with chain := u.chain.set (u.currentIndex - 1) { change with newText := some text } }

def addChange (start : ℤ) (oldText newText : Option JString) (appendable : Bool) :
    Method UndoManager Unit := do
  modify truncate
  let u ← Method.this
  if appendable = true ∧ 0 < u.currentIndex ∧ (oldText.getD []).isEmpty = true then
    let change ← listGet u.chain (u.currentIndex - 1)
    if change.appendable then
      match change.newText with
      | none => throw .nullPointer
      | some text =>
        if start = change.start + text.length then
          -- a string and null concatenate to a string
          modify (extend change (text ++ newText.getD (Css.lit "null")))
        else modify (push ⟨start, oldText, newText, appendable⟩)
    else modify (push ⟨start, oldText, newText, appendable⟩)
  else modify (push ⟨start, oldText, newText, appendable⟩)

/-- The end of `undo` -/
def stepBack (u : UndoManager) : UndoManager :=
  let currentIndex := u.currentIndex - 1
  { chain := if 0 < currentIndex then u.chain.modify (currentIndex - 1) close else u.chain
    currentIndex := currentIndex }

/-- The end of `redo` -/
def stepOn (u : UndoManager) : UndoManager :=
  ⟨u.chain.modify u.currentIndex close, u.currentIndex + 1⟩

end UndoManager

/-! ## The clipboard operations of the controls -/

namespace TextInputControl

variable {C : Content}

def cut : Method (TextInputControl C) Unit := do
  -- `copy()`
  let _ ← getSelectedText
  let selection ← getSelection
  deleteText selection.start selection.end_

def paste (clipboard : Option JString) : Method (TextInputControl C) Unit := do
  match clipboard with
  | none => return
  | some text => replaceSelection (some text)

end TextInputControl

/-! ## The behavior -/

/-- What the behavior asks of a key event. -/
structure KeyEvent where
  character : JString
  controlDown : Bool
  altDown : Bool
  metaDown : Bool

/-- `PlatformUtil`, beside what the control asks the platform. -/
structure BehaviorPlatform extends TextPlatform where
  isMac : Bool
  isLinux : Bool

structure Behavior (k : Kind) where
  control : TextInputControl k.content
  undoManager : UndoManager

namespace Behavior

variable {k : Kind} {β : Type}

def onControl (m : Method (TextInputControl k.content) β) : Method (Behavior k) β where
  run s := ((m.run s.control).1, { s with control := (m.run s.control).2 })

def onUndoManager (m : Method UndoManager β) : Method (Behavior k) β where
  run s := ((m.run s.undoManager).1, { s with undoManager := (m.run s.undoManager).2 })

def replaceText (start end_ : ℤ) (txt : Option JString) : Method (Behavior k) Unit :=
  onControl (TextInputControl.replaceText start end_ txt)

def deleteChar (P : TextPlatform) (previous : Bool) : Method (Behavior k) Unit := do
  if previous then
    let _ ← onControl TextInputControl.deletePreviousChar
  else
    let _ ← onControl (TextInputControl.deleteNextChar P)

/-- `getText().substring(start, end)` -/
def textBetween (start end_ : ℤ) : Method (Behavior k) JString := do
  let text ← onControl TextInputControl.getText
  match text with
  | none => throw .nullPointer
  | some text => liftM (substring text start end_)

/-- `textProperty().getValueSafe()` -/
def getValueSafe : Method (Behavior k) JString := do
  let text ← onControl TextInputControl.getText
  return text.getD []

/-- The control keys `defaultKeyTyped` filters out, except control and alt on PC or alt on Mac. -/
def filtersOut (P : BehaviorPlatform) (event : KeyEvent) : Bool :=
  (event.controlDown || event.altDown || (P.isMac && event.metaDown)) &&
    !((event.controlDown || P.isMac) && event.altDown)

def defaultKeyTyped (P : BehaviorPlatform) (event : KeyEvent) : Method (Behavior k) Unit := do
  let s ← Method.this
  if s.control.writable then
    match event.character with
    | [] => return
    | first :: _ =>
      if filtersOut P event then return
      if 0x1F < first.toNat ∧ first ≠ 0x7F#16 ∧ event.metaDown = false then
        let selection ← onControl TextInputControl.getSelection
        let text ← getValueSafe
        let oldText ← liftM (substring text selection.start selection.end_)
        onUndoManager
          (UndoManager.addChange selection.start (some oldText) (some event.character) true)
        replaceText selection.start selection.end_ (some event.character)

def deletePreviousChar (P : TextPlatform) : Method (Behavior k) Unit := do
  let selection ← onControl TextInputControl.getSelection
  if 0 < selection.start ∨ selection.start < selection.end_ then
    let text ← onControl TextInputControl.getText
    match text with
    | none => throw .nullPointer
    | some text =>
      let start ←
        if selection.start = selection.end_ then liftM (offsetBefore text selection.start)
        else pure selection.start
      let oldText ← liftM (substring text start selection.end_)
      onUndoManager (UndoManager.addChange start (some oldText) none false)
  deleteChar P true

def deleteNextChar (P : TextPlatform) : Method (Behavior k) Unit := do
  let selection ← onControl TextInputControl.getSelection
  let length ← onControl TextInputControl.getLength
  if selection.start < length ∨ selection.start < selection.end_ then
    let text ← onControl TextInputControl.getText
    match text with
    | none => throw .nullPointer
    | some text =>
      let end_ ←
        if selection.start = selection.end_ then
          liftM (P.charIterator.following text selection.start)
        else pure selection.end_
      let oldText ← liftM (substring text selection.start end_)
      onUndoManager (UndoManager.addChange selection.start (some oldText) none false)
  deleteChar P false

/-- `PasswordFieldBehavior` stubs it out. -/
def deletePreviousWord (P : TextPlatform) : Method (Behavior k) Unit := do
  if k = .passwordField then return
  let s ← Method.this
  let end_ := s.control.caretPosition
  if 0 < end_ then
    onControl (TextInputControl.previousWord P false)
    let s ← Method.this
    let start := s.control.caretPosition
    let oldText ← textBetween start end_
    onUndoManager (UndoManager.addChange start (some oldText) none false)
    replaceText start end_ (some [])

def nextWord (P : BehaviorPlatform) : Method (Behavior k) Unit :=
  if P.isMac || P.isLinux then onControl (TextInputControl.endOfNextWord P.toTextPlatform false)
  else onControl (TextInputControl.nextWord P.toTextPlatform false)

/-- `PasswordFieldBehavior` stubs it out. -/
def deleteNextWord (P : BehaviorPlatform) : Method (Behavior k) Unit := do
  if k = .passwordField then return
  let s ← Method.this
  let start := s.control.caretPosition
  let length ← onControl TextInputControl.getLength
  if start < length then
    nextWord P
    let s ← Method.this
    let end_ := s.control.caretPosition
    let oldText ← textBetween start end_
    onUndoManager (UndoManager.addChange start (some oldText) none false)
    replaceText start end_ (some [])

def deleteSelection (P : TextPlatform) : Method (Behavior k) Unit := do
  let selection ← onControl TextInputControl.getSelection
  if selection.start < selection.end_ then
    let oldText ← textBetween selection.start selection.end_
    onUndoManager (UndoManager.addChange selection.start (some oldText) none false)
    deleteChar P false

/-- `textInputControl.cut()`, which a `PasswordField` does nothing for. -/
def cutControl : Method (Behavior k) Unit := do
  if k = .passwordField then return
  onControl TextInputControl.cut

def cut : Method (Behavior k) Unit := do
  let selection ← onControl TextInputControl.getSelection
  if selection.start < selection.end_ then
    let oldText ← textBetween selection.start selection.end_
    onUndoManager (UndoManager.addChange selection.start (some oldText) none false)
  cutControl

def paste (clipboard : Option JString) : Method (Behavior k) Unit := do
  let selection ← onControl TextInputControl.getSelection
  let text ← getValueSafe
  let deleted ← liftM (substring text selection.start selection.end_)
  let tail : ℤ := text.length - selection.end_
  onControl (TextInputControl.paste clipboard)
  let text ← getValueSafe
  let newText ← liftM (substring text selection.start (text.length - tail))
  onUndoManager (UndoManager.addChange selection.start (some deleted) (some newText) false)

def undo : Method (Behavior k) Unit := do
  let s ← Method.this
  if 0 < s.undoManager.currentIndex then
    let change ← listGet s.undoManager.chain (s.undoManager.currentIndex - 1)
    replaceText change.start (change.start + (change.newText.getD []).length)
      (some (change.oldText.getD []))
    onUndoManager (modify UndoManager.stepBack)

def redo : Method (Behavior k) Unit := do
  let s ← Method.this
  if s.undoManager.currentIndex < s.undoManager.chain.length then
    let change ← listGet s.undoManager.chain s.undoManager.currentIndex
    replaceText change.start (change.start + (change.oldText.getD []).length)
      (some (change.newText.getD []))
    onUndoManager (modify UndoManager.stepOn)

end Behavior

/-- The actions that edit the text. -/
inductive Action where
  | inputCharacter (event : KeyEvent)
  | cut
  | paste (clipboard : Option JString)
  | deletePreviousChar
  | deleteNextChar
  | deletePreviousWord
  | deleteNextWord
  | deleteSelection
  | undo
  | redo

namespace Behavior

variable {k : Kind}

def perform (P : BehaviorPlatform) : Action → Method (Behavior k) Unit
  | .inputCharacter event => defaultKeyTyped P event
  | .cut => cut
  | .paste clipboard => paste clipboard
  | .deletePreviousChar => deletePreviousChar P.toTextPlatform
  | .deleteNextChar => deleteNextChar P.toTextPlatform
  | .deletePreviousWord => deletePreviousWord P.toTextPlatform
  | .deleteNextWord => deleteNextWord P
  | .deleteSelection => deleteSelection P.toTextPlatform
  | .undo => undo
  | .redo => redo

/-- An action that edits means nothing to a control that is not editable. -/
def callAction (P : BehaviorPlatform) (action : Action) : Method (Behavior k) Unit := do
  let s ← Method.this
  if s.control.editable then perform P action

/-- The behavior of a control. -/
def new (control : TextInputControl k.content) : Behavior k := ⟨control, .new⟩

end Behavior

/-- An action of the behavior, or an operation on the caret and the selection of its control. -/
inductive BehaviorStep where
  | action (action : Action)
  | move (op : TextOp)

namespace Behavior

variable {k : Kind}

def step (P : BehaviorPlatform) : BehaviorStep → Method (Behavior k) Unit
  | .action action => callAction P action
  | .move op => onControl (op.perform P.toTextPlatform)

/-- The behavior after a sequence of steps, each of which may have thrown. -/
def after (P : BehaviorPlatform) (s : Behavior k) (steps : List BehaviorStep) : Behavior k :=
  steps.foldl (fun s next => ((step P next).run s).2) s

end Behavior

end JavaFx.Control
