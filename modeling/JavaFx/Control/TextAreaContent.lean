import JavaFx.Method
import JavaFx.Css.DataStream
import JavaFx.Lib.Lines

/-!
# `TextArea.TextAreaContent`

The content of a text area is a list of paragraphs and a count of characters in which every
paragraph but the last also counts for a line break. `int` values are integers; the builders
of the list are distinct objects, so writing to one of them is writing to its place in the
list. The events of the paragraph list do not reach the content and are left out; what
`insert` and `delete` return says whether the listeners of the content were told.
-/

namespace JavaFx.Control

open Css (JString)

/-! ## `TextInputControl.filterInput` -/

def isInvalidCharacter (c : BitVec 16) (newlineIllegal tabIllegal : Bool) : Bool :=
  if c = 0x7F#16 then true
  else if c = 0xA#16 then newlineIllegal
  else if c = 0x9#16 then tabIllegal
  else if c.toNat < 0x20 then true
  else false

def containsInvalidCharacters (txt : JString) (newlineIllegal tabIllegal : Bool) : Bool :=
  txt.any fun c => isInvalidCharacter c newlineIllegal tabIllegal

def filterInput (txt : JString) (stripNewlines stripTabs : Bool) : JString :=
  if containsInvalidCharacters txt stripNewlines stripTabs then
    txt.filter fun c => !isInvalidCharacter c stripNewlines stripTabs
  else txt

/-- The cheap check before the longer loop does not show. -/
theorem filterInput_eq_filter (txt : JString) (stripNewlines stripTabs : Bool) :
    filterInput txt stripNewlines stripTabs =
      txt.filter fun c => !isInvalidCharacter c stripNewlines stripTabs := by
  unfold filterInput
  split
  · rfl
  next h =>
      rw [eq_comm, List.filter_eq_self]
      intro c hc
      by_contra hbad
      refine h (List.any_eq_true.mpr ⟨c, hc, ?_⟩)
      simpa using hbad

/-! ## `StringBuilder` -/

/-- `charAt(index)` -/
def charAt (s : JString) (index : ℤ) : Except Exn (BitVec 16) :=
  if 0 ≤ index then
    match s[index.toNat]? with
    | some c => .ok c
    | none => .error .indexOutOfBounds
  else .error .indexOutOfBounds

/-- `insert(offset, str)` -/
def insertAt (s : JString) (offset : ℤ) (str : JString) : Except Exn JString :=
  if 0 ≤ offset ∧ offset ≤ s.length then
    .ok (s.take offset.toNat ++ (str ++ s.drop offset.toNat))
  else .error .indexOutOfBounds

/-- `delete(start, end)`, which cuts `end` down to the length. -/
def deleteRange (s : JString) (start end_ : ℤ) : Except Exn JString :=
  if 0 ≤ start ∧ start ≤ min end_ s.length then
    .ok (s.take start.toNat ++ s.drop (min end_ s.length).toNat)
  else .error .indexOutOfBounds

/-- `substring(start, end)` and `subSequence(start, end)` -/
def substring (s : JString) (start end_ : ℤ) : Except Exn JString :=
  if 0 ≤ start ∧ start ≤ end_ ∧ end_ ≤ s.length then
    .ok ((s.take end_.toNat).drop start.toNat)
  else .error .indexOutOfBounds

/-! ## The content -/

structure TextAreaContent where
  paragraphs : List JString
  contentLength : ℤ
deriving DecidableEq

namespace TextAreaContent

/-- The constructor: one empty paragraph. -/
def new : TextAreaContent := ⟨[[]], 0⟩

/-- The line break between two paragraphs. -/
def newline : BitVec 16 := 0xA#16

/-- The first loop of `get`: the paragraph that holds `offset`, walking forward. -/
def walkForward : List JString → ℕ → ℤ → ℕ × ℤ
  | [], paragraphIndex, offset => (paragraphIndex, offset)
  | paragraph :: rest, paragraphIndex, offset =>
    let count : ℤ := paragraph.length + 1
    if offset < count then (paragraphIndex, offset)
    else walkForward rest (paragraphIndex + 1) (offset - count)

/-- The second loop of `get`, with `todo` rounds left. -/
def readOn (s : TextAreaContent) :
    ℕ → ℤ → JString → ℕ → ℤ → JString → Except Exn JString
  | 0, _, _, _, _, textBuilder => .ok textBuilder
  | todo + 1, i, paragraph, paragraphIndex, offset, textBuilder =>
    if offset = paragraph.length ∧ i < s.contentLength then do
      let paragraph ← listGet s.paragraphs (paragraphIndex + 1)
      s.readOn todo (i + 1) paragraph (paragraphIndex + 1) 0 (textBuilder ++ [newline])
    else do
      let c ← charAt paragraph offset
      s.readOn todo (i + 1) paragraph paragraphIndex (offset + 1) (textBuilder ++ [c])

def get (s : TextAreaContent) (start end_ : ℤ) : Except Exn JString := do
  let length := end_ - start
  -- `new StringBuilder(length)`
  if length < 0 then throw .negativeArraySize
  let (paragraphIndex, offset) := walkForward s.paragraphs 0 start
  let paragraph ← listGet s.paragraphs paragraphIndex
  s.readOn length.toNat 0 paragraph paragraphIndex offset []

/-- The loop of `insert` that splits the text: the lines closed so far, and the open one. -/
def splitLine (lines : List JString × JString) (c : BitVec 16) : List JString × JString :=
  if c = newline then (lines.1 ++ [lines.2], [])
  else (lines.1, lines.2 ++ [c])

/-- The `do … while (index < offset)` loop: the paragraph that holds `index`, walking
backward from before `paragraphIndex`, which lies at `offset`. -/
def walkBackward (paragraphs : List JString) (index : ℤ) : ℕ → ℤ → Except Exn (ℕ × ℤ)
  | 0, _ => .error .arrayIndexOutOfBounds
  | paragraphIndex + 1, offset => do
    let paragraph ← listGet paragraphs paragraphIndex
    let offset := offset - (paragraph.length + 1)
    if index < offset then walkBackward paragraphs index paragraphIndex offset
    else return (paragraphIndex, offset)

/-- A method of the `i`-th builder that changes it. -/
def edit (i : ℕ) (f : JString → Except Exn JString) : Method TextAreaContent Unit := do
  let s ← Method.this
  let paragraph ← listGet s.paragraphs i
  let paragraph ← f paragraph
  set { s with paragraphs := s.paragraphs.set i paragraph }

def insert (index : ℤ) (text : Option JString) (notifyListeners : Bool) :
    Method TextAreaContent Bool := do
  let s ← Method.this
  if index < 0 ∨ s.contentLength < index then throw .indexOutOfBounds
  match text with
  | none => throw (.illegalArgument "")
  | some text =>
    let text := filterInput text false false
    let length := text.length
    if 0 < length then
      let (closed, line) := text.foldl splitLine ([], [])
      let (paragraphIndex, offset) ←
        walkBackward s.paragraphs index s.paragraphs.length (s.contentLength + 1)
      let start := index - offset
      match closed with
      | [] => edit paragraphIndex (insertAt · start line)
      | first :: middle =>
        let paragraph ← listGet s.paragraphs paragraphIndex
        let trailingText ← substring paragraph start paragraph.length
        edit paragraphIndex (deleteRange · start paragraph.length)
        edit paragraphIndex (insertAt · start first)
        -- `lines.subList(1, n)`: the last line has the trailing text by now
        modify fun s => { s with
          paragraphs := s.paragraphs.take (paragraphIndex + 1) ++
            (middle ++ [line ++ trailingText] ++ s.paragraphs.drop (paragraphIndex + 1)) }
      modify fun s => { s with contentLength := s.contentLength + length }
      return notifyListeners
    else return false

def delete (start end_ : ℤ) (notifyListeners : Bool) : Method TextAreaContent Bool := do
  let s ← Method.this
  if end_ < start then throw (.illegalArgument "")
  if start < 0 ∨ s.contentLength < end_ then throw .indexOutOfBounds
  let length := end_ - start
  if 0 < length then
    let (trailingParagraphIndex, trailingOffset) ←
      walkBackward s.paragraphs end_ s.paragraphs.length (s.contentLength + 1)
    let trailingParagraph ← listGet s.paragraphs trailingParagraphIndex
    -- back in front of the trailing paragraph
    let (leadingParagraphIndex, leadingOffset) ←
      walkBackward s.paragraphs start (trailingParagraphIndex + 1)
        (trailingOffset + (trailingParagraph.length + 1))
    if leadingParagraphIndex = trailingParagraphIndex then
      edit leadingParagraphIndex (deleteRange · (start - leadingOffset) (end_ - leadingOffset))
    else
      let leadingParagraph ← listGet s.paragraphs leadingParagraphIndex
      let leadingSegment ← substring leadingParagraph 0 (start - leadingOffset)
      let trailingSegmentLength := (start + length) - trailingOffset
      edit trailingParagraphIndex (deleteRange · 0 trailingSegmentLength)
      modify fun s => { s with
        paragraphs := s.paragraphs.take leadingParagraphIndex ++
          s.paragraphs.drop trailingParagraphIndex }
      -- the trailing paragraph is now at the former leading paragraph's index
      edit leadingParagraphIndex (insertAt · 0 leadingSegment)
    modify fun s => { s with contentLength := s.contentLength - length }
    return notifyListeners
  else return false

end TextAreaContent

end JavaFx.Control
