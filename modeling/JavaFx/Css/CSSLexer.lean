import JavaFx.Json.JSONScanner
import JavaFx.Lib.Rounds

/-!
# `CSSLexer`

The lexer is an automaton for numbers, names and functions, and a `switch` on the next character
for everything else. The field `ch` and what the reader has yet are one list here: `ch` is its
head, and `-1` when it is empty. `lastc` is always what `ch` was, as every character that is read
goes to `ch`.

A loop of the source is a loop with a bound: it is `none` when it makes more rounds than there are
characters left and one more.
-/

namespace JavaFx.Css

open JavaFx.Json (JString unit lit)

/-- The constants for the types of tokens. -/
inductive TokenType where
  | eof | invalid | skip
  | string | ident | function | number
  | cm | ems | exs | inches | mm | pc | pt | px | percentage | deg | grad | rad | turn
  | greater | lbrace | rbrace | semi | colon | solidus | star | lparen | rparen | comma | hash | dot
  | importantSym | ws | nl | fontFace | url
deriving DecidableEq

structure Token where
  type : TokenType
  text : Option JString
  line : ℤ := -1
  offset : ℤ := -1
deriving DecidableEq

namespace Token

/-- `EOF_TOKEN` -/
def eofToken : Token := { type := .eof, text := some (lit "EOF") }

/-- `SKIP_TOKEN` -/
def skipToken : Token := { type := .skip, text := some (lit "SKIP") }

def equals (t other : Token) : Bool := t.type = other.type && t.text = other.text

end Token

/-! ## Recognizers -/

abbrev Recognizer := UInt16 → Bool

/-- `new SimpleRecognizer(...)` -/
def simple (chars : String) : Recognizer := fun c => chars.toList.any fun d => c == unit d

/-- A letter in both cases. -/
def letter (lower upper : Char) : Recognizer := fun c => c == unit lower || c == unit upper

def alpha : Recognizer := fun c =>
  (unit 'a' ≤ c && c ≤ unit 'z') || (unit 'A' ≤ c && c ≤ unit 'Z')

def wsChars : Recognizer := fun c =>
  c == unit ' ' || c == unit '\t' || c == unit '\r' || c == unit '\n' || c == unit '\x0c'

def nlChars : Recognizer := fun c => c == unit '\r' || c == unit '\n'

def digit : Recognizer := simple "0123456789"

/-- `recognize(ch)`; no recognizer recognizes `-1`. -/
def recognizes (r : Recognizer) (ch : Option UInt16) : Bool := ch.any r

/-! ## The automaton -/

inductive LexerState where
  | initState | hashState | minusState | plusState | dotState
  | nmStartState | nmCharState | hashNameCharState | lparenState
  | leadingDigitsState | decimalMarkState | trailingDigitsState | unitsState
deriving DecidableEq

namespace LexerState

def recognizers : LexerState → List Recognizer
  | initState => []
  | hashState => [simple "#"]
  | minusState => [simple "-"]
  | plusState => [simple "+"]
  | dotState => [simple "."]
  | nmStartState => [simple "_", alpha]
  | nmCharState => [simple "_", alpha, digit, simple "-"]
  | hashNameCharState => [simple "_", alpha, digit, simple "-"]
  | lparenState => [simple "("]
  | leadingDigitsState => [digit]
  | decimalMarkState => [simple "."]
  | trailingDigitsState => [digit]
  | unitsState => []

/-- The field `type`. -/
def type : LexerState → TokenType
  | dotState => .dot
  | nmStartState => .ident
  | nmCharState => .ident
  | hashNameCharState => .hash
  | lparenState => .function
  | leadingDigitsState => .number
  | trailingDigitsState => .number
  | initState | hashState | minusState | plusState | decimalMarkState | unitsState => .invalid

/-- `stateMap` -/
def reachable : LexerState → List LexerState
  | initState =>
    [hashState, minusState, nmStartState, plusState, minusState, leadingDigitsState, dotState]
  | minusState => [nmStartState, leadingDigitsState, decimalMarkState]
  | hashState => [hashNameCharState]
  | hashNameCharState => [hashNameCharState]
  | nmStartState => [nmCharState]
  | nmCharState => [nmCharState, lparenState]
  | plusState => [leadingDigitsState, decimalMarkState]
  | leadingDigitsState => [leadingDigitsState, decimalMarkState, unitsState]
  | dotState => [trailingDigitsState]
  | decimalMarkState => [trailingDigitsState]
  | trailingDigitsState => [trailingDigitsState, unitsState]
  | unitsState => [unitsState]
  | lparenState => []

end LexerState

/-- The field `units` of `UnitsState`. -/
def units : List (List Recognizer) := [
  [letter 'c' 'C', letter 'm' 'M'],
  [letter 'd' 'D', letter 'e' 'E', letter 'g' 'G'],
  [letter 'e' 'E', letter 'm' 'M'],
  [letter 'e' 'E', letter 'x' 'X'],
  [letter 'g' 'G', letter 'r' 'R', letter 'a' 'A', letter 'd' 'D'],
  [letter 'i' 'I', letter 'n' 'N'],
  [letter 'm' 'M', letter 'm' 'M'],
  [letter 'p' 'P', letter 'c' 'C'],
  [letter 'p' 'P', letter 't' 'T'],
  [letter 'p' 'P', letter 'x' 'X'],
  [letter 'r' 'R', letter 'a' 'A', letter 'd' 'D'],
  [letter 't' 'T', letter 'u' 'U', letter 'r' 'R', letter 'n' 'N'],
  [simple "%"]]

/-- `important_sym` of `scanImportant` -/
def importantLetters : List Recognizer := [letter 'i' 'I', letter 'm' 'M', letter 'p' 'P',
  letter 'o' 'O', letter 'r' 'R', letter 't' 'T', letter 'a' 'A', letter 'n' 'N', letter 't' 'T']

/-- The fields of the lexer and of its `UnitsState`. -/
structure CSSLexer where
  /-- `ch` and what the reader has yet -/
  input : JString
  pos : ℤ := 0
  offset : ℤ := 0
  line : ℤ := 1
  text : JString := []
  currentState : LexerState := .initState
  token : Option Token := none
  charNotConsumed : Bool := false
  unitsMask : BitVec 32 := 0x1FFF
  index : ℤ := -1

namespace CSSLexer

/-! ## Characters -/

def ch (s : CSSLexer) : Option UInt16 := s.input.head?

/-- `ch = readChar()` -/
def readChar (s : CSSLexer) : CSSLexer :=
  let rest := s.input.tail
  if s.ch = some (unit '\n') ∨ (s.ch = some (unit '\r') ∧ rest.head? ≠ some (unit '\n')) then
    { s with input := rest, pos := 1, offset := 0, line := s.line + 1 }
  else { s with input := rest, pos := s.pos + 1 }

/-- `setReader(reader)`, with `-1` as the character before the first. -/
def setReader (reader : JString) (s : CSSLexer) : CSSLexer :=
  { s with input := reader, pos := 1, offset := 0, line := 1, currentState := .initState,
           token := none }

/-- `(char)ch` -/
def char (s : CSSLexer) : UInt16 := s.ch.getD 0xFFFF

/-- `text.append((char)ch)` -/
def append (s : CSSLexer) : CSSLexer := { s with text := s.text ++ [s.char] }

/-- A loop of rounds that read. -/
def loop {ρ : Type} (round : CSSLexer → Option (CSSLexer ⊕ ρ)) (s : CSSLexer) : Option ρ :=
  Rounds.iterate round (s.input.length + 1) s

/-- `while (r.recognize(ch)) ch = readChar()` -/
def skipWhile (r : Recognizer) : CSSLexer → Option CSSLexer :=
  loop fun s => some (if recognizes r s.ch then .inl s.readChar else .inr s)

/-! ## Units -/

/-- The loop of `UnitsState.accepts` over the units, at the `n`-th one. -/
def filterUnit (ch : Option UInt16) (index : ℤ) (unitsMask : BitVec 32)
    (unit : List Recognizer × ℕ) : BitVec 32 :=
  let (letters, n) := unit
  let u := 1#32 <<< n
  if unitsMask &&& u = 0 then unitsMask
  else
    match letters[index.toNat]? with
    | none => unitsMask &&& ~~~u
    | some r => if !recognizes r ch then unitsMask &&& ~~~u else unitsMask

def acceptsUnit (s : CSSLexer) : Bool × CSSLexer :=
  if !recognizes alpha s.ch && s.ch ≠ some (unit '%') then (false, s)
  else if s.unitsMask = 0 then (true, s)
  else
    let s := { s with index := s.index + 1 }
    (true, { s with unitsMask := units.zipIdx.foldl (filterUnit s.ch s.index) s.unitsMask })

def unitType (unitsMask : BitVec 32) : TokenType :=
  if unitsMask = 0x1 then .cm
  else if unitsMask = 0x2 then .deg
  else if unitsMask = 0x4 then .ems
  else if unitsMask = 0x8 then .exs
  else if unitsMask = 0x10 then .grad
  else if unitsMask = 0x20 then .inches
  else if unitsMask = 0x40 then .mm
  else if unitsMask = 0x80 then .pc
  else if unitsMask = 0x100 then .pt
  else if unitsMask = 0x200 then .px
  else if unitsMask = 0x400 then .rad
  else if unitsMask = 0x800 then .turn
  else if unitsMask = 0x1000 then .percentage
  else .invalid

/-! ## URLs -/

/-- What follows a backslash in a URL. -/
def escapedChar (s : CSSLexer) : Option CSSLexer :=
  let s := s.readChar
  if recognizes nlChars s.ch then s.skipWhile nlChars
  else if s.ch ≠ none then some s.append.readChar
  else some s

/-- A round of the loop over a quoted URL. -/
def quotedRound (endQuote : Option UInt16) (s : CSSLexer) : Option (CSSLexer ⊕ CSSLexer) :=
  if s.ch = endQuote then some (.inr s)
  else if s.ch = none then some (.inr s)
  else if recognizes nlChars s.ch then some (.inr s)
  else if s.ch = some (unit '\\') then s.escapedChar.map .inl
  else some (.inl s.append.readChar)

/-- A round of the loop over a URL without quotes; it exits with the type, or without one when the
URL is bad. -/
def unquotedRound (s : CSSLexer) : Option (CSSLexer ⊕ (Option TokenType × CSSLexer)) := do
  let s ← s.skipWhile wsChars
  if s.ch = some (unit ')') then return .inr (some .url, s.readChar)
  else if s.ch = none then return .inr (some .url, s)
  else if s.ch = some (unit '\\') then s.escapedChar.map .inl
  else if s.ch = some (unit '\'') ∨ s.ch = some (unit '"') ∨ s.ch = some (unit '(') then
    return .inr (none, s)
  else return .inl s.append.readChar

/-- The rest of a bad URL. -/
def badUrlRound (s : CSSLexer) : Option (CSSLexer ⊕ (TokenType × CSSLexer)) :=
  let lastCh := s.ch
  if s.ch = none then some (.inr (.eof, s))
  else if s.ch = some (unit ')') ∧ lastCh ≠ some (unit '\\') then
    some (.inr (.invalid, s.readChar))
  else some (.inl s.readChar)

def consumeQuoted (s : CSSLexer) : Option (TokenType × CSSLexer) := do
  let endQuote := s.ch
  let s ← s.readChar.loop (quotedRound endQuote)
  if s.ch = endQuote then
    let s ← s.readChar.skipWhile wsChars
    if s.ch = some (unit ')') then return (.url, s.readChar)
    else if s.ch = none then return (.url, s)
    else s.loop badUrlRound
  else s.loop badUrlRound

def consumeUnquoted (s : CSSLexer) : Option (TokenType × CSSLexer) := do
  let (type, s) ← s.append.readChar.loop unquotedRound
  match type with
  | some type => return (type, s)
  | none => s.loop badUrlRound

def consumeUrl (s : CSSLexer) : Option (TokenType × CSSLexer) := do
  let s ← { s with text := [] }.skipWhile wsChars
  if s.ch = none then return (.eof, s)
  else if s.ch = some (unit '\'') ∨ s.ch = some (unit '"') then s.consumeQuoted
  else s.consumeUnquoted

/-! ## States of the automaton -/

def accepts (state : LexerState) (s : CSSLexer) : Bool × CSSLexer :=
  match state with
  | .initState => (true, s)
  | .unitsState => s.acceptsUnit
  | state => (state.recognizers.any fun r => recognizes r s.ch, s)

/-- The first of some states that accepts the character. -/
def firstAccepting : List LexerState → CSSLexer → Option LexerState × CSSLexer
  | [], s => (none, s)
  | state :: states, s =>
    match s.accepts state with
    | (true, s) => (some state, s)
    | (false, s) => firstAccepting states s

def getType (s : CSSLexer) : Option (TokenType × CSSLexer) :=
  match s.currentState with
  | .lparenState => if (lit "url(").isPrefixOf s.text then s.consumeUrl else some (.function, s)
  | .unitsState => some (unitType s.unitsMask, { s with unitsMask := 0x1fff, index := -1 })
  | state => some (state.type, s)

/-! ## Comments and `!important` -/

def commentRound (s : CSSLexer) : Option (CSSLexer ⊕ CSSLexer) :=
  if s.ch = none then some (.inr s)
  else if s.ch = some (unit '*') then
    let s := s.readChar
    if s.ch = some (unit '/') then some (.inr { s with offset := s.pos }.readChar)
    else some (.inl s)
  else some (.inl s.readChar)

def skipComment : CSSLexer → Option CSSLexer := loop commentRound

/-- A round of `skipEOL`, whose local `lastc` stays what it was at first. -/
def eolRound (lastc : Option UInt16) (s : CSSLexer) : Option (CSSLexer ⊕ CSSLexer) :=
  if s.ch = none then some (.inr s)
  else
    let s := s.readChar
    if s.ch = some (unit '\n') ∨ (lastc = some (unit '\r') ∧ s.ch ≠ some (unit '\n')) then
      some (.inr s)
    else some (.inl s)

def skipEOL (s : CSSLexer) : Option CSSLexer := s.loop (eolRound s.ch)

/-- `while (accepted && current < important_sym.length)`, for the letters from `current` on. -/
def acceptLetters : List Recognizer → CSSLexer → Bool × CSSLexer
  | [], s => (true, s)
  | r :: rs, s =>
    if recognizes r s.ch then acceptLetters rs s.append.readChar
    else (false, s.append.readChar)

/-- `while (ch != ';' && ch != '}' && ch != EOF) ch = readChar()` -/
def skipDeclaration : CSSLexer → Option CSSLexer :=
  loop fun s => some (if s.ch ≠ some (unit ';') ∧ s.ch ≠ some (unit '}') ∧ s.ch ≠ none then
    .inl s.readChar else .inr s)

/-- The `default` of `scanImportant`. -/
def scanLetters (s : CSSLexer) : Option (Token × CSSLexer) := do
  let (accepted, s) := acceptLetters importantLetters s
  if accepted then
    let temp := s.offset
    let s := { s with offset := s.pos - 1 }
    return ({ type := .importantSym, text := some (lit "!important"), line := s.line,
              offset := temp }, s)
  else
    let s ← s.skipDeclaration
    if s.ch ≠ none then
      let temp := s.offset
      let s := { s with offset := s.pos - 1 }
      return ({ type := .skip, text := some s.text, line := s.line, offset := temp }, s)
    else return (Token.eofToken, s)

/-- A round of the loop of `scanImportant`. -/
def importantRound (s : CSSLexer) : Option (CSSLexer ⊕ (Token × CSSLexer)) :=
  if s.ch = none then
    some (.inr (Token.eofToken, { s with token := some Token.eofToken }))
  else if s.ch = some (unit '/') then
    let s := s.readChar
    if s.ch = some (unit '*') then s.skipComment.map .inl
    else if s.ch = some (unit '/') then s.skipEOL.map .inl
    else
      let s := { s with text := s.text ++ [unit '/', s.char] }
      let temp := s.offset
      let s := { s with offset := s.pos }
      some (.inr ({ type := .invalid, text := some s.text, line := s.line, offset := temp }, s))
  else if recognizes wsChars s.ch then some (.inl s.readChar)
  else s.scanLetters.map .inr

def scanImportant (s : CSSLexer) : Option (Token × CSSLexer) :=
  s.append.readChar.loop importantRound

/-! ## Strings and at-rules -/

/-- A round of `while ((ch = readChar()) != -1)` over a string. -/
def stringRound (endq : Option UInt16) (s : CSSLexer) : Option (CSSLexer ⊕ CSSLexer) :=
  let s := s.readChar
  if s.ch = none then some (.inr s)
  else
    let s := s.append
    if s.ch = endq then some (.inr s) else some (.inl s)

/-- `do … while (!WS_CHARS.recognize(ch) && ch != EOF)`, with what is appended to `keywordSB`. -/
def keywordRound (s : CSSLexer × JString) :
    Option ((CSSLexer × JString) ⊕ (CSSLexer × JString)) :=
  let (s, keywordSB) := s
  let s := s.readChar
  let keywordSB := keywordSB ++ [s.char]
  some (if !recognizes wsChars s.ch && s.ch ≠ none then .inl (s, keywordSB) else .inr (s, keywordSB))

def readKeyword (s : CSSLexer) : Option (CSSLexer × JString) :=
  Rounds.iterate keywordRound (s.input.length + 1) (s, [])

/-- `do ch = readChar() while (ch != ';' && ch != EOF)` -/
def skipRule : CSSLexer → Option CSSLexer :=
  loop fun s =>
    let s := s.readChar
    some (if s.ch ≠ some (unit ';') ∧ s.ch ≠ none then .inl s else .inr s)

/-- The lower case that `equalsIgnoreCase` compares; no letter outside ASCII has one of those of
`font-face` as another case. -/
def lower (c : UInt16) : UInt16 := if unit 'A' ≤ c ∧ c ≤ unit 'Z' then c + 32 else c

/-- The case of `@`. -/
def atRule (s : CSSLexer) : Option CSSLexer := do
  let (s, keywordSB) ← s.readKeyword
  let keyword := keywordSB.dropLast
  if keyword.map lower = lit "font-face" then
    return { s with token := some { type := .fontFace, text := some (lit "@font-face"),
                                    line := s.line, offset := s.offset }, offset := s.pos }
  else
    let s ← s.skipRule
    if s.ch = some (unit ';') then
      let s := s.readChar
      return { s with token := some Token.skipToken, offset := s.pos }
    else return s

/-! ## Tokens -/

/-- `token = new Token(type, text, line, offset); offset = pos` -/
def setToken (type : TokenType) (text : Option JString) (s : CSSLexer) : CSSLexer :=
  { s with token := some { type := type, text := text, line := s.line, offset := s.offset },
           offset := s.pos }

/-- `token = new Token(NL, text, line, offset)` -/
def setNewline (text : String) (s : CSSLexer) : CSSLexer :=
  { s with token := some { type := .nl, text := some (lit text), line := s.line,
                           offset := s.offset } }

/-- `token = Token.EOF_TOKEN; return token` -/
def returnEof (s : CSSLexer) : Token × CSSLexer :=
  (Token.eofToken, { s with token := some Token.eofToken })

/-- What follows the `switch`. -/
def returnToken (s : CSSLexer) : Token × CSSLexer :=
  match s.token with
  | none =>
    let tok : Token := { type := .invalid, text := none, line := s.line, offset := s.offset }
    let s := { s with offset := s.pos }
    let s := if s.ch ≠ none ∧ s.charNotConsumed = false then s.readChar else s
    (tok, { s with token := none })
  | some tok =>
    if tok.type = .eof then (tok, s)
    else
      let s := if s.ch ≠ none ∧ s.charNotConsumed = false then s.readChar else s
      (tok, { s with token := none })

/-- The characters that are tokens of their own. -/
def singleType (c : UInt16) : Option TokenType :=
  if c = unit '>' then some .greater
  else if c = unit '{' then some .lbrace
  else if c = unit '}' then some .rbrace
  else if c = unit ';' then some .semi
  else if c = unit ':' then some .colon
  else if c = unit '*' then some .star
  else if c = unit '(' then some .lparen
  else if c = unit ')' then some .rparen
  else if c = unit ',' then some .comma
  else if c = unit '.' then some .dot
  else if c = unit ' ' ∨ c = unit '\t' ∨ c = unit '\x0c' then some .ws
  else none

/-- The case of a quote. -/
def stringToken (s : CSSLexer) : Option CSSLexer := do
  let endq := s.ch
  let s ← s.append.loop (stringRound endq)
  if s.ch ≠ none then return s.setToken .string (some s.text)
  else return s.setToken .invalid (some s.text)

/-- The case of `/`. -/
def solidus (s : CSSLexer) : Option (CSSLexer ⊕ (Token × CSSLexer)) := do
  let s := s.readChar
  if s.ch = some (unit '*') then
    let s ← s.skipComment
    if s.ch ≠ none then return .inl s else return .inr s.returnEof
  else if s.ch = some (unit '/') then
    let s ← s.skipEOL
    if s.ch ≠ none then return .inl s else return .inr s.returnEof
  else
    return .inr { s.setToken .solidus (some (lit "/")) with charNotConsumed := true }.returnToken

/-- The case of `\r`. -/
def carriageReturn (s : CSSLexer) : Token × CSSLexer :=
  let tok : Token := { type := .nl, text := some (lit "\\r"), line := s.line, offset := s.offset }
  let s := s.readChar
  if s.ch = some (unit '\n') then (s.setNewline "\\r\\n").returnToken
  else (tok, { s with token := if s.ch = none then some Token.eofToken else none })

/-- The `switch` on a character that no state accepts, with what follows it. -/
def switchChar (s : CSSLexer) : Option (CSSLexer ⊕ (Token × CSSLexer)) :=
  match s.ch with
  | none => some (.inr s.returnEof)
  | some c =>
    if c = unit '"' ∨ c = unit '\'' then s.stringToken.map fun s => .inr s.returnToken
    else if c = unit '/' then s.solidus
    else if c = unit '\r' then some (.inr s.carriageReturn)
    else if c = unit '\n' then some (.inr (s.setNewline "\\n").returnToken)
    else if c = unit '!' then s.scanImportant.map .inr
    else if c = unit '@' then s.atRule.map fun s => .inr s.returnToken
    else
      match singleType c with
      | some type => some (.inr (s.setToken type (some [c])).returnToken)
      | none => some (.inr (s.setToken .invalid (some [c])).returnToken)

/-- A round of the loop of `getToken`. -/
def tokenRound (s : CSSLexer) : Option (CSSLexer ⊕ (Token × CSSLexer)) := do
  let s := { s with charNotConsumed := false }
  let (newState, s) := firstAccepting s.currentState.reachable s
  match newState with
  | some newState => return .inl { s with currentState := newState }.append.readChar
  | none =>
    let (type, s) ← s.getType
    if type ≠ .invalid ∨ s.currentState ≠ .initState then
      let tok : Token := { type := type, text := some s.text, line := s.line, offset := s.offset }
      return .inr (tok, { s with offset := s.pos - 1 })
    else s.switchChar

def getToken : CSSLexer → Option (Token × CSSLexer) := loop tokenRound

/-- A round of the loop of `nextToken`. -/
def skipRound (s : CSSLexer) : Option (CSSLexer ⊕ (Token × CSSLexer)) := do
  let (tok, s) ← s.getToken
  if Token.skipToken.equals tok then return .inl s else return .inr (tok, s)

/-- `nextToken()` -/
def nextToken (s : CSSLexer) : Option (Token × CSSLexer) := do
  let (tok, s) ← match s.token with
    | some tok => some (tok, if tok.type ≠ .eof then { s with token := none } else s)
    | none => s.loop skipRound
  return (tok, { s with text := [], currentState := .initState })

end CSSLexer

end JavaFx.Css
