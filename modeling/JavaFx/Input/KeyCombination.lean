import JavaFx.Input.KeyCode
import JavaFx.JavaText
import JavaFx.Web.Cookie

/-!
# Key combinations

`getName` writes the modifiers and the main key with `+` between them, and `valueOf` reads such a
text back. The cases of characters are the platform's.
-/

namespace JavaFx.Input

open Css (JString lit)
open Web (trim unit)

/-! ## Modifiers -/

inductive ModifierValue where
  | DOWN | UP | ANY
deriving DecidableEq

structure Modifier where
  key : KeyCode
  value : ModifierValue
deriving DecidableEq

/-- The fields of `KeyCombination`. -/
structure Modifiers where
  shift : ModifierValue
  control : ModifierValue
  alt : ModifierValue
  meta_ : ModifierValue
  shortcut : ModifierValue
deriving DecidableEq

/-- A combination, by the class it is an object of; `equals` compares the class and all fields. -/
inductive KeyCombination where
  | code (code : KeyCode) (modifiers : Modifiers)
  | character (character : JString) (modifiers : Modifiers)
deriving DecidableEq

def Modifier.toString (m : Modifier) : JString :=
  (if m.value = .ANY then lit "Ignore " else []) ++ m.key.getName

def POSSIBLE_MODIFIERS : List Modifier :=
  [⟨.SHIFT, .DOWN⟩, ⟨.SHIFT, .ANY⟩,
    ⟨.CONTROL, .DOWN⟩, ⟨.CONTROL, .ANY⟩,
    ⟨.ALT, .DOWN⟩, ⟨.ALT, .ANY⟩,
    ⟨.META, .DOWN⟩, ⟨.META, .ANY⟩,
    ⟨.SHORTCUT, .DOWN⟩, ⟨.SHORTCUT, .ANY⟩]

/-- What the methods throw: an `IllegalArgumentException` with its message, or the exception of
`substring`. -/
inductive KeyExn where
  | illegalArgument (message : JString)
  | stringIndexOutOfBounds
deriving DecidableEq

def cannotParse {α : Type} (value : JString) : Except KeyExn α :=
  .error (.illegalArgument (lit "Cannot parse key binding " ++ value))

/-- The loop of `getModifierValue`. -/
def modifierValueLoop (modifierKey : KeyCode) :
    List Modifier → ModifierValue → Except KeyExn ModifierValue
  | [], modifierValue => .ok modifierValue
  | modifier :: modifiers, modifierValue =>
      if modifier.key = modifierKey then
        if modifierValue ≠ .UP then
          .error (.illegalArgument (if modifier.value ≠ modifierValue
            then lit "Conflicting modifiers specified!"
            else lit "Duplicate modifiers specified!"))
        else modifierValueLoop modifierKey modifiers modifier.value
      else modifierValueLoop modifierKey modifiers modifierValue

def getModifierValue (modifiers : List Modifier) (modifierKey : KeyCode) :
    Except KeyExn ModifierValue :=
  modifierValueLoop modifierKey modifiers .UP

/-- The constructor of `KeyCombination` with a list of modifiers. -/
def Modifiers.ofList (modifiers : List Modifier) : Except KeyExn Modifiers := do
  let shift ← getModifierValue modifiers .SHIFT
  let control ← getModifierValue modifiers .CONTROL
  let alt ← getModifierValue modifiers .ALT
  let meta_ ← getModifierValue modifiers .META
  let shortcut ← getModifierValue modifiers .SHORTCUT
  return ⟨shift, control, alt, meta_, shortcut⟩

def getModifier (name : JString) : Option Modifier :=
  POSSIBLE_MODIFIERS.find? fun modifier => modifier.toString = name

/-! ## Names -/

def addModifierIntoString (sb : JString) (modifierKey : KeyCode) (modifierValue : ModifierValue) :
    JString :=
  if modifierValue = .UP then sb
  else
    let sb := if sb ≠ [] then sb ++ [unit '+'] else sb
    let sb := if modifierValue = .ANY then sb ++ lit "Ignore " else sb
    sb ++ modifierKey.getName

/-- `KeyCombination.getName` -/
def Modifiers.getName (m : Modifiers) : JString :=
  let sb := addModifierIntoString [] .SHIFT m.shift
  let sb := addModifierIntoString sb .CONTROL m.control
  let sb := addModifierIntoString sb .ALT m.alt
  let sb := addModifierIntoString sb .META m.meta_
  addModifierIntoString sb .SHORTCUT m.shortcut

/-- `character.replace("'", "\\'")` -/
def escapeQuotes (character : JString) : JString :=
  character.flatMap fun c => if c = unit '\'' then [unit '\\', unit '\''] else [c]

/-- `token.replace("\\'", "'")` -/
def unescapeQuotes : JString → JString
  | [] => []
  | [c] => [c]
  | c :: d :: rest =>
      if c = unit '\\' ∧ d = unit '\'' then unit '\'' :: unescapeQuotes rest
      else c :: unescapeQuotes (d :: rest)

def KeyCombination.getName : KeyCombination → JString
  | .code keyCode m =>
      let sb := m.getName
      let sb := if sb ≠ [] then sb ++ [unit '+'] else sb
      sb ++ keyCode.getName
  | .character keyCharacter m =>
      let sb := m.getName
      let sb := if sb ≠ [] then sb ++ [unit '+'] else sb
      sb ++ unit '\'' :: escapeQuotes keyCharacter ++ [unit '\'']

/-! ## Splitting a name -/

/-- The spaces that `splitName` and the expression `\s` know. -/
def isSpace (c : BitVec 16) : Bool :=
  c = unit ' ' || c = unit '\t' || c = unit '\n' || c = 0x0c || c = unit '\r' || c = 0x0b

inductive ScanState where
  | BASIC | WHITESPACE | SEPARATOR | QUOTED
deriving DecidableEq

/-- The variables of the loop of `splitName`. -/
structure Scan where
  state : ScanState
  tokenStart : ℕ
  tokenEnd : ℤ
  tokens : List JString
deriving DecidableEq

/-- The body of the loop of `splitName` for the character `c` at `i`. -/
def scanStep (name chars : JString) (i : ℕ) (c : BitVec 16) (s : Scan) : Except KeyExn Scan :=
  match s.state with
  | .BASIC =>
      if isSpace c then .ok { s with tokenEnd := i, state := .WHITESPACE }
      else if c = unit '+' then .ok { s with tokenEnd := i, state := .SEPARATOR }
      else if c = unit '\'' then
        if i = 0 ∨ chars[i - 1]? ≠ some (unit '\\') then .ok { s with state := .QUOTED }
        else .ok s
      else .ok s
  | .WHITESPACE =>
      if isSpace c then .ok s
      else if c = unit '+' then .ok { s with state := .SEPARATOR }
      else if c = unit '\'' then .ok { s with state := .QUOTED, tokenEnd := -1 }
      else .ok { s with state := .BASIC, tokenEnd := -1 }
  | .SEPARATOR =>
      if isSpace c then .ok s
      else if c = unit '+' then cannotParse name
      else if s.tokenEnd ≤ s.tokenStart then cannotParse name
      else
        .ok
          { state := if c = unit '\'' then .QUOTED else .BASIC
            tokenStart := i
            tokenEnd := -1
            tokens := s.tokens ++
              [(chars.drop s.tokenStart).take (s.tokenEnd - s.tokenStart).toNat] }
  | .QUOTED =>
      if c = unit '\'' ∧ chars[i - 1]? ≠ some (unit '\\') then .ok { s with state := .BASIC }
      else .ok s

/-- The loop of `splitName` from `i` on. -/
def scan (name chars : JString) : ℕ → JString → Scan → Except KeyExn Scan
  | _, [], s => .ok s
  | i, c :: rest, s => do
      let s ← scanStep name chars i c s
      scan name chars (i + 1) rest s

def splitName (name : JString) : Except KeyExn (List JString) := do
  let chars := trim name
  let s ← scan name chars 0 chars ⟨.BASIC, 0, -1, []⟩
  match s.state with
  | .BASIC | .WHITESPACE => .ok (s.tokens ++ [chars.drop s.tokenStart])
  | .SEPARATOR | .QUOTED => cannotParse name

/-! ## Reading a name -/

/-- The methods of `String` for the root locale. -/
structure Cases where
  toUpperCase : JString → JString
  toLowerCase : JString → JString

/-- `token.split("\\s+")` -/
def splitSpaces (token : JString) : List JString := splitRuns isSpace token

/-- The loop of `normalizeToken`. -/
def normalizeWords (u : Cases) : List JString → JString → Except KeyExn JString
  | [], sb => .ok sb
  | word :: words, sb =>
      match word with
      | [] => .error .stringIndexOutOfBounds
      | c :: rest =>
          let sb := if sb ≠ [] then sb ++ [unit ' '] else sb
          normalizeWords u words (sb ++ u.toUpperCase [c] ++ u.toLowerCase rest)

def normalizeToken (u : Cases) (token : JString) : Except KeyExn JString :=
  normalizeWords u (splitSpaces token) []

/-- The variables of the loop of `valueOf`. -/
structure Reading where
  modifiers : List Modifier
  keyCode : Option KeyCode
  keyCharacter : Option JString
deriving DecidableEq

/-- The body of the loop of `valueOf`. -/
def readToken (u : Cases) (value token : JString) (r : Reading) : Except KeyExn Reading :=
  if 2 < token.length ∧ token.head? = some (unit '\'') ∧ token.getLast? = some (unit '\'') then
    if r.keyCode ≠ none ∨ r.keyCharacter ≠ none then cannotParse value
    else .ok { r with keyCharacter := some (unescapeQuotes token.tail.dropLast) }
  else do
    let normalizedToken ← normalizeToken u token
    match getModifier normalizedToken with
    | some modifier => .ok { r with modifiers := r.modifiers ++ [modifier] }
    | none =>
        if r.keyCode ≠ none ∨ r.keyCharacter ≠ none then cannotParse value
        else
          match KeyCode.getKeyCode normalizedToken with
          | some code => .ok { r with keyCode := some code }
          | none => .ok { r with keyCharacter := some token }

/-- The loop of `valueOf`. -/
def readTokens (u : Cases) (value : JString) : List JString → Reading → Except KeyExn Reading
  | [], r => .ok r
  | token :: tokens, r => do
      let r ← readToken u value token r
      readTokens u value tokens r

/-- `validateKeyCode` -/
def validateKeyCode (keyCode : KeyCode) : Except KeyExn Unit :=
  if getModifier keyCode.getName ≠ none then
    .error (.illegalArgument (lit "Key code must not match modifier key!"))
  else if keyCode = .UNDEFINED then
    .error (.illegalArgument (lit "Key code must differ from undefined value!"))
  else .ok ()

/-- `KeyCombination.valueOf` -/
def valueOf (u : Cases) (value : JString) : Except KeyExn KeyCombination := do
  let tokens ← splitName value
  let r ← readTokens u value tokens ⟨[], none, none⟩
  match r.keyCode, r.keyCharacter with
  | none, none => cannotParse value
  | some keyCode, _ => do
      let modifiers ← Modifiers.ofList r.modifiers
      validateKeyCode keyCode
      return .code keyCode modifiers
  | none, some keyCharacter => do
      let modifiers ← Modifiers.ofList r.modifiers
      return .character keyCharacter modifiers

end JavaFx.Input
