import Mathlib.Data.List.Basic

/-!
# Key paths

Texts are lists of UTF-16 units. A reader is the list of the units it still delivers; `read` takes
the head, `unread` puts units back, and the end of the text is the empty list. What the parser asks
of the standard library is collected in `Lang`.
-/

namespace JavaFx.Fxml

/-- The unit of a character of the source. -/
def unit (c : Char) : UInt16 := c.val.toUInt16

/-- The units of a text of the source. -/
def units (s : String) : List UInt16 := s.toList.map unit

/-- The exceptions of the parser, with the text of those the source raises itself. -/
inductive ParseExn where
  | illegalArgument (msg : String)
  | numberFormat
  | noSuchElement
  | unsupportedOperation
deriving DecidableEq, Repr

/-- The methods of `java.lang.Character` and `java.lang.Double` the parser calls. -/
structure Lang (R : Type) where
  isWhitespace : UInt16 → Bool
  isJavaIdentifierStart : UInt16 → Bool
  isJavaIdentifierPart : UInt16 → Bool
  /-- `Character.digit`, where -1 is `none` -/
  digit : UInt16 → ℕ → Option ℕ
  parseDouble : List UInt16 → Option R
  /-- `Double.toString` -/
  doubleToString : R → List UInt16

/-- `Character.isISOControl` -/
def isISOControl (c : UInt16) : Bool := c ≤ 0x9F && (0x7F ≤ c || c ≤ 0x1F)

variable {R : Type} (lang : Lang R)

/-- `Character.isDigit` -/
def Lang.isDigit (c : UInt16) : Bool := (lang.digit c 10).isSome

/-- A key outside brackets: the unit ends it at `.`, at `[` and after the last identifier part. -/
def Lang.isKeyPart (c : UInt16) : Bool :=
  c != unit '.' && c != unit '[' && lang.isJavaIdentifierPart c

/-- The loop over a key in brackets, from `c` on: the key and what follows it. -/
def readBracketed (quote : UInt16) : Bool → List UInt16 → Except ParseExn (List UInt16 × List UInt16)
  | quoted, [] =>
      if quoted then .error (.illegalArgument "Unterminated quoted identifier.")
      else .error (.illegalArgument "Unterminated bracketed identifier.")
  | quoted, c :: rest =>
      if isISOControl c then .error (.illegalArgument "Illegal identifier character.")
      else if !quoted && !lang.isDigit c then
        .error (.illegalArgument "Illegal character in index value.")
      else
        match rest with
        | [] => readBracketed quote quoted []
        | d :: rest' =>
          if quoted && d == quote then
            -- the closing quote is skipped
            match rest' with
            | [] => readBracketed quote false []
            | e :: rest'' =>
              if e == unit ']' then .ok ([c], rest'')
              else do
                let key ← readBracketed quote false (e :: rest'')
                .ok (c :: key.1, key.2)
          else if d == unit ']' then
            if quoted then .error (.illegalArgument "Unterminated quoted identifier.")
            else .ok ([c], rest')
          else do
            let key ← readBracketed quote quoted (d :: rest')
            .ok (c :: key.1, key.2)

/-- A key after its opening bracket. -/
def readBracketKey (reader : List UInt16) : Except ParseExn (List UInt16 × List UInt16) :=
  match reader with
  | c :: rest =>
      if c == unit '"' || c == unit '\'' then readBracketed lang c true rest
      else readBracketed lang 0 false reader
  | [] => readBracketed lang 0 false []

/-- A key and what follows it. -/
def readKey : List UInt16 → Except ParseExn (List UInt16 × List UInt16)
  | [] => .ok ([], [])
  | c :: rest =>
      if c == unit '[' then readBracketKey lang rest
      else .ok ((c :: rest).span lang.isKeyPart)

/-- What follows the dot after a key, if there is one. -/
def skipDot : List UInt16 → Except ParseExn (List UInt16)
  | [] => .ok []
  | c :: rest =>
      if c == unit '.' then
        if rest = [] then .error (.illegalArgument "Illegal terminator character.") else .ok rest
      else .ok (c :: rest)

/-- A unit a key begins with. -/
def Lang.startsKey (c : UInt16) : Bool := lang.isJavaIdentifierStart c || c == unit '['

/-- The loop of `KeyPath.parse`; a turn takes a unit at least, so `fuel` is a bound. -/
def parseKeys : ℕ → List UInt16 → Except ParseExn (List (List UInt16) × List UInt16)
  | 0, reader => .ok ([], reader)
  | fuel + 1, reader =>
      if (reader.head?.map lang.startsKey).getD false then do
        let key ← readKey lang reader
        let rest ← skipDot key.2
        if key.1 = [] then .error (.illegalArgument "Missing identifier.")
        else do
          let keys ← parseKeys fuel rest
          .ok (key.1 :: keys.1, keys.2)
      else .ok ([], reader)

/-- `KeyPath.parse(PushbackReader)`: the keys, and what the reader still delivers. -/
def KeyPath.parse (reader : List UInt16) : Except ParseExn (List (List UInt16) × List UInt16) := do
  let keys ← parseKeys lang (reader.length + 1) reader
  if keys.1 = [] then .error (.illegalArgument "Invalid path.") else .ok keys

end JavaFx.Fxml
