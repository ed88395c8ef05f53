import Mathlib.Tactic

/-!
# `JSONScanner`

A JSON text is turned into symbols, one at a time. The scanner holds one character that it has
read already; −1, which stands for the end of the text, is `none` here. Whatever it reads is
counted, so that an exception can tell the line and the column.

An exception leaves the scanner in the middle of a symbol: the characters are gone, and the one
it holds is still the old one.
-/

namespace JavaFx.Json

/-- A Java string. -/
abbrev JString := List UInt16

/-- A character of the source. -/
def unit (c : Char) : UInt16 := c.val.toUInt16

/-- A string literal of the source, which is ASCII. -/
def lit (s : String) : JString := s.toList.map unit

/-- The symbols of the grammar; a marker has the name of its symbol with a line under it. -/
inductive JSONSymbol where
  | X | O | O1 | O3 | OV | A | A1 | A2 | V | VA
  | CURLYOPEN | CURLYCLOSE | COLON | COMMA | SQUAREOPEN | SQUARECLOSE | KEYWORD | STRING
  | NUMBER | EOS
  | X_ | O_ | O1_ | O3_ | OV_ | A_ | A1_ | A2_ | V_ | VA_
deriving DecidableEq, Repr

/-- The messages of a `JSONException`, with what is filled in. -/
inductive JSONMessage where
  | unexpectedChar (ch : UInt16)
  | unexpectedEndOfStream
  | controlCharacterInString
  | expectedButFound (current terminal : JSONSymbol)
  | unexpectedTerminal (terminal current : JSONSymbol)
deriving DecidableEq, Repr

inductive JSONExn where
  | json (message : JSONMessage) (line column : ℕ)
  | emptyStack
  | nullPointer
  | numberFormat (text : Option JString)
deriving DecidableEq, Repr

/-- Where the scanner is. -/
structure Place where
  x : ℕ
  y : ℕ
  offset : ℕ
deriving DecidableEq, Repr

/-- The place after a character, or the end, has been read. -/
def Place.after (p : Place) (ch : Option UInt16) : Place :=
  if ch = some (unit '\n') then ⟨0, p.y + 1, p.offset + 1⟩ else ⟨p.x + 1, p.y, p.offset + 1⟩

/-- `new JSONException(message, line(), column())` -/
def Place.exception (p : Place) (message : JSONMessage) : JSONExn := .json message p.y p.x

/-- `(char) ch` -/
def charOf (ch : Option UInt16) : UInt16 := ch.getD 0xFFFF

def isWhitespace (c : UInt16) : Bool :=
  c = 0x20 || c = 0x09 || c = 0x0c || c = 0x0a || c = 0x0d

def isDigit (c : UInt16) : Bool := unit '0' ≤ c && c ≤ unit '9'

/-- The characters a string may not hold as they are. -/
def isControl (c : UInt16) : Bool := c ≤ 0x001F || (0x007F ≤ c && c ≤ 0x009F)

/-- The value of a hexadecimal digit. -/
def hexDigit (c : UInt16) : Option UInt16 :=
  if unit '0' ≤ c && c ≤ unit '9' then some (c - unit '0')
  else if unit 'a' ≤ c && c ≤ unit 'f' then some (c - unit 'a' + 0xA)
  else if unit 'A' ≤ c && c ≤ unit 'F' then some (c - unit 'A' + 0xA)
  else none

/-- What an escape of one character stands for. -/
def escaped (c : UInt16) : Option UInt16 :=
  if c = unit '"' || c = unit '\\' || c = unit '/' then some c
  else if c = unit 'b' then some 0x08
  else if c = unit 'f' then some 0x0C
  else if c = unit 'n' then some 0x0A
  else if c = unit 'r' then some 0x0D
  else if c = unit 't' then some 0x09
  else none

structure JSONScanner where
  reader : JString
  value : Option JString
  prevChar : Option UInt16
  place : Place
  isInt : Bool
deriving DecidableEq, Repr

namespace JSONScanner

/-- `new JSONScanner(reader)` -/
def new (reader : JString) : JSONScanner where
  reader := reader.tail
  value := none
  prevChar := reader.head?
  place := ⟨0, 1, 0⟩
  isInt := false

def readChar (s : JSONScanner) : Option UInt16 × JSONScanner :=
  (s.reader.head?, { s with reader := s.reader.tail, place := s.place.after s.reader.head? })

/-- The loop over white space, with the character at hand and the characters that follow. -/
def skipWhitespace : Option UInt16 → JString → Place → Option UInt16 × JString × Place
  | none, reader, p => (none, reader, p)
  | some ch, [], p =>
      if isWhitespace ch then (none, [], p.after none) else (some ch, [], p)
  | some ch, c :: reader, p =>
      if isWhitespace ch then skipWhitespace (some c) reader (p.after (some c))
      else (some ch, c :: reader, p)

/-! ## Keywords -/

/-- The loop of `readKeyword` over the rest of the keyword. -/
def readLetters : JString → JString → Place → Except JSONExn Unit × JString × Place
  | [], reader, p => (.ok (), reader, p)
  | _ :: _, [], p =>
      (.error ((p.after none).exception (.unexpectedChar (charOf none))), [], p.after none)
  | k :: text, c :: reader, p =>
      if c = k then readLetters text reader (p.after (some c))
      else (.error ((p.after (some c)).exception (.unexpectedChar c)), reader, p.after (some c))

/-- The character behind the symbol becomes the one at hand. -/
def fetch (s : JSONScanner) : JSONScanner :=
  let r := s.readChar
  { r.2 with prevChar := r.1 }

def readKeyword (text : JString) (s : JSONScanner) : Except JSONExn JSONSymbol × JSONScanner :=
  let r := readLetters text.tail s.reader s.place
  let s := { s with reader := r.2.1, place := r.2.2 }
  match r.1 with
  | .ok _ => (.ok .KEYWORD, { s with value := some text }.fetch)
  | .error e => (.error e, s)

/-! ## Strings -/

/-- The places of the loop of `readString` at which a character is read: a character of the
string, the one after a backslash, and one of `left + 1` hexadecimal digits. -/
inductive StringPlace where
  | plain
  | escape
  | unicode (left : ℕ) (unicode : UInt16)

/-- The loop of `readString`, with what has been read of the string. -/
def readStringLoop : StringPlace → JString → JString → Place →
    Except JSONExn JString × JString × Place
  | .plain, _, [], p => (.error ((p.after none).exception .unexpectedEndOfStream), [], p.after none)
  | _, _, [], p =>
      (.error ((p.after none).exception (.unexpectedChar (charOf none))), [], p.after none)
  | .plain, val, ch :: reader, p =>
      if ch = unit '\\' then readStringLoop .escape val reader (p.after (some ch))
      else if ch = unit '"' then (.ok val, reader, p.after (some ch))
      else if isControl ch then
        (.error ((p.after (some ch)).exception .controlCharacterInString), reader,
          p.after (some ch))
      else readStringLoop .plain (val ++ [ch]) reader (p.after (some ch))
  | .escape, val, ch2 :: reader, p =>
      if ch2 = unit 'u' then readStringLoop (.unicode 3 0) val reader (p.after (some ch2))
      else
        match escaped ch2 with
        | some c => readStringLoop .plain (val ++ [c]) reader (p.after (some ch2))
        | none =>
            (.error ((p.after (some ch2)).exception (.unexpectedChar ch2)), reader,
              p.after (some ch2))
  | .unicode left unicode, val, ch2 :: reader, p =>
      match hexDigit ch2, left with
      | some d, 0 => readStringLoop .plain (val ++ [unicode * 16 + d]) reader (p.after (some ch2))
      | some d, left + 1 =>
          readStringLoop (.unicode left (unicode * 16 + d)) val reader (p.after (some ch2))
      | none, _ =>
          (.error ((p.after (some ch2)).exception (.unexpectedChar ch2)), reader,
            p.after (some ch2))

def readString (s : JSONScanner) : Except JSONExn JSONSymbol × JSONScanner :=
  let r := readStringLoop .plain [] s.reader s.place
  let s := { s with reader := r.2.1, place := r.2.2 }
  match r.1 with
  | .ok val => (.ok .STRING, { s.fetch with value := some val })
  | .error e => (.error e, s)

/-! ## Numbers -/

/-- The variables of `readNumber`: the character read last and what has been appended. -/
structure NumberScan where
  ch : Option UInt16
  val : JString
  reader : JString
  place : Place

namespace NumberScan

/-- `ch = readChar(..); val.append((char) ch)` -/
def read (n : NumberScan) : NumberScan where
  ch := n.reader.head?
  val := n.val ++ [charOf n.reader.head?]
  reader := n.reader.tail
  place := n.place.after n.reader.head?

/-- `do { .. } while (ch >= '0' && ch <= '9')` -/
def digits (val : JString) : JString → Place → NumberScan
  | [], p => ⟨none, val ++ [charOf none], [], p.after none⟩
  | c :: reader, p =>
      if isDigit c then digits (val ++ [c]) reader (p.after (some c))
      else ⟨some c, val ++ [c], reader, p.after (some c)⟩

def readDigits (n : NumberScan) : NumberScan := digits n.val n.reader n.place

def isDigit (n : NumberScan) : Bool := n.ch.any Json.isDigit

/-- `throw new JSONException(.. "unexpected_char" ..)` -/
def unexpected (n : NumberScan) : JSONExn := n.place.exception (.unexpectedChar (charOf n.ch))

/-- The sign. -/
def sign (n : NumberScan) : NumberScan := if n.ch = some (unit '-') then n.read else n

/-- The integer part. -/
def int (n : NumberScan) : NumberScan := if n.ch = some (unit '0') then n.read else n.readDigits

/-- The fraction: `count` is one if the loop has not met a digit. -/
def frac (n : NumberScan) : Except JSONExn NumberScan × NumberScan :=
  if n.ch = some (unit '.') then
    let m := n.readDigits
    if m.val.length = n.val.length + 1 then (.error m.unexpected, m) else (.ok m, m)
  else (.ok n, n)

def hasExp (n : NumberScan) : Bool := n.ch = some (unit 'e') || n.ch = some (unit 'E')

/-- The exponent: `count` is zero if the loop has not met a digit. -/
def exp (n : NumberScan) : Except JSONExn NumberScan × NumberScan :=
  if n.hasExp then
    let m := n.read
    let m := if m.ch = some (unit '+') ∨ m.ch = some (unit '-') then m.read else m
    if m.isDigit then (.ok m.readDigits, m.readDigits) else (.error m.unexpected, m)
  else (.ok n, n)

end NumberScan

/-- The scanner with the characters that a number has left. -/
def leave (s : JSONScanner) (n : NumberScan) (isInt : Bool) : JSONScanner :=
  { s with reader := n.reader, place := n.place, isInt := isInt }

def readNumber (prefetch : UInt16) (s : JSONScanner) :
    Except JSONExn JSONSymbol × JSONScanner :=
  let first : NumberScan := ⟨some prefetch, [prefetch], s.reader, s.place⟩
  let n := first.sign
  if prefetch = unit '-' && !n.isDigit then (.error n.unexpected, s.leave n s.isInt)
  else
    let n := n.int
    let r := n.frac
    let isInt := n.ch ≠ some (unit '.')
    match r.1 with
    | .error e => (.error e, s.leave r.2 isInt)
    | .ok n =>
        let r := n.exp
        let isInt := isInt && !n.hasExp
        match r.1 with
        | .error e => (.error e, s.leave r.2 isInt)
        | .ok n =>
            (.ok .NUMBER, { s.leave n isInt with prevChar := n.ch, value := some n.val.dropLast })

/-! ## Symbols -/

/-- The symbols of one character. -/
def punctuation (ch : UInt16) : Option JSONSymbol :=
  if ch = unit '{' then some .CURLYOPEN
  else if ch = unit '}' then some .CURLYCLOSE
  else if ch = unit '[' then some .SQUAREOPEN
  else if ch = unit ']' then some .SQUARECLOSE
  else if ch = unit ':' then some .COLON
  else if ch = unit ',' then some .COMMA
  else none

/-- The keyword that a character begins. -/
def keyword (ch : UInt16) : Option JString :=
  if ch = unit 't' then some (lit "true")
  else if ch = unit 'f' then some (lit "false")
  else if ch = unit 'n' then some (lit "null")
  else none

/-- The `switch` of `nextSymbol()`. -/
def symbolAt (ch : Option UInt16) (s : JSONScanner) : Except JSONExn JSONSymbol × JSONScanner :=
  match ch with
  | none => (.ok .EOS, { s with prevChar := none })
  | some ch =>
      match punctuation ch with
      | some symbol => (.ok symbol, s.fetch)
      | none =>
          match keyword ch with
          | some text => s.readKeyword text
          | none =>
              if ch = unit '"' then s.readString
              else if ch = unit '-' || isDigit ch then s.readNumber ch
              else (.error (s.place.exception (.unexpectedChar ch)), s)

def nextSymbol (s : JSONScanner) : Except JSONExn JSONSymbol × JSONScanner :=
  let r := skipWhitespace s.prevChar s.reader s.place
  symbolAt r.1 { s with reader := r.2.1, place := r.2.2, value := none }

end JSONScanner

end JavaFx.Json
