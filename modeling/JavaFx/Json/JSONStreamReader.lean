import JavaFx.Json.JSONDocument

/-!
# `JSONSymbol` and `JSONStreamReaderImpl`

The grammar is a table of transitions that works on a stack of symbols. The stack, the symbol
read ahead, the scanner and the value of the last symbol are static: there is one of each, and
every new reader starts them afresh. A reader turns the symbols that come from the stack into
events and builds documents from these.
-/

namespace JavaFx.Json

namespace JSONSymbol

/-- `transitions.get(terminal)` -/
def transitions : JSONSymbol → JSONSymbol → Option (List JSONSymbol)
  | X, CURLYOPEN => some [O]
  | X, SQUAREOPEN => some [A]
  | O, CURLYOPEN => some [CURLYOPEN, O1, CURLYCLOSE]
  | O1, CURLYCLOSE => some []
  | O1, STRING => some [OV, O3]
  | O3, CURLYCLOSE => some []
  | O3, COMMA => some [COMMA, OV, O3]
  | OV, STRING => some [STRING, COLON, V]
  | A, SQUAREOPEN => some [SQUAREOPEN, A1, SQUARECLOSE]
  | A1, CURLYOPEN => some [VA, A2]
  | A1, SQUAREOPEN => some [VA, A2]
  | A1, SQUARECLOSE => some []
  | A1, KEYWORD => some [VA, A2]
  | A1, STRING => some [VA, A2]
  | A1, NUMBER => some [VA, A2]
  | A2, COMMA => some [COMMA, VA, A2]
  | A2, SQUARECLOSE => some []
  | VA, CURLYOPEN => some [V]
  | VA, SQUAREOPEN => some [V]
  | VA, STRING => some [V]
  | VA, NUMBER => some [V]
  | VA, KEYWORD => some [V]
  | V, CURLYOPEN => some [O]
  | V, SQUAREOPEN => some [A]
  | V, KEYWORD => some [KEYWORD]
  | V, STRING => some [STRING]
  | V, NUMBER => some [NUMBER]
  | _, _ => none

/-- `markerSymbol`, which the symbols with transitions have. -/
def markerSymbol : JSONSymbol → Option JSONSymbol
  | X => some X_
  | O => some O_
  | O1 => some O1_
  | O3 => some O3_
  | OV => some OV_
  | A => some A_
  | A1 => some A1_
  | A2 => some A2_
  | V => some V_
  | VA => some VA_
  | _ => none

def isMarker : JSONSymbol → Bool
  | X_ | O_ | O1_ | O3_ | OV_ | A_ | A1_ | A2_ | V_ | VA_ => true
  | _ => false

end JSONSymbol

/-- The static fields of `JSONSymbol`, the scanner apart. -/
structure Parser where
  stack : List JSONSymbol
  terminal : JSONSymbol
  value : Option JString
deriving DecidableEq

/-- The static fields before there is a reader. -/
def Parser.initial : Parser := ⟨[], .EOS, none⟩

/-- `JSONSymbol.init(js)` -/
def JSONSymbol.init (p : Parser) (scanner : JSONScanner) :
    Except JSONExn Unit × Parser × JSONScanner :=
  let p := { p with stack := [X] }
  match scanner.nextSymbol with
  | (.ok symbol, scanner) => (.ok (), { p with terminal := symbol }, scanner)
  | (.error e, scanner) => (.error e, p, scanner)

/-- `JSONSymbol.next()` -/
def JSONSymbol.next (p : Parser) (scanner : JSONScanner) :
    Except JSONExn JSONSymbol × Parser × JSONScanner :=
  match p.stack with
  | [] => (.error .emptyStack, p, scanner)
  | current :: stack =>
      let p := { p with stack := stack }
      if current.isMarker then (.ok current, p, scanner)
      else
        match current.markerSymbol with
        | none =>
            if current ≠ p.terminal then
              (.error (scanner.place.exception (.expectedButFound current p.terminal)), p, scanner)
            else
              let p := { p with value := scanner.value }
              match scanner.nextSymbol with
              | (.ok symbol, scanner) => (.ok current, { p with terminal := symbol }, scanner)
              | (.error e, scanner) => (.error e, p, scanner)
        | some marker =>
            match current.transitions p.terminal with
            | none =>
                (.error (scanner.place.exception (.unexpectedTerminal p.terminal current)), p,
                  scanner)
            | some target => (.ok current, { p with stack := target ++ marker :: stack }, scanner)

inductive EventType where
  | ERROR | START_OBJECT | END_OBJECT | STRING | START_DOCUMENT | END_DOCUMENT | START_ARRAY
  | START_ARRAY_ELEMENT | END_ARRAY_ELEMENT | END_ARRAY | NUMBER | INTEGER | TRUE | FALSE | NULL
  | START_VALUE | END_VALUE
deriving DecidableEq, Repr

/-- The fields of a `JSONStreamReaderImpl`, the scanner apart. The documents that `build` works
on are its own variables here. -/
structure StreamReader where
  currentEvent : Option EventType
  nullValue : Bool
  key : Option JString
  stack : List (Option JString)
  eod : Bool
  collectionKey : Option JString
deriving DecidableEq

def StreamReader.new : StreamReader := ⟨none, false, none, [], false, none⟩

/-- What a call on a reader works on: the static fields, the scanner they refer to, the reader,
and its own scanner if that is another one. -/
structure Session where
  parser : Parser
  scanner : JSONScanner
  reader : StreamReader
  own : Option JSONScanner
deriving DecidableEq

namespace Session

/-- `new JSONStreamReaderImpl(new StringReader(t))`, the static fields being what `p` says. -/
def open_ (p : Parser) (t : JString) : Except JSONExn Unit × Session :=
  let r := JSONSymbol.init p (JSONScanner.new t)
  (r.1, ⟨r.2.1, r.2.2, StreamReader.new, none⟩)

/-- `scanner.isInteger()`, which asks the reader's own scanner. -/
def isInteger (s : Session) : Bool := (s.own.getD s.scanner).isInt

/-- `return currentEvent = event` -/
def event (s : Session) (event : EventType) : Except JSONExn EventType × Session :=
  (.ok event, { s with reader := { s.reader with currentEvent := some event } })

def withKey (s : Session) (key : Option JString) : Session :=
  { s with reader := { s.reader with key := key } }

def withNullValue (s : Session) (nullValue : Bool) : Session :=
  { s with reader := { s.reader with nullValue := nullValue } }

def withStack (s : Session) (stack : List (Option JString)) : Session :=
  { s with reader := { s.reader with stack := stack } }

/-- The event of a keyword. -/
def keywordEvent (s : Session) : Except JSONExn EventType × Session :=
  match s.parser.value with
  | none => (.error .nullPointer, s)
  | some text =>
      if text = lit "true" then (s.withNullValue true).event .TRUE
      else if text = lit "false" then (s.withNullValue true).event .FALSE
      else if text = lit "null" then (s.withNullValue true).event .NULL
      else s.event .ERROR

/-- `key = stack.pop()` and what follows it. -/
def endValue (s : Session) : Except JSONExn EventType × Session :=
  match s.reader.stack with
  | [] => (.error .emptyStack, s)
  | key :: stack => (((s.withStack stack).withKey key).withNullValue true).event .END_VALUE

/-- The beginning of `next()`: nothing comes after the end of the document. -/
def enter (loop : Session → Option (Except JSONExn EventType × Session)) (s : Session) :
    Option (Except JSONExn EventType × Session) :=
  if s.reader.eod then some (s.event .END_DOCUMENT) else loop (s.withNullValue false)

/-- `JSONSymbol.next()`, called by this reader. -/
def symbol (s : Session) : Except JSONExn JSONSymbol × Session :=
  let r := JSONSymbol.next s.parser s.scanner
  (r.1, { s with parser := r.2.1, scanner := r.2.2 })

/-- Where the reader's own scanner is. -/
def place (s : Session) : Place := (s.own.getD s.scanner).place

/-- The loop of `next()`; `none` if it has not come to its end after so many rounds. -/
def loop : ℕ → Session → Option (Except JSONExn EventType × Session)
  | 0, _ => none
  | rounds + 1, s =>
      match s.symbol with
      | (.error e, s) => some (.error e, s)
      | (.ok current, s) =>
          match current with
          | .O => some ((s.withKey none).event .START_OBJECT)
          | .O_ => some ((s.withKey none).event .END_OBJECT)
          | .OV =>
              match s.enter (loop rounds) with
              | none => none
              | some (.error e, s) => some (.error e, s)
              | some (.ok type, s) =>
                  let s := if type = .STRING then s.withKey s.parser.value else s
                  let s := s.withStack (s.reader.key :: s.reader.stack)
                  some ((s.withNullValue true).event .START_VALUE)
          | .OV_ => some s.endValue
          | .X => some ((s.withStack []).event .START_DOCUMENT)
          | .X_ =>
              let s := { s with reader := { s.reader with eod := true } }
              some ((s.withStack []).event .END_DOCUMENT)
          | .KEYWORD => some s.keywordEvent
          | .STRING => some (s.event .STRING)
          | .NUMBER => some (s.event (if s.isInteger then .INTEGER else .NUMBER))
          | .A => some (s.event .START_ARRAY)
          | .A_ => some (s.event .END_ARRAY)
          | .VA => some (s.event .START_ARRAY_ELEMENT)
          | .VA_ => some ((s.withNullValue true).event .END_ARRAY_ELEMENT)
          | .EOS =>
              -- nothing puts the end of the stream on the stack
              if s.reader.eod then some (s.event .END_DOCUMENT)
              else some (.error (s.place.exception .unexpectedEndOfStream), s)
          | _ => loop rounds s

/-- `next()` -/
def next (rounds : ℕ) (s : Session) : Option (Except JSONExn EventType × Session) :=
  s.enter (loop rounds)

/-- `value()` -/
def value (s : Session) : Option JString :=
  if s.reader.nullValue then none else s.parser.value

/-- `key()` -/
def key (s : Session) : Option JString := s.reader.key

end Session

/-! ## Building a document -/

/-- The variables of `build`: the collection that is being filled, and those around it with the
key under which each takes the next one. The root is done when its own end has been met. -/
structure Building (δ : Type) where
  collection : JSONValue δ
  outer : List (JSONValue δ × Option JString)
  done : Bool

namespace Building

variable {δ : Type}

def insert (b : Building δ) (key : Option JString) (value : JSONValue δ) : Building δ :=
  { b with collection := b.collection.insert key value }

/-- A new collection, which is an entry of the one at hand. -/
def start (b : Building δ) (key : Option JString) (collection : JSONValue δ) : Building δ where
  collection := collection
  outer := (b.collection, key) :: b.outer
  done := b.done

/-- `collection = collectionStack.pop()` -/
def finish (b : Building δ) : Building δ :=
  match b.outer with
  | [] => { b with done := true }
  | (collection, key) :: outer =>
      { b with collection := collection.insert key b.collection, outer := outer }

/-- The root with everything below it. -/
def root (b : Building δ) : JSONValue δ :=
  b.outer.foldl (fun inner (frame : JSONValue δ × Option JString) =>
    frame.1.insert frame.2 inner) b.collection

end Building

/-- The value of a row of digits. -/
def digitsValue (digits : JString) : ℕ :=
  digits.foldl (fun n c => n * 10 + (c - unit '0').toNat) 0

/-- `Long.parseLong`, of a text with ASCII digits. -/
def parseLong (text : Option JString) : Except JSONExn Int64 :=
  match text with
  | none => .error (.numberFormat none)
  | some text =>
      let negative := text.head? = some (unit '-')
      let digits := if negative then text.tail else text
      let value : ℤ := if negative then -digitsValue digits else digitsValue digits
      if digits ≠ [] ∧ digits.all isDigit ∧ -2 ^ 63 ≤ value ∧ value < 2 ^ 63 then
        .ok (Int64.ofInt value)
      else .error (.numberFormat (some text))

namespace Session

variable {δ : Type}

def withCollectionKey (s : Session) (collectionKey : Option JString) : Session :=
  { s with reader := { s.reader with collectionKey := collectionKey } }

/-- `insert(type, collectionStack)` -/
def insert (D : Doubles δ) (type : EventType) (s : Session) (b : Building δ) :
    Except JSONExn (Building δ) × Session :=
  match type with
  | .TRUE => (.ok (b.insert s.reader.collectionKey (.bool true)), s)
  | .FALSE => (.ok (b.insert s.reader.collectionKey (.bool false)), s)
  | .NULL => (.ok (b.insert s.reader.collectionKey .null), s)
  | .STRING =>
      (.ok (b.insert s.reader.collectionKey
        (match s.value with
          | some text => .string text
          | none => .null)), s)
  | .INTEGER =>
      match parseLong s.value with
      | .ok n => (.ok (b.insert s.reader.collectionKey (.long n)), s)
      | .error e => (.error e, s)
  | .NUMBER =>
      match s.value with
      | some text => (.ok (b.insert s.reader.collectionKey (.double (D.parseDouble text))), s)
      | none => (.error .nullPointer, s)
  | .START_ARRAY => (.ok (b.start s.reader.collectionKey (.array [])), s)
  | .START_OBJECT => (.ok (b.start s.reader.collectionKey (.object [])), s)
  | .END_ARRAY => (.ok b.finish, s)
  | .END_OBJECT => (.ok b.finish, s)
  | .START_VALUE => (.ok b, s.withCollectionKey s.key)
  | .END_VALUE => (.ok b, s.withCollectionKey none)
  | _ => (.ok b, s)

/-- The loop of `build()` that skips to a collection. -/
def skip (rounds : ℕ) : ℕ → Session → Option (Except JSONExn Unit × Session)
  | 0, _ => none
  | calls + 1, s =>
      match s.next rounds with
      | none => none
      | some (.error e, s) => some (.error e, s)
      | some (.ok type, s) =>
          if type = .END_DOCUMENT || type = .ERROR || type = .START_ARRAY ||
              type = .START_OBJECT then some (.ok (), s)
          else skip rounds calls s

/-- The loop of `build()` that fills the root. -/
def fill (D : Doubles δ) (rounds : ℕ) :
    ℕ → Session → Building δ → Option (Except JSONExn (JSONValue δ) × Session)
  | 0, _, _ => none
  | calls + 1, s, b =>
      match s.next rounds with
      | none => none
      | some (.error e, s) => some (.error e, s)
      | some (.ok type, s) =>
          if type = .END_DOCUMENT || type = .ERROR || b.done then some (.ok b.root, s)
          else
            match s.insert D type b with
            | (.error e, s) => some (.error e, s)
            | (.ok b, s) => fill D rounds calls s b

/-- The two loops of `build()` one after the other: `none` is `null`. -/
def collect (D : Doubles δ) (rounds calls : ℕ) (s : Session) :
    Option (Except JSONExn (Option (JSONValue δ)) × Session) :=
  let rooted (root : JSONValue δ) :=
    (fill D rounds calls s ⟨root, [], false⟩).map fun r => (r.1.map some, r.2)
  match s.reader.currentEvent with
  | some .START_ARRAY => rooted (.array [])
  | some .START_OBJECT => rooted (.object [])
  | _ => some (.ok none, s)

/-- `build()`; `none` if a loop has not come to its end after so many rounds or calls. -/
def build (D : Doubles δ) (rounds calls : ℕ) (s : Session) :
    Option (Except JSONExn (Option (JSONValue δ)) × Session) :=
  if s.reader.currentEvent = some .START_ARRAY || s.reader.currentEvent = some .START_OBJECT then
    collect D rounds calls s
  else
    match skip rounds calls s with
    | none => none
    | some (.error e, s) => some (.error e, s)
    | some (.ok _, s) => collect D rounds calls s

end Session

end JavaFx.Json
