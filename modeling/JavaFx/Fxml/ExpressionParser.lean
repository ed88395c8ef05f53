import JavaFx.Fxml.KeyPath
import JavaFx.Lib.Postfix

/-!
# The parser of FXML expressions

`tokenize` reads the text into a postfix list of tokens with a stack of pending operators, `parse`
builds the expression. The unit `c` the parser holds and its reader are one list here, whose head
is `c`; the pushback buffer keeps what earlier keywords have left in it.
-/

namespace JavaFx.Fxml

/-! ## Operators -/

/-- The texts of the operators. -/
inductive OperatorText where
  | minus | exclamation | plus | asterisk | slash | percent
  | greater | greaterEqual | less | lessEqual | equalEqual | exclamationEqual
  | ampersands | bars
deriving DecidableEq, Repr

def OperatorText.units : OperatorText → List UInt16
  | .minus => Fxml.units "-"
  | .exclamation => Fxml.units "!"
  | .plus => Fxml.units "+"
  | .asterisk => Fxml.units "*"
  | .slash => Fxml.units "/"
  | .percent => Fxml.units "%"
  | .greater => Fxml.units ">"
  | .greaterEqual => Fxml.units ">="
  | .less => Fxml.units "<"
  | .lessEqual => Fxml.units "<="
  | .equalEqual => Fxml.units "=="
  | .exclamationEqual => Fxml.units "!="
  | .ampersands => Fxml.units "&&"
  | .bars => Fxml.units "||"

inductive UnaryOperator where
  | negate | not
deriving DecidableEq, Repr

inductive BinaryOperator where
  | add | subtract | multiply | divide | modulo
  | greaterThan | greaterThanOrEqualTo | lessThan | lessThanOrEqualTo
  | equalTo | notEqualTo | and | or
deriving DecidableEq, Repr

/-- The constants `NEGATE` and `NOT` -/
def UnaryOperator.text : UnaryOperator → OperatorText
  | .negate => .minus
  | .not => .exclamation

/-- The constants `ADD` to `OR`; `SUBTRACT` is the text of `NEGATE`. -/
def BinaryOperator.text : BinaryOperator → OperatorText
  | .add => .plus
  | .subtract => .minus
  | .multiply => .asterisk
  | .divide => .slash
  | .modulo => .percent
  | .greaterThan => .greater
  | .greaterThanOrEqualTo => .greaterEqual
  | .lessThan => .less
  | .lessThanOrEqualTo => .lessEqual
  | .equalTo => .equalEqual
  | .notEqualTo => .exclamationEqual
  | .and => .ampersands
  | .or => .bars

/-- `MAX_PRIORITY` -/
def maxPriority : ℕ := 6

def getPriority : OperatorText → ℕ
  | .minus | .exclamation => maxPriority
  | .asterisk | .slash | .percent => maxPriority - 1
  | .plus => maxPriority - 2
  | .greater | .greaterEqual | .less | .lessEqual => maxPriority - 3
  | .equalEqual | .exclamationEqual => maxPriority - 4
  | .ampersands => maxPriority - 5
  | .bars => maxPriority - 6

/-! ## Expressions and tokens -/

/-- The values of literals: a `Long` the parser makes is not negative. -/
inductive Value (R : Type) where
  | null
  | bool (b : Bool)
  | string (s : List UInt16)
  | long (n : ℕ)
  | double (d : R)
deriving DecidableEq, Repr

/-- `LiteralExpression` and `VariableExpression` -/
inductive Leaf (R : Type) where
  | literal (value : Value R)
  | variable (keyPath : List (List UInt16))
deriving DecidableEq, Repr

abbrev Expression (R : Type) := Postfix.Tree (Leaf R) UnaryOperator BinaryOperator

/-- The tokens; `leaf` is `LITERAL` and `VARIABLE`, and no `FUNCTION` is ever made. -/
inductive Token (R : Type) where
  | leaf (x : Leaf R)
  | unaryOperator (op : UnaryOperator)
  | binaryOperator (op : BinaryOperator)
  | beginGroup
  | endGroup
deriving DecidableEq, Repr

variable {R : Type}

/-- The operator text a token has as its value. -/
def Token.operator? : Token R → Option OperatorText
  | .unaryOperator op => some op.text
  | .binaryOperator op => some op.text
  | _ => none

/-! ## Reading a token -/

/-- The loop of `readKeyword`: whether the keyword was read, the reader, and the buffer. -/
def readKeywordFrom (i : ℕ) : List UInt16 → List UInt16 → List UInt16 →
    (Bool × List UInt16) × List UInt16
  | [], reader, buffer => ((true, reader), buffer)
  -- at the end of the text the unit at `i` is an old one
  | _ :: _, [], buffer => ((false, buffer.take (i + 1)), buffer)
  | k :: keyword, c :: reader, buffer =>
      if k != c then ((false, (buffer.set i c).take (i + 1) ++ reader), buffer.set i c)
      else readKeywordFrom (i + 1) keyword reader (buffer.set i c)

def readKeyword (keyword reader buffer : List UInt16) : (Bool × List UInt16) × List UInt16 :=
  readKeywordFrom 0 keyword reader buffer

variable (lang : Lang R)

/-- The digits of `Integer.parseInt(s, 16)` and `Long.parseLong(s)`. -/
def parseDigits (radix : ℕ) : ℕ → List UInt16 → Option ℕ
  | n, [] => some n
  | n, c :: rest => do
      let d ← lang.digit c radix
      parseDigits radix (n * radix + d) rest

/-- `Integer.parseInt(s, 16)` on four units -/
def parseHex : List UInt16 → Option ℤ
  | c :: rest =>
      if c == unit '-' then (parseDigits lang 16 0 rest).map fun n => -(n : ℤ)
      else if c == unit '+' then (parseDigits lang 16 0 rest).map fun n => (n : ℤ)
      else (parseDigits lang 16 0 (c :: rest)).map fun n => (n : ℤ)
  | [] => none

/-- `Long.parseLong(s)` on a text without a sign -/
def parseLong (s : List UInt16) : Except ParseExn ℕ :=
  match parseDigits lang 10 0 s with
  | some n => if n < 2 ^ 63 then .ok n else .error .numberFormat
  | none => .error .numberFormat

/-- The units with an escape of one letter. -/
def readEscape (t c : UInt16) : Except ParseExn UInt16 :=
  if c == unit 'b' then .ok 8
  else if c == unit 'f' then .ok 12
  else if c == unit 'n' then .ok 10
  else if c == unit 'r' then .ok 13
  else if c == unit 't' then .ok 9
  else if c == unit '\\' || c == unit '/' || c == unit '"' || c == unit '\'' || c == t then .ok c
  else .error (.illegalArgument "Unsupported escape sequence.")

/-- A string literal up to its delimiter `t`, and what follows it. -/
def readString (t : UInt16) : List UInt16 → Except ParseExn (List UInt16 × List UInt16)
  | [] => .error (.illegalArgument "Unterminated string.")
  | c :: rest =>
      if c == t then .ok ([], rest)
      else if isISOControl c then readString t rest
      else if c == unit '\\' then
        match rest with
        | [] => .error (.illegalArgument "Unsupported escape sequence.")
        | e :: rest' =>
          if e == unit 'u' then
            match rest' with
            | h₁ :: h₂ :: h₃ :: h₄ :: rest'' =>
              match parseHex lang [h₁, h₂, h₃, h₄] with
              | some n => do
                let s ← readString t rest''
                .ok (UInt16.ofInt n :: s.1, s.2)
              | none => .error .numberFormat
            | _ => .error .numberFormat
          else do
            let d ← readEscape t e
            let s ← readString t rest'
            .ok (d :: s.1, s.2)
      else do
        let s ← readString t rest
        .ok (c :: s.1, s.2)

/-- The units of a number. -/
def Lang.isNumberPart (c : UInt16) : Bool :=
  lang.isDigit c || c == unit '.' || c == unit 'e' || c == unit 'E'

def readNumber (reader : List UInt16) : Except ParseExn (Value R × List UInt16) :=
  let number := reader.span lang.isNumberPart
  if unit '.' ∈ number.1 then
    match lang.parseDouble number.1 with
    | some d => .ok (.double d, number.2)
    | none => .error .numberFormat
  else do
    let n ← parseLong lang number.1
    .ok (.long n, number.2)

/-- A variable. -/
def readVariable (reader : List UInt16) : Except ParseExn (Token R × List UInt16) := do
  let keyPath ← KeyPath.parse lang reader
  .ok (.leaf (.variable keyPath.1), keyPath.2)

/-- A keyword or a variable that begins like one. -/
def readKeywordToken (keyword : List UInt16) (value : Value R) (reader buffer : List UInt16) :
    Except ParseExn ((Token R × List UInt16) × List UInt16) :=
  let read := readKeyword keyword reader buffer
  if read.1.1 then .ok ((.leaf (.literal value), read.1.2), read.2)
  else do
    let token ← readVariable lang read.1.2
    .ok (token, read.2)

/-- An operator or a parenthesis that begins with `c`. -/
def readOperator (unary : Bool) (c : UInt16) (rest : List UInt16) :
    Except ParseExn (Token R × List UInt16) :=
  if c == unit '-' && unary then .ok (.unaryOperator .negate, rest)
  else if c == unit '!' && unary then .ok (.unaryOperator .not, rest)
  else if c == unit '+' then .ok (.binaryOperator .add, rest)
  else if c == unit '-' then .ok (.binaryOperator .subtract, rest)
  else if c == unit '*' then .ok (.binaryOperator .multiply, rest)
  else if c == unit '/' then .ok (.binaryOperator .divide, rest)
  else if c == unit '%' then .ok (.binaryOperator .modulo, rest)
  else if c == unit '=' then
    if rest.head? = some (unit '=') then .ok (.binaryOperator .equalTo, rest.tail)
    else .error (.illegalArgument "")
  else if c == unit '!' then
    if rest.head? = some (unit '=') then .ok (.binaryOperator .notEqualTo, rest.tail)
    else .error (.illegalArgument "")
  -- the unit after `>` and `<` is read in either case
  else if c == unit '>' then
    if rest.head? = some (unit '=') then .ok (.binaryOperator .greaterThanOrEqualTo, rest.tail)
    else .ok (.binaryOperator .greaterThan, rest.tail)
  else if c == unit '<' then
    if rest.head? = some (unit '=') then .ok (.binaryOperator .lessThanOrEqualTo, rest.tail)
    else .ok (.binaryOperator .lessThan, rest.tail)
  else if c == unit '&' then
    if rest.head? = some (unit '&') then .ok (.binaryOperator .and, rest.tail)
    else .error (.illegalArgument "")
  else if c == unit '|' then
    if rest.head? = some (unit '|') then .ok (.binaryOperator .or, rest.tail)
    else .error (.illegalArgument "")
  else if c == unit '(' then .ok (.beginGroup, rest)
  else if c == unit ')' then .ok (.endGroup, rest)
  else .error (.illegalArgument "Unexpected character in expression.")

/-- The token that begins with `c`, what follows it, and the pushback buffer. -/
def readToken (unary : Bool) (buffer : List UInt16) (c : UInt16) (rest : List UInt16) :
    Except ParseExn ((Token R × List UInt16) × List UInt16) :=
  if c == unit 'n' then readKeywordToken lang (units "null") .null (c :: rest) buffer
  else if c == unit '"' || c == unit '\'' then do
    let s ← readString lang c rest
    .ok ((.leaf (.literal (.string s.1)), s.2), buffer)
  else if lang.isDigit c then do
    let number ← readNumber lang (c :: rest)
    .ok ((.leaf (.literal number.1), number.2), buffer)
  else if c == unit 't' then readKeywordToken lang (units "true") (.bool true) (c :: rest) buffer
  else if c == unit 'f' then readKeywordToken lang (units "false") (.bool false) (c :: rest) buffer
  else if lang.isJavaIdentifierStart c then do
    let token ← readVariable lang (c :: rest)
    .ok (token, buffer)
  else do
    let token ← readOperator unary c rest
    .ok (token, buffer)

/-! ## The stack of operators -/

/-- The tokens in postfix order so far, and the operators that wait. -/
structure Pending (R : Type) where
  tokens : List (Token R)
  stack : List (Token R)
deriving DecidableEq, Repr

/-- The operators an operator of this priority takes from the stack. -/
def popOperators (priority : ℕ) (tokens : List (Token R)) : List (Token R) → Pending R
  | [] => ⟨tokens, []⟩
  | top :: stack =>
      match top.operator? with
      | none => ⟨tokens, top :: stack⟩
      | some op =>
        if priority ≤ getPriority op ∧ getPriority op ≠ maxPriority then
          popOperators priority (tokens ++ [top]) stack
        else ⟨tokens, top :: stack⟩

/-- The operators of a group that ends. -/
def popGroup (tokens : List (Token R)) : List (Token R) → Except ParseExn (Pending R)
  | [] => .error .noSuchElement
  | .beginGroup :: stack => .ok ⟨tokens, stack⟩
  | top :: stack => popGroup (tokens ++ [top]) stack

/-- An operator token. -/
def Pending.operator (s : Pending R) (token : Token R) (op : OperatorText) : Pending R :=
  let popped := popOperators (getPriority op) s.tokens s.stack
  ⟨popped.tokens, token :: popped.stack⟩

/-- A token that has been read. -/
def Pending.process (s : Pending R) : Token R → Except ParseExn (Pending R)
  | .leaf x => .ok ⟨s.tokens ++ [.leaf x], s.stack⟩
  | .unaryOperator op => .ok (s.operator (.unaryOperator op) op.text)
  | .binaryOperator op => .ok (s.operator (.binaryOperator op) op.text)
  | .beginGroup => .ok ⟨s.tokens, .beginGroup :: s.stack⟩
  | .endGroup => popGroup s.tokens s.stack

/-- Whether `-` and `!` are unary after a token; after `)` the variable `token` holds the `(`. -/
def Token.unaryAfter : Token R → Bool
  | .leaf _ => false
  | _ => true

/-! ## The text -/

/-- The loop of `tokenize`; a turn takes a unit of the text but for the last one, so `fuel` is a
bound. -/
def tokenizeFrom : ℕ → List UInt16 → Bool → List UInt16 → Pending R →
    Except ParseExn (List (Token R))
  | 0, _, _, _, s => .ok (s.tokens ++ s.stack)
  | fuel + 1, reader, unary, buffer, s =>
      match reader.dropWhile lang.isWhitespace with
      | [] => .ok (s.tokens ++ s.stack)
      | c :: rest => do
        let read ← readToken lang unary buffer c rest
        let s' ← s.process read.1.1
        tokenizeFrom fuel read.1.2 read.1.1.unaryAfter read.2 s'

/-- `PUSHBACK_BUFFER_SIZE` -/
def pushbackBufferSize : ℕ := 6

def tokenize (text : List UInt16) : Except ParseExn (List (Token R)) :=
  tokenizeFrom lang (text.length + 2) text true (List.replicate pushbackBufferSize 0) ⟨[], []⟩

/-- One token on the stack of expressions. -/
def Token.build (stack : List (Expression R)) :
    Token R → Except ParseExn (List (Expression R))
  | .leaf x => .ok (.leaf x :: stack)
  | .unaryOperator op =>
      match stack with
      | operand :: stack => .ok (.unary op operand :: stack)
      | [] => .error .noSuchElement
  | .binaryOperator op =>
      match stack with
      | right :: left :: stack => .ok (.binary op left right :: stack)
      | _ => .error .noSuchElement
  | _ => .error .unsupportedOperation

/-- The loop of `parse`. -/
def buildAll : List (Token R) → List (Expression R) →
    Except ParseExn (List (Expression R))
  | [], stack => .ok stack
  | token :: tokens, stack => do
      let stack' ← token.build stack
      buildAll tokens stack'

/-- `parse` of a list of tokens. -/
def build (tokens : List (Token R)) : Except ParseExn (Expression R) := do
  let stack ← buildAll tokens []
  match stack with
  | [expression] => .ok expression
  | _ => .error (.illegalArgument "Invalid expression.")

/-- `Expression.valueOf` -/
def parse (text : List UInt16) : Except ParseExn (Expression R) := do
  let tokens ← tokenize lang text
  build tokens

end JavaFx.Fxml
