import JavaFx.Json.JSONScanner

/-!
# JSON

What a JSON text is, apart from how it is read: the spelling of the tokens, the tokens of a
value, and the depth-first traversal of a value. A text is the spelling of the tokens of an object
or an array one after the other, with white space wherever there is a place for it. How a token
goes on decides where it ends: a number takes all the digits there are.
-/

namespace JavaFx.Json

/-! ## Tokens -/

inductive Keyword where
  | true_ | false_ | null_
deriving DecidableEq, Repr

def Keyword.text : Keyword → JString
  | true_ => lit "true"
  | false_ => lit "false"
  | null_ => lit "null"

/-- The parts of a number. -/
structure Number where
  minus : JString
  int : JString
  frac : JString
  exp : JString
deriving DecidableEq, Repr

namespace Number

def text (n : Number) : JString := n.minus ++ (n.int ++ (n.frac ++ n.exp))

/-- A number without fraction and exponent. -/
def isInt (n : Number) : Bool := n.frac = [] && n.exp = []

def Digits (ds : JString) : Prop := ∀ c ∈ ds, isDigit c = true

/-- A zero, or digits that do not begin with one. -/
def IntPart (int : JString) : Prop :=
  int = [unit '0'] ∨ ∃ d ds, int = d :: ds ∧ isDigit d = true ∧ d ≠ unit '0' ∧ Digits ds

def FracPart (frac : JString) : Prop :=
  frac = [] ∨ ∃ ds, frac = unit '.' :: ds ∧ ds ≠ [] ∧ Digits ds

def ExpPart (exp : JString) : Prop :=
  exp = [] ∨ ∃ e sign ds, exp = e :: (sign ++ ds) ∧ (e = unit 'e' ∨ e = unit 'E') ∧
    (sign = [] ∨ sign = [unit '+'] ∨ sign = [unit '-']) ∧ ds ≠ [] ∧ Digits ds

/-- The grammar of numbers. -/
structure Valid (n : Number) : Prop where
  minus : n.minus = [] ∨ n.minus = [unit '-']
  int : IntPart n.int
  frac : FracPart n.frac
  exp : ExpPart n.exp

/-- What follows is no more of the number. -/
structure Ends (n : Number) (rest : JString) : Prop where
  digit : ∀ c, rest.head? = some c → isDigit c = true →
    n.int = [unit '0'] ∧ n.frac = [] ∧ n.exp = []
  point : rest.head? = some (unit '.') → n.frac ≠ [] ∨ n.exp ≠ []
  exponent : rest.head? = some (unit 'e') ∨ rest.head? = some (unit 'E') → n.exp ≠ []

end Number

inductive Token where
  | curlyOpen | curlyClose | squareOpen | squareClose | colon | comma
  | keyword (k : Keyword)
  | string (s : JString)
  | number (n : Number)
  | eos
deriving DecidableEq, Repr

namespace Token

def symbol : Token → JSONSymbol
  | curlyOpen => .CURLYOPEN
  | curlyClose => .CURLYCLOSE
  | squareOpen => .SQUAREOPEN
  | squareClose => .SQUARECLOSE
  | colon => .COLON
  | comma => .COMMA
  | keyword _ => .KEYWORD
  | string _ => .STRING
  | number _ => .NUMBER
  | eos => .EOS

/-- The text that belongs to a token. -/
def value : Token → Option JString
  | keyword k => some k.text
  | string s => some s
  | number n => some n.text
  | _ => none

end Token

/-- The value of some hexadecimal digits, after those that have the value `u`. -/
def hexValue : UInt16 → JString → Option UInt16
  | u, [] => some u
  | u, d :: ds =>
      match hexDigit d with
      | some x => hexValue (u * 16 + x) ds
      | none => none

/-- `StringBody s b`: between quotation marks `b` stands for the string `s`. -/
inductive StringBody : JString → JString → Prop where
  | nil : StringBody [] []
  | plain {c : UInt16} {s b : JString} : c ≠ unit '"' → c ≠ unit '\\' → isControl c = false →
      StringBody s b → StringBody (c :: s) (c :: b)
  | escape {e c : UInt16} {s b : JString} : escaped e = some c → StringBody s b →
      StringBody (c :: s) (unit '\\' :: e :: b)
  | unicode {ds : JString} {c : UInt16} {s b : JString} : ds.length = 4 →
      hexValue 0 ds = some c → StringBody s b →
      StringBody (c :: s) (unit '\\' :: unit 'u' :: (ds ++ b))

/-- The spellings of a token. -/
inductive Token.Spelled : Token → JString → Prop where
  | curlyOpen : Spelled .curlyOpen [unit '{']
  | curlyClose : Spelled .curlyClose [unit '}']
  | squareOpen : Spelled .squareOpen [unit '[']
  | squareClose : Spelled .squareClose [unit ']']
  | colon : Spelled .colon [unit ':']
  | comma : Spelled .comma [unit ',']
  | keyword (k : Keyword) : Spelled (.keyword k) k.text
  | string {s b : JString} : StringBody s b →
      Spelled (.string s) (unit '"' :: (b ++ [unit '"']))
  | number {n : Number} : n.Valid → Spelled (.number n) n.text

/-- White space. -/
def Blank (w : JString) : Prop := ∀ c ∈ w, isWhitespace c = true

def Token.Ends : Token → JString → Prop
  | .number n, rest => n.Ends rest
  | _, _ => True

/-- The first token of a text and what is left. -/
inductive Lexes : JString → Token → JString → Prop where
  | eos {t : JString} : Blank t → Lexes t .eos []
  | token {w u rest : JString} {tok : Token} : Blank w → tok.Spelled u → tok.Ends rest →
      Lexes (w ++ (u ++ rest)) tok rest

/-- The tokens of a text up to a place. -/
inductive LexesAll : JString → List Token → JString → Prop where
  | nil (t : JString) : LexesAll t [] t
  | cons {t rest rest' : JString} {tok : Token} {toks : List Token} :
      Lexes t tok rest → LexesAll rest toks rest' → LexesAll t (tok :: toks) rest'

/-! ## Values -/

/-- A JSON value as it is written. -/
inductive JSONTree where
  | keyword (k : Keyword)
  | string (s : JString)
  | number (n : Number)
  | object (members : List (JString × JSONTree))
  | array (elements : List JSONTree)

/-- What a reader tells of a text, with the key of an entry and the text of a value. -/
inductive Told where
  | startDocument | endDocument | startObject | endObject | startArray | endArray
  | startValue (key : JString)
  | endValue | startArrayElement | endArrayElement
  | keyword (k : Keyword)
  | string (s : JString)
  | integer (text : JString)
  | number (text : JString)
deriving DecidableEq, Repr

namespace JSONTree

/-- Objects and arrays. -/
def IsCollection : JSONTree → Prop
  | object _ => True
  | array _ => True
  | _ => False

def toldNumber (n : Number) : Told := if n.isInt then .integer n.text else .number n.text

mutual

/-- The tokens of a value. -/
def tokens : JSONTree → List Token
  | keyword k => [.keyword k]
  | string s => [.string s]
  | number n => [.number n]
  | object [] => [.curlyOpen, .curlyClose]
  | object ((key, v) :: members) =>
      .curlyOpen :: .string key :: .colon :: (v.tokens ++ (moreMembers members ++ [.curlyClose]))
  | array [] => [.squareOpen, .squareClose]
  | array (v :: elements) => .squareOpen :: (v.tokens ++ (moreElements elements ++ [.squareClose]))

/-- The tokens of the members after the first one. -/
def moreMembers : List (JString × JSONTree) → List Token
  | [] => []
  | (key, v) :: members =>
      .comma :: .string key :: .colon :: (v.tokens ++ moreMembers members)

/-- The tokens of the elements after the first one. -/
def moreElements : List JSONTree → List Token
  | [] => []
  | v :: elements => .comma :: (v.tokens ++ moreElements elements)

end

mutual

/-- The depth-first traversal of a value. -/
def told : JSONTree → List Told
  | keyword k => [.keyword k]
  | string s => [.string s]
  | number n => [toldNumber n]
  | object members => .startObject :: (toldMembers members ++ [.endObject])
  | array elements => .startArray :: (toldElements elements ++ [.endArray])

def toldMembers : List (JString × JSONTree) → List Told
  | [] => []
  | (key, v) :: members => .startValue key :: (v.told ++ .endValue :: toldMembers members)

def toldElements : List JSONTree → List Told
  | [] => []
  | v :: elements => .startArrayElement :: (v.told ++ .endArrayElement :: toldElements elements)

end

/-- What is told of a document that consists of a value. -/
def toldDocument (v : JSONTree) : List Told := .startDocument :: (v.told ++ [.endDocument])

/-- The text, up to a place, is the object or the array. -/
def Begins (v : JSONTree) (t rest : JString) : Prop := v.IsCollection ∧ LexesAll t v.tokens rest

/-- **A JSON text**: one object or array, and nothing but white space after it. -/
def IsText (v : JSONTree) (t : JString) : Prop := ∃ rest, v.Begins t rest ∧ Blank rest

end JSONTree

end JavaFx.Json
