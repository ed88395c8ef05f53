import JavaFx.Fxml.ExpressionParser

/-!
# The texts of expressions

An expression is printed with single spaces between its tokens and with the parentheses that
precedence and left associativity require, and no others.
-/

namespace JavaFx.Fxml

/-! ## Precedence -/

/-- The precedences that `getPriority` lists: subtraction is an additive operator here. -/
def BinaryOperator.precedence : BinaryOperator → ℕ
  | .multiply | .divide | .modulo => 5
  | .add | .subtract => 4
  | .greaterThan | .greaterThanOrEqualTo | .lessThan | .lessThanOrEqualTo => 3
  | .equalTo | .notEqualTo => 2
  | .and => 1
  | .or => 0

variable {R : Type}

def precedence : Expression R → ℕ
  | .leaf _ => 7
  | .unary _ _ => 6
  | .binary b _ _ => b.precedence

/-- An operand of a unary operator in parentheses. -/
def wrapsOperand (operand : Expression R) : Bool := precedence operand < 6

/-- A left operand in parentheses. -/
def wrapsLeft (b : BinaryOperator) (left : Expression R) : Bool :=
  precedence left < b.precedence

/-- A right operand in parentheses. -/
def wrapsRight (b : BinaryOperator) (right : Expression R) : Bool :=
  precedence right ≤ b.precedence

/-! ## Lexemes -/

/-- What is printed between two spaces. -/
inductive Lexeme (R : Type) where
  | leaf (x : Leaf R)
  | operator (text : OperatorText)
  | leftParenthesis
  | rightParenthesis
deriving DecidableEq, Repr

/-- A text in parentheses, if it needs them. -/
def wrap (wraps : Bool) (xs : List (Lexeme R)) : List (Lexeme R) :=
  if wraps then .leftParenthesis :: xs ++ [.rightParenthesis] else xs

/-- The lexemes of an expression. -/
def lexemes : Expression R → List (Lexeme R)
  | .leaf x => [.leaf x]
  | .unary u x => .operator u.text :: wrap (wrapsOperand x) (lexemes x)
  | .binary b l r =>
      wrap (wrapsLeft b l) (lexemes l) ++ .operator b.text :: wrap (wrapsRight b r) (lexemes r)

/-- The leaf a lexeme is. -/
def Lexeme.leaf? : Lexeme R → Option (Leaf R)
  | .leaf x => some x
  | _ => none

theorem filterMap_wrap (wraps : Bool) (xs : List (Lexeme R)) :
    (wrap wraps xs).filterMap Lexeme.leaf? = xs.filterMap Lexeme.leaf? := by
  cases wraps with
  | false => rfl
  | true =>
      rw [wrap, if_pos rfl, List.cons_append, List.filterMap_cons_none rfl, List.filterMap_append]
      exact List.append_nil _

theorem filterMap_lexemes (e : Expression R) :
    (lexemes e).filterMap Lexeme.leaf? = e.leaves := by
  induction e with
  | leaf x => rfl
  | unary u x ih =>
      rw [lexemes, List.filterMap_cons_none rfl, filterMap_wrap, ih]
      rfl
  | binary b l r ihl ihr =>
      rw [lexemes, List.filterMap_append, List.filterMap_cons_none rfl, filterMap_wrap,
        filterMap_wrap, ihl, ihr]
      rfl

/-! ## Units -/

/-- The decimal digit `d`. -/
def decimalUnit (d : ℕ) : UInt16 := UInt16.ofNat (48 + d)

/-- The hexadecimal digit `d`. -/
def hexUnit (d : ℕ) : UInt16 := UInt16.ofNat (if d < 10 then 48 + d else 87 + d)

/-- A number in decimal digits. -/
def decimalText (n : ℕ) : List UInt16 :=
  if n = 0 then [decimalUnit 0] else (Nat.digits 10 n).reverse.map decimalUnit

/-- A unit inside a string literal in double quotes. -/
def escapeUnit (c : UInt16) : List UInt16 :=
  if c == unit '"' || c == unit '\\' then [unit '\\', c]
  else if isISOControl c then
    [unit '\\', unit 'u', hexUnit (c.toNat / 4096), hexUnit (c.toNat / 256 % 16),
      hexUnit (c.toNat / 16 % 16), hexUnit (c.toNat % 16)]
  else [c]

variable (lang : Lang R)

def Value.text : Value R → List UInt16
  | .null => units "null"
  | .bool true => units "true"
  | .bool false => units "false"
  | .string s => unit '"' :: s.flatMap escapeUnit ++ [unit '"']
  | .long n => decimalText n
  | .double d => lang.doubleToString d

/-- A Java identifier. -/
def Lang.isIdentifier : List UInt16 → Bool
  | [] => false
  | c :: rest => lang.isJavaIdentifierStart c && rest.all lang.isJavaIdentifierPart

/-- An index. -/
def Lang.isIndex (key : List UInt16) : Bool := !key.isEmpty && key.all lang.isDigit

/-- The quote around a key in brackets. -/
def quoteOf (key : List UInt16) : UInt16 := if unit '"' ∈ key then unit '\'' else unit '"'

/-- A key after the first. -/
def keyText (key : List UInt16) : List UInt16 :=
  if lang.isIdentifier key then unit '.' :: key
  else if lang.isIndex key then unit '[' :: key ++ [unit ']']
  else unit '[' :: quoteOf key :: key ++ [quoteOf key, unit ']']

def keyPathText : List (List UInt16) → List UInt16
  | [] => []
  | first :: keys => first ++ keys.flatMap (keyText lang)

def Leaf.text : Leaf R → List UInt16
  | .literal v => v.text lang
  | .variable keyPath => keyPathText lang keyPath

def Lexeme.text : Lexeme R → List UInt16
  | .leaf x => x.text lang
  | .operator op => op.units
  | .leftParenthesis => units "("
  | .rightParenthesis => units ")"

/-- Lexemes with single spaces between them. -/
def textOf (xs : List (Lexeme R)) : List UInt16 :=
  [unit ' '].intercalate (xs.map (Lexeme.text lang))

/-- The text of an expression. -/
def print (e : Expression R) : List UInt16 := textOf lang (lexemes e)

end JavaFx.Fxml
