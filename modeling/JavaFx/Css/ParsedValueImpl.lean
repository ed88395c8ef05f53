import JavaFx.Lib.EarlierFirst
import Mathlib.Data.List.ReduceOption
import Mathlib.Logic.Function.Basic

/-!
# `ParsedValueImpl`

A parsed value holds a scalar, another parsed value, or an array of parsed values of one or two
dimensions, in which entries and rows may be `null`. Parsed values are objects: `equals` compares
references first and then the field `hash`, which `hashCode` fills when it is called.
-/

namespace JavaFx.Css

open EarlierFirst

variable {L : Type}

/-- The field `value`. Parsed values and arrays are known by numbers. -/
inductive FieldValue (L : Type) where
  | null
  | leaf (l : L)
  | parsed (p : ℕ)
  | array (this : ℕ) (entries : List (Option ℕ))
  | arrays (this : ℕ) (rows : List (Option (List (Option ℕ))))

/-- The parsed values that a value refers to. -/
def FieldValue.parts : FieldValue L → List ℕ
  | null => []
  | leaf _ => []
  | parsed p => [p]
  | array _ entries => entries.reduceOption
  | arrays _ rows => rows.reduceOption.flatten.reduceOption

def FieldValue.isNull : FieldValue L → Bool
  | null => true
  | leaf _ | parsed _ | array _ _ | arrays _ _ => false

/-- The parsed values of a program, numbered in the order of their creation. The field `value` is
final, so it refers to values that were there before. Equal scalars are the same `L`. -/
structure ParsedValues (L : Type) where
  value : ℕ → FieldValue L
  older : ∀ n, ∀ m ∈ (value n).parts, m < n
  /-- `hashCode()` of a scalar -/
  leafHash : L → BitVec 32
  /-- `hashCode()` of an array, which is that of `Object` -/
  identityHash : ℕ → BitVec 32

/-- The fields `hash`. -/
abbrev HashFields := ℕ → BitVec 32

/-- `Integer.MIN_VALUE` -/
def minValue : BitVec 32 := BitVec.intMin 32

/-- The fields of values for which `hashCode` has not been called. -/
def HashFields.fresh : HashFields := fun _ => minValue

namespace ParsedValues

/-! ## `equals` -/

section Equals

variable [DecidableEq L]

/-- `thisValue != null ? !thisValue.equals(otherValue) : otherValue != null`, negated -/
def entryEquals (equals : ℕ → ℕ → Bool) : Option ℕ → Option ℕ → Bool
  | some this, some other => equals this other
  | some _, none => false
  | none, other => other.isNone

/-- The loop over two arrays of the same length. -/
def entriesEqual (equals : ℕ → ℕ → Bool) : List (Option ℕ) → List (Option ℕ) → Bool
  | this :: these, other :: others => entryEquals equals this other && entriesEqual equals these others
  | _, _ => true

def rowEquals (equals : ℕ → ℕ → Bool) : Option (List (Option ℕ)) → Option (List (Option ℕ)) → Bool
  | none, none => true
  | some these, some others => these.length = others.length && entriesEqual equals these others
  | _, _ => false

def rowsEqual (equals : ℕ → ℕ → Bool) :
    List (Option (List (Option ℕ))) → List (Option (List (Option ℕ))) → Bool
  | this :: these, other :: others => rowEquals equals this other && rowsEqual equals these others
  | _, _ => true

def valueEquals (equals : ℕ → ℕ → Bool) : FieldValue L → FieldValue L → Bool
  | .arrays _ these, .arrays _ others =>
    these.length = others.length && rowsEqual equals these others
  | .array _ these, .array _ others =>
    these.length = others.length && entriesEqual equals these others
  | .leaf this, .leaf other => this = other
  | .parsed this, .parsed other => equals this other
  | .null, .null => true
  | _, _ => false

def equalsStep (v : ParsedValues L) (hash : HashFields) (equals : ℕ → ℕ → Bool) (this other : ℕ) :
    Bool :=
  if other = this then true
  else if hash this ≠ hash other then false
  else valueEquals equals (v.value this) (v.value other)

def equals (v : ParsedValues L) (hash : HashFields) : ℕ → ℕ → Bool :=
  fixAt (v.equalsStep hash) fun _ => false

end Equals

/-! ## `hashCode` -/

/-- What a call of `hashCode` answers, unless it throws, and the fields after it. -/
abbrev Call := HashFields → Option (BitVec 32) × HashFields

/-- `value != null ? value.hashCode() : 0` -/
def valueHash (v : ParsedValues L) (hashCode : ℕ → Call) : FieldValue L → Call
  | .null => fun hash => (some 0, hash)
  | .leaf l => fun hash => (some (v.leafHash l), hash)
  | .parsed p => hashCode p
  | .array this _ => fun hash => (some (v.identityHash this), hash)
  | .arrays this _ => fun hash => (some (v.identityHash this), hash)

/-- `hash = 37 * hash + term`; `false` if it throws. -/
def addValue (v : ParsedValues L) (hashCode : ℕ → Call) (this : ℕ) (value : FieldValue L)
    (hash : HashFields) : Bool × HashFields :=
  match v.valueHash hashCode value hash with
  | (some term, hash') => (true, Function.update hash' this (37 * hash this + term))
  | (none, hash') => (false, hash')

def addValues (v : ParsedValues L) (hashCode : ℕ → Call) (this : ℕ) :
    List (FieldValue L) → HashFields → Bool × HashFields
  | [], hash => (true, hash)
  | value :: values, hash =>
    match v.addValue hashCode this value hash with
    | (true, hash) => v.addValues hashCode this values hash
    | (false, hash) => (false, hash)

/-- The value of an entry, `null` if the entry is. -/
def entryValue (v : ParsedValues L) (entry : Option ℕ) : FieldValue L :=
  match entry with
  | some val => v.value val
  | none => .null

/-- The loop over the rows reads the length of each. -/
def addRows (v : ParsedValues L) (hashCode : ℕ → Call) (this : ℕ) :
    List (Option (List (Option ℕ))) → HashFields → Bool × HashFields
  | [], hash => (true, hash)
  | none :: _, hash => (false, hash)
  | some row :: rows, hash =>
    match v.addValues hashCode this (row.map v.entryValue) hash with
    | (true, hash) => v.addRows hashCode this rows hash
    | (false, hash) => (false, hash)

/-- The loop over an array passes over entries without a value. -/
def entryValues (v : ParsedValues L) (entries : List (Option ℕ)) : List (FieldValue L) :=
  (entries.map v.entryValue).filter fun value => !value.isNull

def addAll (v : ParsedValues L) (hashCode : ℕ → Call) (this : ℕ) (value : FieldValue L)
    (hash : HashFields) : Bool × HashFields :=
  match value with
  | .arrays _ rows => v.addRows hashCode this rows hash
  | .array _ entries => v.addValues hashCode this (v.entryValues entries) hash
  | value => v.addValue hashCode this value hash

def hashCodeStep (v : ParsedValues L) (hashCode : ℕ → Call) (this : ℕ) : Call := fun hash =>
  if hash this = minValue then
    match v.addAll hashCode this (v.value this) (Function.update hash this 17) with
    | (true, hash) => (some (hash this), hash)
    | (false, hash) => (none, hash)
  else (some (hash this), hash)

def hashCode (v : ParsedValues L) : ℕ → Call := fixAt v.hashCodeStep fun hash => (none, hash)

/-- The fields after some calls of `hashCode`. -/
def afterCalls (v : ParsedValues L) (calls : List ℕ) : HashFields :=
  calls.foldl (fun hash n => (v.hashCode n hash).2) .fresh

end ParsedValues

end JavaFx.Css
