import JavaFx.Lib.Decimal
import JavaFx.Json.JSONScanner

/-!
# `JSONDocument`

The objects and arrays of a document with what they hold. Doubles are a type of their own, with
the two functions of the library that the code calls on them.
-/

namespace JavaFx.Json

/-- What a document holds. The keys of an object are in the order of a `LinkedHashMap`; `none` is
the null key. -/
inductive JSONValue (δ : Type) where
  | null
  | bool (b : Bool)
  | long (n : Int64)
  | double (d : δ)
  | string (s : JString)
  | object (entries : List (Option JString × JSONValue δ))
  | array (elements : List (JSONValue δ))

/-- `Double.parseDouble` and `Double.toString`. -/
structure Doubles (δ : Type) where
  parseDouble : JString → δ
  toString : δ → JString

variable {δ : Type}

namespace JSONValue

/-- `LinkedHashMap.put`: a key that is there keeps its place. -/
def put (key : Option JString) (value : JSONValue δ) :
    List (Option JString × JSONValue δ) → List (Option JString × JSONValue δ)
  | [] => [(key, value)]
  | e :: entries => if e.1 = key then (key, value) :: entries else e :: put key value entries

/-- `insert(Object value)` of a reader: the array or the object gets one more value. -/
def insert (collection : JSONValue δ) (key : Option JString) (value : JSONValue δ) :
    JSONValue δ :=
  match collection with
  | .array elements => .array (elements ++ [value])
  | .object entries => .object (put key value entries)
  | other => other

end JSONValue

end JavaFx.Json
