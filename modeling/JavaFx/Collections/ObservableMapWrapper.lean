import JavaFx.Java

/-!
# `com.sun.javafx.collections.ObservableMapWrapper`

The wrapper forwards every operation to a backing `HashMap` and builds the
`MapChange` events itself. The backing map is a heap of entries, of which `table`
lists those that are in the map, in the order an iterator visits them. An entry
keeps its identity: handles to it stay usable after its mapping is removed.
Iterators fail fast: a structural modification behind their back makes `next`
and `remove` throw.

Keys are compared with their equality. Values may be `null`, and `equals` of
values is an arbitrary `BEq`. An operation that throws changes nothing.
-/

namespace JavaFx.Collections

variable {K V : Type} [DecidableEq K] [BEq V]

/-- `MapChangeListener.Change` -/
structure MapChange (K V : Type) where
  key : K
  valueRemoved : Option V
  valueAdded : Option V
  wasAdded : Bool
  wasRemoved : Bool
deriving DecidableEq, Repr

structure MapEntry (K V : Type) where
  key : K
  value : Option V
deriving DecidableEq, Repr

/-- An iterator of one of the three views; `lastKey` and `lastValue` are fields
of the view's iterator, the others those of the backing one. -/
structure MapIterator (K V : Type) where
  rest : List ℕ
  lastReturned : Option ℕ := none
  lastKey : Option K := none
  lastValue : Option V := none
  expectedModCount : ℕ
deriving DecidableEq, Repr

structure ObservableMap (K V : Type) where
  entries : List (MapEntry K V) := []
  table : List ℕ := []
  modCount : ℕ := 0
  iterators : List (MapIterator K V) := []
deriving DecidableEq, Repr

/-! ## Values -/

/-- `a == b || a != null && a.equals(b)` -/
def sameValue : Option V → Option V → Bool
  | none, none => true
  | some a, some b => a == b
  | _, _ => false

/-- `ret == null && value != null || ret != null && !ret.equals(value)` -/
def valueChanged (ret value : Option V) : Bool :=
  match ret with
  | none => value.isSome
  | some _ => !sameValue ret value

namespace ObservableMap

/-! ## The backing map -/

def keyOf (s : ObservableMap K V) (n : ℕ) : Option K :=
  s.entries[n]?.map MapEntry.key

def valueOf (s : ObservableMap K V) (n : ℕ) : Option (Option V) :=
  s.entries[n]?.map MapEntry.value

/-- The entry of a key. -/
def find (s : ObservableMap K V) (key : K) : Option ℕ :=
  s.table.find? fun n => s.keyOf n = some key

/-- The value of a key; `none` when the key is absent. -/
def content (s : ObservableMap K V) (key : K) : Option (Option V) :=
  (s.find key).bind s.valueOf

/-- `entry.setValue(value)` of the backing map. -/
def writeValue (s : ObservableMap K V) (n : ℕ) (value : Option V) :
    ObservableMap K V :=
  { s with entries := s.entries.modify n fun e => { e with value := value } }

/-- A new mapping. -/
def addEntry (s : ObservableMap K V) (key : K) (value : Option V) :
    ObservableMap K V :=
  { s with
    entries := s.entries ++ [⟨key, value⟩]
    table := s.table ++ [s.entries.length]
    modCount := s.modCount + 1 }

def removeEntry (s : ObservableMap K V) (n : ℕ) : ObservableMap K V :=
  { s with table := s.table.erase n, modCount := s.modCount + 1 }

/-! ## The operations of the map -/

/-- The map after an operation and the events it fired. -/
abbrev Result (K V : Type) := ObservableMap K V × List (MapChange K V)

def put (key : K) (value : Option V) (s : ObservableMap K V) : Result K V :=
  match s.find key with
  | some n =>
      let ret := (s.valueOf n).getD none
      (s.writeValue n value,
        if valueChanged ret value then [⟨key, ret, value, true, true⟩] else [])
  | none => (s.addEntry key value, [⟨key, none, value, true, false⟩])

def remove (key : K) (s : ObservableMap K V) : Result K V :=
  match s.find key with
  | none => (s, [])
  | some n =>
      let ret := (s.valueOf n).getD none
      (s.removeEntry n, [⟨key, ret, none, false, true⟩])

/-- One operation after another. -/
def andThen (r : Result K V) (f : ObservableMap K V → Result K V) : Result K V :=
  ((f r.1).1, r.2 ++ (f r.1).2)

/-- `putAll(m)`; `m` lists the entries in the order of `m.entrySet()`. -/
def putAll (m : List (MapEntry K V)) (s : ObservableMap K V) : Result K V :=
  m.foldl (fun r e => andThen r (put e.key e.value)) (s, [])

/-- `i.next()`, then `i.remove()` if the entry passes the test. -/
def removeIf (test : K → Option V → Bool) (s : ObservableMap K V) (n : ℕ) :
    Result K V :=
  match s.entries[n]? with
  | none => (s, [])
  | some e =>
      if test e.key e.value then
        (s.removeEntry n, [⟨e.key, e.value, none, false, true⟩])
      else (s, [])

/-- A loop over `backingMap.entrySet().iterator()` that removes some entries. -/
def removeLoop (test : K → Option V → Bool) (s : ObservableMap K V) : Result K V :=
  s.table.foldl (fun r n => andThen r (removeIf test · n)) (s, [])

def clear (s : ObservableMap K V) : Result K V := removeLoop (fun _ _ => true) s

/-! ## The operations of the views -/

/-- `ObservableKeySet.removeRetain(c, remove)`; `c` stands for `c.contains`. -/
def keySetRemoveRetain (c : K → Bool) (remove : Bool) (s : ObservableMap K V) :
    Result K V :=
  removeLoop (fun key _ => remove == c key) s

/-- `ObservableValues.removeRetain(c, remove)` -/
def valuesRemoveRetain (c : Option V → Bool) (remove : Bool)
    (s : ObservableMap K V) : Result K V :=
  removeLoop (fun _ value => remove == c value) s

/-- `ObservableEntrySet.removeRetain(c, remove)` -/
def entrySetRemoveRetain (c : MapEntry K V → Bool) (remove : Bool)
    (s : ObservableMap K V) : Result K V :=
  removeLoop (fun key value => remove == c ⟨key, value⟩) s

/-- The first entry whose value equals `o`. The loop calls `equals` on the values
it passes, so a `null` among them throws. -/
def firstWithValue (s : ObservableMap K V) (o : Option V) :
    List ℕ → Except Exn (Option ℕ)
  | [] => .ok none
  | n :: rest =>
      match s.valueOf n with
      | some (some v) =>
          if sameValue (some v) o then .ok (some n) else s.firstWithValue o rest
      | _ => .error .nullPointer

/-- `ObservableValues.remove(o)` -/
def valuesRemove (o : Option V) (s : ObservableMap K V) :
    Except Exn (Result K V) := do
  match ← s.firstWithValue o s.table with
  | some n => return removeIf (fun _ _ => true) s n
  | none => return (s, [])

/-- `ObservableEntrySet.remove(o)`; `o` is `none` when it is not an entry. -/
def entrySetRemove (o : Option (MapEntry K V)) (s : ObservableMap K V) :
    Result K V :=
  match o with
  | none => (s, [])
  | some e =>
      match s.find e.key with
      | none => (s, [])
      | some n =>
          if sameValue ((s.valueOf n).getD none) e.value then
            (s.removeEntry n, [⟨e.key, e.value, none, false, true⟩])
          else (s, [])

/-! ## Iterators and entries -/

/-- `iterator()` of one of the views. -/
def iterator (s : ObservableMap K V) : ObservableMap K V :=
  { s with
    iterators := s.iterators ++
      [{ rest := s.table, expectedModCount := s.modCount }] }

def setIterator (s : ObservableMap K V) (j : ℕ) (it : MapIterator K V) :
    ObservableMap K V :=
  { s with iterators := s.iterators.set j it }

/-- The iterator `it` on the entry `n`. -/
def visit (s : ObservableMap K V) (it : MapIterator K V) (n : ℕ)
    (rest : List ℕ) : MapIterator K V :=
  { it with
    rest := rest
    lastReturned := some n
    lastKey := s.keyOf n
    lastValue := (s.valueOf n).getD none }

/-- `next()` of the iterator `j`. -/
def next (j : ℕ) (s : ObservableMap K V) : Except Exn (Result K V) :=
  match s.iterators[j]? with
  | none => .error .indexOutOfBounds
  | some it =>
      if s.modCount ≠ it.expectedModCount then .error .concurrentModification
      else
        match it.rest with
        | [] => .error .noSuchElement
        | n :: rest => .ok (s.setIterator j (s.visit it n rest), [])

/-- `HashMap.removeNode(key)` -/
def removeKey (s : ObservableMap K V) (key : K) : ObservableMap K V :=
  match s.find key with
  | none => s
  | some n => s.removeEntry n

/-- `remove()` of the iterator `j`: the backing iterator removes the entry it has
last returned, by its key, and the event reports the cached key and value. -/
def iteratorRemove (j : ℕ) (s : ObservableMap K V) : Except Exn (Result K V) :=
  match s.iterators[j]? with
  | none => .error .indexOutOfBounds
  | some it =>
      match it.lastReturned.bind s.keyOf, it.lastKey with
      | some key, some lastKey =>
          if s.modCount ≠ it.expectedModCount then .error .concurrentModification
          else
            let s' := s.removeKey key
            let it' := { it with lastReturned := none, expectedModCount := s'.modCount }
            .ok (s'.setIterator j it', [⟨lastKey, it.lastValue, none, false, true⟩])
      | _, _ => .error (.illegalState "")

/-- `ObservableEntry.setValue(value)` on the entry `n`. -/
def setValue (n : ℕ) (value : Option V) (s : ObservableMap K V) :
    Except Exn (Result K V) :=
  match s.entries[n]? with
  | none => .error .indexOutOfBounds
  | some e => .ok (s.writeValue n value, [⟨e.key, e.value, value, true, true⟩])

/-! ## Runs -/

end ObservableMap

/-- The operations on the map, its views, their iterators and entries. The
iterators of the three views differ only in what `next()` returns. `rehash` is
the freedom of the backing map to change its iteration order. -/
inductive MapOp (K V : Type) where
  | put (key : K) (value : Option V)
  | remove (key : K)
  | putAll (m : List (MapEntry K V))
  | clear
  | keySetRemove (key : K)
  | keySetRemoveRetain (c : K → Bool) (remove : Bool)
  | valuesRemove (o : Option V)
  | valuesRemoveRetain (c : Option V → Bool) (remove : Bool)
  | entrySetRemove (o : Option (MapEntry K V))
  | entrySetRemoveRetain (c : MapEntry K V → Bool) (remove : Bool)
  | iterator
  | next (j : ℕ)
  | iteratorRemove (j : ℕ)
  | setValue (n : ℕ) (value : Option V)
  | rehash (table : List ℕ)

namespace ObservableMap

def step (s : ObservableMap K V) : MapOp K V → Except Exn (Result K V)
  | .put key value => .ok (s.put key value)
  | .remove key => .ok (s.remove key)
  | .putAll m => .ok (s.putAll m)
  | .clear => .ok s.clear
  | .keySetRemove key => .ok (s.remove key)
  | .keySetRemoveRetain c remove => .ok (s.keySetRemoveRetain c remove)
  | .valuesRemove o => s.valuesRemove o
  | .valuesRemoveRetain c remove => .ok (s.valuesRemoveRetain c remove)
  | .entrySetRemove o => .ok (s.entrySetRemove o)
  | .entrySetRemoveRetain c remove => .ok (s.entrySetRemoveRetain c remove)
  | .iterator => .ok (s.iterator, [])
  | .next j => s.next j
  | .iteratorRemove j => s.iteratorRemove j
  | .setValue n value => s.setValue n value
  | .rehash table =>
      if table.Perm s.table then .ok ({ s with table := table }, []) else .ok (s, [])

/-- The map after an operation, also after one that threw. -/
def perform (s : ObservableMap K V) (op : MapOp K V) : Result K V :=
  match s.step op with
  | .ok r => r
  | .error _ => (s, [])

/-- The map after a sequence of operations and all the events fired. -/
def performAll (s : ObservableMap K V) (ops : List (MapOp K V)) : Result K V :=
  ops.foldl (fun r op => andThen r (perform · op)) (s, [])

end ObservableMap

end JavaFx.Collections
