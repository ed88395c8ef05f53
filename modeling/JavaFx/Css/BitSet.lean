import JavaFx.Lib.WordSet

/-!
# `BitSet`

Pseudo-classes and style-classes are bits of a `long[]`. The array of a set may be longer
than its elements need, and the bulk operations do not treat the words past the end of
the shorter array alike: `addAll` and `retainAll` report a change when only the lengths
differ, and `removeAll` drops the words the other set does not have.
-/

namespace JavaFx.Css

open WordSet

/-- `getIndex` and `getT`: the elements are numbered. -/
class Indexed (T : Type) where
  getIndex : T → ℕ
  getT : ℕ → T
  getT_getIndex : ∀ t, getT (getIndex t) = t
  getIndex_getT : ∀ n, getIndex (getT n) = n

open Indexed

instance : Indexed ℕ := ⟨id, id, fun _ => rfl, fun _ => rfl⟩

/-- A set of `T`. -/
structure BitSet (T : Type) where
  bits : List (BitVec 64) := []
  hasListeners : Bool := false
deriving DecidableEq

/-- What listeners are told of one element. -/
structure Change (T : Type) where
  element : T
  removed : Bool
deriving DecidableEq

/-- What a mutator leaves, returns (`clear` returns nothing) and tells the listeners. -/
structure Outcome (T : Type) where
  set : BitSet T
  answer : Option Bool
  notified : List (Change T)

variable {T : Type}

namespace BitSet

/-- `notifyObservers` for some elements. -/
def notify (s : BitSet T) (ts : List T) (removed : Bool) : List (Change T) :=
  if s.hasListeners then ts.map fun t => ⟨t, removed⟩ else []

theorem mem_notify {s : BitSet T} (hs : s.hasListeners = true) {ts : List T} {r : Bool}
    {c : Change T} : c ∈ s.notify ts r ↔ c.removed = r ∧ c.element ∈ ts := by
  rw [notify, if_pos hs, List.mem_map]
  constructor
  · rintro ⟨t, ht, rfl⟩
    exact ⟨rfl, ht⟩
  · rintro ⟨rfl, hmem⟩
    exact ⟨c.element, hmem, rfl⟩

theorem nodup_notify {s : BitSet T} {ts : List T} (h : ts.Nodup) (r : Bool) :
    (s.notify ts r).Nodup := by
  unfold notify
  split
  · exact h.map fun _ _ heq => (Change.mk.inj heq).1
  · exact List.nodup_nil

end BitSet

variable [Indexed T]

/-! ## The code -/

/-- The bits the loop over `m = 1l << bit` finds in a word. -/
def bitsIn (x : BitVec 64) : List ℕ :=
  (List.range 64).filter fun bit => decide ((1#64 <<< bit) &&& x = 1#64 <<< bit)

/-- The elements found in the words `f 0, …, f (len - 1)`. -/
def elementsIn (f : ℕ → BitVec 64) (len : ℕ) : List T :=
  (List.range len).flatMap fun n => (bitsIn (f n)).map fun bit => getT (n * 64 + bit)

namespace BitSet

def size (s : BitSet T) : ℕ := (s.bits.map fun mask => (bitsIn mask).length).sum

def isEmpty (s : BitSet T) : Bool := s.bits.all fun mask => decide (mask = 0#64)

/-- The array with room for `element`. -/
def grow (bits : List (BitVec 64)) (element : ℕ) : List (BitVec 64) :=
  if element ≥ bits.length then bits ++ List.replicate (element + 1 - bits.length) 0#64 else bits

def add (s : BitSet T) : Option T → Outcome T
  | none => ⟨s, some false, []⟩
  | some t =>
      let element := getIndex t / 64
      let bit := 1#64 <<< (getIndex t % 64)
      let bits := grow s.bits element
      let temp := word bits element
      let modified := decide (temp ||| bit ≠ temp)
      ⟨{ s with bits := bits.set element (temp ||| bit) }, some modified,
        if modified then s.notify [t] false else []⟩

/-- The set after a change: an array of zeros is replaced by `EMPTY_SET`. -/
def withBits (s : BitSet T) (bits : List (BitVec 64)) : BitSet T :=
  { s with bits := if bits.all fun x => decide (x = 0#64) then [] else bits }

def remove (s : BitSet T) : Option T → Outcome T
  | none => ⟨s, some false, []⟩
  | some t =>
      let element := getIndex t / 64
      let bit := 1#64 <<< (getIndex t % 64)
      if element ≥ s.bits.length then ⟨s, some false, []⟩
      else
        let temp := word s.bits element
        let bits := s.bits.set element (temp &&& ~~~bit)
        if temp &&& ~~~bit ≠ temp then ⟨s.withBits bits, some true, s.notify [t] true⟩
        else ⟨{ s with bits := bits }, some false, []⟩

def contains (s : BitSet T) : Option T → Bool
  | none => false
  | some t =>
      decide (getIndex t / 64 < s.bits.length) &&
        decide (word s.bits (getIndex t / 64) &&& (1#64 <<< (getIndex t % 64)) =
          1#64 <<< (getIndex t % 64))

/-- The argument is `none` if it is null or no set of the same class. -/
def containsAll (s : BitSet T) : Option (BitSet T) → Bool
  | none => false
  | some other =>
      if s.bits.length = 0 ∧ other.bits.length = 0 then true
      else if s.bits.length < other.bits.length then false
      else (List.range other.bits.length).all fun n =>
        decide (word s.bits n &&& word other.bits n = word other.bits n)

/-- `union`, in `addAll`. -/
def unionWords (maskOne maskTwo : List (BitVec 64)) : List (BitVec 64) :=
  (List.range (if maskOne.length < maskTwo.length then maskTwo.length else maskOne.length)).map
    fun n =>
      if n < maskOne.length ∧ n < maskTwo.length then word maskOne n ||| word maskTwo n
      else if n < maskOne.length then word maskOne n
      else word maskTwo n

/-- `modified`, in `addAll`. -/
def unionModified (maskOne maskTwo : List (BitVec 64)) : Bool :=
  (List.range (if maskOne.length < maskTwo.length then maskTwo.length else maskOne.length)).any
    fun n =>
      if n < maskOne.length ∧ n < maskTwo.length then
        decide (word (unionWords maskOne maskTwo) n ≠ word maskOne n)
      else if n < maskOne.length then false
      else true

/-- `bitsAdded`, in `addAll`; none are added where only this set has a word. -/
def bitsAdded (maskOne maskTwo : List (BitVec 64)) (n : ℕ) : BitVec 64 :=
  if n < maskOne.length ∧ n < maskTwo.length then ~~~word maskOne n &&& word maskTwo n
  else if n < maskOne.length then 0#64
  else word maskTwo n

def addAll (s : BitSet T) : Option (BitSet T) → Outcome T
  | none => ⟨s, some false, []⟩
  | some other =>
      if unionModified s.bits other.bits then
        ⟨{ s with bits := unionWords s.bits other.bits }, some true,
          s.notify (elementsIn (bitsAdded s.bits other.bits)
            (if s.bits.length < other.bits.length then other.bits.length else s.bits.length)) false⟩
      else ⟨s, some false, []⟩

def clear (s : BitSet T) : Outcome T :=
  ⟨{ s with bits := [] }, none, s.notify (elementsIn (word s.bits) s.bits.length) true⟩

/-- `max`, in `retainAll` and `removeAll`. -/
def shorter (maskOne maskTwo : List (BitVec 64)) : ℕ :=
  if maskOne.length < maskTwo.length then maskOne.length else maskTwo.length

/-- `intersection`, in `retainAll`. -/
def intersectionWords (maskOne maskTwo : List (BitVec 64)) : List (BitVec 64) :=
  (List.range (shorter maskOne maskTwo)).map fun n => word maskOne n &&& word maskTwo n

def retainAll (s : BitSet T) : Option (BitSet T) → Outcome T
  | none => { s.clear with answer := some true }
  | some other =>
      if decide (s.bits.length > shorter s.bits other.bits) ||
          (List.range (shorter s.bits other.bits)).any fun n =>
            decide (word (intersectionWords s.bits other.bits) n ≠ word s.bits n) then
        ⟨s.withBits (intersectionWords s.bits other.bits), some true,
          s.notify (elementsIn (fun n =>
            if n < other.bits.length then word s.bits n &&& ~~~word other.bits n
            else word s.bits n) s.bits.length) true⟩
      else ⟨s, some false, []⟩

/-- `difference`, in `removeAll`. -/
def differenceWords (maskOne maskTwo : List (BitVec 64)) : List (BitVec 64) :=
  (List.range (shorter maskOne maskTwo)).map fun n => word maskOne n &&& ~~~word maskTwo n

def removeAll (s : BitSet T) : Option (BitSet T) → Outcome T
  | none => ⟨s, some false, []⟩
  | some other =>
      if (List.range (shorter s.bits other.bits)).any fun n =>
          decide (word (differenceWords s.bits other.bits) n ≠ word s.bits n) then
        ⟨s.withBits (differenceWords s.bits other.bits), some true,
          s.notify (elementsIn (fun n => word s.bits n &&& word other.bits n)
            (shorter s.bits other.bits)) true⟩
      else ⟨s, some false, []⟩

/-- `hash = 71 * hash + (int)(mask ^ (mask >>> 32))` over the words. -/
def hashCode (s : BitSet T) : BitVec 32 :=
  s.bits.foldl (fun (hash : BitVec 32) (mask : BitVec 64) =>
    71#32 * hash + (mask ^^^ (mask >>> 32)).setWidth 32) 7#32

def equals (s : BitSet T) : Option (BitSet T) → Bool
  | none => false
  | some other =>
      if s.bits.length ≠ other.bits.length then false
      else (List.range s.bits.length).all fun m => decide (word s.bits m = word other.bits m)

/-! ## The elements -/

/-- The elements of a set. -/
def elements (s : BitSet T) : Set T := {t | s.contains (some t) = true}

theorem mem_elements {s : BitSet T} {t : T} :
    t ∈ s.elements ↔ mem s.bits (getIndex t) = true := by
  have hmod : getIndex t % 64 < 64 := Nat.mod_lt _ (by decide)
  show s.contains (some t) = true ↔ _
  rw [contains, Bool.and_eq_true, decide_eq_true_eq, decide_eq_true_eq, BitVec.and_comm,
    mask_and_eq_iff hmod]
  exact ⟨fun h => h.2, fun h => ⟨lt_length_of_mem h, h⟩⟩

theorem getT_mem_elements {s : BitSet T} {i : ℕ} :
    (getT i : T) ∈ s.elements ↔ mem s.bits i = true := by
  rw [mem_elements, getIndex_getT]

/-- Inclusion is inclusion of every word. -/
theorem elements_subset_iff {a b : BitSet T} :
    b.elements ⊆ a.elements ↔ ∀ n, word a.bits n &&& word b.bits n = word b.bits n := by
  rw [← mem_subset_iff]
  constructor
  · intro h i hi
    exact getT_mem_elements.mp (h (getT_mem_elements.mpr hi))
  · intro h t ht
    exact mem_elements.mpr (h _ (mem_elements.mp ht))

theorem elements_eq_iff {a b : BitSet T} :
    a.elements = b.elements ↔ ∀ n, word a.bits n = word b.bits n := by
  rw [← mem_eq_iff, Set.ext_iff]
  constructor
  · intro h i
    rw [Bool.eq_iff_iff, ← getT_mem_elements (T := T), ← getT_mem_elements (T := T)]
    exact h _
  · intro h t
    rw [mem_elements, mem_elements, h]

/-- A set is known by the bit of every index. -/
theorem elements_eq_of_mem {s : BitSet T} {E : Set T}
    (h : ∀ i, mem s.bits i = true ↔ (getT i : T) ∈ E) : s.elements = E := by
  ext t
  rw [mem_elements, h, getT_getIndex]

theorem elements_withBits (s : BitSet T) (bits : List (BitVec 64)) :
    (s.withBits bits).elements = ({ s with bits := bits } : BitSet T).elements := by
  rw [elements_eq_iff]
  intro n
  show word (if _ then [] else bits) n = word bits n
  split
  · next hall =>
      rw [word_of_ge (Nat.zero_le n)]
      by_cases hn : n < bits.length
      · rw [word_of_lt hn]
        exact (of_decide_eq_true (List.all_eq_true.mp hall _ (List.getElem_mem hn))).symm
      · rw [word_of_ge (not_lt.mp hn)]
  · rfl

/-! ### What the loops find -/

theorem bitsIn_eq (x : BitVec 64) : bitsIn x = (List.range 64).filter fun b => x.getLsbD b := by
  apply List.filter_congr
  intro b hb
  rw [Bool.eq_iff_iff, decide_eq_true_eq]
  exact mask_and_eq_iff (List.mem_range.mp hb)

theorem elementsIn_eq (f : ℕ → BitVec 64) (len : ℕ) :
    (elementsIn f len : List T) = (members f len).map getT := by
  rw [elementsIn, members, List.map_flatMap]
  apply List.flatMap_congr
  intro n _
  rw [bitsIn_eq, List.map_map]
  rfl

theorem getT_injective : Function.Injective (getT : ℕ → T) := fun i j h => by
  rw [← getIndex_getT (T := T) i, h, getIndex_getT]

theorem nodup_elementsIn (f : ℕ → BitVec 64) (len : ℕ) : (elementsIn f len : List T).Nodup := by
  rw [elementsIn_eq]
  exact (nodup_members f len).map getT_injective

theorem mem_elementsIn {f : ℕ → BitVec 64} {len : ℕ} {t : T} :
    t ∈ elementsIn f len ↔ getIndex t / 64 < len ∧
      (f (getIndex t / 64)).getLsbD (getIndex t % 64) = true := by
  rw [elementsIn_eq, ← mem_members (by decide)]
  constructor
  · intro h
    obtain ⟨i, hi, rfl⟩ := List.mem_map.mp h
    rw [getIndex_getT]
    exact hi
  · intro h
    exact List.mem_map.mpr ⟨_, h, getT_getIndex t⟩

/-! ## Set operations -/

/-- A mutator has done what the operation of sets does: it has left the expected elements,
it returns whether that is a change, and it has told the listeners, once each, of exactly
the elements that came and went. -/
structure Does (s : BitSet T) (o : Outcome T) (expected : Set T) : Prop where
  elements : o.set.elements = expected
  answer : ∀ b, o.answer = some b → (b = true ↔ expected ≠ s.elements)
  nodup : o.notified.Nodup
  notified : s.hasListeners = true → ∀ c : Change T, c ∈ o.notified ↔
    (c.removed = false ∧ c.element ∈ expected \ s.elements) ∨
      (c.removed = true ∧ c.element ∈ s.elements \ expected)

/-- Nothing was to be changed, and nothing was. -/
theorem does_nothing {s : BitSet T} {o : Outcome T} {expected : Set T}
    (hset : o.set.elements = s.elements) (hanswer : o.answer = some false)
    (hnotified : o.notified = []) (h : expected = s.elements) : s.Does o expected := by
  subst h
  refine ⟨hset, fun b hb => ?_, ?_, fun _ c => ?_⟩
  · rw [hanswer] at hb
    cases hb
    exact iff_of_false Bool.false_ne_true fun hne => hne rfl
  · rw [hnotified]
    exact List.nodup_nil
  · rw [hnotified, Set.sdiff_self]
    exact iff_of_false List.not_mem_nil fun hor => by
      rcases hor with ⟨-, hn⟩ | ⟨-, hn⟩ <;> exact hn

/-- Elements were added. -/
theorem does_added {s : BitSet T} {o : Outcome T} {expected : Set T} {ts : List T}
    (hset : o.set.elements = expected)
    (hanswer : ∀ b, o.answer = some b → (b = true ↔ expected ≠ s.elements))
    (hnotified : o.notified = s.notify ts false) (hnodup : ts.Nodup)
    (hts : ∀ t, t ∈ ts ↔ t ∈ expected \ s.elements) (hsub : s.elements ⊆ expected) :
    s.Does o expected := by
  refine ⟨hset, hanswer, ?_, fun hs c => ?_⟩
  · rw [hnotified]
    exact nodup_notify hnodup false
  · rw [hnotified, mem_notify hs, hts, Set.sdiff_eq_empty.mpr hsub]
    constructor
    · exact Or.inl
    · rintro (h | ⟨-, hn⟩)
      · exact h
      · exact hn.elim

/-- Elements were removed. -/
theorem does_removed {s : BitSet T} {o : Outcome T} {expected : Set T} {ts : List T}
    (hset : o.set.elements = expected)
    (hanswer : ∀ b, o.answer = some b → (b = true ↔ expected ≠ s.elements))
    (hnotified : o.notified = s.notify ts true) (hnodup : ts.Nodup)
    (hts : ∀ t, t ∈ ts ↔ t ∈ s.elements \ expected) (hsub : expected ⊆ s.elements) :
    s.Does o expected := by
  refine ⟨hset, hanswer, ?_, fun hs c => ?_⟩
  · rw [hnotified]
    exact nodup_notify hnodup true
  · rw [hnotified, mem_notify hs, hts, Set.sdiff_eq_empty.mpr hsub]
    constructor
    · exact Or.inr
    · rintro (⟨-, hn⟩ | h)
      · exact hn.elim
      · exact h

/-! ### One element -/

theorem word_grow (bits : List (BitVec 64)) (element n : ℕ) :
    word (grow bits element) n = word bits n := by
  unfold grow
  split
  · by_cases hn : n < bits.length
    · rw [word, word, List.getD_append _ _ _ _ hn]
    · rw [word_of_ge (not_lt.mp hn), word, List.getD_append_right _ _ _ _ (not_lt.mp hn)]
      rw [List.getD_eq_getElem?_getD, List.getElem?_replicate]
      split <;> rfl
  · rfl

theorem lt_length_grow (bits : List (BitVec 64)) (element : ℕ) :
    element < (grow bits element).length := by
  unfold grow
  split
  · rw [List.length_append, List.length_replicate]
    omega
  · next h => exact not_le.mp h

theorem word_set {bits : List (BitVec 64)} {element : ℕ} (h : element < bits.length)
    (x : BitVec 64) (n : ℕ) :
    word (bits.set element x) n = if n = element then x else word bits n := by
  by_cases hn : n = element
  · subst hn
    rw [if_pos rfl, word_of_lt (by rw [List.length_set]; exact h), List.getElem_set_self]
  · rw [if_neg hn, word, word, List.getD_eq_getElem?_getD, List.getD_eq_getElem?_getD,
      List.getElem?_set_ne (Ne.symm hn)]

/-- Two indexes are the same if word and bit are. -/
theorem index_eq_iff {i j : ℕ} : i = j ↔ i / 64 = j / 64 ∧ i % 64 = j % 64 := by
  constructor
  · rintro rfl
    exact ⟨rfl, rfl⟩
  · rintro ⟨hdiv, hmod⟩
    rw [← Nat.div_add_mod i 64, ← Nat.div_add_mod j 64, hdiv, hmod]

theorem getT_eq_iff {i : ℕ} {t : T} : getT i = t ↔ i = getIndex t := by
  constructor
  · rintro rfl
    exact (getIndex_getT i).symm
  · rintro rfl
    exact getT_getIndex t

/-- The bits after one word has been replaced. -/
theorem mem_set {bits : List (BitVec 64)} {i : ℕ} {x : BitVec 64} {k : ℕ}
    (h : i / 64 < bits.length) : mem (bits.set (i / 64) x) k =
      if k / 64 = i / 64 then x.getLsbD (k % 64) else mem bits k := by
  rw [mem, word_set h]
  split <;> rfl

theorem add_elements (s : BitSet T) (t : T) :
    (s.add (some t)).set.elements = insert t s.elements := by
  apply elements_eq_of_mem
  intro k
  show mem ((grow s.bits (getIndex t / 64)).set (getIndex t / 64) _) k = true ↔ _
  rw [mem_set (lt_length_grow _ _), Set.mem_insert_iff, getT_eq_iff, getT_mem_elements]
  have hmod : k % 64 < 64 := Nat.mod_lt _ (by decide)
  by_cases hdiv : k / 64 = getIndex t / 64
  · rw [if_pos hdiv, BitVec.getLsbD_or, word_grow, ← hdiv, getLsbD_one_shiftLeft hmod,
      Bool.or_eq_true, decide_eq_true_eq, index_eq_iff (i := k), and_iff_right hdiv, or_comm]
    rfl
  · rw [if_neg hdiv, mem, word_grow]
    constructor
    · exact Or.inr
    · rintro (rfl | hmem)
      · exact absurd rfl hdiv
      · exact hmem

/-- **`add`.** -/
theorem add_does (s : BitSet T) (t : T) : s.Does (s.add (some t)) (insert t s.elements) := by
  have hmod : getIndex t % 64 < 64 := Nat.mod_lt _ (by decide)
  have hmem : t ∈ s.elements ↔
      (word s.bits (getIndex t / 64)).getLsbD (getIndex t % 64) = true := mem_elements
  have hchanged : word s.bits (getIndex t / 64) ||| (1#64 <<< (getIndex t % 64)) ≠
      word s.bits (getIndex t / 64) ↔ t ∉ s.elements := by
    rw [ne_eq, or_mask_eq_iff hmod, hmem]
  by_cases ht : t ∈ s.elements
  · apply does_nothing
    · rw [add_elements, Set.insert_eq_of_mem ht]
    · show some (decide _) = some false
      rw [word_grow, decide_eq_false (fun hne => hchanged.mp hne ht)]
    · show (if decide _ = true then _ else _) = []
      rw [word_grow, decide_eq_false (fun hne => hchanged.mp hne ht), if_neg Bool.false_ne_true]
    · exact Set.insert_eq_of_mem ht
  · have hne : insert t s.elements ≠ s.elements := fun heq => ht (heq ▸ Set.mem_insert t _)
    have hnotified : (s.add (some t)).notified = s.notify [t] false := by
      show (if decide _ = true then _ else _) = _
      rw [word_grow, decide_eq_true (hchanged.mpr ht), if_pos rfl]
    refine does_added (add_elements s t) (fun b hb => ?_) hnotified (List.nodup_singleton t)
      (fun u => ?_) (Set.subset_insert t _)
    · change some (decide _) = some b at hb
      rw [word_grow, decide_eq_true (hchanged.mpr ht)] at hb
      cases hb
      exact iff_of_true rfl hne
    · rw [List.mem_singleton, Set.mem_sdiff, Set.mem_insert_iff]
      constructor
      · rintro rfl
        exact ⟨Or.inl rfl, ht⟩
      · rintro ⟨hu | hu, hnot⟩
        · exact hu
        · exact absurd hu hnot

theorem remove_elements_of_lt (s : BitSet T) {t : T} (h : getIndex t / 64 < s.bits.length) :
    ({ s with bits := s.bits.set (getIndex t / 64) (word s.bits (getIndex t / 64) &&&
      ~~~(1#64 <<< (getIndex t % 64))) } : BitSet T).elements = s.elements \ {t} := by
  apply elements_eq_of_mem
  intro k
  have hmod : k % 64 < 64 := Nat.mod_lt _ (by decide)
  rw [mem_set h, Set.mem_sdiff, Set.mem_singleton_iff, getT_eq_iff, getT_mem_elements]
  by_cases hdiv : k / 64 = getIndex t / 64
  · rw [if_pos hdiv, BitVec.getLsbD_and, BitVec.getLsbD_not, getLsbD_one_shiftLeft hmod, ← hdiv,
      decide_eq_true hmod, Bool.true_and, Bool.and_eq_true, Bool.not_eq_true',
      decide_eq_false_iff_not, index_eq_iff (i := k), and_iff_right hdiv]
    rfl
  · rw [if_neg hdiv]
    constructor
    · intro hmem
      exact ⟨hmem, fun heq => hdiv (by rw [heq])⟩
    · exact fun hmem => hmem.1

/-- **`remove`.** -/
theorem remove_does (s : BitSet T) (t : T) :
    s.Does (s.remove (some t)) (s.elements \ {t}) := by
  have hmod : getIndex t % 64 < 64 := Nat.mod_lt _ (by decide)
  rw [remove]
  by_cases hge : getIndex t / 64 ≥ s.bits.length
  · -- the element is past the end of the array
    have ht : t ∉ s.elements := fun hmem => by
      have := lt_length_of_mem (mem_elements.mp hmem)
      omega
    rw [if_pos hge]
    exact does_nothing rfl rfl rfl (Set.sdiff_singleton_eq_self ht)
  · have hlt := not_le.mp hge
    rw [if_neg hge]
    have hchanged : word s.bits (getIndex t / 64) &&& ~~~(1#64 <<< (getIndex t % 64)) ≠
        word s.bits (getIndex t / 64) ↔ t ∈ s.elements := by
      rw [ne_eq, and_not_mask_eq_iff hmod, Bool.not_eq_false]
      exact mem_elements.symm
    by_cases ht : t ∈ s.elements
    · rw [if_pos (hchanged.mpr ht)]
      refine does_removed ?_ (fun b hb => ?_) rfl (List.nodup_singleton t) (fun u => ?_)
        Set.sdiff_subset
      · rw [elements_withBits]
        exact remove_elements_of_lt s hlt
      · cases hb
        refine iff_of_true rfl fun heq => ?_
        have hin : t ∈ s.elements \ {t} := by
          rw [heq]
          exact ht
        exact hin.2 rfl
      · rw [List.mem_singleton, Set.sdiff_sdiff_right_self, Set.mem_inter_iff,
          Set.mem_singleton_iff]
        constructor
        · rintro rfl
          exact ⟨ht, rfl⟩
        · exact fun h => h.2
    · rw [if_neg (fun hne => ht (hchanged.mp hne))]
      have hsame : s.elements \ {t} = s.elements := Set.sdiff_singleton_eq_self ht
      refine does_nothing ?_ rfl rfl hsame
      exact (remove_elements_of_lt s hlt).trans hsame

/-- **`clear`.** -/
theorem clear_does (s : BitSet T) : s.Does s.clear ∅ := by
  refine does_removed ?_ (fun b hb => (nomatch hb)) rfl (nodup_elementsIn _ _) (fun t => ?_)
    (Set.empty_subset _)
  · apply elements_eq_of_mem
    intro i
    refine iff_of_false (fun h => ?_) (Set.notMem_empty _)
    exact Nat.not_lt_zero _ (lt_length_of_mem h)
  · rw [mem_elementsIn, Set.sdiff_empty, mem_elements]
    exact ⟨fun h => h.2, fun h => ⟨lt_length_of_mem h, h⟩⟩

/-! ### Bulk operations -/

variable {s other : BitSet T}

theorem union_length (maskOne maskTwo : List (BitVec 64)) :
    (unionWords maskOne maskTwo).length = max maskOne.length maskTwo.length := by
  rw [unionWords, List.length_map, List.length_range]
  split <;> omega

/-- The words of the union. -/
theorem word_unionWords (maskOne maskTwo : List (BitVec 64)) (n : ℕ) :
    word (unionWords maskOne maskTwo) n = word maskOne n ||| word maskTwo n := by
  by_cases hn : n < (unionWords maskOne maskTwo).length
  · rw [unionWords, word_ofFn]
    rw [union_length] at hn
    rw [if_pos (by split <;> omega)]
    split
    · rfl
    · split
      · next hnot hone =>
          have hzero : word maskTwo n = 0#64 := word_of_ge (by omega)
          rw [hzero, BitVec.or_zero]
      · next hone =>
          rw [word_of_ge (not_lt.mp hone), BitVec.zero_or]
  · have hge := not_lt.mp hn
    rw [word_of_ge hge]
    rw [union_length] at hge
    rw [word_of_ge (le_of_max_le_left hge), word_of_ge (le_of_max_le_right hge), BitVec.or_zero]

theorem or_ne_iff {x y : BitVec 64} : x ||| y ≠ x ↔ ¬ x &&& y = y := by
  rw [not_iff_not]
  constructor
  · intro h
    rw [← h]
    ext k hk
    simp only [BitVec.getElem_and, BitVec.getElem_or]
    cases x[k] <;> cases y[k] <;> rfl
  · intro h
    rw [← h]
    ext k hk
    simp only [BitVec.getElem_and, BitVec.getElem_or]
    cases x[k] <;> cases y[k] <;> rfl

/-- `addAll` reports a change if there is one, and if the other array is the longer one. -/
theorem unionModified_iff : unionModified s.bits other.bits = true ↔
    s.bits.length < other.bits.length ∨ ¬ other.elements ⊆ s.elements := by
  rw [unionModified, List.any_eq_true, elements_subset_iff]
  constructor
  · rintro ⟨n, hn, hmod⟩
    split at hmod
    · rw [decide_eq_true_eq, word_unionWords, or_ne_iff] at hmod
      exact Or.inr fun hall => hmod (hall n)
    · split at hmod
      · cases hmod
      · next hone =>
          rw [List.mem_range] at hn
          left
          split at hn <;> omega
  · intro h
    by_cases hlen : s.bits.length < other.bits.length
    · refine ⟨s.bits.length, ?_, ?_⟩
      · rw [List.mem_range, if_pos hlen]
        exact hlen
      · rw [if_neg (fun hn => Nat.lt_irrefl _ hn.1), if_neg (Nat.lt_irrefl _)]
    · have hex := h.resolve_left hlen
      rw [not_forall] at hex
      obtain ⟨n, hn⟩ := hex
      have htwo : n < other.bits.length := by
        by_contra hge
        apply hn
        rw [word_of_ge (not_lt.mp hge), BitVec.and_zero]
      have hone : n < s.bits.length := lt_of_lt_of_le htwo (not_lt.mp hlen)
      refine ⟨n, ?_, ?_⟩
      · rw [List.mem_range, if_neg hlen]
        exact hone
      · rw [if_pos ⟨hone, htwo⟩, decide_eq_true_eq, word_unionWords, or_ne_iff]
        exact hn

theorem unionWords_elements :
    ({ s with bits := unionWords s.bits other.bits } : BitSet T).elements =
      s.elements ∪ other.elements := by
  apply elements_eq_of_mem
  intro i
  rw [Set.mem_union, getT_mem_elements, getT_mem_elements, mem, word_unionWords,
    BitVec.getLsbD_or, Bool.or_eq_true]
  rfl

theorem mem_bitsAdded {t : T} : t ∈ elementsIn (bitsAdded s.bits other.bits)
      (if s.bits.length < other.bits.length then other.bits.length else s.bits.length) ↔
    t ∈ (s.elements ∪ other.elements) \ s.elements := by
  rw [mem_elementsIn, Set.union_sdiff_left, Set.mem_sdiff, mem_elements, mem_elements, mem, mem]
  have hmod : getIndex t % 64 < 64 := Nat.mod_lt _ (by decide)
  generalize getIndex t / 64 = n, getIndex t % 64 = b at hmod
  have hbit : (bitsAdded s.bits other.bits n).getLsbD b = true ↔
      (word other.bits n).getLsbD b = true ∧ ¬ (word s.bits n).getLsbD b = true := by
    unfold bitsAdded
    split
    · rw [BitVec.getLsbD_and, BitVec.getLsbD_not, decide_eq_true hmod, Bool.true_and,
        Bool.and_eq_true, Bool.not_eq_true', Bool.not_eq_true, and_comm]
    · split
      · next hnot hone =>
          have hzero : word other.bits n = 0#64 := word_of_ge (by omega)
          rw [hzero, BitVec.getLsbD_zero]
          exact iff_of_false Bool.false_ne_true fun h => Bool.false_ne_true h.1
      · next hone =>
          rw [word_of_ge (not_lt.mp hone), BitVec.getLsbD_zero]
          exact ⟨fun h => ⟨h, Bool.false_ne_true⟩, fun h => h.1⟩
  rw [hbit, and_iff_right_iff_imp]
  rintro ⟨hone, -⟩
  have hlt : n < other.bits.length := by
    by_contra hge
    rw [word_of_ge (not_lt.mp hge), BitVec.getLsbD_zero] at hone
    exact Bool.false_ne_true hone
  split <;> omega

theorem addAll_elements (s other : BitSet T) :
    (s.addAll (some other)).set.elements = s.elements ∪ other.elements := by
  rw [addAll]
  by_cases hmod : unionModified s.bits other.bits = true
  · rw [if_pos hmod]
    exact unionWords_elements
  · rw [if_neg hmod]
    rw [unionModified_iff, not_or, not_not] at hmod
    exact (Set.union_eq_left.mpr hmod.2).symm

/-- **`addAll`** is the union, except that it reports a change when the other set has the
longer array but no other elements. -/
theorem addAll_does_iff : s.Does (s.addAll (some other)) (s.elements ∪ other.elements) ↔
    ¬ (s.bits.length < other.bits.length ∧ other.elements ⊆ s.elements) := by
  have hsame : s.elements ∪ other.elements = s.elements ↔ other.elements ⊆ s.elements :=
    Set.union_eq_left
  rw [addAll]
  by_cases hmod : unionModified s.bits other.bits = true
  · rw [if_pos hmod]
    constructor
    · rintro hdoes ⟨-, hsub⟩
      exact (hdoes.answer true rfl).mp rfl (hsame.mpr hsub)
    · intro hnot
      refine does_added unionWords_elements (fun b hb => ?_) rfl (nodup_elementsIn _ _)
        (fun t => mem_bitsAdded) Set.subset_union_left
      cases hb
      refine iff_of_true rfl fun heq => ?_
      rcases unionModified_iff.mp hmod with hlen | hsub
      · exact hnot ⟨hlen, hsame.mp heq⟩
      · exact hsub (hsame.mp heq)
  · rw [if_neg hmod]
    rw [unionModified_iff, not_or, not_not] at hmod
    refine iff_of_true ?_ fun h => hmod.1 h.1
    exact does_nothing rfl rfl rfl (hsame.mpr hmod.2)

theorem shorter_eq (maskOne maskTwo : List (BitVec 64)) :
    shorter maskOne maskTwo = min maskOne.length maskTwo.length := by
  unfold shorter
  split <;> omega

theorem word_intersectionWords (maskOne maskTwo : List (BitVec 64)) (n : ℕ) :
    word (intersectionWords maskOne maskTwo) n = word maskOne n &&& word maskTwo n := by
  rw [intersectionWords, word_ofFn, shorter_eq]
  split
  · rfl
  · next hge =>
      rw [lt_min_iff, not_and_or, not_lt, not_lt] at hge
      rcases hge with hge | hge
      · rw [word_of_ge hge, BitVec.zero_and]
      · rw [word_of_ge hge, BitVec.and_zero]

/-- `retainAll` reports a change if there is one, and if this array is the longer one. -/
theorem retainModified_iff : (decide (s.bits.length > shorter s.bits other.bits) ||
      (List.range (shorter s.bits other.bits)).any fun n =>
        decide (word (intersectionWords s.bits other.bits) n ≠ word s.bits n)) = true ↔
    other.bits.length < s.bits.length ∨ ¬ s.elements ⊆ other.elements := by
  rw [Bool.or_eq_true, decide_eq_true_eq, List.any_eq_true, shorter_eq, elements_subset_iff]
  constructor
  · rintro (hlen | ⟨n, -, hn⟩)
    · left
      omega
    · rw [decide_eq_true_eq, word_intersectionWords] at hn
      right
      intro hall
      apply hn
      rw [BitVec.and_comm]
      exact hall n
  · intro h
    by_cases hlen : other.bits.length < s.bits.length
    · left
      omega
    · right
      have hex := h.resolve_left hlen
      rw [not_forall] at hex
      obtain ⟨n, hn⟩ := hex
      have hone : n < s.bits.length := by
        by_contra hge
        apply hn
        rw [word_of_ge (not_lt.mp hge), BitVec.and_zero]
      refine ⟨n, ?_, ?_⟩
      · rw [List.mem_range]
        omega
      · rw [decide_eq_true_eq, word_intersectionWords, BitVec.and_comm]
        exact hn

/-- **`retainAll`** is the intersection, except that it reports a change when this set has
the longer array but no elements of its own. -/
theorem retainAll_does_iff : s.Does (s.retainAll (some other)) (s.elements ∩ other.elements) ↔
    ¬ (other.bits.length < s.bits.length ∧ s.elements ⊆ other.elements) := by
  have hsame : s.elements ∩ other.elements = s.elements ↔ s.elements ⊆ other.elements :=
    Set.inter_eq_left
  rw [retainAll]
  by_cases hmod : other.bits.length < s.bits.length ∨ ¬ s.elements ⊆ other.elements
  · rw [if_pos (retainModified_iff.mpr hmod)]
    constructor
    · rintro hdoes ⟨-, hsub⟩
      exact (hdoes.answer true rfl).mp rfl (hsame.mpr hsub)
    · intro hnot
      refine does_removed ?_ (fun b hb => ?_) rfl (nodup_elementsIn _ _) (fun t => ?_)
        Set.inter_subset_left
      · rw [elements_withBits]
        apply elements_eq_of_mem
        intro i
        rw [Set.mem_inter_iff, getT_mem_elements, getT_mem_elements, mem, word_intersectionWords,
          BitVec.getLsbD_and, Bool.and_eq_true]
        rfl
      · cases hb
        refine iff_of_true rfl fun heq => ?_
        rcases hmod with hlen | hsub
        · exact hnot ⟨hlen, hsame.mp heq⟩
        · exact hsub (hsame.mp heq)
      · have hbit : getIndex t % 64 < 64 := Nat.mod_lt _ (by decide)
        rw [mem_elementsIn, Set.sdiff_self_inter, Set.mem_sdiff, mem_elements,
          mem_elements]
        split
        · rw [BitVec.getLsbD_and, BitVec.getLsbD_not, decide_eq_true hbit, Bool.true_and,
            Bool.and_eq_true, Bool.not_eq_true', ← Bool.not_eq_true]
          exact ⟨fun h => h.2, fun h => ⟨lt_length_of_mem h.1, h⟩⟩
        · next hge =>
            constructor
            · exact fun h => ⟨h.2, fun hn => hge (lt_length_of_mem hn)⟩
            · exact fun h => ⟨lt_length_of_mem h.1, h.1⟩
  · rw [if_neg (fun h => hmod (retainModified_iff.mp h))]
    rw [not_or, not_not] at hmod
    refine iff_of_true ?_ fun h => hmod.1 h.1
    exact does_nothing rfl rfl rfl (hsame.mpr hmod.2)

theorem word_differenceWords {maskOne maskTwo : List (BitVec 64)} {n : ℕ} :
    word (differenceWords maskOne maskTwo) n =
      if n < maskTwo.length then word maskOne n &&& ~~~word maskTwo n else 0#64 := by
  rw [differenceWords, word_ofFn, shorter_eq]
  by_cases hone : n < maskOne.length
  · by_cases htwo : n < maskTwo.length
    · rw [if_pos (lt_min hone htwo), if_pos htwo]
    · rw [if_neg (fun h => htwo (lt_min_iff.mp h).2), if_neg htwo]
  · rw [if_neg (fun h => hone (lt_min_iff.mp h).1), word_of_ge (not_lt.mp hone), BitVec.zero_and]
    split <;> rfl

theorem and_not_ne_iff {x y : BitVec 64} : x &&& ~~~y ≠ x ↔ x &&& y ≠ 0#64 := by
  rw [not_iff_not]
  constructor
  · intro h
    rw [← h]
    ext k hk
    simp only [BitVec.getElem_and, BitVec.getElem_not, BitVec.getElem_zero]
    cases x[k] <;> cases y[k] <;> rfl
  · intro h
    ext k hk
    have hbit := congrArg (fun z => z[k]) h
    simp only [BitVec.getElem_and, BitVec.getElem_zero] at hbit
    simp only [BitVec.getElem_and, BitVec.getElem_not]
    revert hbit
    cases x[k] <;> cases y[k] <;> decide

/-- `removeAll` reports a change if the sets have an element in common. -/
theorem removeModified_iff : ((List.range (shorter s.bits other.bits)).any fun n =>
      decide (word (differenceWords s.bits other.bits) n ≠ word s.bits n)) = true ↔
    (s.elements ∩ other.elements).Nonempty := by
  rw [List.any_eq_true, shorter_eq]
  constructor
  · rintro ⟨n, hn, hne⟩
    rw [List.mem_range, lt_min_iff] at hn
    rw [decide_eq_true_eq, word_differenceWords, if_pos hn.2, and_not_ne_iff,
      ← word_intersectionWords] at hne
    obtain ⟨b, hb, hmem⟩ := exists_mem_of_word_ne hne
    rw [mem_mul_add hb, word_intersectionWords, BitVec.getLsbD_and, Bool.and_eq_true,
      ← mem_mul_add hb, ← mem_mul_add hb] at hmem
    exact ⟨getT (n * 64 + b), getT_mem_elements.mpr hmem.1, getT_mem_elements.mpr hmem.2⟩
  · rintro ⟨t, hone, htwo⟩
    rw [mem_elements] at hone htwo
    have hlt := lt_min (lt_length_of_mem hone) (lt_length_of_mem htwo)
    refine ⟨getIndex t / 64, List.mem_range.mpr hlt, ?_⟩
    rw [decide_eq_true_eq, word_differenceWords, if_pos (lt_length_of_mem htwo), and_not_ne_iff]
    intro hzero
    have hbit := congrArg (fun x => x.getLsbD (getIndex t % 64)) hzero
    rw [mem] at hone htwo
    simp only [BitVec.getLsbD_and, hone, htwo, BitVec.getLsbD_zero] at hbit
    cases hbit

theorem differenceWords_elements :
    (s.withBits (differenceWords s.bits other.bits)).elements =
      {t | t ∈ s.elements \ other.elements ∧ getIndex t / 64 < other.bits.length} := by
  rw [elements_withBits]
  apply elements_eq_of_mem
  intro i
  have hmod : i % 64 < 64 := Nat.mod_lt _ (by decide)
  rw [Set.mem_ofPred_eq, Set.mem_sdiff, getT_mem_elements, getT_mem_elements, getIndex_getT, mem,
    word_differenceWords]
  split
  · next hlt =>
      rw [BitVec.getLsbD_and, BitVec.getLsbD_not, decide_eq_true hmod, Bool.true_and,
        Bool.and_eq_true, Bool.not_eq_true', ← Bool.not_eq_true, and_iff_left hlt]
      rfl
  · next hge =>
      rw [BitVec.getLsbD_zero]
      exact iff_of_false Bool.false_ne_true fun h => hge h.2

/-- **`removeAll`** is the difference, except that, if the sets have an element in common,
it also drops the elements in words that the other array does not have. -/
theorem removeAll_does_iff : s.Does (s.removeAll (some other)) (s.elements \ other.elements) ↔
    ¬ ((s.elements ∩ other.elements).Nonempty ∧
      ∃ t ∈ s.elements, other.bits.length ≤ getIndex t / 64) := by
  rw [removeAll]
  by_cases hcommon : (s.elements ∩ other.elements).Nonempty
  · rw [if_pos (removeModified_iff.mpr hcommon)]
    constructor
    · rintro hdoes ⟨-, t, ht, hge⟩
      have hmem : t ∈ s.elements \ other.elements := by
        refine ⟨ht, fun htwo => ?_⟩
        have := lt_length_of_mem (mem_elements.mp htwo)
        omega
      rw [← hdoes.elements] at hmem
      have hlt : getIndex t / 64 < other.bits.length :=
        (differenceWords_elements.le hmem).2
      omega
    · intro hnot
      have hall : ∀ t ∈ s.elements, getIndex t / 64 < other.bits.length := fun t ht => by
        by_contra hge
        exact hnot ⟨hcommon, t, ht, not_lt.mp hge⟩
      refine does_removed ?_ (fun b hb => ?_) rfl (nodup_elementsIn _ _) (fun t => ?_)
        Set.sdiff_subset
      · rw [differenceWords_elements]
        ext t
        exact ⟨fun h => h.1, fun h => ⟨h, hall t h.1⟩⟩
      · cases hb
        refine iff_of_true rfl fun heq => ?_
        obtain ⟨t, hone, htwo⟩ := hcommon
        rw [← heq] at hone
        exact hone.2 htwo
      · rw [mem_elementsIn, Set.sdiff_sdiff_right_self, Set.mem_inter_iff, mem_elements,
          mem_elements, BitVec.getLsbD_and, Bool.and_eq_true, shorter_eq]
        exact ⟨fun h => h.2, fun h => ⟨lt_min (lt_length_of_mem h.1) (lt_length_of_mem h.2), h⟩⟩
  · rw [if_neg (fun h => hcommon (removeModified_iff.mp h))]
    refine iff_of_true ?_ fun h => hcommon h.1
    have hdisjoint : s.elements ∩ other.elements = ∅ := Set.not_nonempty_iff_eq_empty.mp hcommon
    exact does_nothing rfl rfl rfl (sdiff_eq_left.mpr (Set.disjoint_iff_inter_eq_empty.mpr hdisjoint))

end BitSet

end JavaFx.Css
