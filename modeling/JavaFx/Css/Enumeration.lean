import JavaFx.Css.BitSetLaws
import JavaFx.Java

/-!
# `toArray` and `iterator`

The two ways to enumerate a `BitSet`. The iterator reads the bits one after the other.
`toArray`, the same in `StyleClassSet` and `PseudoClassState`, walks the words with
`index`, which is also the position it writes to: after a word it goes on with the word
that is as many places further as the word has bits.
-/

namespace JavaFx.Css

open Indexed WordSet

variable {T : Type}

namespace BitSet

/-! ## The numbers of the elements -/

/-- The numbers of the elements, in order. -/
def indexes (s : BitSet T) : List ℕ := (List.range (64 * s.bits.length)).filter (mem s.bits)

theorem mem_indexes {s : BitSet T} {i : ℕ} : i ∈ s.indexes ↔ mem s.bits i = true := by
  rw [indexes, List.mem_filter, List.mem_range, and_iff_right_iff_imp]
  intro h
  have := lt_length_of_mem h
  omega

theorem pairwise_indexes (s : BitSet T) : s.indexes.Pairwise (· < ·) :=
  List.pairwise_lt_range.filter _

/-- The numbers are found word by word. -/
theorem indexes_perm (s : BitSet T) : s.indexes.Perm (members (word s.bits) s.bits.length) := by
  apply (List.perm_ext_iff_of_nodup ((pairwise_indexes s).imp ne_of_lt) (nodup_members _ _)).mpr
  intro i
  rw [mem_indexes, mem_members (by decide)]
  constructor
  · exact fun h => ⟨lt_length_of_mem h, h⟩
  · exact fun h => h.2

theorem length_indexes (s : BitSet T) : s.indexes.length = s.size := by
  rw [(indexes_perm s).length_eq, members, List.length_flatMap, size]
  congr 1
  apply List.ext_getElem?
  intro n
  by_cases hn : n < s.bits.length
  · rw [List.getElem?_map, List.getElem?_map, List.getElem?_range hn, List.getElem?_eq_getElem hn,
      Option.map_some, Option.map_some, List.length_map, word_of_lt hn, bitsIn_eq]
  · rw [List.getElem?_eq_none (by simpa using hn), List.getElem?_eq_none (by simpa using hn)]

/-- The numbers of a set with one element in every word. -/
theorem indexes_single {s : BitSet T} {b : ℕ → ℕ}
    (hsingle : ∀ p < s.bits.length, bitsIn (word s.bits p) = [b p]) :
    s.indexes = (List.range s.bits.length).map fun p => p * 64 + b p := by
  have hset (p c : ℕ) (hp : p < s.bits.length) :
      c < 64 ∧ mem s.bits (p * 64 + c) = true ↔ c = b p := by
    have hword : c ∈ bitsIn (word s.bits p) ↔ c = b p := by rw [hsingle p hp, List.mem_singleton]
    rw [← hword, bitsIn_eq, List.mem_filter, List.mem_range]
    constructor
    · rintro ⟨hc, hmem⟩
      exact ⟨hc, (mem_mul_add hc).symm.trans hmem⟩
    · rintro ⟨hc, hmem⟩
      exact ⟨hc, (mem_mul_add hc).trans hmem⟩
  have hlt (p : ℕ) (hp : p < s.bits.length) : b p < 64 := ((hset p _ hp).mpr rfl).1
  have hpairwise : ((List.range s.bits.length).map fun p => p * 64 + b p).Pairwise (· < ·) := by
    rw [List.pairwise_map]
    refine List.Pairwise.imp_of_mem ?_ List.pairwise_lt_range
    intro p q hp _ hpq
    have := hlt p (List.mem_range.mp hp)
    omega
  have hmem (i : ℕ) : i ∈ s.indexes ↔ i ∈ (List.range s.bits.length).map fun p => p * 64 + b p := by
    rw [mem_indexes, List.mem_map]
    constructor
    · intro hi
      have hp := lt_length_of_mem hi
      have hsplit : i / 64 * 64 + i % 64 = i := by omega
      refine ⟨i / 64, List.mem_range.mpr hp, ?_⟩
      rw [← (hset _ (i % 64) hp).mp ⟨Nat.mod_lt _ (by decide), by rw [hsplit]; exact hi⟩, hsplit]
    · rintro ⟨p, hp, rfl⟩
      exact ((hset p _ (List.mem_range.mp hp)).mpr rfl).2
  refine List.Perm.eq_of_pairwise ?_ (pairwise_indexes s) hpairwise
    ((List.perm_ext_iff_of_nodup ((pairwise_indexes s).imp ne_of_lt)
      (hpairwise.imp ne_of_lt)).mpr hmem)
  intro i j _ _ hij hji
  exact absurd hij (not_lt_of_gt hji)

variable [Indexed T]

/-- What an enumeration is to give. -/
def inOrder (s : BitSet T) : List T := s.indexes.map getT

theorem mem_inOrder {s : BitSet T} {t : T} : t ∈ s.inOrder ↔ t ∈ s.elements := by
  rw [inOrder, List.mem_map, mem_elements]
  constructor
  · rintro ⟨i, hi, rfl⟩
    rw [getIndex_getT]
    exact mem_indexes.mp hi
  · intro h
    exact ⟨getIndex t, mem_indexes.mpr h, getT_getIndex t⟩

theorem pairwise_inOrder (s : BitSet T) :
    s.inOrder.Pairwise fun t u => getIndex t < getIndex u := by
  rw [inOrder, List.pairwise_map]
  simpa only [getIndex_getT] using pairwise_indexes s

/-! ## The code -/

/-- `getStyleClass(int)`, `getPseudoClass(int)`: null for a number that is not given out. -/
def lookup (registered n : ℕ) : Option T := if n < registered then some (getT n) else none

/-- The variables of `toArray`. -/
structure Filling (T : Type) where
  a : List (Option T)
  index : ℕ
deriving DecidableEq

/-- `a[index++] = impl` -/
def Filling.put (registered : ℕ) (f : Filling T) (bit : ℕ) : Except Exn (Filling T) := do
  let a ← arraySet f.a f.index (lookup registered (f.index * 64 + bit))
  return ⟨a, f.index + 1⟩

/-- The body of the loop over the bits. -/
def Filling.bit (registered : ℕ) (state : BitVec 64) (f : Filling T) (bit : ℕ) :
    Except Exn (Filling T) :=
  if state &&& (1#64 <<< bit) = 1#64 <<< bit then f.put registered bit else .ok f

/-- The loop over the words; `none` if it takes more rounds. -/
def Filling.loop (registered : ℕ) (bits : List (BitVec 64)) :
    ℕ → Filling T → Option (Except Exn (Filling T))
  | 0, _ => none
  | rounds + 1, f =>
      if f.index < bits.length then
        match (List.range 64).foldlM (Filling.bit registered (word bits f.index)) f with
        | .error e => some (.error e)
        | .ok f' => Filling.loop registered bits rounds f'
      else some (.ok f)

/-- `toArray(T[] a)` -/
def toArrayInto (registered rounds : ℕ) (s : BitSet T) (a : List (Option T)) :
    Option (Except Exn (List (Option T))) :=
  let a := if a.length < s.size then List.replicate s.size none else a
  (Filling.loop registered s.bits rounds ⟨a, 0⟩).map (Except.map Filling.a)

/-- `toArray()` -/
def toArray (registered rounds : ℕ) (s : BitSet T) : Option (Except Exn (List (Option T))) :=
  s.toArrayInto registered rounds (List.replicate s.size none)

/-- The fields of an iterator. -/
structure Iter where
  next : ℤ := -1
  element : ℕ := 0
  index : ℤ := -1
deriving DecidableEq

/-- The loop of `hasNext`; `none` if it takes more rounds. -/
def Iter.search (bits : List (BitVec 64)) : ℕ → Iter → Option (Bool × Iter)
  | 0, _ => none
  | rounds + 1, it =>
      let wrap := decide (it.next + 1 ≥ 64)
      let element := if wrap then it.element + 1 else it.element
      if wrap && decide (element ≥ bits.length) then
        some (false, { it with next := it.next + 1, element := element })
      else
        let next := if wrap then 0 else it.next + 1
        let bit := 1#64 <<< next.toNat
        if bit &&& word bits element = bit then
          some (true, ⟨next, element, 64 * element + next⟩)
        else Iter.search bits rounds { it with next := next, element := element }

def Iter.hasNext (bits : List (BitVec 64)) (rounds : ℕ) (it : Iter) : Option (Bool × Iter) :=
  if bits.length = 0 then some (false, it) else it.search bits rounds

/-- `next()` -/
def Iter.getNext (registered : ℕ) (it : Iter) : Option T :=
  if 0 ≤ it.index then lookup registered it.index.toNat else none

/-- What `hasNext()` and `next()` give in turn. -/
def Iter.rest (registered : ℕ) (bits : List (BitVec 64)) : ℕ → Iter → Option (List (Option T))
  | 0, _ => none
  | rounds + 1, it =>
      match it.hasNext bits rounds with
      | none => none
      | some (false, _) => some []
      | some (true, it') => (Iter.rest registered bits rounds it').map (it'.getNext registered :: ·)

/-- The elements an iterator gives. -/
def iterated (registered rounds : ℕ) (s : BitSet T) : Option (List (Option T)) :=
  Iter.rest registered s.bits rounds {}

/-! ## The iterator -/

namespace Iter

/-- The bit that is read next. -/
def position (it : Iter) : ℕ := it.element * 64 + (it.next + 1).toNat

/-- The iterator is at a bit of the array. -/
structure Inside (bits : List (BitVec 64)) (it : Iter) : Prop where
  next_ge : -1 ≤ it.next
  next_lt : it.next < 64
  element : it.element < bits.length

variable {bits : List (BitVec 64)} {it : Iter}

/-- One round reads the bit at the position, if there is one. -/
theorem search_step (h : it.Inside bits) (rounds : ℕ) :
    it.search bits (rounds + 1) =
      if it.position < 64 * bits.length then
        if mem bits it.position = true then
          some (true, ⟨(it.position % 64 : ℕ), it.position / 64, it.position⟩)
        else search bits rounds
          { it with next := (it.position % 64 : ℕ), element := it.position / 64 }
      else some (false, { it with next := it.next + 1, element := it.element + 1 }) := by
  obtain ⟨hge, hlt, helement⟩ := h
  obtain ⟨k, hk⟩ : ∃ k : ℕ, it.next + 1 = k := ⟨(it.next + 1).toNat, by omega⟩
  have hposition : it.position = it.element * 64 + k := by
    rw [position, hk, Int.toNat_natCast]
  have hmod : it.position % 64 < 64 := Nat.mod_lt _ (by decide)
  have hbit (b : ℕ) (hb : b < 64) (n : ℕ) :
      (1#64 <<< b &&& word bits n = 1#64 <<< b) ↔ (word bits n).getLsbD b = true :=
    mask_and_eq_iff hb
  simp only [search, hk]
  by_cases hwrap : (k : ℤ) ≥ 64
  · have hdiv : it.position / 64 = it.element + 1 := by omega
    have hmod' : it.position % 64 = 0 := by omega
    have hindex : (64 * (it.element + 1 : ℕ) + 0 : ℤ) = it.position := by omega
    simp only [decide_eq_true hwrap, if_true, Bool.true_and, decide_eq_true_eq]
    by_cases hend : it.element + 1 ≥ bits.length
    · have hpos : ¬ it.position < 64 * bits.length := by omega
      rw [if_pos hend, if_neg hpos]
    · have hpos : it.position < 64 * bits.length := by omega
      simp only [if_neg hend, if_pos hpos, mem, hdiv, hmod', hindex, Int.toNat_zero,
        hbit 0 (by decide), Nat.cast_zero]
  · have hpos : it.position < 64 * bits.length := by omega
    have hdiv : it.position / 64 = it.element := by omega
    have hmod' : it.position % 64 = k := by omega
    have hindex : (64 * it.element + k : ℤ) = it.position := by omega
    simp only [decide_eq_false hwrap, Bool.false_and, Bool.false_eq_true, if_false, if_pos hpos,
      mem, hdiv, hmod', Int.toNat_natCast, hbit k (by omega), hindex]

/-- After a round the next bit is to be read. -/
theorem inside_step (hpos : it.position < 64 * bits.length) (index : ℤ) :
    Inside bits ⟨(it.position % 64 : ℕ), it.position / 64, index⟩ ∧
      position ⟨(it.position % 64 : ℕ), it.position / 64, index⟩ = it.position + 1 := by
  refine ⟨⟨?_, ?_, ?_⟩, ?_⟩
  · show (-1 : ℤ) ≤ (it.position % 64 : ℕ)
    omega
  · show ((it.position % 64 : ℕ) : ℤ) < 64
    omega
  · show it.position / 64 < bits.length
    omega
  · show it.position / 64 * 64 + ((it.position % 64 : ℕ) + 1 : ℤ).toNat = it.position + 1
    omega

/-- The bits from a position on that are set. -/
def ahead (bits : List (BitVec 64)) (position : ℕ) : List ℕ :=
  (List.range' position (64 * bits.length - position)).filter (mem bits)

theorem ahead_of_ge {position : ℕ} (h : 64 * bits.length ≤ position) : ahead bits position = [] := by
  rw [ahead, Nat.sub_eq_zero_of_le h, List.range'_zero, List.filter_nil]

theorem ahead_of_lt {position : ℕ} (h : position < 64 * bits.length) :
    ahead bits position = if mem bits position = true then position :: ahead bits (position + 1)
      else ahead bits (position + 1) := by
  have hsub : 64 * bits.length - position = 64 * bits.length - (position + 1) + 1 := by omega
  rw [ahead, hsub, List.range'_succ, List.filter_cons]
  rfl

/-- `hasNext` finds the first of the bits ahead. -/
theorem search_spec (n rounds : ℕ) (h : it.Inside bits)
    (hn : 64 * bits.length = it.position + n) (hrounds : n < rounds) :
    (ahead bits it.position = [] ∧ ∃ it', it.search bits rounds = some (false, it')) ∨
      ∃ it', it.search bits rounds = some (true, it') ∧ it'.Inside bits ∧
        it.position < it'.position ∧ it'.index.toNat < 64 * bits.length ∧ 0 ≤ it'.index ∧
        ahead bits it.position = it'.index.toNat :: ahead bits it'.position := by
  induction n generalizing it rounds with
  | zero =>
      obtain ⟨rounds, rfl⟩ := Nat.exists_eq_succ_of_ne_zero (Nat.ne_zero_of_lt hrounds)
      left
      rw [search_step h, if_neg (by omega)]
      exact ⟨ahead_of_ge (by omega), _, rfl⟩
  | succ n ih =>
      obtain ⟨rounds, rfl⟩ := Nat.exists_eq_succ_of_ne_zero (Nat.ne_zero_of_lt hrounds)
      have hpos : it.position < 64 * bits.length := by omega
      rw [search_step h, if_pos hpos, ahead_of_lt hpos]
      by_cases hmem : mem bits it.position = true
      · right
        obtain ⟨hinside, hnext⟩ := inside_step hpos it.position
        rw [if_pos hmem, if_pos hmem]
        refine ⟨_, rfl, hinside, ?_, ?_, ?_, ?_⟩
        · rw [hnext]
          exact Nat.lt_succ_self _
        · exact hpos
        · exact Int.natCast_nonneg _
        · rw [hnext, Int.toNat_natCast]
      · obtain ⟨hinside, hnext⟩ := inside_step hpos it.index
        rw [if_neg hmem, if_neg hmem]
        rw [← hnext]
        rcases ih rounds hinside (by omega) (by omega) with hend | ⟨it', hfound, hafter, hlt, hrest⟩
        · exact Or.inl hend
        · refine Or.inr ⟨it', hfound, hafter, ?_, hrest⟩
          omega

/-- `hasNext` and `next` in turn give what is ahead. -/
theorem rest_spec (registered : ℕ) {rounds : ℕ} (h : it.Inside bits)
    (hpos : it.position ≤ 64 * bits.length)
    (hrounds : 64 * bits.length - it.position + 1 < rounds) :
    it.rest (T := T) registered bits rounds =
      some ((ahead bits it.position).map (lookup registered)) := by
  induction rounds generalizing it with
  | zero => exact absurd hrounds (Nat.not_lt_zero _)
  | succ rounds ih =>
      have hne : bits.length ≠ 0 := Nat.ne_zero_of_lt h.element
      rw [rest, hasNext, if_neg hne]
      rcases search_spec (64 * bits.length - it.position) rounds h (by omega) (by omega) with ⟨hnone, it', hend⟩ | ⟨it', hfound, hinside, hlt, hindex, hzero, hahead⟩
      · rw [hend, hnone]
        rfl
      · have hle : it'.position ≤ 64 * bits.length := by
          have := hinside.next_lt
          have := hinside.element
          rw [position]
          omega
        rw [hfound]
        show (it'.rest registered bits rounds).map _ = _
        rw [ih hinside hle (by omega), hahead, List.map_cons, Option.map_some, getNext,
          if_pos hzero]

end Iter

/-- The elements of a set are registered. -/
theorem lookup_indexes {s : BitSet T} {registered : ℕ}
    (h : ∀ t ∈ s.elements, getIndex t < registered) :
    s.indexes.map (lookup registered) = s.inOrder.map some := by
  rw [inOrder, List.map_map]
  apply List.map_congr_left
  intro i hi
  have hlt := h (getT i) (getT_mem_elements.mpr (mem_indexes.mp hi))
  rw [getIndex_getT] at hlt
  rw [lookup, if_pos hlt, Function.comp_apply]

/-- **The iterator gives the elements in order**, each once, and stops. -/
theorem iterated_eq {s : BitSet T} {registered : ℕ}
    (h : ∀ t ∈ s.elements, getIndex t < registered) :
    s.iterated registered (64 * s.bits.length + 2) = some (s.inOrder.map some) := by
  rw [iterated, ← lookup_indexes h]
  by_cases hempty : s.bits.length = 0
  · have hnil : s.indexes = [] := by rw [indexes, hempty, Nat.mul_zero, List.range_zero, List.filter_nil]
    rw [hnil, Iter.rest, Iter.hasNext, if_pos hempty, List.map_nil]
  · have hinside : Iter.Inside s.bits {} :=
      ⟨le_refl _, by decide, Nat.pos_of_ne_zero hempty⟩
    have hstart : Iter.position {} = 0 := rfl
    rw [Iter.rest_spec registered hinside (by omega) (by omega), hstart, Iter.ahead,
      Nat.sub_zero, indexes, List.range_eq_range']

/-! ## `toArray` -/

namespace Filling

variable {registered : ℕ} {bits : List (BitVec 64)} {f f' : Filling T}

/-- The loop over the bits visits those that are set. -/
theorem foldlM_bit (state : BitVec 64) (positions : List ℕ) : positions.foldlM (bit registered state) f =
    (positions.filter fun b => decide ((1#64 <<< b) &&& state = 1#64 <<< b)).foldlM
      (put registered) f := by
  induction positions generalizing f with
  | nil => rfl
  | cons b positions ih =>
      rw [List.foldlM_cons, bit, BitVec.and_comm, List.filter_cons]
      by_cases hset : 1#64 <<< b &&& state = 1#64 <<< b
      · rw [if_pos hset, if_pos (decide_eq_true hset), List.foldlM_cons]
        congr 1
        funext g
        exact ih
      · rw [if_neg hset, if_neg (by simpa using hset)]
        exact ih

theorem foldlM_word (state : BitVec 64) :
    (List.range 64).foldlM (bit registered state) f = (bitsIn state).foldlM (put registered) f :=
  foldlM_bit state _

/-- The array is written to up to the index, at every position with a number of its word. -/
structure Filled (registered size : ℕ) (f : Filling T) : Prop where
  length : f.a.length = size
  index : f.index ≤ size
  written : ∀ p < f.index, ∃ b < 64, f.a[p]? = some (lookup registered (p * 64 + b))
  blank : ∀ p, f.index ≤ p → p < size → f.a[p]? = some none

theorem put_of_lt (h : f.index < f.a.length) (b : ℕ) : f.put registered b =
    .ok ⟨f.a.set f.index (lookup registered (f.index * 64 + b)), f.index + 1⟩ := by
  rw [put, arraySet_of_lt _ h]
  rfl

variable {size : ℕ}

theorem Filled.put {b : ℕ} (h : f.Filled registered size) (hb : b < 64)
    (hput : f.put registered b = .ok f') : f'.Filled registered size := by
  obtain ⟨hlength, hindex, hwritten, hblank⟩ := h
  by_cases hlt : f.index < f.a.length
  · rw [put_of_lt hlt] at hput
    cases hput
    refine ⟨?_, ?_, ?_, ?_⟩
    · rw [List.length_set, hlength]
    · exact hlength ▸ hlt
    · intro p hp
      rcases Nat.lt_succ_iff_lt_or_eq.mp hp with hp | rfl
      · rw [List.getElem?_set_ne (ne_of_gt hp)]
        exact hwritten p hp
      · rw [List.getElem?_set_self hlt]
        exact ⟨b, hb, rfl⟩
    · intro p hp hsize
      have hp' : f.index + 1 ≤ p := hp
      rw [List.getElem?_set_ne (by omega)]
      exact hblank p (by omega) hsize
  · have hge : ¬ (0 ≤ (f.index : ℤ) ∧ (f.index : ℤ).toNat < f.a.length) := by omega
    rw [Filling.put, arraySet, if_neg hge] at hput
    cases hput

theorem Filled.puts {bs : List ℕ} (h : f.Filled registered size) (hbs : ∀ b ∈ bs, b < 64)
    (hputs : bs.foldlM (Filling.put registered) f = .ok f') : f'.Filled registered size := by
  induction bs generalizing f with
  | nil =>
      cases hputs
      exact h
  | cons b bs ih =>
      rw [List.foldlM_cons] at hputs
      cases hput : f.put registered b with
      | error e =>
          rw [hput] at hputs
          cases hputs
      | ok g =>
          rw [hput] at hputs
          apply ih (h.put (hbs b List.mem_cons_self) hput) _ hputs
          exact fun c hc => hbs c (List.mem_cons_of_mem _ hc)

theorem mem_bitsIn_lt {x : BitVec 64} {b : ℕ} (h : b ∈ bitsIn x) : b < 64 :=
  List.mem_range.mp (List.mem_filter.mp h).1

/-- What is left when the loop comes to its end. -/
theorem Filled.loop {rounds : ℕ} (h : f.Filled registered size)
    (hloop : loop registered bits rounds f = some (.ok f')) :
    f'.Filled registered size ∧ bits.length ≤ f'.index := by
  induction rounds generalizing f with
  | zero => cases hloop
  | succ rounds ih =>
      rw [Filling.loop] at hloop
      split at hloop
      · rw [foldlM_word] at hloop
        cases hputs : (bitsIn (word bits f.index)).foldlM (Filling.put registered) f with
        | error e =>
            rw [hputs] at hloop
            cases hloop
        | ok g =>
            rw [hputs] at hloop
            exact ih (h.puts (fun _ => mem_bitsIn_lt) hputs) hloop
      · next hend =>
          cases hloop
          exact ⟨h, not_lt.mp hend⟩

/-- With one bit in every word the loop writes one entry for each. -/
theorem loop_single (registered : ℕ) {b : ℕ → ℕ} (hsingle : ∀ p < bits.length, bitsIn (word bits p) = [b p])
    (n : ℕ) (pre : List (Option T)) (hn : pre.length + n = bits.length) :
    loop registered bits (n + 1) ⟨pre ++ List.replicate n none, pre.length⟩ =
      some (.ok ⟨pre ++ (List.range' pre.length n).map fun p => lookup registered (p * 64 + b p),
        bits.length⟩) := by
  induction n generalizing pre with
  | zero =>
      have hend : ¬ pre.length < bits.length := by omega
      rw [loop, if_neg hend, List.replicate_zero, List.range'_zero, List.map_nil,
        show pre.length = bits.length from hn]
  | succ n ih =>
      have hlt : pre.length < bits.length := by omega
      have hroom : pre.length < (pre ++ List.replicate (n + 1) none).length := by
        rw [List.length_append, List.length_replicate]
        omega
      have hset : (pre ++ List.replicate (n + 1) none).set pre.length
          (lookup registered (pre.length * 64 + b pre.length)) =
          (pre ++ [(lookup registered (pre.length * 64 + b pre.length) : Option T)]) ++
            List.replicate n none := by
        rw [List.set_append_right _ _ (le_refl _), Nat.sub_self, List.replicate_succ,
          List.set_cons_zero, List.append_assoc, List.singleton_append]
      have hnext := ih (pre ++ [lookup registered (pre.length * 64 + b pre.length)])
        (by rw [List.length_append, List.length_singleton]; omega)
      rw [List.length_append, List.length_singleton] at hnext
      rw [loop, if_pos hlt, foldlM_word, hsingle _ hlt, List.foldlM_cons, put_of_lt hroom, hset]
      show loop registered bits (n + 1) _ = _
      rw [hnext, List.range'_succ, List.map_cons, List.append_assoc, List.singleton_append]

end Filling

/-! ## Both of them -/

/-- `toArray()` comes to its end, and it and the iterator give the elements of the set in
the order of their numbers, each once. -/
def EnumeratesAlike (registered : ℕ) (s : BitSet T) : Prop :=
  ∃ ts : List T, (∃ rounds, s.toArray registered rounds = some (.ok (ts.map some))) ∧
    (∃ rounds, s.iterated registered rounds = some (ts.map some)) ∧
    ts.Pairwise (fun t u => getIndex t < getIndex u) ∧ (∀ t, t ∈ ts ↔ t ∈ s.elements) ∧
    ts.length = s.size

variable {s : BitSet T}

theorem toArray_eq (registered rounds : ℕ) : s.toArray registered rounds =
    (Filling.loop registered s.bits rounds ⟨List.replicate s.size none, 0⟩).map
      (Except.map Filling.a) := by
  rw [toArray, toArrayInto, List.length_replicate, if_neg (lt_irrefl _)]

/-- The elements in order are known by their numbers. -/
theorem eq_inOrder {ts : List T} (hpairwise : ts.Pairwise fun t u => getIndex t < getIndex u)
    (hmem : ∀ t, t ∈ ts ↔ t ∈ s.elements) : ts = s.inOrder := by
  have hnodup (us : List T) (h : us.Pairwise fun t u => getIndex t < getIndex u) : us.Nodup :=
    h.imp fun hlt heq => absurd (congrArg getIndex heq) (ne_of_lt hlt)
  have hperm : ts.Perm s.inOrder := by
    apply (List.perm_ext_iff_of_nodup (hnodup _ hpairwise) (hnodup _ (pairwise_inOrder s))).mpr
    intro t
    rw [hmem, mem_inOrder]
  refine List.Perm.eq_of_pairwise ?_ hpairwise (pairwise_inOrder s) hperm
  intro t u _ _ hlt hgt
  exact absurd hlt (not_lt_of_gt hgt)

/-- Every entry of the array is in its own word. -/
theorem toArray_words {registered rounds : ℕ}
    (h : s.toArray registered rounds = some (.ok (s.inOrder.map some))) :
    s.bits.length ≤ s.size ∧ ∀ p i, s.indexes[p]? = some i → i / 64 = p := by
  rw [toArray_eq, Option.map_eq_some_iff] at h
  obtain ⟨r, hloop, hr⟩ := h
  cases r with
  | error e => cases hr
  | ok f =>
      have hf : f.a = s.inOrder.map some := Except.ok.inj hr
      have hstart : Filling.Filled registered s.size
          (⟨List.replicate s.size none, 0⟩ : Filling T) := by
        refine ⟨List.length_replicate, Nat.zero_le _, fun p hp => absurd hp (Nat.not_lt_zero _), ?_⟩
        intro p _ hp
        exact List.getElem?_replicate_of_lt hp
      obtain ⟨⟨hlength, hindex, hwritten, hblank⟩, hend⟩ := hstart.loop hloop
      refine ⟨le_trans hend hindex, ?_⟩
      intro p i hi
      have hp : p < s.size := by
        rw [← length_indexes]
        exact (List.getElem?_eq_some_iff.mp hi).1
      have hentry : f.a[p]? = some (some (getT i)) := by
        rw [hf, inOrder, List.getElem?_map, List.getElem?_map, hi]
        rfl
      -- a position that is not written to is null
      have hlt : p < f.index := by
        by_contra hge
        rw [hblank p (not_lt.mp hge) hp] at hentry
        cases hentry
      obtain ⟨b, hb, hfound⟩ := hwritten p hlt
      rw [hentry, lookup] at hfound
      split at hfound
      · have heq := getT_injective (Option.some.inj (Option.some.inj hfound))
        omega
      · cases Option.some.inj hfound

/-- **`toArray()` and the iterator agree**, and give every element once, if and only if
every word of the array has exactly one bit. -/
theorem enumeratesAlike_iff (s : BitSet T) (registered : ℕ)
    (hregistered : ∀ t ∈ s.elements, getIndex t < registered) :
    s.EnumeratesAlike registered ↔ ∀ x ∈ s.bits, (bitsIn x).length = 1 := by
  constructor
  · rintro ⟨ts, ⟨rounds, harray⟩, -, hpairwise, hmem, -⟩
    rw [eq_inOrder hpairwise hmem] at harray
    obtain ⟨hle, hwords⟩ := toArray_words harray
    intro x hx
    obtain ⟨p, hp, rfl⟩ := List.mem_iff_getElem.mp hx
    have hword : s.bits[p] = word s.bits p := (word_of_lt hp).symm
    have hset (b : ℕ) : b ∈ bitsIn (word s.bits p) ↔ b < 64 ∧ p * 64 + b ∈ s.indexes := by
      rw [bitsIn_eq, List.mem_filter, List.mem_range, mem_indexes]
      constructor
      · exact fun h => ⟨h.1, by rw [mem_mul_add h.1]; exact h.2⟩
      · exact fun h => ⟨h.1, by rw [← mem_mul_add h.1]; exact h.2⟩
    have hlt : p < s.indexes.length := by
      rw [length_indexes]
      exact lt_of_lt_of_le hp hle
    have hown := hwords p _ (List.getElem?_eq_getElem hlt)
    have honly : bitsIn (word s.bits p) = [s.indexes[p] % 64] := by
      apply List.perm_singleton.mp
      apply (List.perm_ext_iff_of_nodup (List.nodup_range.filter _) (List.nodup_singleton _)).mpr
      intro b
      rw [List.mem_singleton]
      constructor
      · intro hb
        obtain ⟨hb, hmemb⟩ := (hset b).mp hb
        obtain ⟨q, hq, hqb⟩ := List.mem_iff_getElem.mp hmemb
        have hqp := hwords q _ (List.getElem?_eq_getElem hq)
        have : q = p := by omega
        subst this
        omega
      · rintro rfl
        apply (hset _).mpr
        refine ⟨Nat.mod_lt _ (by decide), ?_⟩
        rw [show p * 64 + s.indexes[p] % 64 = s.indexes[p] by omega]
        exact List.getElem_mem hlt
    rw [hword, honly]
    rfl
  · intro hone
    have hsingle : ∀ p < s.bits.length,
        bitsIn (word s.bits p) = [(bitsIn (word s.bits p)).headD 0] := by
      intro p hp
      have hlen := hone _ (List.getElem_mem hp)
      rw [← word_of_lt hp] at hlen
      obtain ⟨b, hb⟩ := List.length_eq_one_iff.mp hlen
      rw [hb]
      rfl
    have hindexes := indexes_single hsingle
    have hsize : s.size = s.bits.length := by
      rw [← length_indexes, hindexes, List.length_map, List.length_range]
    refine ⟨s.inOrder, ⟨s.bits.length + 1, ?_⟩, ⟨_, iterated_eq hregistered⟩, pairwise_inOrder s,
      fun t => mem_inOrder, ?_⟩
    · have hloop := Filling.loop_single (T := T) registered hsingle s.bits.length [] (Nat.zero_add _)
      rw [List.nil_append, List.nil_append, List.length_nil] at hloop
      rw [toArray_eq, hsize, hloop, ← lookup_indexes hregistered, hindexes, List.map_map,
        List.range_eq_range']
      rfl
    · rw [inOrder, List.length_map, length_indexes]

/-- The sets with the classes 0 and 1, and with the class 64 only. -/
def zeroOne : BitSet ℕ := ofList [0, 1]

def sixtyFour : BitSet ℕ := ofList [64]

theorem enumeratesAlike_sixtyFive : (∀ t ∈ (ofList [0, 65] : BitSet ℕ).elements, getIndex t < 66) ∧
    (ofList [0, 65] : BitSet ℕ).EnumeratesAlike 66 := by
  have hregistered : ∀ t ∈ (ofList [0, 65] : BitSet ℕ).elements, getIndex t < 66 := by
    intro t ht
    have htwo := mem_ofList.mp ht
    rw [List.mem_cons, List.mem_singleton] at htwo
    rcases htwo with rfl | rfl
    · decide
    · decide
  have hbits : (ofList [0, 65] : BitSet ℕ).bits = [1#64, 2#64] := by decide +kernel
  refine ⟨hregistered, (enumeratesAlike_iff _ 66 hregistered).mpr ?_⟩
  rw [hbits]
  intro x hx
  have hzero : bitsIn 1#64 = [0] := by decide +kernel
  have hone : bitsIn 2#64 = [1] := by decide +kernel
  rw [List.mem_cons, List.mem_singleton] at hx
  rcases hx with rfl | rfl
  · rw [hzero, List.length_singleton]
  · rw [hone, List.length_singleton]

/-- Of two classes of one word the second is looked up in the next word, where there is none;
a word without a class is read again and again. -/
theorem second_class_null : (zeroOne.elements = {0, 1} ∧
      zeroOne.toArray 2 2 = some (.ok [some 0, none]) ∧ ¬ zeroOne.EnumeratesAlike 2) ∧
    sixtyFour.elements = {64} ∧ ∀ rounds, sixtyFour.toArray 65 rounds = none := by
  have hbits : zeroOne.bits = [3#64] := by decide +kernel
  have hbits' : sixtyFour.bits = [0#64, 1#64] := by decide +kernel
  refine ⟨⟨?_, ?_, ?_⟩, ?_, ?_⟩
  · ext t
    rw [zeroOne, mem_ofList, List.mem_cons, List.mem_singleton, Set.mem_insert_iff,
      Set.mem_singleton_iff]
  · have hsize : zeroOne.size = 2 := by decide +kernel
    have hword : bitsIn (word [3#64] 0) = [0, 1] := by decide +kernel
    rw [toArray_eq, hsize, hbits, Filling.loop, if_pos (by decide), Filling.foldlM_word, hword]
    rfl
  · rintro ⟨ts, ⟨rounds, harray⟩, -, hpairwise, hmem, -⟩
    rw [eq_inOrder hpairwise hmem] at harray
    have hone : zeroOne.indexes[1]? = some 1 := by
      rw [indexes, hbits]
      decide +kernel
    exact absurd ((toArray_words harray).2 1 1 hone) (by decide)
  · ext t
    rw [sixtyFour, mem_ofList, List.mem_singleton, Set.mem_singleton_iff]
  · intro rounds
    have hloop (f : Filling ℕ) (hf : f.index = 0) :
        Filling.loop 65 [0#64, 1#64] rounds f = none := by
      induction rounds with
      | zero => rfl
      | succ rounds ih =>
          have hword : bitsIn (word [0#64, 1#64] 0) = [] := by
            rw [show word [0#64, 1#64] 0 = 0#64 from rfl, bitsIn_eq]
            simp
          rw [Filling.loop, if_pos (by rw [hf]; decide), Filling.foldlM_word, hf, hword]
          exact ih
    rw [toArray_eq, hbits', hloop _ rfl]
    rfl

end BitSet

end JavaFx.Css
