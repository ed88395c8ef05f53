import JavaFx.Java

/-!
# `EventDispatchChainImpl`

A chain of dispatchers kept in one pool of slots with links. `dispatchEvent` takes
the head off the chain, hands the chain itself to that dispatcher, and then puts
back the four indexes it has saved; what the dispatcher wrote into the pool in the
meantime stays there.

A dispatcher may do anything with the chain it is handed: its behaviour is a
`Script`, in which each step may depend on the events returned so far. The chain
refines a persistent list (`chain_refines_persistent_list`): the pool below
`reservedCount` is never overwritten, and of its links only that of the last
element, which nobody follows (`Extends`).
-/

namespace JavaFx.Event

variable {D E : Type}

/-! ## The code -/

/-- The fields of `EventDispatchChainImpl`. The arrays are empty where the source
has `null`. -/
structure EventDispatchChainImpl (D : Type) where
  dispatchers : List (Option D) := []
  nextLinks : List ℕ := []
  reservedCount : ℕ := 0
  activeCount : ℕ := 0
  headIndex : ℕ := 0
  tailIndex : ℕ := 0

/-- `(size + CAPACITY_GROWTH_FACTOR - 1) & ~(CAPACITY_GROWTH_FACTOR - 1)` -/
def newCapacity (size : ℕ) : ℕ := (size + 7) / 8 * 8

namespace EventDispatchChainImpl

/-- The new arrays of `ensureCapacity`. -/
def grow (c : EventDispatchChainImpl D) (capacity : ℕ) :
    Except Exn (EventDispatchChainImpl D) := do
  let dispatchers ← arraycopy c.dispatchers 0 (List.replicate capacity none) 0
    c.reservedCount
  let nextLinks ← arraycopy c.nextLinks 0 (List.replicate capacity 0) 0 c.reservedCount
  return { c with dispatchers := dispatchers, nextLinks := nextLinks }

def ensureCapacity (c : EventDispatchChainImpl D) (size : ℕ) :
    Except Exn (EventDispatchChainImpl D) :=
  if newCapacity size = 0 then .ok c
  else if c.dispatchers.length < newCapacity size then c.grow (newCapacity size)
  else .ok c

def insertFirst (c : EventDispatchChainImpl D) (eventDispatcher : D) :
    Except Exn (EventDispatchChainImpl D) := do
  let dispatchers ← arraySet c.dispatchers c.reservedCount (some eventDispatcher)
  return { c with
    dispatchers := dispatchers
    headIndex := c.reservedCount
    tailIndex := c.reservedCount
    activeCount := 1
    reservedCount := c.reservedCount + 1 }

/-- `append` on a chain that is not empty. -/
def insertLast (c : EventDispatchChainImpl D) (eventDispatcher : D) :
    Except Exn (EventDispatchChainImpl D) := do
  let dispatchers ← arraySet c.dispatchers c.reservedCount (some eventDispatcher)
  let nextLinks ← arraySet c.nextLinks c.tailIndex c.reservedCount
  return { c with
    dispatchers := dispatchers
    nextLinks := nextLinks
    tailIndex := c.reservedCount
    activeCount := c.activeCount + 1
    reservedCount := c.reservedCount + 1 }

/-- `prepend` on a chain that is not empty. -/
def insertBefore (c : EventDispatchChainImpl D) (eventDispatcher : D) :
    Except Exn (EventDispatchChainImpl D) := do
  let dispatchers ← arraySet c.dispatchers c.reservedCount (some eventDispatcher)
  let nextLinks ← arraySet c.nextLinks c.reservedCount c.headIndex
  return { c with
    dispatchers := dispatchers
    nextLinks := nextLinks
    headIndex := c.reservedCount
    activeCount := c.activeCount + 1
    reservedCount := c.reservedCount + 1 }

def append (c : EventDispatchChainImpl D) (eventDispatcher : D) :
    Except Exn (EventDispatchChainImpl D) := do
  let c ← c.ensureCapacity (c.reservedCount + 1)
  if c.activeCount = 0 then c.insertFirst eventDispatcher
  else c.insertLast eventDispatcher

def prepend (c : EventDispatchChainImpl D) (eventDispatcher : D) :
    Except Exn (EventDispatchChainImpl D) := do
  let c ← c.ensureCapacity (c.reservedCount + 1)
  if c.activeCount = 0 then c.insertFirst eventDispatcher
  else c.insertBefore eventDispatcher

end EventDispatchChainImpl

/-- What a dispatcher does with the chain it is handed. -/
inductive Script (D E : Type) where
  | done (event : E)
  | append (eventDispatcher : D) (next : Script D E)
  | prepend (eventDispatcher : D) (next : Script D E)
  | dispatchEvent (event : E) (next : E → Script D E)

/-- The calls of dispatchers, in order. -/
abbrev Calls (D E : Type) := List (D × E)

namespace EventDispatchChainImpl

/-- A script runs on a chain, given what `dispatchEvent` does. -/
def runScript
    (dispatch : EventDispatchChainImpl D → E →
      Except Exn (EventDispatchChainImpl D × E × Calls D E)) :
    Script D E → EventDispatchChainImpl D →
      Except Exn (EventDispatchChainImpl D × E × Calls D E)
  | .done event, c => .ok (c, event, [])
  | .append d next, c => do
      let c ← c.append d
      runScript dispatch next c
  | .prepend d next, c => do
      let c ← c.prepend d
      runScript dispatch next c
  | .dispatchEvent event next, c => do
      let (c, returned, calls) ← dispatch c event
      let (c, result, calls') ← runScript dispatch (next returned) c
      return (c, result, calls ++ calls')

/-- `dispatchEvent(event)`; `stack` bounds the nesting of the calls. -/
def dispatchEvent (behaviour : D → E → Script D E) :
    ℕ → EventDispatchChainImpl D → E →
      Except Exn (EventDispatchChainImpl D × E × Calls D E)
  | 0, _, _ => .error .stackOverflow
  | stack + 1, c, event =>
      if c.activeCount = 0 then .ok (c, event, [])
      else do
        let nextEventDispatcher ← arrayDeref c.dispatchers c.headIndex
        let next ← arrayGet c.nextLinks c.headIndex
        let (c', returnEvent, calls) ← runScript (dispatchEvent behaviour stack)
          (behaviour nextEventDispatcher event)
          { c with headIndex := next, activeCount := c.activeCount - 1 }
        return ({ c' with
          headIndex := c.headIndex
          tailIndex := c.tailIndex
          activeCount := c.activeCount
          reservedCount := c.reservedCount }, returnEvent,
            (nextEventDispatcher, event) :: calls)

/-- The dispatchers from slot `i` on, as many as are active. -/
def walk (c : EventDispatchChainImpl D) : ℕ → ℕ → List D
  | 0, _ => []
  | n + 1, i =>
      match c.dispatchers[i]? with
      | some (some d) => d :: walk c n (c.nextLinks.getD i 0)
      | _ => []

/-- The list the chain stands for. -/
def toList (c : EventDispatchChainImpl D) : List D := c.walk c.activeCount c.headIndex

end EventDispatchChainImpl

/-! ## The persistent list -/

namespace PersistentChain

def runScript (dispatch : List D → E → Except Exn (E × Calls D E)) :
    Script D E → List D → Except Exn (List D × E × Calls D E)
  | .done event, ds => .ok (ds, event, [])
  | .append d next, ds => runScript dispatch next (ds ++ [d])
  | .prepend d next, ds => runScript dispatch next (d :: ds)
  | .dispatchEvent event next, ds => do
      let (returned, calls) ← dispatch ds event
      let (ds, result, calls') ← runScript dispatch (next returned) ds
      return (ds, result, calls ++ calls')

/-- The head is called with the rest of the list, and the list stays what it is. -/
def dispatchEvent (behaviour : D → E → Script D E) :
    ℕ → List D → E → Except Exn (E × Calls D E)
  | 0, _, _ => .error .stackOverflow
  | _ + 1, [], event => .ok (event, [])
  | stack + 1, d :: ds, event => do
      let (_, returnEvent, calls) ← runScript (dispatchEvent behaviour stack)
        (behaviour d event) ds
      return (returnEvent, (d, event) :: calls)

end PersistentChain

/-! ## Slots that are linked -/

/-- The slots `is` hold the dispatchers `ds`, each linked to the next. -/
inductive Linked (dispatchers : List (Option D)) (links : List ℕ) :
    List ℕ → List D → Prop
  | nil : Linked dispatchers links [] []
  | single {i : ℕ} {d : D} (h : dispatchers[i]? = some (some d)) :
      Linked dispatchers links [i] [d]
  | cons {i j : ℕ} {is : List ℕ} {d : D} {ds : List D}
      (h : dispatchers[i]? = some (some d)) (hlink : links[i]? = some j)
      (hrest : Linked dispatchers links (j :: is) ds) :
      Linked dispatchers links (i :: j :: is) (d :: ds)

namespace Linked

variable {dispatchers dispatchers' : List (Option D)} {links links' : List ℕ}
  {is : List ℕ} {ds : List D}

theorem length_eq (h : Linked dispatchers links is ds) : is.length = ds.length := by
  induction h with
  | nil => rfl
  | single => rfl
  | cons _ _ _ ih => rw [List.length_cons, ih, List.length_cons]

/-- The link of the last slot does not matter. -/
theorem congr (h : Linked dispatchers links is ds)
    (hd : ∀ i ∈ is, dispatchers'[i]? = dispatchers[i]?)
    (hl : ∀ i ∈ is.dropLast, links'[i]? = links[i]?) :
    Linked dispatchers' links' is ds := by
  induction h with
  | nil => exact .nil
  | single h => exact .single ((hd _ List.mem_cons_self).trans h)
  | cons h hlink _ ih =>
      refine .cons ((hd _ List.mem_cons_self).trans h)
        ((hl _ List.mem_cons_self).trans hlink)
        (ih (fun i hi => hd i (List.mem_cons_of_mem _ hi))
          (fun i hi => hl i (List.mem_cons_of_mem _ hi)))

theorem head {i : ℕ} {d : D} (h : Linked dispatchers links (i :: is) (d :: ds)) :
    dispatchers[i]? = some (some d) := by
  cases h with
  | single h => exact h
  | cons h _ _ => exact h

theorem tail {i : ℕ} {d : D} (h : Linked dispatchers links (i :: is) (d :: ds)) :
    Linked dispatchers links is ds := by
  cases h with
  | single => exact .nil
  | cons _ _ hrest => exact hrest

/-- The slot behind the head is the one the head is linked to. -/
theorem link {i j : ℕ} {ds : List D} (h : Linked dispatchers links (i :: j :: is) ds) :
    links[i]? = some j := by
  cases h with
  | cons _ hlink _ => exact hlink

theorem snoc {t r : ℕ} {d : D} (h : Linked dispatchers links (is ++ [t]) ds)
    (hlink : links[t]? = some r) (hr : dispatchers[r]? = some (some d)) :
    Linked dispatchers links (is ++ [t] ++ [r]) (ds ++ [d]) := by
  induction is generalizing ds with
  | nil =>
      cases h with
      | single ht => exact .cons ht hlink (.single hr)
  | cons i is ih =>
      cases ds with
      | nil =>
          have hlen := h.length_eq
          simp at hlen
      | cons d' ds =>
          have hrest := ih h.tail
          cases is with
          | nil => exact .cons h.head h.link hrest
          | cons j is => exact .cons h.head h.link hrest

end Linked

/-! ## What a chain stands for -/

namespace EventDispatchChainImpl

/-- The chain stands for the list `ds`, which is in the slots `is`. -/
structure Stands (c : EventDispatchChainImpl D) (is : List ℕ) (ds : List D) : Prop where
  linked : Linked c.dispatchers c.nextLinks is ds
  nodup : is.Nodup
  reserved : ∀ i ∈ is, i < c.reservedCount
  active : c.activeCount = is.length
  head : ∀ i, is.head? = some i → c.headIndex = i
  last : ∀ i, is.getLast? = some i → c.tailIndex = i
  room : c.reservedCount ≤ c.dispatchers.length
  links : c.nextLinks.length = c.dispatchers.length

/-- What may have happened to the pool: no reserved slot is overwritten, and of the
links only that of the last slot. -/
structure Extends (c : EventDispatchChainImpl D) (is : List ℕ)
    (c' : EventDispatchChainImpl D) (is' : List ℕ) : Prop where
  reserved : c.reservedCount ≤ c'.reservedCount
  dispatchers : ∀ i < c.reservedCount, c'.dispatchers[i]? = c.dispatchers[i]?
  links : ∀ i < c.reservedCount, is.getLast? ≠ some i →
    c'.nextLinks[i]? = c.nextLinks[i]?
  last : ∀ i < c.reservedCount, is'.getLast? = some i → is.getLast? = some i

variable {c c' c'' : EventDispatchChainImpl D} {is is' is'' : List ℕ} {ds : List D}

theorem Extends.refl (c : EventDispatchChainImpl D) (is : List ℕ) : c.Extends is c is :=
  ⟨le_refl _, fun _ _ => rfl, fun _ _ _ => rfl, fun _ _ h => h⟩

theorem Extends.trans (h : c.Extends is c' is') (h' : c'.Extends is' c'' is'') :
    c.Extends is c'' is'' where
  reserved := h.reserved.trans h'.reserved
  dispatchers := fun i hi =>
    (h'.dispatchers i (lt_of_lt_of_le hi h.reserved)).trans (h.dispatchers i hi)
  links := by
    intro i hi hlast
    have hlast' : is'.getLast? ≠ some i := fun heq => hlast (h.last i hi heq)
    exact (h'.links i (lt_of_lt_of_le hi h.reserved) hlast').trans (h.links i hi hlast)
  last := fun i hi hlast =>
    h.last i hi (h'.last i (lt_of_lt_of_le hi h.reserved) hlast)

/-- A slot before the last is not the last. -/
theorem getLast?_ne_of_mem_dropLast {i : ℕ} (hnodup : is.Nodup)
    (hi : i ∈ is.dropLast) : is.getLast? ≠ some i := by
  intro hlast
  have hne : is ≠ [] := by
    rintro rfl
    cases hlast
  rw [← List.dropLast_append_getLast hne] at hnodup
  rw [List.getLast?_eq_some_getLast hne] at hlast
  have hdisjoint := List.disjoint_of_nodup_append hnodup
  exact hdisjoint hi (by rw [Option.some.inj hlast]; exact List.mem_singleton_self _)

theorem Stands.walk (h : c.Stands is ds) : c.toList = ds := by
  have hwalk : ∀ (is : List ℕ) (ds : List D) (i : ℕ),
      Linked c.dispatchers c.nextLinks is ds → (∀ j, is.head? = some j → i = j) →
        c.walk is.length i = ds := by
    intro is ds i hlinked
    induction hlinked generalizing i with
    | nil => intro _; rfl
    | single hd =>
        intro hi
        rw [hi _ rfl]
        simp [EventDispatchChainImpl.walk, hd]
    | cons hd hlink _ ih =>
        intro hi
        rw [hi _ rfl, List.length_cons, EventDispatchChainImpl.walk, hd]
        simp only
        rw [ih _ fun j hj => ?_]
        rw [List.getD_eq_getElem?_getD, hlink]
        exact Option.some.inj hj
  rw [toList, h.active]
  exact hwalk is ds c.headIndex h.linked h.head

/-! ## Capacity -/

theorem lt_newCapacity (size : ℕ) : size < newCapacity (size + 1) := by
  unfold newCapacity
  omega

theorem arraycopy_start {β : Type} {src : List β} {n capacity : ℕ} (x : β)
    (hsrc : n ≤ src.length) (hcapacity : n ≤ capacity) :
    ∃ dest, arraycopy src 0 (List.replicate capacity x) 0 (n : ℕ) = .ok dest ∧
      dest.length = capacity ∧ ∀ i < n, dest[i]? = src[i]? := by
  have hcopy := @arraycopy_of_le β src (List.replicate capacity x) 0 0 n
    (by omega) (by simpa using hcapacity)
  rw [Nat.cast_zero] at hcopy
  refine ⟨_, hcopy, ?_, fun i hi => ?_⟩
  · rw [Splice.length_splice (by simpa using hcapacity), Splice.length_slice (by omega),
      List.length_replicate]
    omega
  · rw [Splice.splice, List.take_zero, List.nil_append,
      List.getElem?_append_left (by rw [Splice.length_slice (by omega)]; omega),
      Splice.getElem?_slice (by omega), Nat.zero_add]

theorem ensureCapacity_spec (h : c.Stands is ds) :
    ∃ c', c.ensureCapacity (c.reservedCount + 1) = .ok c' ∧ c'.Stands is ds ∧
      c.Extends is c' is ∧ c'.reservedCount = c.reservedCount ∧
      c'.reservedCount < c'.dispatchers.length := by
  have hlt := lt_newCapacity c.reservedCount
  unfold ensureCapacity
  rw [if_neg (by omega)]
  by_cases hgrow : c.dispatchers.length < newCapacity (c.reservedCount + 1)
  · rw [if_pos hgrow]
    obtain ⟨dispatchers, hd, hdlen, hdget⟩ := arraycopy_start (none : Option D) h.room hlt.le
    obtain ⟨links, hl, hllen, hlget⟩ := arraycopy_start (0 : ℕ)
      (show c.reservedCount ≤ c.nextLinks.length by rw [h.links]; exact h.room) hlt.le
    refine ⟨{ c with dispatchers := dispatchers, nextLinks := links }, ?_, ?_, ?_, rfl, ?_⟩
    · rw [grow, hd, hl]
      rfl
    · refine ⟨h.linked.congr (fun i hi => hdget i (h.reserved i hi))
        (fun i hi => hlget i (h.reserved i (List.mem_of_mem_dropLast hi))), h.nodup,
        h.reserved, h.active, h.head, h.last, ?_, ?_⟩
      · show c.reservedCount ≤ dispatchers.length
        rw [hdlen]
        exact hlt.le
      · show links.length = dispatchers.length
        rw [hllen, hdlen]
    · exact ⟨le_refl _, hdget, fun i hi _ => hlget i hi, fun _ _ hlast => hlast⟩
    · show c.reservedCount < dispatchers.length
      rw [hdlen]
      exact hlt
  · rw [if_neg hgrow]
    exact ⟨c, rfl, h, .refl c is, rfl, by omega⟩

/-! ## `append` and `prepend` -/

theorem insertFirst_spec (h : c.Stands [] []) (hroom : c.reservedCount < c.dispatchers.length)
    (d : D) :
    ∃ c' r, c.insertFirst d = .ok c' ∧ c'.Stands [r] [d] ∧ c.Extends [] c' [r] := by
  have hok : c.insertFirst d = .ok { c with
      dispatchers := c.dispatchers.set c.reservedCount (some d)
      headIndex := c.reservedCount
      tailIndex := c.reservedCount
      activeCount := 1
      reservedCount := c.reservedCount + 1 } := by
    rw [insertFirst, arraySet_of_lt _ hroom]
    rfl
  refine ⟨_, c.reservedCount, hok, ?_, ?_⟩
  · constructor
    · exact .single (List.getElem?_set_self hroom)
    · exact List.nodup_singleton _
    · intro i hi
      rw [List.mem_singleton.mp hi]
      exact Nat.lt_succ_self _
    · rfl
    · intro i hi
      exact Option.some.inj hi
    · intro i hi
      exact Option.some.inj hi
    · show c.reservedCount + 1 ≤ (c.dispatchers.set _ _).length
      rw [List.length_set]
      exact hroom
    · show c.nextLinks.length = (c.dispatchers.set _ _).length
      rw [List.length_set]
      exact h.links
  · refine ⟨Nat.le_succ _, fun i hi => ?_, fun _ _ _ => rfl, fun i hi hlast => ?_⟩
    · exact List.getElem?_set_ne hi.ne'
    · exact absurd (Option.some.inj hlast) hi.ne'

theorem insertLast_spec (h : c.Stands is ds) (hne : is ≠ [])
    (hroom : c.reservedCount < c.dispatchers.length) (d : D) :
    ∃ c' r, c.insertLast d = .ok c' ∧ c'.Stands (is ++ [r]) (ds ++ [d]) ∧
      c.Extends is c' (is ++ [r]) := by
  obtain ⟨pre, t, rfl⟩ : ∃ pre t, is = pre ++ [t] :=
    ⟨is.dropLast, is.getLast hne, (List.dropLast_append_getLast hne).symm⟩
  have hlast : (pre ++ [t]).getLast? = some t := List.getLast?_concat
  have ht : t < c.reservedCount := h.reserved t (by simp)
  have htail : c.tailIndex = t := h.last t hlast
  have htlt : t < c.nextLinks.length := by
    rw [h.links]
    exact ht.trans hroom
  have hok : c.insertLast d = .ok { c with
      dispatchers := c.dispatchers.set c.reservedCount (some d)
      nextLinks := c.nextLinks.set t c.reservedCount
      tailIndex := c.reservedCount
      activeCount := c.activeCount + 1
      reservedCount := c.reservedCount + 1 } := by
    rw [insertLast, arraySet_of_lt _ hroom, htail, except_ok_bind, arraySet_of_lt _ htlt]
    rfl
  refine ⟨_, c.reservedCount, hok, ?_, ?_⟩
  · constructor
    · refine Linked.snoc (h.linked.congr (fun i hi => ?_) (fun i hi => ?_))
        (List.getElem?_set_self htlt) (List.getElem?_set_self hroom)
      · exact List.getElem?_set_ne (h.reserved i hi).ne'
      · apply List.getElem?_set_ne
        rintro rfl
        exact getLast?_ne_of_mem_dropLast h.nodup hi hlast
    · rw [List.nodup_append]
      refine ⟨h.nodup, List.nodup_singleton _, fun i hi j hj => ?_⟩
      rw [List.mem_singleton.mp hj]
      exact (h.reserved i hi).ne
    · intro i hi
      show i < c.reservedCount + 1
      rcases List.mem_append.mp hi with hi | hi
      · exact Nat.lt_succ_of_lt (h.reserved i hi)
      · rw [List.mem_singleton.mp hi]
        exact Nat.lt_succ_self _
    · show c.activeCount + 1 = _
      rw [h.active]
      simp
    · intro i hi
      apply h.head
      rw [← hi, List.head?_append_of_ne_nil _ hne]
    · intro i hi
      rw [List.getLast?_concat] at hi
      exact Option.some.inj hi
    · show c.reservedCount + 1 ≤ (c.dispatchers.set _ _).length
      rw [List.length_set]
      exact hroom
    · show (c.nextLinks.set _ _).length = (c.dispatchers.set _ _).length
      rw [List.length_set, List.length_set]
      exact h.links
  · refine ⟨Nat.le_succ _, fun i hi => ?_, fun i _ hi => ?_, fun i hi hi' => ?_⟩
    · exact List.getElem?_set_ne hi.ne'
    · apply List.getElem?_set_ne
      rintro rfl
      exact hi hlast
    · rw [List.getLast?_concat] at hi'
      exact absurd (Option.some.inj hi') hi.ne'

theorem insertBefore_spec (h : c.Stands is ds) (hne : is ≠ [])
    (hroom : c.reservedCount < c.dispatchers.length) (d : D) :
    ∃ c' r, c.insertBefore d = .ok c' ∧ c'.Stands (r :: is) (d :: ds) ∧
      c.Extends is c' (r :: is) := by
  obtain ⟨i₀, rest, rfl⟩ := List.exists_cons_of_ne_nil hne
  have hlt : c.reservedCount < c.nextLinks.length := by
    rw [h.links]
    exact hroom
  have hok : c.insertBefore d = .ok { c with
      dispatchers := c.dispatchers.set c.reservedCount (some d)
      nextLinks := c.nextLinks.set c.reservedCount c.headIndex
      headIndex := c.reservedCount
      activeCount := c.activeCount + 1
      reservedCount := c.reservedCount + 1 } := by
    rw [insertBefore, arraySet_of_lt _ hroom, except_ok_bind, arraySet_of_lt _ hlt]
    rfl
  refine ⟨_, c.reservedCount, hok, ?_, ?_⟩
  · constructor
    · refine .cons (List.getElem?_set_self hroom) ?_ (h.linked.congr ?_ ?_)
      · rw [List.getElem?_set_self hlt, h.head i₀ rfl]
      · exact fun i hi => List.getElem?_set_ne (h.reserved i hi).ne'
      · exact fun i hi =>
          List.getElem?_set_ne (h.reserved i (List.mem_of_mem_dropLast hi)).ne'
    · refine List.nodup_cons.mpr ⟨fun hmem => ?_, h.nodup⟩
      exact lt_irrefl _ (h.reserved _ hmem)
    · intro i hi
      show i < c.reservedCount + 1
      rcases List.mem_cons.mp hi with rfl | hi
      · exact Nat.lt_succ_self _
      · exact Nat.lt_succ_of_lt (h.reserved i hi)
    · show c.activeCount + 1 = _
      rw [h.active]
      rfl
    · intro i hi
      exact Option.some.inj hi
    · intro i hi
      rw [List.getLast?_cons_cons] at hi
      exact h.last i hi
    · show c.reservedCount + 1 ≤ (c.dispatchers.set _ _).length
      rw [List.length_set]
      exact hroom
    · show (c.nextLinks.set _ _).length = (c.dispatchers.set _ _).length
      rw [List.length_set, List.length_set]
      exact h.links
  · refine ⟨Nat.le_succ _, fun i hi => ?_, fun i hi _ => ?_, fun i _ hlast => ?_⟩
    · exact List.getElem?_set_ne hi.ne'
    · exact List.getElem?_set_ne hi.ne'
    · rw [List.getLast?_cons_cons] at hlast
      exact hlast

theorem Stands.eq_nil (h : c.Stands is ds) (hzero : c.activeCount = 0) :
    is = [] ∧ ds = [] := by
  have his : is = [] := List.length_eq_zero_iff.mp (h.active ▸ hzero)
  subst his
  exact ⟨rfl, List.length_eq_zero_iff.mp h.linked.length_eq.symm⟩

theorem append_spec (h : c.Stands is ds) (d : D) :
    ∃ c' is', c.append d = .ok c' ∧ c'.Stands is' (ds ++ [d]) ∧ c.Extends is c' is' := by
  obtain ⟨c₁, hok, h₁, hext, hreserved, hroom⟩ := ensureCapacity_spec h
  unfold append
  rw [hok, except_ok_bind]
  by_cases hzero : c₁.activeCount = 0
  · obtain ⟨rfl, rfl⟩ := h₁.eq_nil hzero
    obtain ⟨c', r, hok', h', hext'⟩ := insertFirst_spec h₁ hroom d
    rw [if_pos hzero]
    exact ⟨c', [r], hok', h', hext.trans hext'⟩
  · have hne : is ≠ [] := by
      rintro rfl
      exact hzero h₁.active
    obtain ⟨c', r, hok', h', hext'⟩ := insertLast_spec h₁ hne hroom d
    rw [if_neg hzero]
    exact ⟨c', _, hok', h', hext.trans hext'⟩

theorem prepend_spec (h : c.Stands is ds) (d : D) :
    ∃ c' is', c.prepend d = .ok c' ∧ c'.Stands is' (d :: ds) ∧ c.Extends is c' is' := by
  obtain ⟨c₁, hok, h₁, hext, hreserved, hroom⟩ := ensureCapacity_spec h
  unfold prepend
  rw [hok, except_ok_bind]
  by_cases hzero : c₁.activeCount = 0
  · obtain ⟨rfl, rfl⟩ := h₁.eq_nil hzero
    obtain ⟨c', r, hok', h', hext'⟩ := insertFirst_spec h₁ hroom d
    rw [if_pos hzero]
    exact ⟨c', [r], hok', h', hext.trans hext'⟩
  · have hne : is ≠ [] := by
      rintro rfl
      exact hzero h₁.active
    obtain ⟨c', r, hok', h', hext'⟩ := insertBefore_spec h₁ hne hroom d
    rw [if_neg hzero]
    exact ⟨c', _, hok', h', hext.trans hext'⟩

/-! ## Dispatching -/

/-- `dispatchEvent` does what the list does, and leaves the list as it was. -/
def Dispatches
    (dispatch : EventDispatchChainImpl D → E →
      Except Exn (EventDispatchChainImpl D × E × Calls D E))
    (dispatch' : List D → E → Except Exn (E × Calls D E)) : Prop :=
  ∀ c is ds event, c.Stands is ds →
    match dispatch' ds event with
    | .error e => dispatch c event = .error e
    | .ok (returned, calls) =>
        ∃ c', dispatch c event = .ok (c', returned, calls) ∧ c'.Stands is ds ∧
          c.Extends is c' is

/-- A script does on the chain what it does on the list. -/
theorem runScript_refines
    {dispatch : EventDispatchChainImpl D → E →
      Except Exn (EventDispatchChainImpl D × E × Calls D E)}
    {dispatch' : List D → E → Except Exn (E × Calls D E)}
    (hdispatch : Dispatches dispatch dispatch') (script : Script D E)
    (h : c.Stands is ds) :
    match PersistentChain.runScript dispatch' script ds with
    | .error e => runScript dispatch script c = .error e
    | .ok (ds', result, calls) =>
        ∃ c' is', runScript dispatch script c = .ok (c', result, calls) ∧
          c'.Stands is' ds' ∧ c.Extends is c' is' := by
  induction script generalizing c is ds with
  | done event => exact ⟨c, is, rfl, h, .refl c is⟩
  | append d next ih =>
      obtain ⟨c₁, is₁, hok, h₁, hext⟩ := append_spec h d
      have hnext := ih h₁
      simp only [PersistentChain.runScript, runScript, hok, except_ok_bind]
      cases hrun : PersistentChain.runScript dispatch' next (ds ++ [d]) with
      | error e =>
          rw [hrun] at hnext
          exact hnext
      | ok r =>
          rw [hrun] at hnext
          obtain ⟨c', is', hok', h', hext'⟩ := hnext
          exact ⟨c', is', hok', h', hext.trans hext'⟩
  | prepend d next ih =>
      obtain ⟨c₁, is₁, hok, h₁, hext⟩ := prepend_spec h d
      have hnext := ih h₁
      simp only [PersistentChain.runScript, runScript, hok, except_ok_bind]
      cases hrun : PersistentChain.runScript dispatch' next (d :: ds) with
      | error e =>
          rw [hrun] at hnext
          exact hnext
      | ok r =>
          rw [hrun] at hnext
          obtain ⟨c', is', hok', h', hext'⟩ := hnext
          exact ⟨c', is', hok', h', hext.trans hext'⟩
  | dispatchEvent event next ih =>
      have hfirst := hdispatch c is ds event h
      simp only [PersistentChain.runScript, runScript]
      cases hrun : dispatch' ds event with
      | error e =>
          rw [hrun] at hfirst
          simp only at hfirst
          simp only [hfirst, except_error_bind]
      | ok r =>
          obtain ⟨returned, calls⟩ := r
          rw [hrun] at hfirst
          obtain ⟨c₁, hok, h₁, hext⟩ := hfirst
          have hnext := ih returned h₁
          simp only [hok, except_ok_bind]
          cases hrun' : PersistentChain.runScript dispatch' (next returned) ds with
          | error e =>
              rw [hrun'] at hnext
              simp only at hnext
              simp only [hnext, except_error_bind]
          | ok r' =>
              obtain ⟨ds', result, calls'⟩ := r'
              rw [hrun'] at hnext
              obtain ⟨c', is', hok', h', hext'⟩ := hnext
              refine ⟨c', is', ?_, h', hext.trans hext'⟩
              rw [hok']
              rfl

/-- The head is taken off the chain. -/
theorem Stands.behead {i j : ℕ} {d : D} (h : c.Stands (i :: is) (d :: ds))
    (hj : c.nextLinks[i]? = some j) :
    Stands { c with headIndex := j, activeCount := c.activeCount - 1 } is ds where
  linked := h.linked.tail
  nodup := (List.nodup_cons.mp h.nodup).2
  reserved := fun i hi => h.reserved i (List.mem_cons_of_mem _ hi)
  active := by
    show c.activeCount - 1 = is.length
    rw [h.active]
    rfl
  head := by
    intro k hk
    cases is with
    | nil => cases hk
    | cons k' is =>
        cases hk
        have hlink := h.linked.link
        rw [hj] at hlink
        exact Option.some.inj hlink
  last := by
    intro k hk
    apply h.last
    cases is with
    | nil => cases hk
    | cons k' is => rw [List.getLast?_cons_cons]; exact hk
  room := h.room
  links := h.links

/-- The indexes are put back: the chain stands for what it stood for. -/
theorem Stands.restore {i j : ℕ} {ds' : List D} (h : c.Stands (i :: is) ds)
    (hext : Extends { c with headIndex := j, activeCount := c.activeCount - 1 } is c' is')
    (h' : c'.Stands is' ds') :
    Stands { c' with
        headIndex := c.headIndex
        tailIndex := c.tailIndex
        activeCount := c.activeCount
        reservedCount := c.reservedCount } (i :: is) ds ∧
      c.Extends (i :: is) { c' with
        headIndex := c.headIndex
        tailIndex := c.tailIndex
        activeCount := c.activeCount
        reservedCount := c.reservedCount } (i :: is) := by
  have hlinks : ∀ k < c.reservedCount, (i :: is).getLast? ≠ some k →
      c'.nextLinks[k]? = c.nextLinks[k]? := by
    intro k hk hlast
    apply hext.links k hk
    intro hlast'
    apply hlast
    cases is with
    | nil => cases hlast'
    | cons k' is => rw [List.getLast?_cons_cons]; exact hlast'
  constructor
  · refine ⟨h.linked.congr (fun k hk => hext.dispatchers k (h.reserved k hk))
      (fun k hk => hlinks k (h.reserved k (List.mem_of_mem_dropLast hk))
        (getLast?_ne_of_mem_dropLast h.nodup hk)), h.nodup, h.reserved, h.active, h.head,
      h.last, ?_, h'.links⟩
    exact hext.reserved.trans h'.room
  · exact ⟨le_refl _, hext.dispatchers, hlinks, fun _ _ hlast => hlast⟩

/-- **One dispatch** does what the persistent list does, at every depth. -/
theorem dispatchEvent_refines (behaviour : D → E → Script D E) (stack : ℕ) :
    Dispatches (dispatchEvent behaviour stack)
      (PersistentChain.dispatchEvent behaviour stack) := by
  induction stack with
  | zero =>
      intro c is ds event _
      rfl
  | succ stack ih =>
      intro c is ds event h
      cases is with
      | nil =>
          have hds : ds = [] := List.length_eq_zero_iff.mp h.linked.length_eq.symm
          subst hds
          refine ⟨c, ?_, h, .refl c []⟩
          have hzero : c.activeCount = 0 := h.active
          rw [dispatchEvent, if_pos hzero]
      | cons i is =>
          cases ds with
          | nil =>
              have hlen := h.linked.length_eq
              cases hlen
          | cons d ds =>
              have hi : i < c.reservedCount := h.reserved i List.mem_cons_self
              have hlt : i < c.nextLinks.length := by
                rw [h.links]
                exact lt_of_lt_of_le hi h.room
              have hlink := List.getElem?_eq_getElem hlt
              have hhead : c.headIndex = i := h.head i rfl
              have hderef : arrayDeref c.dispatchers i = .ok d := by
                rw [arrayDeref, arrayGet_eq_of_getElem? (Int.natCast_nonneg _)
                  (by rw [Int.toNat_natCast]; exact h.linked.head)]
                rfl
              have hnext : arrayGet c.nextLinks i = .ok c.nextLinks[i] :=
                arrayGet_of_lt hlt
              have hactive : c.activeCount ≠ 0 := by
                rw [h.active]
                exact Nat.succ_ne_zero _
              have hrun := runScript_refines ih (behaviour d event) (h.behead hlink)
              rw [dispatchEvent, if_neg hactive, hhead]
              simp only [PersistentChain.dispatchEvent, hderef, hnext, except_ok_bind]
              cases hlist : PersistentChain.runScript
                  (PersistentChain.dispatchEvent behaviour stack) (behaviour d event) ds with
              | error e =>
                  rw [hlist] at hrun
                  simp only at hrun
                  simp only [hrun, except_error_bind]
              | ok r =>
                  obtain ⟨ds', result, calls⟩ := r
                  rw [hlist] at hrun
                  obtain ⟨c', is', hok, h', hext⟩ := hrun
                  obtain ⟨hback, hext'⟩ := h.restore hext h'
                  rw [hhead] at hback hext'
                  refine ⟨_, ?_, hback, hext'⟩
                  rw [hok]
                  rfl

theorem stands_new : ({} : EventDispatchChainImpl D).Stands [] [] where
  linked := .nil
  nodup := List.nodup_nil
  reserved := fun _ hi => by cases hi
  active := rfl
  head := fun _ hi => by cases hi
  last := fun _ hi => by cases hi
  room := le_refl _
  links := rfl

end EventDispatchChainImpl

/-- **`EventDispatchChainImpl` is a persistent list.** Whatever the dispatchers do
with the chains they are handed, to any depth, a sequence of `append`, `prepend`
and `dispatchEvent` on a new chain calls the same dispatchers with the same events,
returns the same events and ends (or overflows the stack) as it does on a list
that `dispatchEvent` leaves alone, and then the chain stands for that list. -/
theorem chain_refines_persistent_list (behaviour : D → E → Script D E) (stack : ℕ)
    (script : Script D E) :
    match PersistentChain.runScript (PersistentChain.dispatchEvent behaviour stack)
      script [] with
    | .error e => EventDispatchChainImpl.runScript
        (EventDispatchChainImpl.dispatchEvent behaviour stack) script {} = .error e
    | .ok (ds, result, calls) => ∃ c, EventDispatchChainImpl.runScript
        (EventDispatchChainImpl.dispatchEvent behaviour stack) script {} =
          .ok (c, result, calls) ∧ c.toList = ds := by
  have hrun := EventDispatchChainImpl.runScript_refines
    (EventDispatchChainImpl.dispatchEvent_refines behaviour stack) script
    EventDispatchChainImpl.stands_new
  cases hlist : PersistentChain.runScript (PersistentChain.dispatchEvent behaviour stack)
      script [] with
  | error e =>
      rw [hlist] at hrun
      exact hrun
  | ok r =>
      rw [hlist] at hrun
      obtain ⟨c, is, hok, hstands, -⟩ := hrun
      exact ⟨c, hok, hstands.walk⟩

end JavaFx.Event
