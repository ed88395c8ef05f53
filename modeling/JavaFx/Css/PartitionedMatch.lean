import JavaFx.Css.SelectorPartitioning

/-!
# `match` and the linear scan

A selector has a location: the keys of its id, its type and its style classes. The slot of a
location holds exactly the selectors with that location, in the order in which they were
filed (`Filing`), and `match` visits each location a node can match once.
-/

namespace JavaFx.Css

variable {P S : Type} [Indexed P] [Indexed S] {R R' : Type}

/-- Where a selector is filed. -/
abbrev Location := Option PartitionKey × PartitionKey × Option PartitionKey

/-- The location of a selector with the simple selector `s`; there is none without a type. -/
def SimpleSelector.location (s : SimpleSelector P S) : Option Location :=
  (nameKey (some s.name)).map fun t =>
    (nameKey (some s.id), t, styleClassKey (some s.styleClassSet))

def Filed.location (e : Filed P S) : Option Location :=
  e.selector.rightmost.bind SimpleSelector.location

/-! ## Tables -/

/-- Everything is found under its own key. -/
def Keyed {V : Type} (key : V → PartitionKey) (m : Table V) : Prop :=
  ∀ k v, m.lookup k = some v → key v = k

theorem keyed_empty {V : Type} (key : V → PartitionKey) : Keyed key ∅ := fun _ _ h => nomatch h

theorem Keyed.insert {V : Type} {key : V → PartitionKey} {m : Table V} (h : Keyed key m)
    {k : PartitionKey} {v : V} (hv : key v = k) : Keyed key (m.insert k v) := by
  intro k' v' hv'
  by_cases hk : k' = k
  · subst hk
    rw [AList.lookup_insert] at hv'
    cases hv'
    exact hv
  · rw [AList.lookup_insert_ne hk] at hv'
    exact h k' v' hv'

/-- The partition of a key, or a new one. -/
def partitionAt (m : Table (Partition P S R)) (k : PartitionKey) : Partition P S R :=
  (m.lookup k).getD { key := k }

/-- The slot of a key, or a new one. -/
def slotAt (m : Table (Slot P S R)) (k : PartitionKey) : Slot P S R :=
  (m.lookup k).getD { partition := k }

theorem partitionAt_insert (m : Table (Partition P S R)) (k k' : PartitionKey)
    (v : Partition P S R) :
    partitionAt (m.insert k v) k' = if k' = k then v else partitionAt m k' := by
  unfold partitionAt
  split
  · next h =>
      rw [h, AList.lookup_insert]
      rfl
  · next h => rw [AList.lookup_insert_ne h]

theorem slotAt_insert (m : Table (Slot P S R)) (k k' : PartitionKey) (v : Slot P S R) :
    slotAt (m.insert k v) k' = if k' = k then v else slotAt m k' := by
  unfold slotAt
  split
  · next h =>
      rw [h, AList.lookup_insert]
      rfl
  · next h => rw [AList.lookup_insert_ne h]

/-- What `getPartition` returns, and that it changes nothing else. -/
theorem getPartition_spec {m : Table (Partition P S R)} (h : Keyed Partition.key m)
    (k : PartitionKey) : (getPartition k m).1 = partitionAt m k ∧
      (getPartition k m).1.key = k ∧ Keyed Partition.key (getPartition k m).2 ∧
      ∀ k', partitionAt (getPartition k m).2 k' = partitionAt m k' := by
  unfold getPartition
  cases hk : m.lookup k with
  | some v =>
      refine ⟨?_, h k v hk, h, fun _ => rfl⟩
      rw [partitionAt, hk]
      rfl
  | none =>
      refine ⟨?_, rfl, h.insert rfl, fun k' => ?_⟩
      · rw [partitionAt, hk]
        rfl
      · rw [partitionAt_insert]
        split
        · next heq =>
            rw [heq, partitionAt, hk]
            rfl
        · rfl

theorem partition_spec {p : Partition P S R} (hp : Keyed Slot.partition p.slots)
    {m : Table (Partition P S R')} (h : Keyed Partition.key m) (k : PartitionKey) :
    (p.partition k m).1 = slotAt p.slots k ∧ (p.partition k m).1.partition = k ∧
      Keyed Partition.key (p.partition k m).2 ∧
      ∀ k', partitionAt (p.partition k m).2 k' = partitionAt m k' := by
  unfold Partition.partition
  cases hk : p.slots.lookup k with
  | some v =>
      refine ⟨?_, hp k v hk, h, fun _ => rfl⟩
      rw [slotAt, hk]
      rfl
  | none =>
      obtain ⟨-, hkey, hkeyed, hsame⟩ := getPartition_spec h k
      refine ⟨?_, hkey, hkeyed, hsame⟩
      rw [slotAt, hk]
      show ({ partition := (getPartition k m).1.key } : Slot P S R) = { partition := k }
      rw [hkey]

theorem partitionOf_spec {s : Slot P S (Slot P S R)} (hs : Keyed Slot.partition s.referents)
    {m : Table (Partition P S R')} (h : Keyed Partition.key m) (k : PartitionKey) :
    (s.partitionOf k m).1 = slotAt s.referents k ∧ (s.partitionOf k m).1.partition = k ∧
      Keyed Partition.key (s.partitionOf k m).2 := by
  unfold Slot.partitionOf
  cases hk : s.referents.lookup k with
  | some v =>
      refine ⟨?_, hs k v hk, h⟩
      rw [slotAt, hk]
      rfl
  | none =>
      obtain ⟨-, hkey, hkeyed, -⟩ := getPartition_spec h k
      refine ⟨?_, hkey, hkeyed⟩
      rw [slotAt, hk]
      show ({ partition := (getPartition k m).1.key } : Slot P S R) = { partition := k }
      rw [hkey]

/-! ## Filing -/

namespace SelectorPartitioning

variable {p : SelectorPartitioning P S}

/-- The slots point to the partitions they are to, and nothing is filed under an id alone. -/
structure WellFormed (p : SelectorPartitioning P S) : Prop where
  idMap : Keyed Partition.key p.idMap
  typeMap : Keyed Partition.key p.typeMap
  styleClassMap : Keyed Partition.key p.styleClassMap
  idSlots : ∀ i, Keyed Slot.partition (partitionAt p.idMap i).slots
  idReferents : ∀ i t, Keyed Slot.partition (slotAt (partitionAt p.idMap i).slots t).referents
  typeSlots : ∀ t, Keyed Slot.partition (partitionAt p.typeMap t).slots
  idSelectors : ∀ i, (partitionAt p.idMap i).selectors = []

/-- The selectors in the slot of a location. -/
def filedAt (p : SelectorPartitioning P S) : Location → List (Filed P S)
  | (some i, t, none) => (slotAt (partitionAt p.idMap i).slots t).selectors
  | (some i, t, some k) =>
      (slotAt (slotAt (partitionAt p.idMap i).slots t).referents k).selectors
  | (none, t, none) => (partitionAt p.typeMap t).selectors
  | (none, t, some k) => (slotAt (partitionAt p.typeMap t).slots k).selectors

theorem wellFormed_new : ({} : SelectorPartitioning P S).WellFormed :=
  ⟨keyed_empty _, keyed_empty _, keyed_empty _, fun _ => keyed_empty _, fun _ _ => keyed_empty _,
    fun _ => keyed_empty _, fun _ => rfl⟩

/-- One more selector at its location, and everything else as it was. -/
def FiledOne (p p' : SelectorPartitioning P S) (loc : Location) (e : Filed P S) : Prop :=
  p'.WellFormed ∧ ∀ loc', p'.filedAt loc' =
    if loc' = loc then p.filedAt loc' ++ [e] else p.filedAt loc'

/-- The partition of one id has been replaced. -/
theorem WellFormed.withId (h : p.WellFormed) {p' : SelectorPartitioning P S} {i : PartitionKey}
    {part : Partition P S (Slot P S Empty)} (hidMap : Keyed Partition.key p'.idMap)
    (htypeMap : Keyed Partition.key p'.typeMap)
    (hstyleMap : Keyed Partition.key p'.styleClassMap)
    (hid : ∀ i', partitionAt p'.idMap i' = if i' = i then part else partitionAt p.idMap i')
    (htype : ∀ t, partitionAt p'.typeMap t = partitionAt p.typeMap t)
    (hslots : Keyed Slot.partition part.slots)
    (hreferents : ∀ t, Keyed Slot.partition (slotAt part.slots t).referents)
    (hselectors : part.selectors = []) : p'.WellFormed := by
  refine ⟨hidMap, htypeMap, hstyleMap, fun i' => ?_, fun i' t => ?_, fun t => ?_, fun i' => ?_⟩
  · rw [hid]
    split
    · exact hslots
    · exact h.idSlots i'
  · rw [hid]
    split
    · exact hreferents t
    · exact h.idReferents i' t
  · rw [htype]
    exact h.typeSlots t
  · rw [hid]
    split
    · exact hselectors
    · exact h.idSelectors i'

/-- The selectors in a slot, or in one of its referents. -/
def filedIn (slot : Slot P S (Slot P S Empty)) : Option PartitionKey → List (Filed P S)
  | none => slot.selectors
  | some k => (slotAt slot.referents k).selectors

/-- One slot of one id has been replaced by a slot with one more selector. -/
theorem filedOne_of_slot {p' : SelectorPartitioning P S} (hwell : p'.WellFormed)
    {i t : PartitionKey} {k : Option PartitionKey} {e : Filed P S}
    {slot : Slot P S (Slot P S Empty)}
    (hid : ∀ i' t', slotAt (partitionAt p'.idMap i').slots t' =
      if i' = i ∧ t' = t then slot else slotAt (partitionAt p.idMap i').slots t')
    (htype : ∀ t, partitionAt p'.typeMap t = partitionAt p.typeMap t)
    (hslot : ∀ k', filedIn slot k' =
      if k' = k then filedIn (slotAt (partitionAt p.idMap i).slots t) k' ++ [e]
      else filedIn (slotAt (partitionAt p.idMap i).slots t) k') :
    FiledOne p p' (some i, t, k) e := by
  have hin : ∀ (q : SelectorPartitioning P S) i' t' k', q.filedAt (some i', t', k') =
      filedIn (slotAt (partitionAt q.idMap i').slots t') k' := by
    intro q i' t' k'
    cases k' <;> rfl
  refine ⟨hwell, fun loc => ?_⟩
  obtain ⟨i', t', k'⟩ := loc
  cases i' with
  | none =>
      rw [if_neg (by simp)]
      cases k' with
      | none => exact congrArg Partition.selectors (htype t')
      | some k' => exact congrArg (fun r => (slotAt r.slots k').selectors) (htype t')
  | some i' =>
      rw [hin, hin, hid]
      by_cases hit : i' = i ∧ t' = t
      · obtain ⟨rfl, rfl⟩ := hit
        rw [if_pos ⟨rfl, rfl⟩, hslot]
        by_cases hk : k' = k
        · rw [if_pos hk, if_pos (by rw [hk])]
        · rw [if_neg hk, if_neg (fun hn => hk (Prod.mk.inj (Prod.mk.inj hn).2).2)]
      · rw [if_neg hit, if_neg]
        intro hn
        obtain ⟨hi, hrest⟩ := Prod.mk.inj hn
        exact hit ⟨Option.some.inj hi, (Prod.mk.inj hrest).1⟩

theorem fileById_spec (h : p.WellFormed) (i t : PartitionKey) (k : Option PartitionKey)
    (e : Filed P S) : FiledOne p (p.fileById i t k e) (some i, t, k) e := by
  have hfirst := getPartition_spec h.idMap i
  rcases hg : getPartition i p.idMap with ⟨part, idMap⟩
  rw [hg] at hfirst
  obtain ⟨hpart, hpkey, hidMap, hidSame⟩ := hfirst
  dsimp only at hpart hpkey hidMap hidSame
  subst hpart
  have hsecond := partition_spec (h.idSlots i) h.typeMap t
  rcases hs : (partitionAt p.idMap i).partition t p.typeMap with ⟨slot, typeMap⟩
  rw [hs] at hsecond
  obtain ⟨hslot, hskey, htypeMap, htypeSame⟩ := hsecond
  dsimp only at hslot hskey htypeMap htypeSame
  subst hslot
  have hidAt : ∀ part i', partitionAt (idMap.insert i part) i' =
      if i' = i then part else partitionAt p.idMap i' := by
    intro part i'
    rw [partitionAt_insert, hidSame]
  -- the slots of the partition whose slot `t` is replaced
  have hputAt : ∀ slot t', slotAt ((partitionAt p.idMap i).put t slot).slots t' =
      if t' = t then slot else slotAt (partitionAt p.idMap i).slots t' :=
    fun slot t' => slotAt_insert _ _ _ _
  have hputReferents : ∀ slot : Slot P S (Slot P S Empty), Keyed Slot.partition slot.referents →
      ∀ t', Keyed Slot.partition
        (slotAt ((partitionAt p.idMap i).put t slot).slots t').referents := by
    intro slot hkeyed t'
    rw [hputAt]
    split
    · exact hkeyed
    · exact h.idReferents i t'
  have hnewAt : ∀ slot i' t', slotAt (partitionAt (idMap.insert i
      ((partitionAt p.idMap i).put t slot)) i').slots t' =
      if i' = i ∧ t' = t then slot else slotAt (partitionAt p.idMap i').slots t' := by
    intro slot i' t'
    rw [hidAt]
    by_cases hi : i' = i
    · rw [if_pos hi, hputAt, hi]
      by_cases ht : t' = t
      · rw [if_pos ht, if_pos ⟨rfl, ht⟩]
      · rw [if_neg ht, if_neg (fun hn => ht hn.2)]
    · rw [if_neg hi, if_neg (fun hn => hi hn.1)]
  have hwell : ∀ (slot : Slot P S (Slot P S Empty)) {styleMap : Table (Partition P S Empty)},
      slot.partition = t → Keyed Slot.partition slot.referents → Keyed Partition.key styleMap →
      ({ p with
        idMap := idMap.insert i ((partitionAt p.idMap i).put t slot)
        typeMap := typeMap
        styleClassMap := styleMap } : SelectorPartitioning P S).WellFormed := by
    intro slot styleMap hkey hkeyed hstyle
    exact h.withId (hidMap.insert hpkey) htypeMap hstyle (hidAt _) htypeSame
      ((h.idSlots i).insert hkey) (hputReferents slot hkeyed) (h.idSelectors i)
  cases k with
  | none =>
      simp only [fileById, hg, hs]
      refine filedOne_of_slot (hwell ((slotAt (partitionAt p.idMap i).slots t).addSelector e)
        hskey (h.idReferents i t) h.styleClassMap) (hnewAt _) htypeSame fun k' => ?_
      cases k' with
      | none => rfl
      | some k' => rfl
  | some k =>
      have hthird := partitionOf_spec (h.idReferents i t) h.styleClassMap k
      rcases hl : (slotAt (partitionAt p.idMap i).slots t).partitionOf k p.styleClassMap with
        ⟨leaf, styleClassMap⟩
      rw [hl] at hthird
      obtain ⟨hleaf, hlkey, hstyleMap⟩ := hthird
      dsimp only at hleaf hlkey hstyleMap
      subst hleaf
      simp only [fileById, hg, hs, hl]
      refine filedOne_of_slot (hwell ((slotAt (partitionAt p.idMap i).slots t).put k
        ((slotAt (slotAt (partitionAt p.idMap i).slots t).referents k).addSelector e))
        hskey ((h.idReferents i t).insert hlkey) hstyleMap) (hnewAt _) htypeSame fun k' => ?_
      cases k' with
      | none => rfl
      | some k' =>
          simp only [filedIn, Slot.put, slotAt_insert, Option.some.injEq]
          by_cases hk : k' = k
          · rw [if_pos hk, if_pos hk, hk]
            rfl
          · rw [if_neg hk, if_neg hk]

theorem fileByType_spec (h : p.WellFormed) (t : PartitionKey) (k : Option PartitionKey)
    (e : Filed P S) : FiledOne p (p.fileByType t k e) (none, t, k) e := by
  have hfirst := getPartition_spec h.typeMap t
  rcases hg : getPartition t p.typeMap with ⟨part, typeMap⟩
  rw [hg] at hfirst
  obtain ⟨hpart, hpkey, htypeMap, htypeSame⟩ := hfirst
  dsimp only at hpart hpkey htypeMap htypeSame
  subst hpart
  have htypeAt : ∀ part t', partitionAt (typeMap.insert t part) t' =
      if t' = t then part else partitionAt p.typeMap t' := by
    intro part t'
    rw [partitionAt_insert, htypeSame]
  have hwell : ∀ {part : Partition P S Empty} {styleMap : Table (Partition P S Empty)},
      part.key = t → Keyed Slot.partition part.slots → Keyed Partition.key styleMap →
      ({ p with
        typeMap := typeMap.insert t part
        styleClassMap := styleMap } : SelectorPartitioning P S).WellFormed := by
    intro part styleMap hkey hkeyed hstyle
    refine ⟨h.idMap, htypeMap.insert hkey, hstyle, h.idSlots, h.idReferents, fun t' => ?_,
      h.idSelectors⟩
    rw [htypeAt]
    split
    · exact hkeyed
    · exact h.typeSlots t'
  cases k with
  | none =>
      simp only [fileByType, hg]
      refine ⟨hwell hpkey (h.typeSlots t) h.styleClassMap, fun loc => ?_⟩
      obtain ⟨i', t', k'⟩ := loc
      rcases i' with _ | i' <;> rcases k' with _ | k'
      · simp only [filedAt, htypeAt, Prod.mk.injEq, true_and, and_true]
        by_cases ht : t' = t
        · rw [if_pos ht, if_pos ht, ht]
          rfl
        · rw [if_neg ht, if_neg ht]
      · simp only [filedAt, htypeAt, Prod.mk.injEq, reduceCtorEq, and_false, if_false]
        by_cases ht : t' = t
        · rw [if_pos ht, ht]
          rfl
        · rw [if_neg ht]
      · simp [filedAt]
      · simp [filedAt]
  | some k =>
      have hsecond := partition_spec (h.typeSlots t) h.styleClassMap k
      rcases hl : (partitionAt p.typeMap t).partition k p.styleClassMap with
        ⟨leaf, styleClassMap⟩
      rw [hl] at hsecond
      obtain ⟨hleaf, hlkey, hstyleMap, -⟩ := hsecond
      dsimp only at hleaf hlkey hstyleMap
      subst hleaf
      simp only [fileByType, hg, hl]
      refine ⟨hwell hpkey ((h.typeSlots t).insert hlkey) hstyleMap, fun loc => ?_⟩
      obtain ⟨i', t', k'⟩ := loc
      rcases i' with _ | i' <;> rcases k' with _ | k'
      · simp only [filedAt, htypeAt, Prod.mk.injEq, reduceCtorEq, and_false, if_false]
        by_cases ht : t' = t
        · rw [if_pos ht, ht]
          rfl
        · rw [if_neg ht]
      · simp only [filedAt, htypeAt, Prod.mk.injEq, true_and, Option.some.injEq]
        by_cases ht : t' = t
        · rw [if_pos ht, ht]
          simp only [Partition.put, slotAt_insert, true_and]
          by_cases hk : k' = k
          · rw [if_pos hk, if_pos hk, hk]
            rfl
          · rw [if_neg hk, if_neg hk]
        · rw [if_neg ht, if_neg (fun hn => ht hn.1)]
      · simp [filedAt]
      · simp [filedAt]

theorem file_spec (h : p.WellFormed) (i k : Option PartitionKey) (t : PartitionKey)
    (e : Filed P S) : FiledOne p (p.file i (some t) k e) (i, t, k) e := by
  cases i with
  | none => exact fileByType_spec h t k e
  | some i => exact fileById_spec h i t k e

theorem file_ordinal (i t k : Option PartitionKey) (e : Filed P S) :
    (p.file i t k e).ordinal = p.ordinal := by
  rcases i with _ | i <;> rcases t with _ | t <;> rcases k with _ | k <;> rfl

/-- `F` are the selectors that have been filed, with their ordinals, and each of them is where
it belongs. -/
structure Filing (p : SelectorPartitioning P S) (F : List (Filed P S)) : Prop where
  wellFormed : p.WellFormed
  filed : ∀ loc, p.filedAt loc = F.filter fun e => e.location = some loc
  below : ∀ e ∈ F, e.ordinal < p.ordinal
  increasing : F.Pairwise fun a b => a.ordinal < b.ordinal

theorem filing_new : ({} : SelectorPartitioning P S).Filing [] := by
  refine ⟨wellFormed_new, ?_, fun _ h => (nomatch h), List.Pairwise.nil⟩
  rintro ⟨_ | i, t, _ | k⟩ <;> rfl

theorem Filing.snoc {F : List (Filed P S)} (h : p.Filing F) {p' : SelectorPartitioning P S}
    {e : Filed P S} (hwell : p'.WellFormed)
    (hfiled : ∀ loc, p'.filedAt loc = p.filedAt loc ++ [e].filter fun e => e.location = some loc)
    (hordinal : e.ordinal = p.ordinal) (hnext : p'.ordinal = p.ordinal + 1) :
    p'.Filing (F ++ [e]) := by
  refine ⟨hwell, fun loc => ?_, fun x hx => ?_, ?_⟩
  · rw [hfiled, h.filed, List.filter_append]
  · rcases List.mem_append.mp hx with hx | hx
    · have := h.below x hx
      omega
    · rw [List.mem_singleton.mp hx]
      omega
  · refine List.pairwise_append.mpr ⟨h.increasing, List.pairwise_singleton _ _, ?_⟩
    intro a ha b hb
    rw [List.mem_singleton.mp hb, hordinal]
    exact h.below a ha

theorem WellFormed.withOrdinal (h : p.WellFormed) (n : ℕ) :
    ({ p with ordinal := n } : SelectorPartitioning P S).WellFormed :=
  ⟨h.idMap, h.typeMap, h.styleClassMap, h.idSlots, h.idReferents, h.typeSlots, h.idSelectors⟩

theorem filedAt_withOrdinal (n : ℕ) (loc : Location) :
    ({ p with ordinal := n } : SelectorPartitioning P S).filedAt loc = p.filedAt loc := by
  obtain ⟨_ | i, t, _ | k⟩ := loc <;> rfl

/-- A call of `partition` that does not throw files the selector. -/
theorem partition_filing {F : List (Filed P S)} (h : p.Filing F) {selector : Selector P S}
    {p' : SelectorPartitioning P S} (hp : p.partition selector = .ok p') :
    p'.Filing (F ++ [⟨p.ordinal, selector⟩]) := by
  unfold partition at hp
  split at hp
  · cases hp
  · next s hs =>
      injection hp with hp
      subst hp
      have hwell := h.wellFormed.withOrdinal (p.ordinal + 1)
      have hlocation : Filed.location ⟨p.ordinal, selector⟩ = s.location := by
        rw [Filed.location, hs]
        rfl
      cases hname : nameKey (some s.name) with
      | none =>
          -- without a type it has no location
          refine h.snoc hwell (fun loc => ?_) rfl rfl
          have hnone : s.location = none := by
            rw [SimpleSelector.location, hname]
            rfl
          simp only [List.filter_singleton, hlocation, hnone, reduceCtorEq, decide_false,
            cond_false, List.append_nil]
          exact filedAt_withOrdinal _ _
      | some t =>
          have hsome : s.location =
              some (nameKey (some s.id), t, styleClassKey (some s.styleClassSet)) := by
            rw [SimpleSelector.location, hname]
            rfl
          have hfile := file_spec hwell (nameKey (some s.id))
            (styleClassKey (some s.styleClassSet)) t ⟨p.ordinal, selector⟩
          refine h.snoc hfile.1 (fun loc => ?_) rfl (file_ordinal _ _ _ _)
          rw [hfile.2, filedAt_withOrdinal]
          simp only [List.filter_singleton, hlocation, hsome, Option.some.injEq]
          by_cases hloc : loc = (nameKey (some s.id), t, styleClassKey (some s.styleClassSet))
          · rw [if_pos hloc, decide_eq_true hloc.symm]
            rfl
          · rw [if_neg hloc, decide_eq_false (fun hn => hloc hn.symm)]
            exact (List.append_nil _).symm

/-- The selectors of a sequence are given to `partition`, one after the other; a call that
throws leaves everything as it is. -/
def partitionAll (p : SelectorPartitioning P S) (selectors : List (Selector P S)) :
    SelectorPartitioning P S :=
  selectors.foldl (fun p selector =>
    match p.partition selector with
    | .ok p' => p'
    | .error _ => p) p

/-- The selectors that are not thrown at. -/
def accepted (selectors : List (Selector P S)) : List (Selector P S) :=
  selectors.filter fun selector => selector.rightmost.isSome

/-- After every sequence each selector is filed where it belongs. -/
theorem partitionAll_filing (selectors : List (Selector P S)) :
    ∀ {p : SelectorPartitioning P S} {F : List (Filed P S)}, p.Filing F →
      ∃ F', (p.partitionAll selectors).Filing F' ∧
        F'.map Filed.selector = F.map Filed.selector ++ accepted selectors := by
  induction selectors with
  | nil => exact fun {p F} h => ⟨F, h, (List.append_nil _).symm⟩
  | cons selector rest ih =>
      intro p F h
      cases hp : p.partition selector with
      | ok p' =>
          obtain ⟨F', hF', hmap⟩ := ih (partition_filing h hp)
          refine ⟨F', ?_, ?_⟩
          · simp only [partitionAll, List.foldl_cons, hp]
            exact hF'
          · have hacc : selector.rightmost.isSome = true := by
              unfold partition at hp
              split at hp
              · cases hp
              · next s hs => rw [hs, Option.isSome_some]
            rw [hmap, List.map_append, accepted, accepted, List.filter_cons, if_pos hacc,
              List.append_assoc]
            rfl
      | error x =>
          obtain ⟨F', hF', hmap⟩ := ih h
          refine ⟨F', ?_, ?_⟩
          · simp only [partitionAll, List.foldl_cons, hp]
            exact hF'
          · have hacc : ¬ selector.rightmost.isSome = true := by
              unfold partition at hp
              split at hp
              · next hs => rw [hs]; exact Bool.false_ne_true
              · cases hp
            rw [hmap, accepted, accepted, List.filter_cons, if_neg hacc]

/-! ## What `match` visits -/

/-- The style classes of a key are among the queried ones. -/
def admits (key : BitSet S) : PartitionKey → Bool
  | .styleClasses bits => key.containsAll (some { bits := bits })
  | .name _ => false

/-- The keys of the slots that are collected. -/
def styleKeys (m : Table (Slot P S Empty)) : Option (BitSet S) → List PartitionKey
  | none => []
  | some key => m.keys.filter (admits key)

theorem collect_perm (values : ValuesOrder P S) {m : Table (Slot P S Empty)}
    (h : Keyed Slot.partition m) (key : Option (BitSet S)) :
    (key.elim [] fun key => collect values m key).Perm
      ((styleKeys m key).flatMap fun k => (slotAt m k).selectors) := by
  cases key with
  | none => exact List.Perm.refl _
  | some key =>
      refine ((values.perm _).flatMap_right _).trans (List.Perm.of_eq ?_)
      show _ = ((m.entries.map Sigma.fst).filter (admits key)).flatMap _
      have hentry : ∀ x ∈ m.entries, x.2.partition = x.1 ∧ slotAt m x.1 = x.2 := by
        intro x hx
        have hlookup : m.lookup x.1 = some x.2 := AList.mem_lookup_iff.mpr hx
        exact ⟨h x.1 x.2 hlookup, by rw [slotAt, hlookup]; rfl⟩
      generalize m.entries = entries at hentry
      induction entries with
      | nil => rfl
      | cons x rest ih =>
          obtain ⟨hkey, hslot⟩ := hentry x (List.mem_cons_self ..)
          rw [List.map_cons, List.flatMap_cons, ih fun y hy => hentry y (List.mem_cons_of_mem _ hy),
            List.map_cons, List.filter_cons, hkey]
          cases hx : x.1 with
          | name s => rfl
          | styleClasses bits =>
              rw [hx] at hslot
              by_cases hc : key.containsAll (some { bits := bits }) = true
              · simp only [admits, hc, if_true, List.flatMap_cons, hslot]
              · simp only [admits, hc, Bool.false_eq_true, if_false, List.nil_append]

/-- The slots that stand behind a location without style classes. -/
def slotsAt (p : SelectorPartitioning P S) (t : PartitionKey) :
    Option PartitionKey → Table (Slot P S Empty)
  | some i => (slotAt (partitionAt p.idMap i).slots t).referents
  | none => (partitionAt p.typeMap t).slots

theorem filedAt_some (i : Option PartitionKey) (t k : PartitionKey) :
    p.filedAt (i, t, some k) = (slotAt (p.slotsAt t i) k).selectors := by
  cases i <;> rfl

theorem WellFormed.keyed_slotsAt (h : p.WellFormed) (t : PartitionKey) (i : Option PartitionKey) :
    Keyed Slot.partition (p.slotsAt t i) := by
  cases i with
  | none => exact h.typeSlots t
  | some i => exact h.idReferents i t

/-- The locations with one id that `match` visits. -/
def places (p : SelectorPartitioning P S) (t : PartitionKey) (key : Option (BitSet S))
    (i : Option PartitionKey) : List Location :=
  (typeKeys t).flatMap fun t =>
    (i, t, none) :: (styleKeys (p.slotsAt t i) key).map fun k => (i, t, some k)

/-- What is collected at one type. -/
theorem places_flatMap (h : p.WellFormed) (values : ValuesOrder P S) (t : PartitionKey)
    (key : Option (BitSet S)) (i : Option PartitionKey) :
    ((typeKeys t).flatMap fun t => p.filedAt (i, t, none) ++
      key.elim [] fun key => collect values (p.slotsAt t i) key).Perm
      ((p.places t key i).flatMap p.filedAt) := by
  rw [places, List.flatMap_assoc]
  refine List.Perm.flatMap_left _ fun t' _ => ?_
  rw [List.flatMap_cons, List.flatMap_map]
  refine List.Perm.append_left _ ((collect_perm values (h.keyed_slotsAt t' i) key).trans ?_)
  exact List.Perm.of_eq (List.flatMap_congr fun k _ => (filedAt_some i t' k).symm)

theorem collect_empty (values : ValuesOrder P S) (key : BitSet S) :
    collect values (∅ : Table (Slot P S Empty)) key = [] := by
  have hnil : values.order [] = [] := List.perm_nil.mp (values.perm [])
  show (values.order []).flatMap _ = []
  rw [hnil]
  rfl

theorem matchType_perm (h : p.WellFormed) (values : ValuesOrder P S) (t : PartitionKey)
    (key : Option (BitSet S)) :
    (p.matchType values t key).Perm ((p.places t key none).flatMap p.filedAt) := by
  refine (List.Perm.of_eq (List.flatMap_congr fun t' _ => ?_)).trans
    (places_flatMap h values t key none)
  simp only [filedAt, slotsAt, partitionAt]
  cases p.typeMap.lookup t' with
  | some partition => rfl
  | none =>
      cases key with
      | none => rfl
      | some key => exact (collect_empty values key).symm

theorem matchId_perm (h : p.WellFormed) (values : ValuesOrder P S) (i t : PartitionKey)
    (key : Option (BitSet S)) :
    (p.matchId values i t key).Perm ((p.places t key (some i)).flatMap p.filedAt) := by
  refine List.Perm.trans (List.Perm.of_eq ?_) (places_flatMap h values t key (some i))
  have hselectors := h.idSelectors i
  simp only [filedAt, slotsAt, partitionAt, matchId] at hselectors ⊢
  cases hi : p.idMap.lookup i with
  | none =>
      refine (List.flatMap_eq_nil_iff.mpr fun t' _ => ?_).symm
      cases key with
      | none => rfl
      | some key => exact collect_empty values key
  | some partition =>
      rw [hi] at hselectors
      have hnone : partition.selectors = [] := hselectors
      simp only [hnone, List.nil_append, slotAt, Option.getD_some]
      refine List.flatMap_congr fun t' _ => ?_
      cases partition.slots.lookup t' with
      | some slot => rfl
      | none =>
          cases key with
          | none => rfl
          | some key => exact (collect_empty values key).symm

/-- The locations that `match` visits. -/
def visited (p : SelectorPartitioning P S) (i : Option PartitionKey) (t : PartitionKey)
    (key : Option (BitSet S)) : List Location :=
  (i.elim [] fun i => p.places t key (some i)) ++ p.places t key none

theorem matchLoop_eq (values : ValuesOrder P S) (i : Option PartitionKey) (t : PartitionKey)
    (key : Option (BitSet S)) (hasStyleClass : Bool) :
    p.matchLoop values i (some t) key (mask i.isSome true hasStyleClass) [] =
      (i.elim [] fun i => p.matchId values i t (if hasStyleClass then key else none)) ++
        p.matchType values t (if hasStyleClass then key else none) := by
  cases i with
  | none | some i =>
      cases hasStyleClass
      · simp [mask, matchLoop]
      · simp [mask, matchLoop]

theorem matchLoop_perm (h : p.WellFormed) (values : ValuesOrder P S) (i : Option PartitionKey)
    (t : PartitionKey) (key : Option (BitSet S)) (hasStyleClass : Bool) :
    (p.matchLoop values i (some t) key (mask i.isSome true hasStyleClass) []).Perm
      ((p.visited i t (if hasStyleClass then key else none)).flatMap p.filedAt) := by
  rw [matchLoop_eq, visited, List.flatMap_append]
  refine List.Perm.append ?_ (matchType_perm h values t _)
  cases i with
  | none => exact List.Perm.refl _
  | some i => exact matchId_perm h values i t _

theorem nodup_typeKeys (t : PartitionKey) : (typeKeys t).Nodup := by
  unfold typeKeys
  split
  · next h => simpa using h
  · exact List.nodup_singleton _

theorem nodup_styleKeys (m : Table (Slot P S Empty)) (key : Option (BitSet S)) :
    (styleKeys m key).Nodup := by
  cases key with
  | none => exact List.nodup_nil
  | some key => exact m.nodupKeys.filter _

theorem mem_places {t : PartitionKey} {key : Option (BitSet S)} {i : Option PartitionKey}
    {loc : Location} : loc ∈ p.places t key i ↔ loc.1 = i ∧ loc.2.1 ∈ typeKeys t ∧
      ∀ k, loc.2.2 = some k → k ∈ styleKeys (p.slotsAt loc.2.1 i) key := by
  obtain ⟨i', t', k'⟩ := loc
  simp only [places, List.mem_flatMap, List.mem_cons, List.mem_map, Prod.mk.injEq]
  constructor
  · rintro ⟨t, ht, ⟨rfl, rfl, rfl⟩ | ⟨k, hk, rfl, rfl, rfl⟩⟩
    · exact ⟨rfl, ht, fun _ h => (nomatch h)⟩
    · exact ⟨rfl, ht, fun _ h => Option.some.inj h ▸ hk⟩
  · rintro ⟨rfl, ht, hk⟩
    refine ⟨t', ht, ?_⟩
    cases k' with
    | none => exact .inl ⟨rfl, rfl, rfl⟩
    | some k' => exact .inr ⟨k', hk k' rfl, rfl, rfl, rfl⟩

theorem nodup_places (t : PartitionKey) (key : Option (BitSet S)) (i : Option PartitionKey) :
    (p.places t key i).Nodup := by
  refine List.nodup_flatMap.mpr ⟨fun t' _ => ?_, ?_⟩
  · refine List.nodup_cons.mpr ⟨?_, ?_⟩
    · simp
    · refine (nodup_styleKeys _ key).map fun a b hab => ?_
      exact Option.some.inj (Prod.mk.inj (Prod.mk.inj hab).2).2
  · refine (nodup_typeKeys t).imp fun {t₁ t₂} hne => ?_
    -- locations of different types
    have htype : ∀ t', ∀ loc ∈ (i, t', none) :: (styleKeys (p.slotsAt t' i) key).map
        fun k => (i, t', some k), loc.2.1 = t' := by
      intro t' loc hloc
      rcases List.mem_cons.mp hloc with rfl | hloc
      · rfl
      · obtain ⟨k, -, rfl⟩ := List.mem_map.mp hloc
        rfl
    exact fun loc h₁ h₂ => hne ((htype t₁ loc h₁).symm.trans (htype t₂ loc h₂))

theorem nodup_visited (i : Option PartitionKey) (t : PartitionKey) (key : Option (BitSet S)) :
    (p.visited i t key).Nodup := by
  cases i with
  | none => exact nodup_places t key none
  | some i =>
      refine List.nodup_append'.mpr ⟨nodup_places t key (some i), nodup_places t key none, ?_⟩
      intro loc h₁ h₂
      have hi := (mem_places.mp h₁).1
      rw [(mem_places.mp h₂).1] at hi
      exact nomatch hi

/-- The parts of a list are together what was to be picked from it. -/
theorem flatMap_filter_perm (F : List (Filed P S)) {L : List Location} (h : L.Nodup) :
    (L.flatMap fun loc => F.filter fun e => e.location = some loc).Perm
      (F.filter fun e => ∃ loc ∈ L, e.location = some loc) := by
  induction L with
  | nil => simp
  | cons loc L ih =>
      obtain ⟨hloc, hL⟩ := List.nodup_cons.mp h
      rw [List.flatMap_cons]
      refine ((ih hL).append_left _).trans ?_
      refine List.Perm.trans (List.Perm.of_eq ?_) (List.filter_append_perm
        (fun e => decide (e.location = some loc)) _)
      rw [List.filter_filter, List.filter_filter]
      congr 1
      · refine List.filter_congr fun e _ => ?_
        by_cases he : e.location = some loc
        · simp [he]
        · simp [he]
      · refine List.filter_congr fun e _ => ?_
        by_cases he : e.location = some loc
        · simp [he, hloc]
        · simp [he]

theorem mem_visited {i : Option PartitionKey} {t : PartitionKey} {key : Option (BitSet S)}
    {loc : Location} : loc ∈ p.visited i t key ↔ (loc.1 = none ∨ loc.1 = i) ∧
      loc.2.1 ∈ typeKeys t ∧ ∀ k, loc.2.2 = some k → k ∈ styleKeys (p.slotsAt loc.2.1 loc.1) key := by
  rw [visited, List.mem_append, mem_places]
  constructor
  · rintro (h | ⟨hi, h⟩)
    · cases i with
      | none => exact nomatch h
      | some i =>
          obtain ⟨hi, h⟩ := mem_places.mp h
          rw [hi]
          exact ⟨.inr rfl, h⟩
    · rw [hi]
      exact ⟨.inl rfl, h⟩
  · rintro ⟨hi | hi, h⟩
    · rw [hi] at h
      exact .inr ⟨hi, h⟩
    · cases i with
      | none =>
          rw [hi] at h
          exact .inr ⟨hi, h⟩
      | some i =>
          rw [hi] at h
          exact .inl (mem_places.mpr ⟨hi, h⟩)

/-- A slot that is not in the table has no selectors. -/
theorem mem_keys_of_mem_slotAt {m : Table (Slot P S Empty)} {k : PartitionKey} {e : Filed P S}
    (h : e ∈ (slotAt m k).selectors) : k ∈ m.keys := by
  by_contra hk
  rw [slotAt, AList.lookup_eq_none.mpr hk] at h
  exact nomatch h

/-- Where a filed selector lies is visited if its key is one of the queried ones. -/
theorem Filing.mem_visited_iff {F : List (Filed P S)} (h : p.Filing F) {e : Filed P S}
    (he : e ∈ F) {loc : Location} (hloc : e.location = some loc) {i : Option PartitionKey}
    {t : PartitionKey} {key : Option (BitSet S)} :
    loc ∈ p.visited i t key ↔ (loc.1 = none ∨ loc.1 = i) ∧ loc.2.1 ∈ typeKeys t ∧
      ∀ k, loc.2.2 = some k → ∃ q, key = some q ∧ admits q k = true := by
  obtain ⟨i', t', k'⟩ := loc
  rw [mem_visited]
  refine and_congr_right fun _ => and_congr_right fun _ => forall_congr' fun k =>
    forall_congr' fun hk => ?_
  have hfiled : e ∈ p.filedAt (i', t', k') := by
    rw [h.filed]
    exact List.mem_filter.mpr ⟨he, decide_eq_true hloc⟩
  rw [show k' = some k from hk, filedAt_some] at hfiled
  cases key with
  | none => exact iff_of_false (fun hn => (nomatch hn)) (fun ⟨_, hn, _⟩ => (nomatch hn))
  | some q =>
      rw [styleKeys, List.mem_filter]
      constructor
      · exact fun hq => ⟨q, rfl, hq.2⟩
      · rintro ⟨q', hq', hadmits⟩
        cases hq'
        exact ⟨mem_keys_of_mem_slotAt hfiled, hadmits⟩

end SelectorPartitioning

/-! ## The linear scan -/

theorem BitSet.size_eq_zero_iff {T : Type} [Indexed T] {s : BitSet T} :
    s.size = 0 ↔ s.elements = ∅ := by
  have hword : ∀ {x : BitVec 64}, (bitsIn x).length = 0 ↔ ∀ b < 64, x.getLsbD b = false := by
    intro x
    rw [List.length_eq_zero_iff, bitsIn_eq, List.filter_eq_nil_iff]
    simp
  rw [size, List.sum_eq_zero_iff, Set.eq_empty_iff_forall_notMem]
  constructor
  · intro h t ht
    have hmem := mem_elements.mp ht
    have hlt := WordSet.lt_length_of_mem hmem
    have hzero := h _ (List.mem_map_of_mem (List.getElem_mem hlt))
    rw [WordSet.mem, WordSet.word_of_lt hlt, hword.mp hzero _ (Nat.mod_lt _ (by decide))] at hmem
    exact Bool.false_ne_true hmem
  · intro h x hx
    obtain ⟨y, hy, rfl⟩ := List.mem_map.mp hx
    obtain ⟨n, hn, rfl⟩ := List.getElem_of_mem hy
    refine hword.mpr fun b hb => Bool.eq_false_iff.mpr fun hbit => ?_
    refine h (Indexed.getT (n * 64 + b)) (getT_mem_elements.mpr ?_)
    rw [WordSet.mem_mul_add hb, WordSet.word_of_lt hn]
    exact hbit

/-- The simple selector has no id or the queried one, any type or the queried one, and no
style classes but queried ones. -/
def SimpleSelector.Wanted (s : SimpleSelector P S) (id : Option String) (type : String)
    (styleClasses : Option (BitSet S)) : Prop :=
  (s.id = "" ∨ id = some s.id) ∧ (s.name = "*" ∨ s.name = type) ∧
    s.styleClassSet.elements ⊆ (styleClasses.getD {}).elements

instance (s : SimpleSelector P S) (b : BitSet S) :
    Decidable (s.styleClassSet.elements ⊆ b.elements) :=
  decidable_of_iff _ s.styleClassSet_trim.containsAll_iff

instance (s : SimpleSelector P S) (id : Option String) (type : String)
    (styleClasses : Option (BitSet S)) : Decidable (s.Wanted id type styleClasses) :=
  inferInstanceAs (Decidable (_ ∧ _ ∧ _))

/-- The rightmost simple selector is wanted. -/
def Selector.Wanted (selector : Selector P S) (id : Option String) (type : String)
    (styleClasses : Option (BitSet S)) : Prop :=
  ∃ s, selector.rightmost = some s ∧ s.Wanted id type styleClasses

instance (selector : Selector P S) (id : Option String) (type : String)
    (styleClasses : Option (BitSet S)) : Decidable (selector.Wanted id type styleClasses) :=
  match h : selector.rightmost with
  | none => .isFalse fun ⟨_, hs, _⟩ => nomatch h.symm.trans hs
  | some s => decidable_of_iff (s.Wanted id type styleClasses)
      ⟨fun hw => ⟨s, h, hw⟩, fun ⟨_, hs, hw⟩ => Option.some.inj (h.symm.trans hs) ▸ hw⟩

/-- The style classes that `match` looks for. -/
theorem styleClasses_subset_iff {s : SimpleSelector P S} {styleClasses : Option (BitSet S)} :
    (∀ k, styleClassKey (some s.styleClassSet) = some k →
      ∃ q, (if (styleClassKey styleClasses).isSome then styleClasses else none) = some q ∧
        SelectorPartitioning.admits q k = true) ↔
      s.styleClassSet.elements ⊆ (styleClasses.getD {}).elements := by
  by_cases hsize : s.styleClassSet.size > 0
  · have hne : s.styleClassSet.elements ≠ ∅ := fun h =>
      Nat.ne_of_gt hsize (BitSet.size_eq_zero_iff.mpr h)
    rw [styleClassKey, if_pos hsize]
    have hnone : ¬ s.styleClassSet.elements ⊆ ∅ := fun h => hne (Set.subset_empty_iff.mp h)
    cases styleClasses with
    | none =>
        refine iff_of_false (fun h => ?_) (fun h => hnone ?_)
        · obtain ⟨q, hq, -⟩ := h _ rfl
          exact nomatch hq
        · rwa [← BitSet.size_eq_zero_iff.mp (rfl : ({} : BitSet S).size = 0)]
    | some b =>
        by_cases hb : b.size > 0
        · rw [styleClassKey, if_pos hb]
          rw [Option.getD_some, ← s.styleClassSet_trim.containsAll_iff]
          constructor
          · intro h
            obtain ⟨q, hq, hadmits⟩ := h _ rfl
            cases hq
            exact hadmits
          · rintro h k hk
            cases hk
            exact ⟨b, rfl, h⟩
        · have hzero : b.elements = ∅ := BitSet.size_eq_zero_iff.mp (by omega)
          rw [styleClassKey, if_neg hb, Option.getD_some, hzero]
          refine iff_of_false (fun h => ?_) hnone
          obtain ⟨q, hq, -⟩ := h _ rfl
          exact nomatch hq
  · have hzero : s.styleClassSet.elements = ∅ := BitSet.size_eq_zero_iff.mp (by omega)
    rw [styleClassKey, if_neg hsize, hzero]
    exact iff_of_true (fun _ h => (nomatch h)) (Set.empty_subset _)

namespace SelectorPartitioning

variable {p : SelectorPartitioning P S}

theorem nameKey_of_ne {name : String} (h : name ≠ "") : nameKey (some name) = some (.name name) :=
  if_pos h

theorem nameKey_empty : nameKey (some "") = none := rfl

theorem nameKey_eq_some {name : Option String} {s : String} :
    nameKey name = some (.name s) ↔ name = some s ∧ s ≠ "" := by
  cases name with
  | none => exact iff_of_false (fun h => (nomatch h)) (fun h => (nomatch h.1))
  | some name =>
      by_cases h : name = ""
      · rw [h, nameKey_empty]
        exact iff_of_false (fun h => (nomatch h)) (fun h => h.2 (Option.some.inj h.1).symm)
      · rw [nameKey_of_ne h, Option.some.injEq, Option.some.injEq, PartitionKey.name.injEq]
        exact ⟨fun heq => ⟨heq, heq ▸ h⟩, fun heq => heq.1⟩

theorem mem_typeKeys {type name : String} :
    (.name name : PartitionKey) ∈ typeKeys (.name type) ↔ name = "*" ∨ name = type := by
  unfold typeKeys WILDCARD
  split
  · simp [or_comm]
  · next h =>
      simp only [ne_eq, PartitionKey.name.injEq, not_not] at h
      simp [h]

/-- What is visited is what is wanted. -/
theorem Filing.visited_iff_wanted {F : List (Filed P S)} (h : p.Filing F) {e : Filed P S}
    (he : e ∈ F) {id : Option String} {type : String} (htype : type ≠ "")
    {styleClasses : Option (BitSet S)} :
    (∃ loc ∈ p.visited (nameKey id) (.name type)
      (if (styleClassKey styleClasses).isSome then styleClasses else none),
      e.location = some loc) ↔ e.selector.Wanted id type styleClasses := by
  cases hs : e.selector.rightmost with
  | none =>
      refine iff_of_false ?_ ?_
      · rintro ⟨loc, -, hloc⟩
        rw [Filed.location, hs] at hloc
        exact nomatch hloc
      · rintro ⟨s, hs', -⟩
        exact nomatch hs.symm.trans hs'
  | some s =>
      have hwanted : e.selector.Wanted id type styleClasses ↔ s.Wanted id type styleClasses :=
        ⟨fun ⟨_, hs', hw⟩ => Option.some.inj (hs.symm.trans hs') ▸ hw, fun hw => ⟨s, hs, hw⟩⟩
      have hlocation : e.location = s.location := by
        rw [Filed.location, hs]
        rfl
      rw [hwanted, SimpleSelector.Wanted]
      by_cases hname : s.name = ""
      · -- a selector without a type is filed nowhere, and no node has the empty type
        refine iff_of_false ?_ ?_
        · rintro ⟨loc, -, hloc⟩
          rw [hlocation, SimpleSelector.location, hname, nameKey_empty] at hloc
          exact nomatch hloc
        · rintro ⟨-, hn | hn, -⟩
          · rw [hname] at hn
            exact absurd hn (by decide)
          · exact htype (hn.symm.trans hname)
      · have hsome : e.location = some (nameKey (some s.id), .name s.name,
            styleClassKey (some s.styleClassSet)) := by
          rw [hlocation, SimpleSelector.location, nameKey_of_ne hname]
          rfl
        have hid : (nameKey (some s.id) = none ∨ nameKey (some s.id) = nameKey id) ↔
            s.id = "" ∨ id = some s.id := by
          by_cases hid : s.id = ""
          · rw [hid, nameKey_empty]
            exact iff_of_true (.inl rfl) (.inl rfl)
          · rw [nameKey_of_ne hid, eq_comm (b := nameKey id), nameKey_eq_some]
            simp [hid]
        constructor
        · rintro ⟨loc, hmem, hloc⟩
          cases hsome.symm.trans hloc
          obtain ⟨h₁, h₂, h₃⟩ := (h.mem_visited_iff he hsome).mp hmem
          exact ⟨hid.mp h₁, mem_typeKeys.mp h₂, styleClasses_subset_iff.mp h₃⟩
        · rintro ⟨h₁, h₂, h₃⟩
          exact ⟨_, (h.mem_visited_iff he hsome).mpr
            ⟨hid.mpr h₁, mem_typeKeys.mpr h₂, styleClasses_subset_iff.mpr h₃⟩, hsome⟩

/-- Sorting by ordinal restores the order of filing. -/
theorem Filing.mergeSort_eq {F : List (Filed P S)} (h : p.Filing F) {found : List (Filed P S)}
    {wanted : Filed P S → Bool} (hperm : found.Perm (F.filter wanted)) :
    (found.mergeSort fun a b => decide (a.ordinal ≤ b.ordinal)) = F.filter wanted := by
  have hincreasing : (F.filter wanted).Pairwise fun a b => a.ordinal < b.ordinal :=
    h.increasing.sublist List.filter_sublist
  have hsorted : (found.mergeSort fun a b => decide (a.ordinal ≤ b.ordinal)).Pairwise
      fun a b => decide (a.ordinal ≤ b.ordinal) := by
    refine List.pairwise_mergeSort (fun a b c hab hbc => ?_) (fun a b => ?_) found
    · exact decide_eq_true ((of_decide_eq_true hab).trans (of_decide_eq_true hbc))
    · rcases Nat.le_total a.ordinal b.ordinal with hle | hle
      · rw [decide_eq_true hle, Bool.true_or]
      · rw [decide_eq_true hle, Bool.or_true]
  refine List.Perm.eq_of_pairwise ?_ hsorted (hincreasing.imp fun hab => ?_)
    ((List.mergeSort_perm found _).trans hperm)
  · intro a b ha hb hab hba
    have hordinal : a.ordinal = b.ordinal :=
      Nat.le_antisymm (of_decide_eq_true hab) (of_decide_eq_true hba)
    have ha' : a ∈ F.filter wanted := ((List.mergeSort_perm found _).trans hperm).mem_iff.mp ha
    have hnodup : ((F.filter wanted).map Filed.ordinal).Nodup :=
      List.pairwise_map.mpr (hincreasing.imp Nat.ne_of_lt)
    exact List.inj_on_of_nodup_map hnodup ha' hb hordinal
  · exact decide_eq_true (Nat.le_of_lt hab)

/-- **`match` is a linear scan.** For every sequence of selectors and every query with a type,
`match` returns the wanted selectors of the sequence, in its order. -/
theorem match_eq_scan (values : ValuesOrder P S) (selectors : List (Selector P S))
    (id : Option String) {type : String} (htype : type ≠ "")
    (styleClasses : Option (BitSet S)) :
    (({} : SelectorPartitioning P S).partitionAll selectors).match_ values id (some type)
        styleClasses = selectors.filter fun s => s.Wanted id type styleClasses := by
  obtain ⟨F, hF, hmap⟩ := partitionAll_filing selectors filing_new
  have hkey : nameKey (some type) = some (.name type) := if_pos htype
  have hfound := matchLoop_perm hF.wellFormed values (nameKey id) (.name type) styleClasses
    (styleClassKey styleClasses).isSome
  rw [List.flatMap_congr fun loc _ => hF.filed loc] at hfound
  have hsort := hF.mergeSort_eq (hfound.trans (flatMap_filter_perm F (nodup_visited _ _ _)))
  have hwanted : F.filter (fun e => decide (∃ loc ∈
      visited (({} : SelectorPartitioning P S).partitionAll selectors) (nameKey id) (.name type)
        (if (styleClassKey styleClasses).isSome then styleClasses else none),
      e.location = some loc)) = F.filter fun e => e.selector.Wanted id type styleClasses :=
    List.filter_congr fun e he => decide_eq_decide.mpr (hF.visited_iff_wanted he htype)
  show ((matchLoop _ values (nameKey id) (nameKey (some type)) styleClasses
    (mask (nameKey id).isSome (nameKey (some type)).isSome (styleClassKey styleClasses).isSome)
    []).mergeSort fun a b => decide (a.ordinal ≤ b.ordinal)).map Filed.selector = _
  calc _ = (F.filter fun e => e.selector.Wanted id type styleClasses).map Filed.selector := by
        rw [hkey, Option.isSome_some, hsort, hwanted]
    _ = (F.map Filed.selector).filter fun s => s.Wanted id type styleClasses :=
        (List.filter_map (p := fun s : Selector P S => decide (s.Wanted id type styleClasses))).symm
    _ = (accepted selectors).filter fun s => s.Wanted id type styleClasses := by
        rw [hmap, List.map_nil, List.nil_append]
    _ = selectors.filter fun s => s.Wanted id type styleClasses := by
        rw [accepted, List.filter_filter]
        refine List.filter_congr fun s _ => ?_
        by_cases hs : s.Wanted id type styleClasses
        · obtain ⟨r, hr, -⟩ := hs
          rw [hr, Option.isSome_some, Bool.and_true]
        · rw [decide_eq_false hs, Bool.false_and]

/-- A button with the style class 7, among selectors for everything, buttons and labels. -/
theorem match_eq_scan_button : "Button" ≠ "" ∧
    (({} : SelectorPartitioning ℕ ℕ).partitionAll [.simple (.new none [] [] (some "ok")),
      .simple (.new (some "Button") [7] [] none),
      .simple (.new (some "Label") [] [] none)]).match_ ⟨id, List.Perm.refl⟩ (some "ok")
        (some "Button") (some (BitSet.ofList [7, 80])) =
      [.simple (.new none [] [] (some "ok")), .simple (.new (some "Button") [7] [] none)] :=
  ⟨by decide, (match_eq_scan _ _ _ (by decide) _).trans rfl⟩

end SelectorPartitioning

end JavaFx.Css
