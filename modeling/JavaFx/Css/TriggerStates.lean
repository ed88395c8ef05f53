import JavaFx.Css.StateMatching

/-!
# What `applies` finds, and the trigger states

`applies` finds a placement of the simple selectors if there is one. The pseudo-classes it
adds to the trigger states are those of all simple selectors that fitted where the search
tried them, in branches that failed as well; they are right exactly if a placement has them
all (`applies_exact_iff`).
-/

namespace JavaFx.Css

open ChainEmbedding

variable {P S : Type} [Indexed P] [Indexed S]

/-- The pseudo-classes at a depth. -/
def statesAt (states : Option (SimpleSelector.States P)) (depth : ℕ) : Set P :=
  match states with
  | none => ∅
  | some states => ((states[depth]?.join).getD {}).elements

/-- The length of the array; none if it is null. -/
def statesLength (states : Option (SimpleSelector.States P)) : ℕ :=
  states.elim 0 List.length

theorem elements_empty : ({} : BitSet P).elements = ∅ := (BitSet.clear_does ({} : BitSet P)).elements

theorem statesAt_of_ge {states : Option (SimpleSelector.States P)} {depth : ℕ}
    (h : statesLength states ≤ depth) : statesAt states depth = ∅ := by
  cases states with
  | none => rfl
  | some states =>
      rw [statesAt, List.getElem?_eq_none h]
      exact elements_empty

/-- What `addStates` adds. -/
theorem statesAt_addStates (s : SimpleSelector P S) (states : SimpleSelector.States P)
    (depth d : ℕ) : statesAt (some (s.addStates states depth)) d =
      if d = depth ∧ d < states.length then statesAt (some states) d ∪ s.pseudoClassState.elements
      else statesAt (some states) d := by
  unfold SimpleSelector.addStates
  by_cases hlt : depth < states.length
  · rw [if_pos hlt]
    by_cases hd : d = depth
    · subst hd
      rw [if_pos ⟨rfl, hlt⟩, statesAt, List.getElem?_set_self hlt]
      exact BitSet.addAll_elements _ _
    · rw [if_neg (fun h => hd h.1), statesAt, List.getElem?_set_ne (Ne.symm hd)]
      rfl
  · rw [if_neg hlt, if_neg]
    rintro ⟨rfl, h⟩
    exact hlt h

theorem length_addStates (s : SimpleSelector P S) (states : SimpleSelector.States P)
    (depth : ℕ) : (s.addStates states depth).length = states.length := by
  unfold SimpleSelector.addStates
  split
  · exact List.length_set
  · rfl

namespace CompoundSelector

variable (c : CompoundSelector P S)

/-- The simple selector applies to the styleable. -/
def Applies (index : ℕ) (styleable : Styleable P S) : Prop :=
  (c.selector index).applies styleable = true

/-- A pseudo-class of a simple selector that the search from `k` tries at the distance `r`. -/
def Gathered (k : ℕ) (chain : List (Styleable P S)) (r : ℕ) (x : P) : Prop :=
  ∃ j, Tried c.Applies c.direct k chain j r ∧ x ∈ (c.selector j).pseudoClassState.elements

/-- What a part of the search answers, and what it adds to the states: what `gathered` says
for each distance from `depth`. -/
structure Searches (result : Bool × Option (SimpleSelector.States P))
    (states : Option (SimpleSelector.States P)) (depth : ℕ) (found : Prop)
    (gathered : ℕ → P → Prop) : Prop where
  answer : result.1 = true ↔ found
  length : statesLength result.2 = statesLength states
  isSome : result.2.isSome = states.isSome
  states : ∀ d x, x ∈ statesAt result.2 d ↔
    x ∈ statesAt states d ∨ d < statesLength states ∧ ∃ r, d = depth + r ∧ gathered r x

variable {c} {k : ℕ} {a : Styleable P S} {l : List (Styleable P S)}

theorem searches_nothing {states : Option (SimpleSelector.States P)} {depth : ℕ}
    {found : Prop} {gathered : ℕ → P → Prop} (hfound : ¬ found) (hnone : ∀ r x, ¬ gathered r x) :
    Searches (false, states) states depth found gathered := by
  refine ⟨iff_of_false Bool.false_ne_true hfound, rfl, rfl, fun d x => ?_⟩
  rw [or_iff_left]
  rintro ⟨-, r, -, h⟩
  exact hnone r x h

/-- One simple selector. -/
theorem appliesWith_searches (s : SimpleSelector P S)
    (states : Option (SimpleSelector.States P)) (depth : ℕ) :
    Searches (s.appliesWith a states depth) states depth (s.applies a = true)
      fun r x => s.applies a = true ∧ r = 0 ∧ x ∈ s.pseudoClassState.elements := by
  unfold SimpleSelector.appliesWith
  by_cases happlies : s.applies a = true
  · rw [if_pos happlies]
    cases states with
    | none =>
        refine ⟨iff_of_true rfl happlies, rfl, rfl, fun d x => ?_⟩
        exact iff_of_false id fun h => h.elim id fun h => absurd h.1 (Nat.not_lt_zero d)
    | some states =>
        refine ⟨iff_of_true rfl happlies, length_addStates s states depth, rfl, fun d x => ?_⟩
        show x ∈ statesAt (some (s.addStates states depth)) d ↔ _
        rw [statesAt_addStates]
        constructor
        · intro h
          split at h
          · next hd =>
              rcases h with h | h
              · exact Or.inl h
              · exact Or.inr ⟨hd.2, 0, hd.1, happlies, rfl, h⟩
          · exact Or.inl h
        · rintro (h | ⟨hlt, r, hd, -, rfl, h⟩)
          · split
            · exact Or.inl h
            · exact h
          · rw [if_pos ⟨hd, hlt⟩]
            exact Or.inr h
  · rw [if_neg happlies]
    exact searches_nothing happlies fun r x h => happlies h.1

/-- One part of the search after the other. -/
theorem Searches.trans {result result' : Bool × Option (SimpleSelector.States P)}
    {states : Option (SimpleSelector.States P)} {depth depth' n : ℕ} {found found' : Prop}
    {gathered gathered' gathered'' : ℕ → P → Prop}
    (h : Searches result states depth found gathered)
    (h' : Searches result' result.2 depth' found' gathered') (hdepth : depth' = depth + n)
    {found'' : Prop} (hfound : found' ↔ found'')
    (hgathered : ∀ r x, gathered'' r x ↔ gathered r x ∨ ∃ r', r = n + r' ∧ gathered' r' x) :
    Searches result' states depth found'' gathered'' := by
  refine ⟨h'.answer.trans hfound, h'.length.trans h.length, h'.isSome.trans h.isSome,
    fun d x => ?_⟩
  rw [h'.states, h.states, h.length]
  simp only [hgathered]
  constructor
  · rintro ((hold | ⟨hlt, r, hd, hg⟩) | ⟨hlt, r, hd, hg⟩)
    · exact Or.inl hold
    · exact Or.inr ⟨hlt, r, hd, Or.inl hg⟩
    · exact Or.inr ⟨hlt, n + r, by omega, Or.inr ⟨r, rfl, hg⟩⟩
  · rintro (hold | ⟨hlt, r, hd, hg | ⟨r', rfl, hg⟩⟩)
    · exact Or.inl (Or.inl hold)
    · exact Or.inl (Or.inr ⟨hlt, r, hd, hg⟩)
    · exact Or.inr ⟨hlt, r', by omega, hg⟩

theorem Searches.congr {result : Bool × Option (SimpleSelector.States P)}
    {states : Option (SimpleSelector.States P)} {depth : ℕ} {found found' : Prop}
    {gathered gathered' : ℕ → P → Prop} (h : Searches result states depth found gathered)
    (hfound : found ↔ found') (hgathered : ∀ r x, gathered' r x ↔ gathered r x) :
    Searches result states depth found' gathered' := by
  refine ⟨h.answer.trans hfound, h.length, h.isSome, fun d x => ?_⟩
  simp only [hgathered]
  exact h.states d x

theorem tryAncestors_cons {P S : Type} {a : Styleable P S} {l : List (Styleable P S)}
    (attempt : List (Styleable P S) → Option (SimpleSelector.States P) → ℕ →
      Bool × Option (SimpleSelector.States P))
    (states : Option (SimpleSelector.States P)) (depth : ℕ) :
    tryAncestors attempt (a :: l) states depth =
      if (attempt (a :: l) states (depth + 1)).1 = true then
        (true, (attempt (a :: l) states (depth + 1)).2)
      else tryAncestors attempt l (attempt (a :: l) states (depth + 1)).2 (depth + 1) :=
  rfl

/-- The loop over the ancestors goes on until the rest can be placed. -/
theorem tryAncestors_searches
    (hattempt : ∀ chain states depth, Searches (c.appliesAt k chain states depth) states depth
      (Embeds c.Applies c.direct k chain) (c.Gathered k chain)) :
    ∀ (l : List (Styleable P S)) (states : Option (SimpleSelector.States P)) (depth : ℕ),
      Searches (tryAncestors (c.appliesAt k) l states depth) states (depth + 1)
        (∃ n, Embeds c.Applies c.direct k (l.drop n))
        fun r x => ∃ n r', r = n + r' ∧ (∀ m < n, ¬ Embeds c.Applies c.direct k (l.drop m)) ∧
          c.Gathered k (l.drop n) r' x := by
  intro l
  induction l with
  | nil =>
      intro states depth
      refine searches_nothing ?_ ?_
      · rintro ⟨n, hn⟩
        rw [List.drop_nil] at hn
        exact not_embeds_nil hn
      · rintro r x ⟨n, r', -, -, j, hj, -⟩
        rw [List.drop_nil] at hj
        exact not_tried_nil hj
  | cons a l ih =>
      intro states depth
      have hfirst := hattempt (a :: l) states (depth + 1)
      rw [tryAncestors_cons]
      by_cases hans : (c.appliesAt k (a :: l) states (depth + 1)).1 = true
      · -- the rest can be placed from here, so the loop ends
        have hembeds := hfirst.answer.mp hans
        rw [if_pos hans, ← hans]
        refine hfirst.congr (iff_of_true hembeds ⟨0, hembeds⟩) fun r x => ?_
        constructor
        · rintro ⟨n, r', rfl, hnone, hg⟩
          cases n with
          | zero =>
              rw [Nat.zero_add]
              exact hg
          | succ n => exact absurd hembeds (hnone 0 (Nat.succ_pos n))
        · exact fun hg => ⟨0, r, (Nat.zero_add r).symm, fun m hm => absurd hm (Nat.not_lt_zero m), hg⟩
      · have hnot : ¬ Embeds c.Applies c.direct k (a :: l) := fun h => hans (hfirst.answer.mpr h)
        rw [if_neg hans]
        refine hfirst.trans (ih _ (depth + 1)) (n := 1) rfl ?_ fun r x => ?_
        · constructor
          · rintro ⟨n, hn⟩
            exact ⟨n + 1, hn⟩
          · rintro ⟨n, hn⟩
            cases n with
            | zero => exact absurd hn hnot
            | succ n => exact ⟨n, hn⟩
        · constructor
          · rintro ⟨n, r', rfl, hnone, hg⟩
            cases n with
            | zero =>
                rw [Nat.zero_add]
                exact Or.inl hg
            | succ n =>
                refine Or.inr ⟨n + r', by omega, n, r', rfl, fun m hm => ?_, hg⟩
                exact hnone (m + 1) (Nat.succ_lt_succ hm)
          · rintro (hg | ⟨_, rfl, n, r', rfl, hnone, hg⟩)
            · exact ⟨0, r, (Nat.zero_add r).symm, fun m hm => absurd hm (Nat.not_lt_zero m), hg⟩
            · refine ⟨n + 1, r', by omega, fun m hm => ?_, hg⟩
              cases m with
              | zero => exact hnot
              | succ m => exact hnone m (Nat.lt_of_succ_lt_succ hm)

theorem appliesAt_succ (states : Option (SimpleSelector.States P)) (depth : ℕ) :
    c.appliesAt (k + 1) (a :: l) states depth =
      if ((c.selector (k + 1)).appliesWith a states depth).1 = true then
        match c.relationship k with
        | .child => c.appliesAt k l ((c.selector (k + 1)).appliesWith a states depth).2 (depth + 1)
        | .descendant =>
            tryAncestors (c.appliesAt k) l ((c.selector (k + 1)).appliesWith a states depth).2 depth
      else (false, ((c.selector (k + 1)).appliesWith a states depth).2) :=
  rfl

/-- What the search finds and gathers. -/
theorem appliesAt_searches : ∀ (chain : List (Styleable P S))
    (states : Option (SimpleSelector.States P)) (depth : ℕ),
    Searches (c.appliesAt k chain states depth) states depth (Embeds c.Applies c.direct k chain)
      (c.Gathered k chain) := by
  induction k with
  | zero =>
      intro chain states depth
      cases chain with
      | nil =>
          refine searches_nothing not_embeds_nil ?_
          rintro r x ⟨j, hj, -⟩
          exact not_tried_nil hj
      | cons a l =>
          have hfound : (c.selector 0).applies a = true ↔ Embeds c.Applies c.direct 0 (a :: l) :=
            (embeds_zero (P := c.Applies)).symm
          refine (appliesWith_searches (c.selector 0) states depth).congr hfound fun r x => ?_
          simp only [Gathered, tried_zero]
          constructor
          · rintro ⟨j, ⟨ha, rfl, rfl⟩, hx⟩
            exact ⟨ha, rfl, hx⟩
          · rintro ⟨ha, rfl, hx⟩
            exact ⟨0, ⟨ha, rfl, rfl⟩, hx⟩
  | succ k ih =>
      intro chain states depth
      cases chain with
      | nil =>
          refine searches_nothing not_embeds_nil ?_
          rintro r x ⟨j, hj, -⟩
          exact not_tried_nil hj
      | cons a l =>
          have hhead := appliesWith_searches (a := a) (c.selector (k + 1)) states depth
          rw [appliesAt_succ]
          by_cases ha : (c.selector (k + 1)).applies a = true
          · rw [if_pos (hhead.answer.mpr ha)]
            cases hrel : c.relationship k with
            | child =>
                have hdirect := direct_eq_true.mpr hrel
                refine hhead.trans (ih l _ (depth + 1)) (n := 1) rfl ?_ fun r x => ?_
                · rw [embeds_succ, if_pos hdirect]
                  exact (and_iff_right ha).symm
                · simp only [Gathered, tried_succ, if_pos hdirect]
                  constructor
                  · rintro ⟨j, ⟨-, ⟨rfl, rfl⟩ | ⟨r', rfl, hj⟩⟩, hx⟩
                    · exact Or.inl ⟨ha, rfl, hx⟩
                    · exact Or.inr ⟨r', by omega, j, hj, hx⟩
                  · rintro (⟨-, rfl, hx⟩ | ⟨r', rfl, j, hj, hx⟩)
                    · exact ⟨k + 1, ⟨ha, Or.inl ⟨rfl, rfl⟩⟩, hx⟩
                    · exact ⟨j, ⟨ha, Or.inr ⟨r', by omega, hj⟩⟩, hx⟩
            | descendant =>
                have hdirect : ¬ c.direct k = true := fun h => by
                  rw [direct_eq_true, hrel] at h
                  cases h
                refine hhead.trans (tryAncestors_searches ih l _ depth) (n := 1) rfl ?_
                  fun r x => ?_
                · rw [embeds_succ, if_neg hdirect]
                  exact (and_iff_right ha).symm
                · simp only [Gathered, tried_succ, if_neg hdirect]
                  constructor
                  · rintro ⟨j, ⟨-, ⟨rfl, rfl⟩ | ⟨n, r', rfl, hnone, hj⟩⟩, hx⟩
                    · exact Or.inl ⟨ha, rfl, hx⟩
                    · exact Or.inr ⟨n + r', by omega, n, r', rfl, hnone, j, hj, hx⟩
                  · rintro (⟨-, rfl, hx⟩ | ⟨_, rfl, n, r', rfl, hnone, j, hj, hx⟩)
                    · exact ⟨k + 1, ⟨ha, Or.inl ⟨rfl, rfl⟩⟩, hx⟩
                    · exact ⟨j, ⟨ha, Or.inr ⟨n, r', by omega, hnone, hj⟩⟩, hx⟩
          · rw [if_neg (fun h => ha (hhead.answer.mp h))]
            have hsame : ((c.selector (k + 1)).appliesWith a states depth).2 = states := by
              unfold SimpleSelector.appliesWith
              rw [if_neg ha]
            rw [hsame]
            refine searches_nothing (fun h => ha h.head) ?_
            rintro r x ⟨j, hj, -⟩
            exact ha (tried_succ.mp hj).1

/-! ## The claim -/

/-- The simple selectors can be placed on the styleable and its ancestors. -/
def AppliesSomewhere (c : CompoundSelector P S) (chain : List (Styleable P S)) : Prop :=
  c.selectors ≠ [] ∧ Embeds c.Applies c.direct (c.selectors.length - 1) chain

/-- `applies` returns whether there is a placement, and if there is, it adds only
pseudo-classes of one placement to the trigger states. -/
structure Exact (c : CompoundSelector P S) (chain : List (Styleable P S))
    (states : Option (SimpleSelector.States P)) (depth : ℕ) : Prop where
  answer : (c.applies chain states depth).1 = true ↔ c.AppliesSomewhere chain
  states : (c.applies chain states depth).1 = true →
    ∃ pos, Embedding c.Applies c.direct (c.selectors.length - 1) chain pos ∧
      ∀ d x, x ∈ statesAt (c.applies chain states depth).2 d → x ∈ statesAt states d ∨
        ∃ i ≤ c.selectors.length - 1, d = depth + pos i ∧
          x ∈ (c.selector i).pseudoClassState.elements

/-- If there is a placement, then one of them has, at every distance within the array, all
pseudo-classes that the search comes across there and that are new. -/
def NoResidue (c : CompoundSelector P S) (chain : List (Styleable P S))
    (states : Option (SimpleSelector.States P)) (depth : ℕ) : Prop :=
  c.AppliesSomewhere chain →
    ∃ pos, Embedding c.Applies c.direct (c.selectors.length - 1) chain pos ∧
      ∀ j r, Tried c.Applies c.direct (c.selectors.length - 1) chain j r →
        depth + r < statesLength states → ∀ x ∈ (c.selector j).pseudoClassState.elements,
          x ∈ statesAt states (depth + r) ∨ ∃ i ≤ c.selectors.length - 1, r = pos i ∧
            x ∈ (c.selector i).pseudoClassState.elements

theorem elements_copyBack (out temp : Option (BitSet P)) :
    ((copyBack out temp).getD {}).elements =
      (out.getD {}).elements ∪ (temp.getD {}).elements := by
  cases out with
  | none =>
      show (temp.getD {}).elements = ({} : BitSet P).elements ∪ _
      rw [elements_empty, Set.empty_union]
  | some out =>
      cases temp with
      | none =>
          show out.elements = out.elements ∪ ({} : BitSet P).elements
          rw [elements_empty, Set.union_empty]
      | some temp => exact BitSet.addAll_elements out temp

theorem statesAt_zipWith {out temp : SimpleSelector.States P} (hlen : temp.length = out.length)
    (d : ℕ) : statesAt (some (List.zipWith copyBack out temp)) d =
      statesAt (some out) d ∪ statesAt (some temp) d := by
  by_cases hd : d < out.length
  · have htemp : d < temp.length := hlen ▸ hd
    simp only [statesAt, List.getElem?_zipWith, List.getElem?_eq_getElem hd,
      List.getElem?_eq_getElem htemp, Option.join_some]
    exact elements_copyBack _ _
  · have hge := not_lt.mp hd
    rw [statesAt_of_ge (show statesLength (some out) ≤ d from hge),
      statesAt_of_ge (show statesLength (some temp) ≤ d from hlen.le.trans hge),
      statesAt_of_ge (show statesLength (some (List.zipWith copyBack out temp)) ≤ d by
        show (List.zipWith copyBack out temp).length ≤ d
        rw [List.length_zipWith]
        omega), Set.union_empty]

/-- **What `applies` does:** it finds a placement if there is one, and then adds all that the
search has gathered. -/
theorem applies_spec (c : CompoundSelector P S) (chain : List (Styleable P S))
    (states : Option (SimpleSelector.States P)) (depth : ℕ)
    (hdepth : ∀ out, states = some out → depth < out.length) :
    ((c.applies chain states depth).1 = true ↔ c.AppliesSomewhere chain) ∧
      ((c.applies chain states depth).1 = true → ∀ d x,
        x ∈ statesAt (c.applies chain states depth).2 d ↔ x ∈ statesAt states d ∨
          d < statesLength states ∧ ∃ r, d = depth + r ∧
            c.Gathered (c.selectors.length - 1) chain r x) := by
  unfold applies AppliesSomewhere
  by_cases hnil : c.selectors = []
  · have hno : ¬ (c.selectors ≠ [] ∧ Embeds c.Applies c.direct (c.selectors.length - 1) chain) :=
      fun h => h.1 hnil
    cases states with
    | none =>
        simp only [if_pos hnil]
        exact ⟨iff_of_false Bool.false_ne_true hno, (fun h => nomatch h)⟩
    | some out =>
        simp only [if_pos hnil, if_neg (not_le.mpr (hdepth out rfl))]
        exact ⟨iff_of_false Bool.false_ne_true hno, (fun h => nomatch h)⟩
  · rw [and_iff_right hnil]
    cases states with
    | none =>
        have h := appliesAt_searches (c := c) (k := c.selectors.length - 1) chain none depth
        simp only [if_neg hnil]
        refine ⟨h.answer, fun _ d x => iff_of_false id ?_⟩
        exact fun h => h.elim id fun h => absurd h.1 (Nat.not_lt_zero d)
    | some out =>
        have h := appliesAt_searches (c := c) (k := c.selectors.length - 1) chain
          (some (List.replicate out.length none)) depth
        simp only [if_neg hnil, if_neg (not_le.mpr (hdepth out rfl))]
        generalize c.appliesAt (c.selectors.length - 1) chain
          (some (List.replicate out.length none)) depth = result at h ⊢
        obtain ⟨answer, temp⟩ := result
        cases temp with
        | none => exact absurd h.isSome Bool.false_ne_true
        | some temp =>
            have hlen : temp.length = out.length := h.length.trans List.length_replicate
            cases answer with
            | false => exact ⟨h.answer, (fun hn => nomatch hn)⟩
            | true =>
                refine ⟨h.answer, fun _ d x => ?_⟩
                have hzero : statesAt (some (List.replicate out.length (none : Option (BitSet P))))
                    d = ∅ := by
                  by_cases hd : d < out.length
                  · rw [statesAt, List.getElem?_replicate, if_pos hd]
                    exact elements_empty
                  · exact statesAt_of_ge (by
                      show (List.replicate out.length _).length ≤ d
                      rw [List.length_replicate]
                      exact not_lt.mp hd)
                have htemp := h.states d x
                rw [hzero] at htemp
                show x ∈ statesAt (some (List.zipWith copyBack out temp)) d ↔ _
                rw [statesAt_zipWith hlen, Set.mem_union, htemp, Set.mem_empty_iff_false, false_or]
                show _ ∨ d < (List.replicate out.length _).length ∧ _ ↔ _
                rw [List.length_replicate]
                rfl

/-- **`applies` is exact** if and only if the search leaves no residue: it always finds a
placement if there is one, and the pseudo-classes it adds are those of one placement exactly
if some placement has all that the search comes across. -/
theorem applies_exact_iff (c : CompoundSelector P S) (chain : List (Styleable P S))
    (states : Option (SimpleSelector.States P)) (depth : ℕ)
    (hdepth : ∀ out, states = some out → depth < out.length) :
    c.Exact chain states depth ↔ c.NoResidue chain states depth := by
  obtain ⟨hanswer, hstates⟩ := applies_spec c chain states depth hdepth
  constructor
  · intro hexact hsome
    have htrue := hanswer.mpr hsome
    obtain ⟨pos, hpos, hadded⟩ := hexact.states htrue
    refine ⟨pos, hpos, fun j r htried hlt x hx => ?_⟩
    have hmem := (hstates htrue (depth + r) x).mpr (Or.inr ⟨hlt, r, rfl, j, htried, hx⟩)
    rcases hadded _ x hmem with hold | ⟨i, hi, heq, hx'⟩
    · exact Or.inl hold
    · exact Or.inr ⟨i, hi, Nat.add_left_cancel heq, hx'⟩
  · intro hnone
    refine ⟨hanswer, fun htrue => ?_⟩
    obtain ⟨pos, hpos, hall⟩ := hnone (hanswer.mp htrue)
    refine ⟨pos, hpos, fun d x hmem => ?_⟩
    rcases (hstates htrue d x).mp hmem with hold | ⟨hlt, r, rfl, j, htried, hx⟩
    · exact Or.inl hold
    · rcases hall j r htried hlt x hx with hold | ⟨i, hi, rfl, hx'⟩
      · exact Or.inl hold
      · exact Or.inr ⟨i, hi, rfl, hx'⟩

/-- The label in the inner panel: nothing is tried in vain. -/
theorem applies_exact_nested :
    hoverSelector.Exact nestedPanels (some [none, none, none]) 0 ∧
      (hoverSelector.applies nestedPanels (some [none, none, none]) 0).1 = true := by
  refine ⟨(applies_exact_iff hoverSelector nestedPanels _ 0 ?_).mpr fun _ => ?_, by decide +kernel⟩
  · rintro out ⟨⟩
    decide
  · have hpanel : hoverSelector.Applies 0 { styleClass := [0], pseudoClassStates := some {} } := by
      unfold Applies
      decide +kernel
    have hlabel : hoverSelector.Applies 1 { styleClass := [1], pseudoClassStates := some {} } := by
      unfold Applies
      decide +kernel
    refine ⟨_, (embedding_zero hpanel).extend (n := 0) hlabel fun _ => rfl, ?_⟩
    intro j r htried _ x hx
    rcases (tried_succ.mp htried).2 with ⟨rfl, rfl⟩ | hfurther
    · exact Or.inr ⟨1, le_refl 1, rfl, hx⟩
    · rw [if_neg (by decide)] at hfurther
      obtain ⟨n, r', rfl, hnone, htried⟩ := hfurther
      cases n with
      | zero =>
          obtain ⟨-, rfl, rfl⟩ := tried_zero.mp htried
          exact Or.inr ⟨0, Nat.zero_le 1, rfl, hx⟩
      | succ n => exact absurd (embeds_zero.mpr hpanel) (hnone 0 (Nat.succ_pos n))

/-- `.frame:hover > .panel:focused .label`, with the style classes 0, 1, 2. -/
def framedSelector : CompoundSelector ℕ ℕ where
  selectors := [.new none [0] [0] none, .new none [1] [1] none, .new none [2] [] none]
  relationships := [.child, .descendant]
  length_relationships := rfl

/-- A label in a panel in a box in a panel in a frame. -/
def framedPanels : List (Styleable ℕ ℕ) :=
  [{ styleClass := [2] }, { styleClass := [1] }, { styleClass := [3] }, { styleClass := [1] },
    { styleClass := [0] }]

/-- The inner panel is in no frame, but its pseudo-class stays in the trigger states. -/
theorem trigger_state_of_failed_branch :
    (framedSelector.applies framedPanels (some (List.replicate 5 none)) 0).1 = true ∧
      1 ∈ statesAt (framedSelector.applies framedPanels (some (List.replicate 5 none)) 0).2 1 ∧
      ¬ framedSelector.Exact framedPanels (some (List.replicate 5 none)) 0 := by
  have htrue : (framedSelector.applies framedPanels (some (List.replicate 5 none)) 0).1 = true := by
    decide +kernel
  have hresidue : 1 ∈ statesAt
      (framedSelector.applies framedPanels (some (List.replicate 5 none)) 0).2 1 := by
    show BitSet.contains _ (some 1) = true
    decide +kernel
  refine ⟨htrue, hresidue, fun hexact => ?_⟩
  obtain ⟨pos, hpos, hadded⟩ := hexact.states htrue
  -- only the frame takes the first simple selector, so the panel is the outer one
  have hframe : pos 0 = 4 := by
    obtain ⟨a, ha, happlies⟩ := hpos.fits 0 (by decide)
    have hlt : pos 0 < 5 := (List.getElem?_eq_some_iff.mp ha).1
    unfold Applies at happlies
    interval_cases hp : pos 0 <;> first
      | rfl
      | (cases ha; exact absurd happlies (by decide +kernel))
  have hpanel : pos 0 = pos 1 + 1 := hpos.respects 0 (by decide)
  have hlabel : pos 2 = 0 := hpos.start
  rcases hadded 1 1 hresidue with hold | ⟨i, hi, heq, -⟩
  · have hold' : BitSet.contains (T := ℕ) {} (some 1) = true := hold
    exact absurd hold' (by decide +kernel)
  · have hi' : i ≤ 2 := hi
    interval_cases i <;> omega

end CompoundSelector

end JavaFx.Css
