import JavaFx.Css.Selector

/-!
# What `stateMatches` finds

A compound selector matches the states of a styleable and its ancestors if its simple
selectors can be placed on them. `stateMatches` settles for the nearest ancestor the next
simple selector applies to, whatever its states, and misses a placement exactly if a farther
one would do where the nearest does not (`stateMatches_finds_iff`).
-/

namespace JavaFx.Css

open ChainEmbedding

variable {P S : Type} [Indexed P] [Indexed S]

/-- The pseudo-classes of the selector are among the states. -/
def SimpleSelector.Contained (s : SimpleSelector P S) (states : Option (BitSet P)) : Prop :=
  ∃ b, states = some b ∧ s.pseudoClassState.elements ⊆ b.elements

namespace CompoundSelector

variable (c : CompoundSelector P S)

/-- The combinator left of a simple selector's neighbour is `>`. -/
def direct (index : ℕ) : Bool := decide (c.relationship index = .child)

/-- The simple selector applies to the styleable, with its pseudo-classes. -/
def Fits (index : ℕ) (styleable : Styleable P S) : Prop :=
  (c.selector index).applies styleable = true ∧
    (c.selector index).Contained styleable.pseudoClassStates

/-- The rightmost simple selector `last` is known to apply, and looks at the given states. -/
def FitsUnder (last : ℕ) (states : Option (BitSet P)) (index : ℕ)
    (styleable : Styleable P S) : Prop :=
  if index = last then (c.selector last).Contained states else c.Fits index styleable

/-- **The simple selectors can be placed** on the styleable and its ancestors: the rightmost
on the styleable, each applying to its styleable with its pseudo-classes among the states
there, and every combinator respected. -/
def MatchesSomewhere (chain : List (Styleable P S)) (states : Option (BitSet P)) : Prop :=
  c.selectors ≠ [] ∧ Embeds (c.FitsUnder (c.selectors.length - 1) states) c.direct
    (c.selectors.length - 1) chain

/-- Along the placement on the nearest ancestors, and as far as its states match, there is a
descendant combinator at which the rest cannot be placed from the nearest ancestor the next
selector applies to, but can be from a farther one. -/
def Shadowed : ℕ → List (Styleable P S) → Option (BitSet P) → Prop
  | 0, _, _ => False
  | index + 1, chain, states =>
      (c.selector (index + 1)).Contained states ∧
        match c.relationship index with
        | .child =>
            match chain.tail with
            | [] => False
            | parent :: ancestors =>
                (c.selector index).applies parent = true ∧
                  Shadowed index (parent :: ancestors) parent.pseudoClassStates
        | .descendant =>
            match chain.tail.dropWhile fun parent => !(c.selector index).applies parent with
            | [] => False
            | parent :: ancestors =>
                ¬ Embeds c.Fits c.direct index (parent :: ancestors) ∧
                    (∃ n, Embeds c.Fits c.direct index (ancestors.drop n)) ∨
                  Shadowed index (parent :: ancestors) parent.pseudoClassStates

variable {c} {k : ℕ} {a : Styleable P S} {l : List (Styleable P S)} {states : Option (BitSet P)}

theorem embedsUnder_zero :
    Embeds (c.FitsUnder 0 states) c.direct 0 (a :: l) ↔ (c.selector 0).Contained states := by
  rw [embeds_zero, FitsUnder, if_pos rfl]

theorem embedsUnder_succ : Embeds (c.FitsUnder (k + 1) states) c.direct (k + 1) (a :: l) ↔
    (c.selector (k + 1)).Contained states ∧
      if c.direct k = true then Embeds c.Fits c.direct k l
      else ∃ n, Embeds c.Fits c.direct k (l.drop n) := by
  have hcongr : ∀ l, Embeds (c.FitsUnder (k + 1) states) c.direct k l ↔
      Embeds c.Fits c.direct k l := fun l =>
    embeds_congr fun i hi a => by rw [FitsUnder, if_neg (by omega)]
  rw [embeds_succ, FitsUnder, if_pos rfl, hcongr]
  simp only [hcongr]

/-- The first place looks at the styleable's own states. -/
theorem embeds_iff_under : Embeds c.Fits c.direct k (a :: l) ↔
    (c.selector k).applies a = true ∧
      Embeds (c.FitsUnder k a.pseudoClassStates) c.direct k (a :: l) := by
  cases k with
  | zero => rw [embeds_zero, embedsUnder_zero, Fits]
  | succ k => rw [embeds_succ, embedsUnder_succ, Fits, and_assoc]

theorem direct_eq_true : c.direct k = true ↔ c.relationship k = .child := decide_eq_true_iff

/-- The ancestors that are passed over do not matter. -/
theorem embeds_further_iff : (∃ n, Embeds c.Fits c.direct k (l.drop n)) ↔
    ∃ n, Embeds c.Fits c.direct k
      ((l.dropWhile fun parent => !(c.selector k).applies parent).drop n) :=
  embeds_drop_iff fun _ h => h.1

theorem embeds_nearest_or_further {q : Styleable P S} {rest : List (Styleable P S)} :
    (∃ n, Embeds c.Fits c.direct k ((q :: rest).drop n)) ↔
      Embeds c.Fits c.direct k (q :: rest) ∨ ∃ n, Embeds c.Fits c.direct k (rest.drop n) := by
  constructor
  · rintro ⟨n, hn⟩
    cases n with
    | zero => exact Or.inl hn
    | succ n => exact Or.inr ⟨n, hn⟩
  · rintro (h | ⟨n, hn⟩)
    · exact ⟨0, h⟩
    · exact ⟨n + 1, hn⟩

theorem applies_of_dropWhile {q : Styleable P S} {rest : List (Styleable P S)}
    (h : (l.dropWhile fun parent => !(c.selector k).applies parent) = q :: rest) :
    (c.selector k).applies q = true := by
  have hne : (l.dropWhile fun parent => !(c.selector k).applies parent) ≠ [] := by
    rw [h]
    exact List.cons_ne_nil _ _
  have hhead := List.head_dropWhile_not (fun parent => !(c.selector k).applies parent) hne
  simp only [h, List.head_cons, Bool.not_eq_false'] at hhead
  exact hhead

/-- What `stateMatches` finds is there, and it misses something exactly if a farther ancestor
is shadowed. -/
theorem stateMatchesAt_spec : ∀ (a : Styleable P S) (l : List (Styleable P S))
    (states : Option (BitSet P)),
    (c.stateMatchesAt k (a :: l) states = true →
      Embeds (c.FitsUnder k states) c.direct k (a :: l)) ∧
    (c.Shadowed k (a :: l) states ↔
      Embeds (c.FitsUnder k states) c.direct k (a :: l) ∧
        ¬ c.stateMatchesAt k (a :: l) states = true) := by
  induction k with
  | zero =>
      intro a l states
      rw [embedsUnder_zero, stateMatchesAt, SimpleSelector.stateMatches_iff]
      exact ⟨id, iff_of_false id fun h => h.2 h.1⟩
  | succ k ih =>
      intro a l states
      rw [embedsUnder_succ, stateMatchesAt, Shadowed]
      by_cases hstates : (c.selector (k + 1)).Contained states
      · have hmatches : (c.selector (k + 1)).stateMatches states = true :=
          SimpleSelector.stateMatches_iff.mpr hstates
        rw [if_neg (by rw [hmatches]; exact Bool.false_ne_true), and_iff_right hstates,
          and_iff_right hstates, List.tail_cons]
        cases hrel : c.relationship k with
        | child =>
            rw [if_pos (direct_eq_true.mpr hrel)]
            cases l with
            | nil => exact ⟨(fun h => nomatch h), iff_of_false id fun h => not_embeds_nil h.1⟩
            | cons q rest =>
                obtain ⟨hsound, hshadow⟩ := ih q rest q.pseudoClassStates
                by_cases happlies : (c.selector k).applies q = true
                · simp only [if_pos happlies, embeds_iff_under, and_iff_right happlies]
                  exact ⟨hsound, hshadow⟩
                · simp only [if_neg happlies]
                  exact ⟨(fun h => nomatch h), iff_of_false (fun h => happlies h.1)
                    fun h => happlies h.1.head.1⟩
        | descendant =>
            have hdirect : ¬ c.direct k = true := fun h => by
              rw [direct_eq_true, hrel] at h
              cases h
            rw [if_neg hdirect, embeds_further_iff]
            cases hdrop : l.dropWhile fun parent => !(c.selector k).applies parent with
            | nil =>
                refine ⟨(fun h => nomatch h), iff_of_false id fun h => ?_⟩
                obtain ⟨n, hn⟩ := h.1
                rw [List.drop_nil] at hn
                exact not_embeds_nil hn
            | cons q rest =>
                have happlies := applies_of_dropWhile hdrop
                obtain ⟨hsound, hshadow⟩ := ih q rest q.pseudoClassStates
                have hunder : Embeds c.Fits c.direct k (q :: rest) ↔
                    Embeds (c.FitsUnder k q.pseudoClassStates) c.direct k (q :: rest) := by
                  rw [embeds_iff_under, and_iff_right happlies]
                rw [embeds_nearest_or_further, hunder]
                refine ⟨fun h => Or.inl (hsound h), ?_⟩
                simp only [hshadow, hunder]
                constructor
                · rintro (⟨hnone, hfar⟩ | ⟨hnear, hnot⟩)
                  · exact ⟨Or.inr hfar, fun h => hnone (hsound h)⟩
                  · exact ⟨Or.inl hnear, hnot⟩
                · rintro ⟨hnear | hfar, hnot⟩
                  · exact Or.inr ⟨hnear, hnot⟩
                  · by_cases hnear : Embeds (c.FitsUnder k q.pseudoClassStates) c.direct k (q :: rest)
                    · exact Or.inr ⟨hnear, hnot⟩
                    · exact Or.inl ⟨hnear, hfar⟩
      · have hno : ¬ (c.selector (k + 1)).stateMatches states = true := fun h =>
          hstates (SimpleSelector.stateMatches_iff.mp h)
        rw [Bool.not_eq_true] at hno
        rw [if_pos (by rw [hno]; rfl)]
        exact ⟨(fun h => nomatch h), iff_of_false (fun h => hstates h.1) fun h => hstates h.1.1⟩

/-- **`stateMatches` finds a placement** of the simple selectors if and only if there is one,
exactly if no farther ancestor is shadowed by a nearer one. -/
theorem stateMatches_finds_iff (c : CompoundSelector P S) (styleable : Styleable P S)
    (ancestors : List (Styleable P S)) (states : Option (BitSet P)) :
    (c.stateMatches (styleable :: ancestors) states = true ↔
        c.MatchesSomewhere (styleable :: ancestors) states) ↔
      ¬ c.Shadowed (c.selectors.length - 1) (styleable :: ancestors) states := by
  rw [stateMatches, MatchesSomewhere]
  by_cases hnil : c.selectors = []
  · rw [if_pos hnil, hnil]
    refine iff_of_true (iff_of_false Bool.false_ne_true fun h => h.1 rfl) id
  · rw [if_neg hnil, and_iff_right hnil]
    obtain ⟨hsound, hshadow⟩ := stateMatchesAt_spec (c := c) (k := c.selectors.length - 1)
      styleable ancestors states
    rw [hshadow]
    constructor
    · rintro h ⟨hembeds, hnot⟩
      exact hnot (h.mpr hembeds)
    · intro h
      refine ⟨hsound, fun hembeds => ?_⟩
      by_contra hnot
      exact h ⟨hembeds, hnot⟩

/-- `.panel:hover .label`, with the style classes 0 and 1 and the pseudo-class 0. -/
def hoverSelector : CompoundSelector ℕ ℕ where
  selectors := [.new none [0] [0] none, .new none [1] [] none]
  relationships := [.descendant]
  length_relationships := rfl

/-- A label in a panel in a panel, of which only the outer one is hovered over. -/
def nestedPanels : List (Styleable ℕ ℕ) :=
  [{ styleClass := [1], pseudoClassStates := some {} },
    { styleClass := [0], pseudoClassStates := some {} },
    { styleClass := [0], pseudoClassStates := some (BitSet.ofList [0]) }]

/-- The panel that is hovered over is not found behind the one that is not. -/
theorem stateMatches_stops_at_nearest :
    hoverSelector.stateMatches nestedPanels (some {}) = false ∧
      hoverSelector.MatchesSomewhere nestedPanels (some {}) := by
  refine ⟨by decide +kernel, List.cons_ne_nil _ _, ?_⟩
  show Embeds (hoverSelector.FitsUnder (0 + 1) (some {})) hoverSelector.direct (0 + 1) nestedPanels
  rw [nestedPanels, embedsUnder_succ, if_neg (by decide)]
  refine ⟨SimpleSelector.stateMatches_iff.mp (by decide +kernel), 1, ?_⟩
  show Embeds hoverSelector.Fits hoverSelector.direct 0 [_]
  rw [embeds_zero]
  exact ⟨by decide +kernel, SimpleSelector.stateMatches_iff.mp (by decide +kernel)⟩

end CompoundSelector

end JavaFx.Css
