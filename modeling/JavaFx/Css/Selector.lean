import JavaFx.Css.BitSetLaws
import JavaFx.Lib.ChainEmbedding

/-!
# `SimpleSelector` and `CompoundSelector`

A compound selector is a list of simple selectors with a combinator between each two. It is
laid over a styleable and its ancestors from right to left: `applies` backtracks over the
ancestors for a descendant combinator, while `stateMatches` takes the nearest one that the
next simple selector applies to.
-/

namespace JavaFx.Css

open ChainEmbedding

inductive NodeOrientation where
  | inherit
  | leftToRight
  | rightToLeft
deriving DecidableEq

inductive Combinator where
  | child
  | descendant
deriving DecidableEq

variable {P S : Type} [Indexed P] [Indexed S]

/-- What is asked of a styleable. The orientation is that of the scene of a node, and there
is none for a styleable that is no node. -/
structure Styleable (P S : Type) where
  id : Option String := none
  className : String := ""
  styleClass : List S := []
  pseudoClassStates : Option (BitSet P) := none
  orientation : Option NodeOrientation := none

/-- The sets are made by `add` alone. -/
structure SimpleSelector (P S : Type) [Indexed P] [Indexed S] where
  name : String
  styleClassSet : BitSet S
  id : String
  pseudoClassState : BitSet P
  nodeOrientation : NodeOrientation
  styleClassSet_trim : styleClassSet.Trim
  pseudoClassState_trim : pseudoClassState.Trim

namespace SimpleSelector

/-- The constructor, after it has taken `:dir()` from the pseudo-classes. -/
def new (name : Option String) (styleClasses : List S) (pseudoClasses : List P)
    (id : Option String) (dir : NodeOrientation := .inherit) : SimpleSelector P S where
  name := name.getD "*"
  styleClassSet := BitSet.ofList styleClasses
  id := id.getD ""
  pseudoClassState := BitSet.ofList pseudoClasses
  nodeOrientation := dir
  styleClassSet_trim := BitSet.trim_ofList styleClasses
  pseudoClassState_trim := BitSet.trim_ofList pseudoClasses

def matchOnName (s : SimpleSelector P S) : Bool := s.name ≠ "" && s.name ≠ "*"

def matchOnId (s : SimpleSelector P S) : Bool := s.id ≠ ""

def matchOnStyleClass (s : SimpleSelector P S) : Bool := s.styleClassSet.size > 0

/-- `className.equals(name) || className.endsWith(".".concat(name))`, as the source
computes it. -/
def nameMatchesAtEnd (s : SimpleSelector P S) (className : String) : Bool :=
  let nameLen := s.name.toList.length
  let dotPos : ℤ := className.toList.length - nameLen - 1
  if dotPos = -1 ∨ dotPos > -1 ∧ className.toList[dotPos.toNat]? = some '.' then
    (className.toList.drop (dotPos + 1).toNat).take nameLen == s.name.toList
  else false

/-- The orientation of a node's scene excludes the selector. -/
def excludedByOrientation (s : SimpleSelector P S) (styleable : Styleable P S) : Bool :=
  match styleable.orientation with
  | none => false
  | some effective =>
      s.nodeOrientation ≠ .inherit && effective ≠ .inherit && effective ≠ s.nodeOrientation

def applies (s : SimpleSelector P S) (styleable : Styleable P S) : Bool :=
  if s.excludedByOrientation styleable then false
  else if s.matchOnId && some s.id ≠ styleable.id then false
  else if s.matchOnName && !s.nameMatchesAtEnd styleable.className then false
  else if s.matchOnStyleClass &&
      !(BitSet.ofList styleable.styleClass).containsAll (some s.styleClassSet) then false
  else true

def stateMatches (s : SimpleSelector P S) : Option (BitSet P) → Bool
  | none => false
  | some states => states.containsAll (some s.pseudoClassState)

/-- The pseudo-classes of the selector are among the states. -/
theorem stateMatches_iff {s : SimpleSelector P S} {states : Option (BitSet P)} :
    s.stateMatches states = true ↔
      ∃ b, states = some b ∧ s.pseudoClassState.elements ⊆ b.elements := by
  cases states with
  | none => exact iff_of_false Bool.false_ne_true fun ⟨_, h, _⟩ => nomatch h
  | some b =>
      rw [stateMatches, s.pseudoClassState_trim.containsAll_iff]
      constructor
      · exact fun h => ⟨b, rfl, h⟩
      · rintro ⟨b', hb', h⟩
        cases hb'
        exact h

/-- An array of sets, some of them null. -/
abbrev States (P : Type) := List (Option (BitSet P))

/-- `pseudoClasses[depth].addAll(pseudoClassState)`, with a new set if there is none. -/
def addStates (s : SimpleSelector P S) (pseudoClasses : States P) (depth : ℕ) : States P :=
  if depth < pseudoClasses.length then
    let old := (pseudoClasses[depth]?.join).getD {}
    pseudoClasses.set depth (some (old.addAll (some s.pseudoClassState)).set)
  else pseudoClasses

/-- `applies(styleable, pseudoClasses, depth)`; the array may be null. -/
def appliesWith (s : SimpleSelector P S) (styleable : Styleable P S)
    (pseudoClasses : Option (States P)) (depth : ℕ) : Bool × Option (States P) :=
  if s.applies styleable then (true, pseudoClasses.map fun p => s.addStates p depth)
  else (false, pseudoClasses)

end SimpleSelector

/-- There is a combinator between each two selectors. -/
structure CompoundSelector (P S : Type) [Indexed P] [Indexed S] where
  selectors : List (SimpleSelector P S)
  relationships : List Combinator
  length_relationships : relationships.length = selectors.length - 1

namespace CompoundSelector

variable (c : CompoundSelector P S)

/-- `selectors.get(index)`; the index is always in range. -/
def selector (index : ℕ) : SimpleSelector P S :=
  c.selectors.getD index (SimpleSelector.new none [] [] none)

/-- `relationships.get(index)` -/
def relationship (index : ℕ) : Combinator := c.relationships.getD index .descendant

/-! ## `applies` -/

/-- The loop over the ancestors. `attempt` is the recursive call. -/
def tryAncestors (attempt : List (Styleable P S) → Option (SimpleSelector.States P) → ℕ →
      Bool × Option (SimpleSelector.States P)) :
    List (Styleable P S) → Option (SimpleSelector.States P) → ℕ →
      Bool × Option (SimpleSelector.States P)
  | [], triggerStates, _ => (false, triggerStates)
  | parent :: ancestors, triggerStates, depth =>
      let (answer, triggerStates) := attempt (parent :: ancestors) triggerStates (depth + 1)
      if answer then (true, triggerStates)
      else tryAncestors attempt ancestors triggerStates (depth + 1)

/-- `applies(styleable, index, triggerStates, depth)` for a styleable with its ancestors. -/
def appliesAt : ℕ → List (Styleable P S) → Option (SimpleSelector.States P) → ℕ →
    Bool × Option (SimpleSelector.States P)
  | _, [], triggerStates, _ => (false, triggerStates)
  | 0, styleable :: _, triggerStates, depth =>
      (c.selector 0).appliesWith styleable triggerStates depth
  | index + 1, styleable :: ancestors, triggerStates, depth =>
      let (answer, triggerStates) :=
        (c.selector (index + 1)).appliesWith styleable triggerStates depth
      if answer then
        match c.relationship index with
        | .child => appliesAt index ancestors triggerStates (depth + 1)
        | .descendant => tryAncestors (appliesAt index) ancestors triggerStates depth
      else (false, triggerStates)

/-- `triggerStates[n].addAll(tempStates[n])`, or `tempStates[n]` if there is none. -/
def copyBack (out temp : Option (BitSet P)) : Option (BitSet P) :=
  match out with
  | some out => some (out.addAll temp).set
  | none => temp

/-- `applies(styleable, triggerStates, depth)`. The states are gathered in an array of its
own, which is copied back only if the selector applies. -/
def applies (chain : List (Styleable P S)) (triggerStates : Option (SimpleSelector.States P))
    (depth : ℕ) : Bool × Option (SimpleSelector.States P) :=
  match triggerStates with
  | none =>
      if c.selectors = [] then (false, none)
      else ((c.appliesAt (c.selectors.length - 1) chain none depth).1, none)
  | some out =>
      if out.length ≤ depth then (false, some out)
      else if c.selectors = [] then (false, some out)
      else
        match c.appliesAt (c.selectors.length - 1) chain
            (some (List.replicate out.length none)) depth with
        | (true, some temp) => (true, some (List.zipWith copyBack out temp))
        | (answer, _) => (answer, some out)

/-! ## `stateMatches` -/

/-- `stateMatches(styleable, states, index)` for a styleable with its ancestors. -/
def stateMatchesAt : ℕ → List (Styleable P S) → Option (BitSet P) → Bool
  | 0, _, states => (c.selector 0).stateMatches states
  | index + 1, chain, states =>
      if !(c.selector (index + 1)).stateMatches states then false
      else
        match c.relationship index with
        | .child =>
            match chain.tail with
            | [] => false
            | parent :: ancestors =>
                if (c.selector index).applies parent then
                  stateMatchesAt index (parent :: ancestors) parent.pseudoClassStates
                else false
        | .descendant =>
            match chain.tail.dropWhile fun parent => !(c.selector index).applies parent with
            | [] => false
            | parent :: ancestors =>
                stateMatchesAt index (parent :: ancestors) parent.pseudoClassStates

/-- `stateMatches(styleable, states)` -/
def stateMatches (chain : List (Styleable P S)) (states : Option (BitSet P)) : Bool :=
  if c.selectors = [] then false
  else c.stateMatchesAt (c.selectors.length - 1) chain states

end CompoundSelector

end JavaFx.Css
