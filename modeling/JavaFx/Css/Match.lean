import JavaFx.Css.SelectorPartitioning

/-!
# `Match`

What a selector weighs: the number of its ids, then of its style classes, then of its
pseudo-classes. A `:dir()` counts as a pseudo-class of a simple selector; of the simple selectors
in a compound one only the sets are counted.
-/

namespace JavaFx.Css

variable {P S : Type} [Indexed P] [Indexed S]

structure Match (P : Type) where
  pseudoClasses : BitSet P
  idCount : ℕ
  styleClassCount : ℕ
  specificity : ℕ

/-- The constructor; `dir` is the orientation of a simple selector. -/
def Match.new (dir : Option NodeOrientation) (pseudoClasses : BitSet P)
    (idCount styleClassCount : ℕ) : Match P :=
  let nPseudoClasses := pseudoClasses.size
  let nPseudoClasses :=
    match dir with
    | some orientation => if orientation ≠ .inherit then nPseudoClasses + 1 else nPseudoClasses
    | none => nPseudoClasses
  { pseudoClasses := pseudoClasses
    idCount := idCount
    styleClassCount := styleClassCount
    specificity := (idCount <<< 8) ||| (styleClassCount <<< 4) ||| nPseudoClasses }

def SimpleSelector.createMatch (s : SimpleSelector P S) : Match P :=
  let idCount := if s.matchOnId then 1 else 0
  .new (some s.nodeOrientation) s.pseudoClassState idCount s.styleClassSet.size

/-- What the loop over the simple selectors adds up. -/
structure MatchCounts (P : Type) where
  allPseudoClasses : BitSet P := {}
  idCount : ℕ := 0
  styleClassCount : ℕ := 0

def MatchCounts.add (m : MatchCounts P) (s : SimpleSelector P S) : MatchCounts P :=
  let sel := s.createMatch
  { allPseudoClasses := (m.allPseudoClasses.addAll (some sel.pseudoClasses)).set
    idCount := m.idCount + sel.idCount
    styleClassCount := m.styleClassCount + sel.styleClassCount }

def CompoundSelector.createMatch (c : CompoundSelector P S) : Match P :=
  let counts := c.selectors.foldl MatchCounts.add {}
  .new none counts.allPseudoClasses counts.idCount counts.styleClassCount

def Selector.createMatch : Selector P S → Match P
  | .simple s => s.createMatch
  | .compound c => c.createMatch

end JavaFx.Css
