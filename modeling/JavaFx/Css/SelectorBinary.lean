import JavaFx.Css.Match
import JavaFx.Css.StylesheetRoundTrip

/-!
# The binary form of a selector

A selector is written as its name, its id and the names in its two sets, and read back by the
constructor, which looks the names up again. The constructor takes `dir(ltr)` and `dir(rtl)` out
of the pseudo-classes it is given; nothing of them is written.
-/

namespace JavaFx.Css

open ByteStream TableCodec

/-! ## Names -/

/-- A code point, where there is no character for an unpaired surrogate. -/
def charOf (n : ℕ) : Char := if n.isValidChar then Char.ofNat n else Char.ofNat 0xfffd

def toChars : JString → List Char
  | [] => []
  | [u] => [charOf u.toNat]
  | u :: v :: rest =>
      if 0xd800 ≤ u.toNat ∧ u.toNat < 0xdc00 ∧ 0xdc00 ≤ v.toNat ∧ v.toNat < 0xe000 then
        charOf (0x10000 + (u.toNat - 0xd800) * 1024 + (v.toNat - 0xdc00)) :: toChars rest
      else charOf u.toNat :: toChars (v :: rest)

/-- The string that some code units stand for. -/
def toText (s : JString) : String := String.ofList (toChars s)

theorem charOf_toNat (c : Char) : charOf c.toNat = c := by
  have hvalid : c.toNat.isValidChar := c.valid
  rw [charOf, if_pos hvalid, Char.ofNat_toNat]

theorem toChars_unitsOf (c : Char) (l : JString) : toChars (unitsOf c ++ l) = c :: toChars l := by
  have hc := toNat_char c
  unfold unitsOf
  by_cases hsmall : c.toNat < 0x10000
  · have hunit : (BitVec.ofNat 16 c.toNat).toNat = c.toNat := toNat_unit hsmall
    rw [if_pos hsmall, List.singleton_append]
    cases l with
    | nil =>
        show [charOf (BitVec.ofNat 16 c.toNat).toNat] = [c]
        rw [hunit, charOf_toNat]
    | cons v rest => rw [toChars, hunit, if_neg (by omega), charOf_toNat]
  · have hhigh : (BitVec.ofNat 16 (0xd800 + (c.toNat - 0x10000) / 1024)).toNat =
        0xd800 + (c.toNat - 0x10000) / 1024 := toNat_unit (by omega)
    have hlow : (BitVec.ofNat 16 (0xdc00 + c.toNat % 1024)).toNat = 0xdc00 + c.toNat % 1024 :=
      toNat_unit (by omega)
    have hpoint : 0x10000 + (0xd800 + (c.toNat - 0x10000) / 1024 - 0xd800) * 1024 +
        (0xdc00 + c.toNat % 1024 - 0xdc00) = c.toNat := by
      omega
    rw [if_neg hsmall, List.cons_append, List.singleton_append, toChars, hhigh, hlow,
      if_pos (by omega), hpoint, charOf_toNat]

@[simp] theorem toText_lit (s : String) : toText (lit s) = s := by
  have hchars : ∀ l : List Char, toChars (l.flatMap unitsOf) = l := by
    intro l
    induction l with
    | nil => rfl
    | cons c l ih => rw [List.flatMap_cons, toChars_unitsOf, ih]
  rw [toText, lit, hchars, String.ofList_toList]

/-- A registry of names, `PseudoClassState` or `StyleClassSet`: `ofName` has no answer where the
source throws, which it does for a blank name. -/
class Named (T : Type) extends Indexed T where
  getName : T → JString
  ofName : JString → Option T
  ofName_getName : ∀ t, ofName (getName t) = some t
  getName_ofName : ∀ {s t}, ofName s = some t → getName t = s
  getName_ne : ∀ t, getName t ≠ []

open Named

theorem getName_injective {T : Type} [Named T] : Function.Injective (getName : T → JString) := by
  intro a b h
  have hsome := ofName_getName a
  rw [h, ofName_getName] at hsome
  exact (Option.some.inj hsome).symm

variable {P S : Type} [Named P] [Named S]

/-! ## The constructor -/

/-- What a code unit is compared as where case is ignored, against a text of small ASCII
letters: the dotted and the dotless I, the long s and the Kelvin sign have such letters for
another case. -/
def foldCase (u : BitVec 16) : BitVec 16 :=
  if 0x41 ≤ u.toNat ∧ u.toNat ≤ 0x5a then u + 0x20#16
  else if u.toNat = 0x130 ∨ u.toNat = 0x131 then 0x69#16
  else if u.toNat = 0x17f then 0x73#16
  else if u.toNat = 0x212a then 0x6b#16
  else u

/-- `"dir(".regionMatches(true, 0, pclass, 0, 4)` -/
def isDir (pclass : JString) : Bool := (pclass.take 4).map foldCase = lit "dir("

/-- `"dir(rtl)".equalsIgnoreCase(pclass)` -/
def isRtl (pclass : JString) : Bool := pclass.map foldCase = lit "dir(rtl)"

/-- The loop over the style classes. -/
def styleClassesOf : List (Option JString) → Except Exn (List S)
  | [] => .ok []
  | none :: rest => styleClassesOf rest
  | some name :: rest =>
      if name = [] then styleClassesOf rest
      else
        match ofName name with
        | none => .error (.illegalArgument "styleClass cannot be null or empty String")
        | some styleClass => (styleClassesOf rest).map (styleClass :: ·)

/-- The loop over the pseudo-classes, with the orientation so far. -/
def pseudoClassesOf : NodeOrientation → List (Option JString) →
    Except Exn (List P × NodeOrientation)
  | dir, [] => .ok ([], dir)
  | dir, none :: rest => pseudoClassesOf dir rest
  | dir, some pclass :: rest =>
      if pclass = [] then pseudoClassesOf dir rest
      else if isDir pclass then
        pseudoClassesOf (if isRtl pclass then .rightToLeft else .leftToRight) rest
      else
        match ofName pclass with
        | none => .error (.illegalArgument "pseudoClass cannot be null or empty String")
        | some pseudoClass =>
            (pseudoClassesOf dir rest).map fun r => (pseudoClass :: r.1, r.2)

/-- `new SimpleSelector(name, styleClasses, pseudoClasses, id)` -/
def SimpleSelector.ofNames (name : Option String) (styleClasses pseudoClasses : List (Option JString))
    (id : Option String) : Except Exn (SimpleSelector P S) := do
  let classes ← styleClassesOf styleClasses
  let (states, dir) ← pseudoClassesOf .inherit pseudoClasses
  pure (.new name classes states id dir)

/-- The selectors that there are. -/
def SimpleSelector.Built (s : SimpleSelector P S) : Prop :=
  ∃ name styleClasses pseudoClasses id, ofNames name styleClasses pseudoClasses id = .ok s

/-- The simple selectors in a selector. -/
def Selector.parts : Selector P S → List (SimpleSelector P S)
  | .simple s => [s]
  | .compound c => c.selectors

def Selector.Built (s : Selector P S) : Prop := ∀ part ∈ s.parts, part.Built

/-! ## Writing and reading -/

/-- What the iterator of a set gives. -/
def BitSet.toList {T : Type} [Indexed T] (s : BitSet T) : List T :=
  elementsIn (WordSet.word s.bits) s.bits.length

def SimpleSelector.names (s : SimpleSelector P S) : SimpleNames where
  name := lit s.name
  styleClasses := s.styleClassSet.toList.map getName
  id := lit s.id
  pseudoClasses := s.pseudoClassState.toList.map getName

def Selector.names : Selector P S → SelectorNames
  | .simple s => .simple s.names
  | .compound c => .compound (c.selectors.map SimpleSelector.names) c.relationships

def Selector.writeBinary (s : Selector P S) : Out := s.names.writeBinary

/-- The constructor at the end of `SimpleSelector.readBinary`. -/
def SimpleNames.toSelector (s : SimpleNames) : Except Exn (SimpleSelector P S) :=
  SimpleSelector.ofNames (some (toText s.name)) (s.styleClasses.map some) (s.pseudoClasses.map some)
    (some (toText s.id))

/-- The selector of the names that have been read. Combinators behind the last selector are never
looked at, and a selector with too few of them throws as soon as it is used. -/
def SelectorNames.toSelector : SelectorNames → Except Exn (Selector P S)
  | .simple s => Selector.simple <$> s.toSelector
  | .compound selectors relationships => do
      let parts ← selectors.mapM SimpleNames.toSelector
      if h : parts.length - 1 ≤ relationships.length then
        pure (.compound ⟨parts, relationships.take (parts.length - 1), by
          rw [List.length_take, Nat.min_eq_left h]⟩)
      else throw .indexOutOfBounds

def Selector.readBinary (depth : ℕ) (strings : List (Option JString)) : In (Selector P S) := do
  let names ← SelectorNames.readBinary depth strings
  In.ofExcept names.toSelector

/-! ## What a selector is for -/

/-- `applies(styleable)`, for a styleable with its ancestors. -/
def Selector.applies : Selector P S → List (Styleable P S) → Bool
  | .simple _, [] => false
  | .simple s, styleable :: _ => s.applies styleable
  | .compound c, chain => (c.applies chain none 0).1

/-- `applies(styleable, triggerStates, depth)` -/
def Selector.appliesWith : Selector P S → List (Styleable P S) →
    Option (SimpleSelector.States P) → ℕ → Bool × Option (SimpleSelector.States P)
  | .simple _, [], triggerStates, _ => (false, triggerStates)
  | .simple s, styleable :: _, triggerStates, depth => s.appliesWith styleable triggerStates depth
  | .compound c, chain, triggerStates, depth => c.applies chain triggerStates depth

def Selector.stateMatches : Selector P S → List (Styleable P S) → Option (BitSet P) → Bool
  | .simple s, _, states => s.stateMatches states
  | .compound c, chain, states => c.stateMatches chain states

/-- Two selectors that mean the same. -/
structure Selector.SameMeaning (s s' : Selector P S) : Prop where
  applies : ∀ chain, s'.applies chain = s.applies chain
  appliesWith : ∀ chain states depth, s'.appliesWith chain states depth =
    s.appliesWith chain states depth
  stateMatches : ∀ chain states, s'.stateMatches chain states = s.stateMatches chain states
  specificity : s'.createMatch.specificity = s.createMatch.specificity

/-- The bytes are read as a selector that means the same, whatever comes behind them. -/
def Selector.RoundTrips (s : Selector P S) (strings : List (Option JString)) (bytes : List Byte) :
    Prop :=
  ∀ depth rest, bytes.length ≤ depth → ∃ s', readBinary depth strings (bytes ++ rest) =
    .ok (s', rest) ∧ s.SameMeaning s'

end JavaFx.Css
