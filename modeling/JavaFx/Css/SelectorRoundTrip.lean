import JavaFx.Css.SelectorBinary
import JavaFx.Css.TriggerStates

/-!
# Reading back a selector

What is read of a selector is the selector without its orientations. It means the same exactly if
there are none (`Selector.readsBack_iff`): a simple selector weighs less without its
orientation, and a compound selector without them applies in a scene of the other orientation.
-/

namespace JavaFx.Css

open ByteStream TableCodec ChainEmbedding Named WordSet

/-! ## Sets -/

namespace BitSet

variable {T : Type} [Indexed T]

theorem mem_toList {s : BitSet T} {t : T} : t ∈ s.toList ↔ t ∈ s.elements := by
  rw [toList, mem_elementsIn, mem_elements]
  constructor
  · exact fun h => h.2
  · exact fun h => ⟨lt_length_of_mem h, h⟩

theorem nodup_toList (s : BitSet T) : s.toList.Nodup := nodup_elementsIn _ _

theorem hasListeners_ofList (ts : List T) : (ofList ts).hasListeners = false := by
  have hfold : ∀ (ts : List T) (s : BitSet T),
      (ts.foldl (fun s t => (s.add (some t)).set) s).hasListeners = s.hasListeners := by
    intro ts
    induction ts with
    | nil => exact fun _ => rfl
    | cons t ts ih => exact fun s => ih _
  exact hfold ts {}

/-- A set that nobody listens to is made again from its elements. -/
theorem ofList_toList {s : BitSet T} (htrim : s.Trim) (hlisteners : s.hasListeners = false) :
    ofList s.toList = s := by
  have helements : (ofList s.toList).elements = s.elements := by
    ext t
    rw [mem_ofList, mem_toList]
  have hbits := (trim_ofList s.toList).bits_eq htrim helements
  have hnone := hasListeners_ofList s.toList
  cases hs : ofList s.toList with
  | mk bits hasListeners =>
      rw [hs] at hbits hnone
      cases s
      simp only at hbits hnone hlisteners
      rw [hbits, hnone, hlisteners]

end BitSet

variable {P S : Type} [Named P] [Named S]

/-! ## The constructor on names that have been written -/

theorem styleClassesOf_names (l : List S) :
    styleClassesOf (l.map fun t => some (getName t)) = .ok l := by
  induction l with
  | nil => rfl
  | cons t l ih =>
      rw [List.map_cons, styleClassesOf, if_neg (getName_ne t), ofName_getName, ih]
      rfl

theorem pseudoClassesOf_names {l : List P} (h : ∀ t ∈ l, isDir (getName t) = false) :
    pseudoClassesOf .inherit (l.map fun t => some (getName t)) = .ok (l, .inherit) := by
  induction l with
  | nil => rfl
  | cons t l ih =>
      have ht := h t (List.mem_cons_self ..)
      rw [List.map_cons, pseudoClassesOf, if_neg (getName_ne t), if_neg (by rw [ht]; decide),
        ofName_getName, ih fun u hu => h u (List.mem_cons_of_mem _ hu)]
      rfl

/-- No name of a functional pseudo-class gets into the set. -/
theorem isDir_of_mem {names : List (Option JString)} :
    ∀ {dir dir' : NodeOrientation} {l : List P}, pseudoClassesOf dir names = .ok (l, dir') →
      ∀ t ∈ l, isDir (getName t) = false := by
  induction names with
  | nil =>
      intro dir dir' l h t ht
      cases h
      exact nomatch ht
  | cons name names ih =>
      intro dir dir' l h
      cases name with
      | none => exact ih h
      | some pclass =>
          rw [pseudoClassesOf] at h
          by_cases hempty : pclass = []
          · rw [if_pos hempty] at h
            exact ih h
          · rw [if_neg hempty] at h
            by_cases hdir : isDir pclass = true
            · rw [if_pos hdir] at h
              exact ih h
            · rw [if_neg hdir] at h
              cases hname : (ofName pclass : Option P) with
              | none =>
                  rw [hname] at h
                  cases h
              | some pseudoClass =>
                  rw [hname] at h
                  cases hrest : (pseudoClassesOf dir names : Except Exn (List P × NodeOrientation)) with
                  | error e =>
                      rw [hrest] at h
                      cases h
                  | ok r =>
                      rw [hrest] at h
                      cases h
                      intro t ht
                      rcases List.mem_cons.mp ht with rfl | ht
                      · rw [getName_ofName hname]
                        exact Bool.eq_false_iff.mpr hdir
                      · exact ih hrest t ht

namespace SimpleSelector

/-- What is left of a selector in its binary form. -/
def withoutDir (s : SimpleSelector P S) : SimpleSelector P S := { s with nodeOrientation := .inherit }

theorem withoutDir_eq {s : SimpleSelector P S} (h : s.nodeOrientation = .inherit) :
    s.withoutDir = s := by
  cases s
  cases h
  rfl

/-- What the constructor takes care of. -/
theorem Built.elim {s : SimpleSelector P S} (h : s.Built) :
    (∀ t ∈ s.pseudoClassState.toList, isDir (getName t) = false) ∧
      s.styleClassSet.hasListeners = false ∧ s.pseudoClassState.hasListeners = false := by
  obtain ⟨name, styleClasses, pseudoClasses, id, h⟩ := h
  rw [ofNames] at h
  cases hclasses : (styleClassesOf styleClasses : Except Exn (List S)) with
  | error e =>
      rw [hclasses] at h
      cases h
  | ok classes =>
      cases hstates : (pseudoClassesOf .inherit pseudoClasses :
          Except Exn (List P × NodeOrientation)) with
      | error e =>
          rw [hclasses, hstates] at h
          cases h
      | ok r =>
          rw [hclasses, hstates] at h
          cases h
          refine ⟨fun t ht => ?_, BitSet.hasListeners_ofList _, BitSet.hasListeners_ofList _⟩
          exact isDir_of_mem hstates t (BitSet.mem_ofList.mp (BitSet.mem_toList.mp ht))

/-- **The constructor gets all but the orientation back.** -/
theorem toSelector_names {s : SimpleSelector P S} (h : s.Built) :
    s.names.toSelector = .ok s.withoutDir := by
  obtain ⟨hdir, hclasses, hstates⟩ := h.elim
  have hofClasses := BitSet.ofList_toList s.styleClassSet_trim hclasses
  have hofStates := BitSet.ofList_toList s.pseudoClassState_trim hstates
  rw [SimpleNames.toSelector, ofNames, names, List.map_map, List.map_map]
  simp only [Function.comp_def]
  rw [styleClassesOf_names, pseudoClassesOf_names hdir]
  simp only [toText_lit, new, Option.getD_some, withoutDir]
  show Except.ok _ = Except.ok _
  congr 2

theorem reread_names (s : SimpleSelector P S) : s.names.reread = s.names := by
  have hkept : ∀ {T : Type} [Named T] (l : List T),
      ((l.map getName).map some).filterMap (fun s => s) = l.map getName ∧
        (l.map (getName : T → JString)).filter (· ≠ []) = l.map getName := by
    intro T _ l
    constructor
    · rw [List.filterMap_map]
      exact List.filterMap_some
    · rw [List.filter_eq_self]
      intro name hname
      obtain ⟨t, -, rfl⟩ := List.mem_map.mp hname
      exact decide_eq_true (getName_ne t)
  obtain ⟨hclasses, hclasses'⟩ := hkept s.styleClassSet.toList
  obtain ⟨hstates, hstates'⟩ := hkept s.pseudoClassState.toList
  rw [SimpleNames.reread, SimpleNames.new, names]
  simp only [Option.getD_some]
  rw [hclasses, hclasses', hstates, hstates']

end SimpleSelector

namespace Selector

/-- What is left of a selector in its binary form. -/
def withoutDir : Selector P S → Selector P S
  | .simple s => .simple s.withoutDir
  | .compound c => .compound ⟨c.selectors.map SimpleSelector.withoutDir, c.relationships, by
      rw [List.length_map, c.length_relationships]⟩

theorem withoutDir_eq {s : Selector P S} (h : ∀ part ∈ s.parts, part.nodeOrientation = .inherit) :
    s.withoutDir = s := by
  cases s with
  | simple s => rw [withoutDir, SimpleSelector.withoutDir_eq (h s (List.mem_singleton_self s))]
  | compound c =>
      have hsame : c.selectors.map SimpleSelector.withoutDir = c.selectors := by
        nth_rewrite 2 [← List.map_id c.selectors]
        exact List.map_congr_left fun part hpart => SimpleSelector.withoutDir_eq (h part hpart)
      rw [withoutDir]
      congr 2

theorem reread_names (s : Selector P S) : s.names.reread = s.names := by
  cases s with
  | simple s => rw [names, SelectorNames.reread, SimpleSelector.reread_names]
  | compound c =>
      rw [names, SelectorNames.reread, List.map_map]
      congr 1
      exact List.map_congr_left fun s _ => s.reread_names

theorem toSelector_names {s : Selector P S} (h : s.Built) :
    s.names.toSelector = .ok s.withoutDir := by
  cases s with
  | simple s =>
      rw [names, SelectorNames.toSelector,
        SimpleSelector.toSelector_names (h s (List.mem_singleton_self s))]
      rfl
  | compound c =>
      have hparts : ∀ l : List (SimpleSelector P S), (∀ s ∈ l, s.Built) →
          (l.map SimpleSelector.names).mapM SimpleNames.toSelector =
            .ok (l.map SimpleSelector.withoutDir) := by
        intro l
        induction l with
        | nil => exact fun _ => rfl
        | cons s l ih =>
            intro hl
            rw [List.map_cons, List.mapM_cons,
              SimpleSelector.toSelector_names (hl s (List.mem_cons_self ..)),
              ih fun t ht => hl t (List.mem_cons_of_mem _ ht)]
            rfl
      have hcount : (c.selectors.map SimpleSelector.withoutDir).length - 1 =
          c.relationships.length := by
        rw [List.length_map, c.length_relationships]
      rw [names, SelectorNames.toSelector, hparts c.selectors h]
      show (if h : _ then _ else _) = _
      rw [dif_pos hcount.le]
      simp only [hcount, List.take_length]
      rfl

/-! ## Writing -/

/-- What has been written has its strings in the table. -/
theorem interns_names (s : SimpleNames) : Interns s.writeBinary
    ([some s.name] ++ (s.styleClasses.map some ++ ([some s.id] ++ s.pseudoClasses.map some))) := by
  have hall : ∀ names : List JString,
      Interns (.all (fun c => putString (some c)) names) (names.map some) := by
    intro names
    rw [List.map_eq_flatMap]
    exact interns_all names fun c => interns_intern _ _
  have hlist : ∀ names : List JString, Interns (.emit (writeShort names.length) ++
      .all (fun c => putString (some c)) names) (names.map some) := by
    intro names
    exact (interns_emit (writeShort names.length)).append (hall names)
  have h := (interns_emit (K := Option JString) (ε := StreamExn) (writeByte TYPE_SIMPLE)).append
    ((interns_intern writeShort (some s.name)).append ((hlist s.styleClasses).append
      ((interns_intern writeShort (some s.id)).append (hlist s.pseudoClasses))))
  rw [Writer.append_assoc] at h
  exact h

/-- A table with few strings has room for few names. -/
theorem names_fit {s : SimpleSelector P S} {strings : List (Option JString)}
    (hclasses : ∀ c ∈ s.names.styleClasses, some c ∈ strings)
    (hstates : ∀ c ∈ s.names.pseudoClasses, some c ∈ strings) (hlen : strings.length < 32768) :
    s.names.Fits := by
  have hfew : ∀ {T : Type} [Named T] (l : List T), l.Nodup →
      (∀ c ∈ l.map getName, some c ∈ strings) → (l.map (getName : T → JString)).length < 32768 := by
    intro T _ l hnodup hmem
    have hsome : ((l.map getName).map some : List (Option JString)).Nodup :=
      (hnodup.map getName_injective).map (Option.some_injective _)
    have hsub : (l.map getName).map some ⊆ strings := by
      intro k hk
      obtain ⟨c, hc, rfl⟩ := List.mem_map.mp hk
      exact hmem c hc
    have hle := (List.subperm_of_subset hsome hsub).length_le
    rw [List.length_map] at hle
    omega
  exact ⟨hfew _ (BitSet.nodup_toList _) hclasses, hfew _ (BitSet.nodup_toList _) hstates⟩

theorem total_names (s : SimpleNames) : Total s.writeBinary := by
  have hlist : ∀ names : List JString, Total (K := Option JString) (ε := StreamExn)
      (.all (fun c => putString (some c)) names) := fun names =>
    total_all (fun c => total_intern _ _) names
  exact (total_emit _).append ((total_intern _ _).append ((total_emit _).append
    ((hlist _).append ((total_intern _ _).append ((total_emit _).append (hlist _))))))

theorem total_writeBinary (s : Selector P S) : Total s.writeBinary := by
  cases s with
  | simple s => exact total_names s.names
  | compound c =>
      exact (total_emit _).append ((total_emit _).append ((total_all total_names _).append
        ((total_emit _).append (total_all (fun r => total_emit _) _))))

/-- All counts fit, given that the parts can be counted and the strings can be indexed. -/
theorem fits_names {s : Selector P S} {tab tab' strings : List (Option JString)}
    {bytes : List Byte} (hwrite : s.writeBinary tab = .ok (bytes, tab'))
    (hstrings : tab' <+: strings) (hlen : strings.length < 32768) (hparts : s.parts.length < 32768) :
    s.names.Fits := by
  cases s with
  | simple s =>
      obtain ⟨-, hmem⟩ := interns_names s.names hwrite
      refine names_fit (fun c hc => ?_) (fun c hc => ?_) hlen
      · exact hstrings.subset (hmem _ (by simp [hc]))
      · exact hstrings.subset (hmem _ (by simp [hc]))
  | compound c =>
      have hinterns := (interns_emit (K := Option JString) (ε := StreamExn)
          (writeByte TYPE_COMPOUND)).append ((interns_emit (writeShort
            (c.selectors.map SimpleSelector.names).length)).append
              ((interns_all (c.selectors.map SimpleSelector.names) interns_names).append
                ((interns_emit (writeShort c.relationships.length)).append
                  (interns_all c.relationships fun r => interns_emit
                    (writeByte (Combinator.ordinal r))))))
      obtain ⟨-, hmem⟩ := hinterns hwrite
      refine ⟨by rw [List.length_map]; exact hparts, ?_, ?_⟩
      · have hcount := c.length_relationships
        change c.selectors.length < 32768 at hparts
        omega
      · intro names hnames
        obtain ⟨s, hs, rfl⟩ := List.mem_map.mp hnames
        have hkeys : ∀ k, k ∈ [some s.names.name] ++ (s.names.styleClasses.map some ++
            ([some s.names.id] ++ s.names.pseudoClasses.map some)) → k ∈ strings := by
          intro k hk
          refine hstrings.subset (hmem k ?_)
          simp only [List.nil_append]
          exact List.mem_append_left _ (List.mem_flatMap.mpr ⟨_, hnames, hk⟩)
        refine names_fit (fun c hc => ?_) (fun c hc => ?_) hlen
        · exact hkeys _ (by simp [hc])
        · exact hkeys _ (by simp [hc])

/-- **What is read** of a selector is the selector without its orientations. -/
theorem readBinary_eq {s : Selector P S} (hs : s.Built) {tab tab' strings : List (Option JString)}
    {bytes : List Byte} (hwrite : s.writeBinary tab = .ok (bytes, tab'))
    (hstrings : tab' <+: strings) (hlen : strings.length < 32768) (hparts : s.parts.length < 32768)
    {depth : ℕ} (hdepth : bytes.length ≤ depth) :
    Decodes (readBinary depth strings) bytes s.withoutDir := by
  have hcodec : Codec 32768 (depth + 1) _ _ _ :=
    SelectorNames.codec (fits_names hwrite hstrings hlen hparts)
  rw [reread_names] at hcodec
  obtain ⟨-, hdecodes⟩ := hcodec hwrite
  refine (hdecodes depth strings hdepth (Nat.lt_succ_self _) hstrings hlen).bind_nil ?_
  rw [toSelector_names hs]
  exact decodes_ofExcept _

end Selector

/-! ## A chain of styleables for a selector -/

/-- A placement goes up by one element at least for every place. -/
theorem Embedding.length_le {α : Type} {Q : ℕ → α → Prop} {direct : ℕ → Bool} {k : ℕ}
    {l : List α} {pos : ℕ → ℕ} (h : Embedding Q direct k l pos) : k + 1 ≤ l.length := by
  have hup : ∀ n ≤ k, n ≤ pos (k - n) := by
    intro n
    induction n with
    | zero => exact fun _ => Nat.zero_le _
    | succ n ih =>
        intro hn
        have hlt := h.lt (show k - (n + 1) < k by omega)
        have hstep : k - (n + 1) + 1 = k - n := by omega
        rw [hstep] at hlt
        exact Nat.lt_of_le_of_lt (ih (by omega)) hlt
  obtain ⟨a, ha, -⟩ := h.fits 0 (Nat.zero_le k)
  have hlt : pos 0 < l.length := (List.getElem?_eq_some_iff.mp ha).1
  have hk := hup k (le_refl k)
  rw [Nat.sub_self] at hk
  omega

namespace SimpleSelector

/-- A styleable made for a simple selector, in a scene of the orientation `o` or in none. -/
def target (o : Option NodeOrientation) (s : SimpleSelector P S) : Styleable P S where
  id := some s.id
  className := s.name
  styleClass := s.styleClassSet.toList
  orientation := o

theorem nameMatchesAtEnd_self (s : SimpleSelector P S) : s.nameMatchesAtEnd s.name = true := by
  have hpos : (s.name.toList.length : ℤ) - s.name.toList.length - 1 = -1 := by omega
  rw [nameMatchesAtEnd]
  simp only [hpos]
  rw [if_pos (.inl trivial)]
  simp

/-- It applies to its target unless the orientation excludes it. -/
theorem applies_target {o : Option NodeOrientation} {s : SimpleSelector P S}
    (h : s.excludedByOrientation (s.target o) = false) : s.applies (s.target o) = true := by
  have hclasses : (BitSet.ofList s.styleClassSet.toList).containsAll (some s.styleClassSet) = true := by
    rw [s.styleClassSet_trim.containsAll_iff]
    intro t ht
    exact BitSet.mem_ofList.mpr (BitSet.mem_toList.mpr ht)
  rw [applies, h]
  simp only [target, nameMatchesAtEnd_self, hclasses]
  simp

theorem not_applies_of_excluded {s : SimpleSelector P S} {a : Styleable P S}
    (h : s.excludedByOrientation a = true) : ¬ s.applies a = true := by
  rw [applies, h]
  simp

end SimpleSelector

namespace Selector

/-- A chain made for a selector: a target for every simple selector, each the parent of the one
to its right. -/
def chain (o : Option NodeOrientation) (s : Selector P S) : List (Styleable P S) :=
  (s.parts.map (SimpleSelector.target o)).reverse

theorem selector_eq {c : CompoundSelector P S} {i : ℕ} (h : i < c.selectors.length) :
    c.selector i = c.selectors[i] := by
  rw [CompoundSelector.selector, List.getD_eq_getElem?_getD, List.getElem?_eq_getElem h]
  rfl

/-- **A selector applies to its own chain** where no orientation excludes a part of it. -/
theorem applies_chain {o : Option NodeOrientation} {s : Selector P S} (hne : s.parts ≠ [])
    (h : ∀ part ∈ s.parts, part.excludedByOrientation (part.target o) = false) :
    s.applies (s.chain o) = true := by
  cases s with
  | simple s => exact SimpleSelector.applies_target (h s (List.mem_singleton_self s))
  | compound c =>
      have hpos : 0 < c.selectors.length := List.length_pos_iff.mpr hne
      rw [Selector.applies,
        (CompoundSelector.applies_spec c _ none 0 fun _ hnone => nomatch hnone).1]
      refine ⟨hne, fun i => c.selectors.length - 1 - i, ?_, ?_, ?_⟩
      · exact Nat.sub_self _
      · intro i hi
        have hlt : i < c.selectors.length := by omega
        have hplace : c.selectors.length - 1 - (c.selectors.length - 1 - i) = i := by omega
        refine ⟨SimpleSelector.target o c.selectors[i], ?_, ?_⟩
        · rw [chain, List.getElem?_reverse (by
            rw [List.length_map]
            change c.selectors.length - 1 - i < c.selectors.length
            omega), List.length_map]
          change (c.selectors.map _)[c.selectors.length - 1 - (c.selectors.length - 1 - i)]? = _
          rw [hplace, List.getElem?_map, List.getElem?_eq_getElem hlt]
          rfl
        · rw [CompoundSelector.Applies, selector_eq hlt]
          exact SimpleSelector.applies_target (h _ (List.getElem_mem hlt))
      · intro i hi
        split
        · omega
        · omega

/-- A selector that applies has a place for each of its parts. -/
theorem places_of_applies {s : Selector P S} {l : List (Styleable P S)}
    (h : s.applies l = true) : s.parts.length ≤ l.length ∧
      ∀ part ∈ s.parts, ∃ a ∈ l, part.applies a = true := by
  cases s with
  | simple s =>
      cases l with
      | nil => cases h
      | cons a l =>
          refine ⟨Nat.succ_le_succ (Nat.zero_le _), fun part hpart => ?_⟩
          rw [List.mem_singleton.mp hpart]
          exact ⟨a, List.mem_cons_self .., h⟩
  | compound c =>
      rw [Selector.applies,
        (CompoundSelector.applies_spec c l none 0 fun _ hnone => nomatch hnone).1] at h
      obtain ⟨hne, pos, hpos⟩ := h
      have hlen : 0 < c.selectors.length := List.length_pos_iff.mpr hne
      constructor
      · have hle := Embedding.length_le hpos
        change c.selectors.length ≤ l.length
        omega
      · intro part hpart
        obtain ⟨i, hi, rfl⟩ := List.getElem_of_mem hpart
        change i < c.selectors.length at hi
        obtain ⟨a, ha, happlies⟩ := hpos.fits i (by omega)
        refine ⟨a, List.mem_of_getElem? ha, ?_⟩
        rw [CompoundSelector.Applies, selector_eq hi] at happlies
        exact happlies

/-! ## What a lost orientation changes -/

/-- Without its orientation a simple selector weighs less. -/
theorem specificity_withoutDir {s : SimpleSelector P S} (h : s.nodeOrientation ≠ .inherit) :
    s.withoutDir.createMatch.specificity ≠ s.createMatch.specificity := by
  have hbit : ∀ a b n : ℕ, ((a <<< 8) ||| (b <<< 4) ||| n).testBit 0 = n.testBit 0 := by
    intro a b n
    rw [Nat.testBit_or, Nat.testBit_or, Nat.testBit_shiftLeft, Nat.testBit_shiftLeft]
    simp
  intro heq
  have hlow := congrArg (fun n => n.testBit 0) heq
  simp only [SimpleSelector.createMatch, Match.new, SimpleSelector.withoutDir, ne_eq, not_true,
    if_false, h, not_false_eq_true, if_true] at hlow
  rw [hbit, hbit] at hlow
  simp only [Nat.testBit_zero, decide_eq_decide] at hlow
  omega

/-- The orientation of a scene in which nothing with this orientation applies. -/
def opposite : NodeOrientation → NodeOrientation
  | .rightToLeft => .leftToRight
  | _ => .rightToLeft

theorem excluded_by_opposite {s : SimpleSelector P S} (h : s.nodeOrientation ≠ .inherit)
    {a : Styleable P S} (ha : a.orientation = some (opposite s.nodeOrientation)) :
    s.excludedByOrientation a = true := by
  rw [SimpleSelector.excludedByOrientation, ha]
  cases hdir : s.nodeOrientation with
  | inherit => exact absurd hdir h
  | leftToRight => decide
  | rightToLeft => decide

/-- **A lost orientation changes the meaning.** -/
theorem withoutDir_differs {s : Selector P S} (h : s.SameMeaning s.withoutDir) :
    ∀ part ∈ s.parts, part.nodeOrientation = .inherit := by
  intro part hpart
  by_contra hdir
  cases s with
  | simple s =>
      rw [List.mem_singleton.mp hpart] at hdir
      exact specificity_withoutDir hdir h.specificity
  | compound c =>
      set o := some (opposite part.nodeOrientation) with ho
      have happlies : (withoutDir (.compound c)).applies ((withoutDir (.compound c)).chain o) =
          true := by
        refine applies_chain ?_ ?_
        · exact List.ne_nil_of_mem (List.mem_map_of_mem hpart)
        · intro other hother
          obtain ⟨t, -, rfl⟩ := List.mem_map.mp hother
          rfl
      rw [h.applies] at happlies
      obtain ⟨a, ha, hplace⟩ := (places_of_applies happlies).2 part hpart
      obtain ⟨t, -, rfl⟩ := List.mem_map.mp (List.mem_reverse.mp ha)
      exact SimpleSelector.not_applies_of_excluded (excluded_by_opposite hdir ho) hplace

theorem length_mapM {α β : Type} {f : α → Except Exn β} {l : List α} :
    ∀ {r : List β}, l.mapM f = .ok r → r.length = l.length := by
  induction l with
  | nil =>
      intro r h
      cases h
      rfl
  | cons a l ih =>
      intro r h
      rw [List.mapM_cons] at h
      cases ha : f a with
      | error e =>
          rw [ha] at h
          cases h
      | ok b =>
          cases hl : l.mapM f with
          | error e =>
              rw [ha, hl] at h
              cases h
          | ok bs =>
              rw [ha, hl] at h
              cases h
              rw [List.length_cons, List.length_cons, ih hl]

theorem parts_of_toSelector {selectors : List SimpleNames} {relationships : List Combinator}
    {input rest : List Byte} {s : Selector P S}
    (h : In.ofExcept (SelectorNames.compound selectors relationships).toSelector input =
      .ok (s, rest)) : s.parts.length = selectors.length := by
  rw [SelectorNames.toSelector] at h
  cases hparts : (selectors.mapM SimpleNames.toSelector :
      Except Exn (List (SimpleSelector P S))) with
  | error e =>
      rw [hparts] at h
      cases h
  | ok parts =>
      rw [hparts] at h
      change In.ofExcept (if h : _ then _ else _) input = _ at h
      split at h
      · cases h
        exact length_mapM hparts
      · cases h

/-- A compound selector is read with as many parts as the short says, or not at all. -/
theorem parts_of_read {c : CompoundSelector P S} {tab tab' strings : List (Option JString)}
    {bytes rest : List Byte} {depth : ℕ} {s' : Selector P S}
    (hwrite : (Selector.compound c).writeBinary tab = .ok (bytes, tab'))
    (hread : readBinary depth strings bytes = .ok (s', rest)) : s'.parts.length < 32768 := by
  obtain ⟨kind, body, tab₁, hkind, hbody, rfl⟩ := Writer.append_eq_ok hwrite
  cases hkind
  obtain ⟨count, body', tab₂, hcount, -, rfl⟩ := Writer.append_eq_ok hbody
  cases hcount
  obtain ⟨read, rest₁, hnames, hselector⟩ := bind_eq_ok hread
  cases depth with
  | zero => cases hnames
  | succ depth =>
      rw [SelectorNames.readBinary, (decodes_byte_of_lt (by decide)).bind_apply,
        if_neg (by decide), (decodes_short _).bind_apply] at hnames
      obtain ⟨selectors, rest₂, hselectors, hnames⟩ := bind_eq_ok hnames
      obtain ⟨nRelationships, rest₃, -, hnames⟩ := bind_eq_ok hnames
      obtain ⟨relationships, rest₄, -, hpure⟩ := bind_eq_ok hnames
      cases hpure
      have hlen := length_replicateReader hselectors
      rw [parts_of_toSelector hselector, hlen]
      unfold toSigned
      split
      · omega
      · omega

theorem sameMeaning_refl (s : Selector P S) : s.SameMeaning s :=
  ⟨fun _ => rfl, fun _ _ _ => rfl, fun _ _ => rfl, rfl⟩

/-- Outside a scene nothing is excluded. -/
theorem not_excluded_none (s : SimpleSelector P S) :
    s.excludedByOrientation (s.target none) = false := rfl

/-- Too many parts for a short are not read back. -/
theorem few_parts {s : Selector P S} {tab tab' strings : List (Option JString)} {bytes : List Byte}
    (hwrite : s.writeBinary tab = .ok (bytes, tab')) (h : s.RoundTrips strings bytes) :
    s.parts.length < 32768 := by
  cases s with
  | simple s => exact (show 1 < 32768 by decide)
  | compound c =>
      by_contra hmany
      obtain ⟨s', hread, hsame⟩ := h bytes.length [] (le_refl _)
      rw [List.append_nil] at hread
      have hfew := parts_of_read hwrite hread
      have hne : (Selector.compound c).parts ≠ [] := by
        intro hnil
        rw [hnil] at hmany
        exact hmany (Nat.zero_lt_succ _)
      have happlies := applies_chain hne fun part _ => not_excluded_none part
      rw [← hsame.applies] at happlies
      have hne' : s'.parts ≠ [] := by
        -- `s'` applies somewhere, so it has a part
        intro hnil
        cases s' with
        | simple s => exact List.cons_ne_nil _ _ hnil
        | compound c' =>
            change (if c'.selectors = [] then (false, none) else _).1 = true at happlies
            rw [if_pos (show c'.selectors = [] from hnil)] at happlies
            cases happlies
      have hown := applies_chain hne' fun part _ => not_excluded_none part
      rw [hsame.applies] at hown
      have hle := (places_of_applies hown).1
      rw [chain, List.length_reverse, List.length_map] at hle
      omega

/-- **Which selectors survive.** A selector can always be written; what is read from the bytes,
with a table of strings that a store can have, means the same if and only if no part of it has
an orientation and a short can count its parts. -/
theorem readsBack_iff {s : Selector P S} (hs : s.Built) (tab : List (Option JString)) :
    ∃ bytes tab', s.writeBinary tab = .ok (bytes, tab') ∧
      ∀ strings, tab' <+: strings → strings.length < 32768 →
        (s.RoundTrips strings bytes ↔ s.parts.length < 32768 ∧
          ∀ part ∈ s.parts, part.nodeOrientation = .inherit) := by
  obtain ⟨bytes, tab', hwrite⟩ := total_writeBinary s tab
  refine ⟨bytes, tab', hwrite, fun strings hstrings hlen => ⟨fun h => ?_, ?_⟩⟩
  · have hparts := few_parts hwrite h
    refine ⟨hparts, withoutDir_differs ?_⟩
    obtain ⟨s', hread, hsame⟩ := h bytes.length [] (le_refl _)
    rw [readBinary_eq hs hwrite hstrings hlen hparts (le_refl _)] at hread
    cases hread
    exact hsame
  · rintro ⟨hparts, hdir⟩ depth rest hdepth
    refine ⟨s, ?_, sameMeaning_refl s⟩
    rw [readBinary_eq hs hwrite hstrings hlen hparts hdepth, withoutDir_eq hdir]

/-! ### An orientation that is lost -/

/-- A registry whose names are `a`, `aa`, `aaa` and so on. -/
local instance : Named ℕ where
  getName n := List.replicate (n + 1) 0x61#16
  ofName s := if s ≠ [] ∧ s = List.replicate s.length 0x61#16 then some (s.length - 1) else none
  ofName_getName n := by simp
  getName_ofName := by
    intro s n h
    by_cases hs : s ≠ [] ∧ s = List.replicate s.length 0x61#16
    · rw [if_pos hs] at h
      cases h
      have hpos := List.length_pos_iff.mpr hs.1
      rw [Nat.sub_add_cancel hpos]
      exact hs.2.symm
    · rw [if_neg hs] at h
      cases h
  getName_ne n := List.cons_ne_nil _ _

theorem styleClass_a : (styleClassesOf [some (lit "a")] : Except Exn (List ℕ)) = .ok [0] := by
  rfl

/-- `Button > .a:aa` -/
def childOfButton : Selector ℕ ℕ :=
  .compound ⟨[.new (some "Button") [] [] none, .new none [0] [1] none], [.child], rfl⟩

theorem childOfButton_built : childOfButton.Built := by
  intro part hpart
  rcases List.mem_cons.mp hpart with rfl | hpart
  · exact ⟨some "Button", [], [], none, rfl⟩
  · rw [List.mem_singleton.mp hpart]
    have hstates : (pseudoClassesOf .inherit [some (lit "aa")] :
        Except Exn (List ℕ × NodeOrientation)) = .ok ([1], .inherit) := rfl
    refine ⟨none, [some (lit "a")], [some (lit "aa")], none, ?_⟩
    rw [SimpleSelector.ofNames, styleClass_a, hstates]
    rfl

theorem readsBack_iff_childOfButton : ∃ bytes strings,
    childOfButton.writeBinary [] = .ok (bytes, strings) ∧ childOfButton.RoundTrips strings bytes := by
  obtain ⟨bytes, strings, hwrite, hiff⟩ := readsBack_iff childOfButton_built []
  have hfew : (match childOfButton.writeBinary [] with
      | .ok (_, strings) => decide (strings.length < 32768)
      | .error _ => false) = true := by decide +kernel
  rw [hwrite] at hfew
  refine ⟨bytes, strings, hwrite, (hiff strings List.prefix_rfl (of_decide_eq_true hfew)).mpr ?_⟩
  refine ⟨by decide, fun part hpart => ?_⟩
  rcases List.mem_cons.mp hpart with rfl | hpart
  · rfl
  · rw [List.mem_singleton.mp hpart]
    rfl

/-- `.a:dir(rtl)` -/
def rightToLeft : Selector ℕ ℕ := .simple (.new none [0] [] none .rightToLeft)

/-- A node with the style class in a scene that runs from left to right. -/
def leftToRightNode : Styleable ℕ ℕ where
  styleClass := [0]
  orientation := some .leftToRight

theorem rightToLeft_built : rightToLeft.Built := by
  intro part hpart
  rw [List.mem_singleton.mp hpart]
  have hstates : (pseudoClassesOf .inherit [some (lit "dir(rtl)")] :
      Except Exn (List ℕ × NodeOrientation)) = .ok ([], .rightToLeft) := rfl
  refine ⟨none, [some (lit "a")], [some (lit "dir(rtl)")], none, ?_⟩
  rw [SimpleSelector.ofNames, styleClass_a, hstates]
  rfl

/-- What is read of `.a:dir(rtl)` applies where the selector does not, and weighs less. -/
theorem orientation_not_written : rightToLeft.Built ∧ ∃ bytes strings s',
    rightToLeft.writeBinary [] = .ok (bytes, strings) ∧
      readBinary bytes.length strings bytes = .ok (s', []) ∧
      rightToLeft.applies [leftToRightNode] = false ∧ s'.applies [leftToRightNode] = true ∧
      rightToLeft.createMatch.specificity = 17 ∧ s'.createMatch.specificity = 16 := by
  obtain ⟨bytes, strings, hwrite⟩ := total_writeBinary rightToLeft []
  have hfew : (match rightToLeft.writeBinary [] with
      | .ok (_, strings) => decide (strings.length < 32768)
      | .error _ => false) = true := by decide +kernel
  rw [hwrite] at hfew
  have hread := readBinary_eq rightToLeft_built hwrite List.prefix_rfl (of_decide_eq_true hfew)
    (by decide) (le_refl bytes.length) []
  rw [List.append_nil] at hread
  refine ⟨rightToLeft_built, bytes, strings, rightToLeft.withoutDir, hwrite, hread, ?_⟩
  decide +kernel

end Selector

end JavaFx.Css
