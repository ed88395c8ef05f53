import JavaFx.Css.ParsedValueImpl
import Mathlib.Logic.Relation

/-!
# The tree of a parsed value

What a parsed value stands for is a tree of scalars. Marked with what is known of each of its
objects, the tree answers when `equals` is true: the fields `hash` are such marks, and so are
the identities of the objects.
-/

namespace JavaFx.Css

open EarlierFirst

variable {L M M' : Type}

/-- A value as a tree, with a mark at each parsed value. -/
inductive ValueTree (L M : Type) where
  | null (mark : M)
  | leaf (mark : M) (l : L)
  | parsed (mark : M) (t : ValueTree L M)
  | array (mark : M) (entries : List (Option (ValueTree L M)))
  | arrays (mark : M) (rows : List (Option (List (Option (ValueTree L M)))))

/-- The mark at the root. -/
def ValueTree.mark : ValueTree L M → M
  | null mark => mark
  | leaf mark _ => mark
  | parsed mark _ => mark
  | array mark _ => mark
  | arrays mark _ => mark

namespace ParsedValues

variable (v : ParsedValues L)

def treeStep (mark : ℕ → M) (tree : ℕ → ValueTree L M) (n : ℕ) : ValueTree L M :=
  match v.value n with
  | .null => .null (mark n)
  | .leaf l => .leaf (mark n) l
  | .parsed p => .parsed (mark n) (tree p)
  | .array _ entries => .array (mark n) (entries.map (Option.map tree))
  | .arrays _ rows => .arrays (mark n) (rows.map (Option.map (List.map (Option.map tree))))

def tree (mark : ℕ → M) (n : ℕ) : ValueTree L M := fixAt (v.treeStep mark) (.null (mark n)) n

variable {v}

/-! ## Parts -/

theorem mem_parts_parsed {n p : ℕ} (h : v.value n = .parsed p) : p ∈ (v.value n).parts := by
  rw [h]
  exact List.mem_singleton_self p

theorem mem_parts_array {n this m : ℕ} {entries : List (Option ℕ)}
    (h : v.value n = .array this entries) (hm : some m ∈ entries) : m ∈ (v.value n).parts := by
  rw [h]
  exact List.reduceOption_mem_iff.mpr hm

theorem mem_parts_arrays {n this m : ℕ} {rows : List (Option (List (Option ℕ)))}
    {row : List (Option ℕ)} (h : v.value n = .arrays this rows) (hrow : some row ∈ rows)
    (hm : some m ∈ row) : m ∈ (v.value n).parts := by
  rw [h]
  exact List.reduceOption_mem_iff.mpr
    (List.mem_flatten.mpr ⟨row, List.reduceOption_mem_iff.mpr hrow, hm⟩)

/-! ## Equal lists of parts -/

section Map

variable {ι α β γ : Type} {g : ι → α → β} {g' : α → γ}

/-- Entries that agree under every `g i` agree under `g'`. -/
theorem optionMap_eq {o o' : Option α}
    (h : ∀ a ∈ o, ∀ b ∈ o', (∀ i, g i a = g i b) → g' a = g' b) [Nonempty ι]
    (heq : ∀ i, o.map (g i) = o'.map (g i)) : o.map g' = o'.map g' := by
  obtain ⟨i⟩ := ‹Nonempty ι›
  cases o with
  | none =>
      cases o' with
      | none => rfl
      | some b => exact absurd (heq i) (by simp)
  | some a =>
      cases o' with
      | none => exact absurd (heq i) (by simp)
      | some b =>
          exact congrArg some (h a rfl b rfl fun i => Option.some_inj.mp (heq i))

theorem listMap_eq {l l' : List α} (h : ∀ a ∈ l, ∀ b ∈ l', (∀ i, g i a = g i b) → g' a = g' b)
    [Nonempty ι] (heq : ∀ i, l.map (g i) = l'.map (g i)) : l.map g' = l'.map g' := by
  obtain ⟨i₀⟩ := ‹Nonempty ι›
  induction l generalizing l' with
  | nil =>
      cases l' with
      | nil => rfl
      | cons b l' => exact absurd (heq i₀) (by simp)
  | cons a l ih =>
      cases l' with
      | nil => exact absurd (heq i₀) (by simp)
      | cons b l' =>
          have hcons : ∀ i, g i a = g i b ∧ l.map (g i) = l'.map (g i) :=
            fun i => List.cons_eq_cons.mp (heq i)
          rw [List.map_cons, List.map_cons,
            h a List.mem_cons_self b List.mem_cons_self fun i => (hcons i).1,
            ih (fun a' ha' b' hb' => h a' (List.mem_cons_of_mem a ha') b'
              (List.mem_cons_of_mem b hb')) fun i => (hcons i).2]

theorem entries_eq {l l' : List (Option α)} [Nonempty ι]
    (h : ∀ a, some a ∈ l → ∀ b, some b ∈ l' → (∀ i, g i a = g i b) → g' a = g' b)
    (heq : ∀ i, l.map (Option.map (g i)) = l'.map (Option.map (g i))) :
    l.map (Option.map g') = l'.map (Option.map g') := by
  refine listMap_eq (g := fun i => Option.map (g i)) ?_ heq
  intro entry hentry entry' hentry' hsame
  refine optionMap_eq ?_ hsame
  rintro a rfl b rfl
  exact h a hentry b hentry'

end Map

/-! ## The equation of the tree -/

theorem earlier_treeStep (mark : ℕ → M) : Earlier (v.treeStep mark) := by
  intro n f g hfg
  have hparts : ∀ m ∈ (v.value n).parts, f m = g m := fun m hm => hfg m (v.older n m hm)
  rw [treeStep, treeStep]
  cases hvalue : v.value n with
  | null => rfl
  | leaf l => rfl
  | parsed p => exact congrArg _ (hparts p (mem_parts_parsed hvalue))
  | array this entries =>
      have hentries : entries.map (Option.map f) = entries.map (Option.map g) :=
        List.map_congr_left fun entry hentry => Option.map_congr fun m hm =>
          hparts m (mem_parts_array hvalue (hm ▸ hentry))
      exact congrArg _ hentries
  | arrays this rows =>
      have hrows : rows.map (Option.map (List.map (Option.map f))) =
          rows.map (Option.map (List.map (Option.map g))) :=
        List.map_congr_left fun row hrow => Option.map_congr fun entries hentries =>
          List.map_congr_left fun entry hentry => Option.map_congr fun m hm =>
            hparts m (mem_parts_arrays hvalue (hentries ▸ hrow) (hm ▸ hentry))
      exact congrArg _ hrows

theorem tree_eq (mark : ℕ → M) (n : ℕ) : v.tree mark n = v.treeStep mark (v.tree mark) n := by
  have hearlier := earlier_treeStep (v := v) mark
  rw [tree, fixAt_eq hearlier]
  apply hearlier
  intro m _
  exact fixAt_bottom hearlier m

@[simp] theorem mark_tree (mark : ℕ → M) (n : ℕ) : (v.tree mark n).mark = mark n := by
  rw [tree_eq, treeStep]
  cases v.value n with
  | null | leaf | parsed | array | arrays => rfl

/-! ## Marks -/

/-- The parsed values that a parsed value consists of, itself included. -/
def Within (v : ParsedValues L) : ℕ → ℕ → Prop :=
  Relation.ReflTransGen fun n m => m ∈ (v.value n).parts

theorem Within.part {n m k : ℕ} (hm : m ∈ (v.value n).parts) (h : v.Within m k) : v.Within n k :=
  Relation.ReflTransGen.head hm h

/-- **Equal marks.** Trees that are equal under some marks are equal under another whenever the
objects in them that have the same marks have the same other mark. -/
theorem tree_mono {ι : Type} [Nonempty ι] {marks : ι → ℕ → M} {mark : ℕ → M'} {x y : ℕ}
    (h : ∀ a b, v.Within x a → v.Within y b → (∀ i, marks i a = marks i b) → mark a = mark b)
    (heq : ∀ i, v.tree (marks i) x = v.tree (marks i) y) : v.tree mark x = v.tree mark y := by
  induction x using Nat.strong_induction_on generalizing y with
  | _ x ih =>
      have hparts : ∀ a ∈ (v.value x).parts, ∀ b ∈ (v.value y).parts,
          (∀ i, v.tree (marks i) a = v.tree (marks i) b) → v.tree mark a = v.tree mark b := by
        intro a ha b hb
        exact ih a (v.older x a ha) fun a' b' ha' hb' => h a' b' (ha'.part ha) (hb'.part hb)
      have hself : (∀ i, marks i x = marks i y) → mark x = mark y :=
        h x y Relation.ReflTransGen.refl Relation.ReflTransGen.refl
      have hstep : ∀ i, v.treeStep (marks i) (v.tree (marks i)) x =
          v.treeStep (marks i) (v.tree (marks i)) y := by
        intro i
        rw [← tree_eq, ← tree_eq]
        exact heq i
      rw [tree_eq, tree_eq mark y]
      obtain ⟨i₀⟩ := ‹Nonempty ι›
      cases hx : v.value x with
      | null =>
          cases hy : v.value y with
          | null =>
              simp only [treeStep, hx, hy, ValueTree.null.injEq] at hstep ⊢
              exact hself hstep
          | leaf | parsed | array | arrays =>
              have := hstep i₀
              simp [treeStep, hx, hy] at this
      | leaf l =>
          cases hy : v.value y with
          | leaf l' =>
              simp only [treeStep, hx, hy, ValueTree.leaf.injEq] at hstep ⊢
              exact ⟨hself fun i => (hstep i).1, (hstep i₀).2⟩
          | null | parsed | array | arrays =>
              have := hstep i₀
              simp [treeStep, hx, hy] at this
      | parsed p =>
          cases hy : v.value y with
          | parsed q =>
              simp only [treeStep, hx, hy, ValueTree.parsed.injEq] at hstep ⊢
              exact ⟨hself fun i => (hstep i).1, hparts p (mem_parts_parsed hx) q
                (mem_parts_parsed hy) fun i => (hstep i).2⟩
          | null | leaf | array | arrays =>
              have := hstep i₀
              simp [treeStep, hx, hy] at this
      | array this entries =>
          cases hy : v.value y with
          | array other others =>
              simp only [treeStep, hx, hy, ValueTree.array.injEq] at hstep ⊢
              refine ⟨hself fun i => (hstep i).1, ?_⟩
              exact entries_eq (fun a ha b hb =>
                hparts a (mem_parts_array hx ha) b (mem_parts_array hy hb)) fun i => (hstep i).2
          | null | leaf | parsed | arrays =>
              have := hstep i₀
              simp [treeStep, hx, hy] at this
      | arrays this rows =>
          cases hy : v.value y with
          | arrays other others =>
              simp only [treeStep, hx, hy, ValueTree.arrays.injEq] at hstep ⊢
              refine ⟨hself fun i => (hstep i).1, ?_⟩
              refine listMap_eq (g := fun i => Option.map (List.map (Option.map (v.tree (marks i)))))
                ?_ fun i => (hstep i).2
              intro row hrow row' hrow' hsame
              refine optionMap_eq (g := fun i => List.map (Option.map (v.tree (marks i)))) ?_ hsame
              rintro es rfl es' rfl
              exact entries_eq fun a ha b hb =>
                hparts a (mem_parts_arrays hx hrow ha) b (mem_parts_arrays hy hrow' hb)
          | null | leaf | parsed | array =>
              have := hstep i₀
              simp [treeStep, hx, hy] at this

/-! ## `equals` compares marked trees -/

section Equals

variable {equals : ℕ → ℕ → Bool} {t : ℕ → ValueTree L M}

theorem entryEquals_iff {entry other : Option ℕ}
    (h : ∀ a ∈ entry, ∀ b ∈ other, equals a b = true ↔ t a = t b) :
    entryEquals equals entry other = true ↔ entry.map t = other.map t := by
  cases entry with
  | none => cases other with
    | none => simp [entryEquals]
    | some b => simp [entryEquals]
  | some a => cases other with
    | none => simp [entryEquals]
    | some b => simpa [entryEquals] using h a rfl b rfl

theorem entriesEqual_iff {these others : List (Option ℕ)}
    (h : ∀ a, some a ∈ these → ∀ b, some b ∈ others → (equals a b = true ↔ t a = t b)) :
    (these.length = others.length && entriesEqual equals these others) = true ↔
      these.map (Option.map t) = others.map (Option.map t) := by
  induction these generalizing others with
  | nil => cases others with
    | nil => simp [entriesEqual]
    | cons other others => simp
  | cons this these ih => cases others with
    | nil => simp
    | cons other others =>
        have hentry : entryEquals equals this other = true ↔ this.map t = other.map t :=
          entryEquals_iff fun a ha b hb => h a (ha ▸ List.mem_cons_self) b (hb ▸ List.mem_cons_self)
        have hrest := ih fun a ha b hb => h a (List.mem_cons_of_mem _ ha) b (List.mem_cons_of_mem _ hb)
        rw [Bool.and_eq_true, decide_eq_true_eq] at hrest
        simp only [entriesEqual, List.length_cons, Nat.add_right_cancel_iff, Bool.and_eq_true,
          decide_eq_true_eq, List.map_cons, List.cons_eq_cons, hentry, ← hrest]
        tauto

theorem rowEquals_iff {row other : Option (List (Option ℕ))}
    (h : ∀ es ∈ row, ∀ es' ∈ other, ∀ a, some a ∈ es → ∀ b, some b ∈ es' →
      (equals a b = true ↔ t a = t b)) :
    rowEquals equals row other = true ↔
      row.map (List.map (Option.map t)) = other.map (List.map (Option.map t)) := by
  cases row with
  | none => cases other with
    | none => simp [rowEquals]
    | some b => simp [rowEquals]
  | some es => cases other with
    | none => simp [rowEquals]
    | some es' =>
        rw [Option.map_some, Option.map_some, Option.some_inj]
        exact entriesEqual_iff (h es rfl es' rfl)

theorem rowsEqual_iff {these others : List (Option (List (Option ℕ)))}
    (h : ∀ es, some es ∈ these → ∀ es', some es' ∈ others → ∀ a, some a ∈ es → ∀ b, some b ∈ es' →
      (equals a b = true ↔ t a = t b)) :
    (these.length = others.length && rowsEqual equals these others) = true ↔
      these.map (Option.map (List.map (Option.map t))) =
        others.map (Option.map (List.map (Option.map t))) := by
  induction these generalizing others with
  | nil => cases others with
    | nil => simp [rowsEqual]
    | cons other others => simp
  | cons this these ih => cases others with
    | nil => simp
    | cons other others =>
        have hrow : rowEquals equals this other = true ↔
            this.map (List.map (Option.map t)) = other.map (List.map (Option.map t)) :=
          rowEquals_iff fun es hes es' hes' =>
            h es (hes ▸ List.mem_cons_self) es' (hes' ▸ List.mem_cons_self)
        have hrest := ih fun es hes es' hes' =>
          h es (List.mem_cons_of_mem _ hes) es' (List.mem_cons_of_mem _ hes')
        rw [Bool.and_eq_true, decide_eq_true_eq] at hrest
        simp only [rowsEqual, List.length_cons, Nat.add_right_cancel_iff, Bool.and_eq_true,
          decide_eq_true_eq, List.map_cons, List.cons_eq_cons, hrow, ← hrest]
        tauto

variable {f g : ℕ → ℕ → Bool}

theorem entriesEqual_congr {these : List (Option ℕ)} (h : ∀ a, some a ∈ these → f a = g a)
    (others : List (Option ℕ)) : entriesEqual f these others = entriesEqual g these others := by
  induction these generalizing others with
  | nil => rfl
  | cons this these ih => cases others with
    | nil => rfl
    | cons other others =>
        have hentry : entryEquals f this other = entryEquals g this other := by
          cases this with
          | none => rfl
          | some a => cases other with
            | none => rfl
            | some b => exact congrFun (h a List.mem_cons_self) b
        rw [entriesEqual, entriesEqual, hentry, ih fun a ha => h a (List.mem_cons_of_mem _ ha)]

theorem rowsEqual_congr {these : List (Option (List (Option ℕ)))}
    (h : ∀ es, some es ∈ these → ∀ a, some a ∈ es → f a = g a)
    (others : List (Option (List (Option ℕ)))) : rowsEqual f these others = rowsEqual g these others := by
  induction these generalizing others with
  | nil => rfl
  | cons this these ih => cases others with
    | nil => rfl
    | cons other others =>
        have hrow : rowEquals f this other = rowEquals g this other := by
          cases this with
          | none => cases other with
            | none | some => rfl
          | some es => cases other with
            | none => rfl
            | some es' => rw [rowEquals, rowEquals, entriesEqual_congr (h es List.mem_cons_self)]
        rw [rowsEqual, rowsEqual, hrow, ih fun es hes => h es (List.mem_cons_of_mem _ hes)]

variable [DecidableEq L]

theorem earlier_equalsStep (hash : HashFields) : Earlier (v.equalsStep hash) := by
  intro n f g hfg
  have hparts : ∀ m ∈ (v.value n).parts, f m = g m := fun m hm => hfg m (v.older n m hm)
  funext other
  have hvalues : valueEquals f (v.value n) (v.value other) =
      valueEquals g (v.value n) (v.value other) := by
    cases hn : v.value n with
    | null | leaf l => cases v.value other <;> rfl
    | parsed p =>
        cases v.value other with
        | parsed q => exact congrFun (hparts p (mem_parts_parsed hn)) q
        | null | leaf | array | arrays => rfl
    | array this entries =>
        cases v.value other with
        | array this' others =>
            rw [valueEquals, valueEquals,
              entriesEqual_congr fun a ha => hparts a (mem_parts_array hn ha)]
        | null | leaf | parsed | arrays => rfl
    | arrays this rows =>
        cases v.value other with
        | arrays this' others =>
            rw [valueEquals, valueEquals,
              rowsEqual_congr fun es hes a ha => hparts a (mem_parts_arrays hn hes ha)]
        | null | leaf | parsed | array => rfl
  rw [equalsStep, equalsStep, hvalues]

/-- **`equals` compares trees** in which each object is marked with its field `hash`. -/
theorem equals_iff (hash : HashFields) (x y : ℕ) :
    v.equals hash x y = true ↔ v.tree hash x = v.tree hash y := by
  induction x using Nat.strong_induction_on generalizing y with
  | _ x ih =>
      have hparts : ∀ a ∈ (v.value x).parts, ∀ b,
          (v.equals hash a b = true ↔ v.tree hash a = v.tree hash b) :=
        fun a ha b => ih a (v.older x a ha) b
      have heq : v.equals hash x y = v.equalsStep hash (v.equals hash) x y :=
        congrFun (fixAt_eq (earlier_equalsStep hash) x) y
      rw [heq, equalsStep]
      split
      next hsame => simp [hsame]
      next =>
        split
        next hne =>
          have hmark : v.tree hash x ≠ v.tree hash y := by
            intro htree
            exact hne (by rw [← mark_tree hash x, htree, mark_tree])
          simp [hmark]
        next hmark =>
          rw [not_not] at hmark
          rw [tree_eq, tree_eq hash y]
          cases hx : v.value x with
          | null | leaf l => cases hy : v.value y with
            | null | leaf | parsed | array | arrays => simp [valueEquals, treeStep, hx, hy, hmark]
          | parsed p => cases hy : v.value y with
            | parsed q =>
                simpa [valueEquals, treeStep, hx, hy, hmark] using
                  hparts p (mem_parts_parsed hx) q
            | null | leaf | array | arrays => simp [valueEquals, treeStep, hx, hy]
          | array this entries => cases hy : v.value y with
            | array this' others =>
                simp only [valueEquals, treeStep, hx, hy, hmark, ValueTree.array.injEq, true_and]
                exact entriesEqual_iff fun a ha b _ => hparts a (mem_parts_array hx ha) b
            | null | leaf | parsed | arrays => simp [valueEquals, treeStep, hx, hy]
          | arrays this rows => cases hy : v.value y with
            | arrays this' others =>
                simp only [valueEquals, treeStep, hx, hy, hmark, ValueTree.arrays.injEq, true_and]
                exact rowsEqual_iff fun es hes es' _ a ha b _ =>
                  hparts a (mem_parts_arrays hx hes ha) b
            | null | leaf | parsed | array => simp [valueEquals, treeStep, hx, hy]

/-- Whatever the fields are, `equals` is an equivalence. -/
theorem equivalence_equals (hash : HashFields) :
    Equivalence fun x y => v.equals hash x y = true where
  refl x := (equals_iff hash x x).mpr rfl
  symm h := (equals_iff hash _ _).mpr ((equals_iff hash _ _).mp h).symm
  trans h h' := (equals_iff hash _ _).mpr
    (((equals_iff hash _ _).mp h).trans ((equals_iff hash _ _).mp h'))

end Equals

end ParsedValues

end JavaFx.Css
