import JavaFx.Css.ParsedValueTrees
import Mathlib.Order.Basic
import Mathlib.Order.Nat

/-!
# `hashCode` and its effect on `equals`

A call of `hashCode` fills the field of the value and those of the values that its hash is made of.
With no row that is `null` it answers the same in every state, so after any calls a field either
holds this answer or `Integer.MIN_VALUE`. Two objects that stand for the same tree are equal until
one of them has been hashed and the other has not.
-/

namespace JavaFx.Css.ParsedValues

open EarlierFirst

variable {L : Type} {v : ParsedValues L} {hashCode f g : ℕ → Call} {n p : ℕ}
  {hash : HashFields}

/-! ## The hash code as a sum -/

/-- The values whose hash codes make up that of a parsed value. -/
def terms (v : ParsedValues L) (n : ℕ) : List (FieldValue L) :=
  match v.value n with
  | .arrays _ rows => rows.reduceOption.flatten.map v.entryValue
  | .array _ entries => v.entryValues entries
  | value => [value]

def termHash (v : ParsedValues L) (hashOf : ℕ → BitVec 32) : FieldValue L → BitVec 32
  | .null => 0
  | .leaf l => v.leafHash l
  | .parsed p => hashOf p
  | .array this _ => v.identityHash this
  | .arrays this _ => v.identityHash this

def hashOfStep (v : ParsedValues L) (hashOf : ℕ → BitVec 32) (n : ℕ) : BitVec 32 :=
  (v.terms n).foldl (fun sum value => 37 * sum + v.termHash hashOf value) 17

/-- The hash code of a parsed value. -/
def hashOf (v : ParsedValues L) : ℕ → BitVec 32 := fixAt v.hashOfStep 0

theorem within_entryValue {entry : Option ℕ} (h : v.entryValue entry = .parsed p)
    (hentry : ∀ m ∈ entry, m ∈ (v.value n).parts) : p < n ∧ v.Within n p := by
  cases entry with
  | none => cases h
  | some m =>
      have hm := hentry m rfl
      have hp : p ∈ (v.value m).parts := mem_parts_parsed h
      exact ⟨lt_trans (v.older m p hp) (v.older n m hm),
        Within.part hm (Within.part hp Relation.ReflTransGen.refl)⟩

/-- The parsed values among the terms are parts, or the only part of a part. -/
theorem within_of_mem_terms (h : .parsed p ∈ v.terms n) : p < n ∧ v.Within n p := by
  rw [terms] at h
  cases hn : v.value n with
  | null =>
      rw [hn] at h
      simp at h
  | leaf l =>
      rw [hn] at h
      simp at h
  | parsed q =>
      rw [hn] at h
      simp only [List.mem_singleton, FieldValue.parsed.injEq] at h
      rw [h]
      have hq := mem_parts_parsed hn
      exact ⟨v.older n q hq, Within.part hq Relation.ReflTransGen.refl⟩
  | array this entries =>
      rw [hn] at h
      obtain ⟨entry, hentry, hvalue⟩ := List.mem_map.mp (List.mem_filter.mp h).1
      exact within_entryValue hvalue fun m hm => mem_parts_array hn (hm ▸ hentry)
  | arrays this rows =>
      rw [hn] at h
      obtain ⟨entry, hentry, hvalue⟩ := List.mem_map.mp h
      obtain ⟨row, hrow, hmem⟩ := List.mem_flatten.mp hentry
      exact within_entryValue hvalue fun m hm =>
        mem_parts_arrays hn (List.reduceOption_mem_iff.mp hrow) (hm ▸ hmem)

theorem earlier_hashOfStep : Earlier v.hashOfStep := by
  intro n f g hfg
  rw [hashOfStep, hashOfStep]
  have hterms : ∀ value ∈ v.terms n, v.termHash f value = v.termHash g value := by
    intro value hvalue
    cases value with
    | parsed p => exact hfg p (within_of_mem_terms hvalue).1
    | null | leaf | array | arrays => rfl
  exact List.foldl_ext _ _ 17 fun sum value hvalue => by rw [hterms value hvalue]

theorem hashOf_eq (n : ℕ) : v.hashOf n = v.hashOfStep v.hashOf n := fixAt_eq earlier_hashOfStep n

/-! ## The equation of `hashCode` -/

theorem addValue_congr {value : FieldValue L} (h : ∀ p, value = .parsed p → f p = g p)
    (hash : HashFields) : v.addValue f n value hash = v.addValue g n value hash := by
  have hcall : v.valueHash f value = v.valueHash g value := by
    cases value with
    | parsed p => exact h p rfl
    | null | leaf | array | arrays => rfl
  rw [addValue, addValue, hcall]

theorem addValues_congr {values : List (FieldValue L)} (h : ∀ p, .parsed p ∈ values → f p = g p)
    (hash : HashFields) : v.addValues f n values hash = v.addValues g n values hash := by
  induction values generalizing hash with
  | nil => rfl
  | cons value values ih =>
      rw [addValues, addValues, addValue_congr fun p hp => h p (hp ▸ List.mem_cons_self)]
      split
      · exact ih (fun p hp => h p (List.mem_cons_of_mem _ hp)) _
      · rfl

theorem addRows_congr {rows : List (Option (List (Option ℕ)))}
    (h : ∀ p, .parsed p ∈ rows.reduceOption.flatten.map v.entryValue → f p = g p)
    (hash : HashFields) : v.addRows f n rows hash = v.addRows g n rows hash := by
  induction rows generalizing hash with
  | nil => rfl
  | cons row rows ih => cases row with
    | none => rfl
    | some row =>
        rw [List.reduceOption_cons_of_some, List.flatten_cons, List.map_append] at h
        rw [addRows, addRows, addValues_congr fun p hp => h p (List.mem_append_left _ hp)]
        split
        · exact ih (fun p hp => h p (List.mem_append_right _ hp)) _
        · rfl

theorem addAll_congr (h : ∀ p < n, f p = g p) (hash : HashFields) :
    v.addAll f n (v.value n) hash = v.addAll g n (v.value n) hash := by
  have hterms : ∀ p, .parsed p ∈ v.terms n → f p = g p :=
    fun p hp => h p (within_of_mem_terms hp).1
  rw [terms] at hterms
  cases hn : v.value n with
  | null | leaf l => rfl
  | parsed p =>
      rw [hn] at hterms
      exact addValue_congr (fun q hq => hterms q (hq ▸ List.mem_singleton_self _)) hash
  | array this entries =>
      rw [hn] at hterms
      exact addValues_congr hterms hash
  | arrays this rows =>
      rw [hn] at hterms
      exact addRows_congr hterms hash

theorem earlier_hashCodeStep : Earlier v.hashCodeStep := by
  intro n f g hfg
  funext hash
  rw [hashCodeStep, hashCodeStep, addAll_congr hfg]

theorem hashCode_eq (n : ℕ) : v.hashCode n = v.hashCodeStep v.hashCode n :=
  fixAt_eq earlier_hashCodeStep n

/-! ## Calls without a row that is `null` -/

/-- No array that a parsed value consists of has a row that is `null`. -/
def NoNullRows (v : ParsedValues L) (n : ℕ) : Prop :=
  ∀ d, v.Within n d → ∀ this rows, v.value d = .arrays this rows → none ∉ rows

theorem NoNullRows.within (h : v.NoNullRows n) {d : ℕ} (hd : v.Within n d) : v.NoNullRows d :=
  fun e he => h e (hd.trans he)

/-- The field has not been filled, or holds the hash code. -/
def Clean (v : ParsedValues L) (hash : HashFields) (m : ℕ) : Prop :=
  hash m = minValue ∨ hash m = v.hashOf m

/-- A call answers the hash code, fills the field, and leaves later objects alone. -/
def Answers (v : ParsedValues L) (n : ℕ) (hash hash' : HashFields) : Prop :=
  v.hashCode n hash = (some (v.hashOf n), hash') ∧ hash' n = v.hashOf n ∧
    (∀ m ≤ n, v.Clean hash' m) ∧ ∀ m, n < m → hash' m = hash m

theorem addValues_spec {values : List (FieldValue L)}
    (hcalls : ∀ p, .parsed p ∈ values → p < n ∧
      ∀ hash, (∀ m ≤ p, v.Clean hash m) → ∃ hash', v.Answers p hash hash')
    (hclean : ∀ m < n, v.Clean hash m) :
    ∃ hash', v.addValues v.hashCode n values hash = (true, hash') ∧
      hash' n = values.foldl (fun sum value => 37 * sum + v.termHash v.hashOf value) (hash n) ∧
      (∀ m < n, v.Clean hash' m) ∧ ∀ m, n < m → hash' m = hash m := by
  induction values generalizing hash with
  | nil => exact ⟨hash, rfl, rfl, hclean, fun _ _ => rfl⟩
  | cons value values ih =>
      -- the call for the first value
      obtain ⟨hash₁, hcall, hclean₁, hlater₁⟩ : ∃ hash₁,
          v.valueHash v.hashCode value hash = (some (v.termHash v.hashOf value), hash₁) ∧
          (∀ m < n, v.Clean hash₁ m) ∧ ∀ m, n ≤ m → hash₁ m = hash m := by
        cases value with
        | parsed p =>
            obtain ⟨hp, hanswers⟩ := hcalls p List.mem_cons_self
            obtain ⟨hash₁, hcall, -, hbelow, habove⟩ :=
              hanswers hash fun m hm => hclean m (lt_of_le_of_lt hm hp)
            refine ⟨hash₁, hcall, fun m hm => ?_, fun m hm => habove m (lt_of_lt_of_le hp hm)⟩
            by_cases hmp : m ≤ p
            · exact hbelow m hmp
            · rw [Clean, habove m (not_le.mp hmp)]
              exact hclean m hm
        | null | leaf | array | arrays => exact ⟨hash, rfl, hclean, fun _ _ => rfl⟩
      -- its hash code is added to the field
      have hadd : v.addValue v.hashCode n value hash = (true, Function.update hash₁ n
          (37 * hash n + v.termHash v.hashOf value)) := by
        rw [addValue, hcall]
      have hadded : ∀ m < n, v.Clean (Function.update hash₁ n
          (37 * hash n + v.termHash v.hashOf value)) m := by
        intro m hm
        rw [Clean, Function.update_of_ne (ne_of_lt hm)]
        exact hclean₁ m hm
      obtain ⟨hash', hrest, hsum, hbelow, habove⟩ :=
        ih (fun p hp => hcalls p (List.mem_cons_of_mem _ hp)) hadded
      refine ⟨hash', ?_, ?_, hbelow, fun m hm => ?_⟩
      · rw [addValues, hadd]
        exact hrest
      · rw [hsum, Function.update_self, List.foldl_cons]
      · rw [habove m hm, Function.update_of_ne (ne_of_gt hm), hlater₁ m (le_of_lt hm)]

theorem addValues_append (values values' : List (FieldValue L)) (hash : HashFields) :
    v.addValues hashCode n (values ++ values') hash =
      match v.addValues hashCode n values hash with
      | (true, hash) => v.addValues hashCode n values' hash
      | (false, hash) => (false, hash) := by
  induction values generalizing hash with
  | nil => rfl
  | cons value values ih =>
      rw [List.cons_append, addValues, addValues]
      cases v.addValue hashCode n value hash with
      | mk ok hash' => cases ok with
        | true => exact ih hash'
        | false => rfl

/-- Rows that are there are read one after the other. -/
theorem addRows_eq {rows : List (Option (List (Option ℕ)))} (h : none ∉ rows) (hash : HashFields) :
    v.addRows hashCode n rows hash =
      v.addValues hashCode n (rows.reduceOption.flatten.map v.entryValue) hash := by
  induction rows generalizing hash with
  | nil => rfl
  | cons row rows ih => cases row with
    | none => exact absurd List.mem_cons_self h
    | some row =>
        rw [List.reduceOption_cons_of_some, List.flatten_cons, List.map_append, addValues_append,
          addRows]
        cases v.addValues hashCode n (row.map v.entryValue) hash with
        | mk ok hash' => cases ok with
          | true => exact ih (fun hmem => h (List.mem_cons_of_mem _ hmem)) hash'
          | false => rfl

/-- The length of a row that is `null` throws. -/
theorem addRows_of_null {rows : List (Option (List (Option ℕ)))} (h : none ∈ rows)
    (hash : HashFields) : (v.addRows hashCode n rows hash).1 = false := by
  induction rows generalizing hash with
  | nil => cases h
  | cons row rows ih => cases row with
    | none => rfl
    | some row =>
        have hmem : none ∈ rows := by simpa using h
        rw [addRows]
        split
        · exact ih hmem _
        · rfl

theorem addAll_eq (h : v.NoNullRows n) (hash : HashFields) :
    v.addAll hashCode n (v.value n) hash = v.addValues hashCode n (v.terms n) hash := by
  have hsingle : ∀ value, v.addValue hashCode n value hash = v.addValues hashCode n [value] hash := by
    intro value
    rw [addValues]
    cases v.addValue hashCode n value hash with
    | mk ok hash' => cases ok with
      | true | false => rfl
  rw [terms]
  cases hn : v.value n with
  | null => exact hsingle .null
  | leaf l => exact hsingle (.leaf l)
  | parsed p => exact hsingle (.parsed p)
  | array this entries => rfl
  | arrays this rows => exact addRows_eq (h n Relation.ReflTransGen.refl this rows hn) hash

/-- **A call of `hashCode`** where no row is `null`. -/
theorem exists_answers (h : v.NoNullRows n) (hclean : ∀ m ≤ n, v.Clean hash m) :
    ∃ hash', v.Answers n hash hash' := by
  induction n using Nat.strong_induction_on generalizing hash with
  | _ n ih =>
      have heq : v.hashCode n hash = v.hashCodeStep v.hashCode n hash := by rw [← hashCode_eq]
      rw [hashCodeStep] at heq
      by_cases hfilled : hash n = minValue
      · rw [if_pos hfilled, addAll_eq h] at heq
        have hcalls : ∀ p, .parsed p ∈ v.terms n → p < n ∧
            ∀ hash, (∀ m ≤ p, v.Clean hash m) → ∃ hash', v.Answers p hash hash' := by
          intro p hp
          obtain ⟨hlt, hwithin⟩ := within_of_mem_terms hp
          exact ⟨hlt, fun hash => ih p hlt (h.within hwithin)⟩
        have hstart : ∀ m < n, v.Clean (Function.update hash n 17) m := by
          intro m hm
          rw [Clean, Function.update_of_ne (ne_of_lt hm)]
          exact hclean m (le_of_lt hm)
        obtain ⟨hash', hadd, hsum, hbelow, habove⟩ := addValues_spec hcalls hstart
        have hself : hash' n = v.hashOf n := by
          rw [hsum, Function.update_self, hashOf_eq, hashOfStep]
        have hanswer : v.hashCode n hash = (some (hash' n), hash') := by
          rw [heq, hadd]
        refine ⟨hash', by rw [hanswer, hself], hself, fun m hm => ?_, fun m hm => ?_⟩
        · rcases lt_or_eq_of_le hm with hlt | rfl
          · exact hbelow m hlt
          · exact Or.inr hself
        · rw [habove m hm, Function.update_of_ne (ne_of_gt hm)]
      · have hself : hash n = v.hashOf n := (hclean n le_rfl).resolve_left hfilled
        rw [if_neg hfilled] at heq
        exact ⟨hash, by rw [heq, hself], hself, hclean, fun _ _ => rfl⟩

/-- A value with a row that is `null` cannot be hashed for the first time. -/
theorem hashCode_of_null {this : ℕ} {rows : List (Option (List (Option ℕ)))}
    (hn : v.value n = .arrays this rows) (hnull : none ∈ rows) :
    (v.hashCode n .fresh).1 = none := by
  have hfresh : HashFields.fresh n = minValue := rfl
  rw [hashCode_eq, hashCodeStep, if_pos hfresh, hn]
  have hthrows : (v.addRows v.hashCode n rows (Function.update HashFields.fresh n 17)).1 = false :=
    addRows_of_null hnull _
  rw [addAll]
  split
  next hash' heq =>
    rw [heq] at hthrows
    cases hthrows
  next => rfl

/-! ## Lawful pairs -/

/-- The fields after calls for parts of two values. -/
def Reached (v : ParsedValues L) (x y : ℕ) (hash : HashFields) : Prop :=
  ∃ calls, (∀ m ∈ calls, v.Within x m ∨ v.Within y m) ∧ hash = v.afterCalls calls

theorem Reached.clean {x y : ℕ} (hx : v.NoNullRows x) (hy : v.NoNullRows y)
    (h : v.Reached x y hash) (m : ℕ) : v.Clean hash m := by
  obtain ⟨calls, hcalls, rfl⟩ := h
  have hrun : ∀ hash, (∀ m, v.Clean hash m) →
      ∀ m, v.Clean (calls.foldl (fun hash n => (v.hashCode n hash).2) hash) m := by
    induction calls with
    | nil => exact fun hash hclean => hclean
    | cons n calls ih =>
        intro hash hclean
        refine ih (fun m hm => hcalls m (List.mem_cons_of_mem n hm)) _ fun m => ?_
        have hn : v.NoNullRows n := by
          rcases hcalls n List.mem_cons_self with hwithin | hwithin
          · exact hx.within hwithin
          · exact hy.within hwithin
        obtain ⟨hash', hcall, -, hbelow, habove⟩ := exists_answers hn fun m _ => hclean m
        simp only [hcall]
        by_cases hm : m ≤ n
        · exact hbelow m hm
        · rw [Clean, habove m (not_le.mp hm)]
          exact hclean m
  exact hrun .fresh (fun m => Or.inl rfl) m

/-- The trees of scalars are the same. -/
def SameTree (v : ParsedValues L) (x y : ℕ) : Prop :=
  v.tree (fun _ => ()) x = v.tree (fun _ => ()) y

/-- What tells two objects apart that are hashed at different times: the object itself, unless its
hash code is that of a field that has not been filled. -/
def stamp (v : ParsedValues L) (n : ℕ) : Option ℕ :=
  if v.hashOf n = minValue then none else some n

theorem eq_or_min_of_stamp {a b : ℕ} (h : v.stamp a = v.stamp b) :
    a = b ∨ v.hashOf a = minValue ∧ v.hashOf b = minValue := by
  rw [stamp, stamp] at h
  split at h
  next ha =>
    split at h
    next hb => exact Or.inr ⟨ha, hb⟩
    next => cases h
  next =>
    split at h
    next => cases h
    next => exact Or.inl (Option.some_inj.mp h)

/-- **No call comes between objects** with the same stamps. -/
theorem sameFields_of_stamp {x y : ℕ} (hx : v.NoNullRows x) (hy : v.NoNullRows y)
    (h : v.Reached x y hash) {a b : ℕ} (hstamp : v.stamp a = v.stamp b) : hash a = hash b := by
  rcases eq_or_min_of_stamp hstamp with rfl | ⟨ha, hb⟩
  · rfl
  · have hmin : ∀ m, v.hashOf m = minValue → hash m = minValue := fun m hm =>
      (h.clean hx hy m).elim id fun heq => heq.trans hm
    rw [hmin a ha, hmin b hb]

theorem reached_fresh {x y : ℕ} : v.Reached x y .fresh := ⟨[], by simp, rfl⟩

/-- A call for the later of two objects tells them apart, and so does one for the earlier. -/
theorem min_of_sameFields {x y : ℕ} (hx : v.NoNullRows x) (hy : v.NoNullRows y) {a b : ℕ}
    (ha : v.Within x a ∨ v.Within y a) (hb : v.Within x b ∨ v.Within y b) (hlt : a < b)
    (h : ∀ hash, v.Reached x y hash → hash a = hash b) :
    v.hashOf a = minValue ∧ v.hashOf b = minValue := by
  have hrows : ∀ m, v.Within x m ∨ v.Within y m → v.NoNullRows m := fun m hm =>
    hm.elim (fun hm => hx.within hm) fun hm => hy.within hm
  have hcall : ∀ m, v.Within x m ∨ v.Within y m → ∃ hash', v.Answers m .fresh hash' ∧
      v.Reached x y hash' := by
    intro m hm
    have hfresh : ∀ k ≤ m, v.Clean .fresh k := fun _ _ => Or.inl rfl
    obtain ⟨hash', hanswers⟩ := exists_answers (hrows m hm) hfresh
    refine ⟨hash', hanswers, [m], fun k hk => List.mem_singleton.mp hk ▸ hm, ?_⟩
    rw [afterCalls, List.foldl_cons, List.foldl_nil, hanswers.1]
  obtain ⟨hash₁, ⟨-, hself₁, -, hlater₁⟩, hreached₁⟩ := hcall a ha
  obtain ⟨hash₂, ⟨-, hself₂, hclean₂, -⟩, hreached₂⟩ := hcall b hb
  have hfirst : v.hashOf a = minValue := by
    rw [← hself₁, h hash₁ hreached₁, hlater₁ b hlt]
    rfl
  refine ⟨hfirst, ?_⟩
  rw [← hself₂, ← h hash₂ hreached₂]
  exact (hclean₂ a (le_of_lt hlt)).elim id fun heq => heq.trans hfirst

section Lawful

variable [DecidableEq L]

/-- Whatever calls of `hashCode` came before: no call for a part throws, `equals` answers whether
the trees are the same, and equal values have the same hash code. -/
structure Lawful (v : ParsedValues L) (x y : ℕ) : Prop where
  total : ∀ hash, v.Reached x y hash → ∀ m, v.Within x m ∨ v.Within y m →
    (v.hashCode m hash).1 ≠ none
  equals_iff : ∀ hash, v.Reached x y hash → (v.equals hash x y = true ↔ v.SameTree x y)
  hash_eq : ∀ hash, v.Reached x y hash → v.equals hash x y = true →
    (v.hashCode x hash).1 = (v.hashCode y (v.hashCode x hash).2).1

/-- **Lawful pairs.** In every state `equals` is an equivalence. It is lawful for two values, over
all calls of `hashCode` for their parts, if and only if no array in them has a row that is `null`,
and two values with the same tree consist of the same objects at the same places, except where the
hash codes are `Integer.MIN_VALUE`. -/
theorem equals_lawful_iff (v : ParsedValues L) :
    (∀ hash, Equivalence fun x y => v.equals hash x y = true) ∧
    ∀ x y, v.Lawful x y ↔ v.NoNullRows x ∧ v.NoNullRows y ∧
      (v.SameTree x y → v.tree v.stamp x = v.tree v.stamp y) := by
  refine ⟨equivalence_equals, fun x y => ⟨fun h => ?_, ?_⟩⟩
  · have hrows : ∀ n, (∀ d, v.Within n d → v.Within x d ∨ v.Within y d) → v.NoNullRows n := by
      intro n hn d hd this rows hvalue hnull
      exact h.total _ reached_fresh d (hn d hd) (hashCode_of_null hvalue hnull)
    have hx := hrows x fun d hd => Or.inl hd
    have hy := hrows y fun d hd => Or.inr hd
    refine ⟨hx, hy, fun hsame => ?_⟩
    have : Nonempty { hash // v.Reached x y hash } := ⟨⟨_, reached_fresh⟩⟩
    have hall : ∀ hash : { hash // v.Reached x y hash }, v.tree hash.1 x = v.tree hash.1 y :=
      fun hash => (equals_iff hash.1 x y).mp ((h.equals_iff hash.1 hash.2).mpr hsame)
    refine tree_mono ?_ hall
    intro a b ha hb hfields
    have hfields' : ∀ hash, v.Reached x y hash → hash a = hash b := fun hash hr => hfields ⟨hash, hr⟩
    rcases lt_trichotomy a b with hlt | rfl | hlt
    · obtain ⟨hmin, hmin'⟩ := min_of_sameFields hx hy (Or.inl ha) (Or.inr hb) hlt hfields'
      rw [stamp, stamp, if_pos hmin, if_pos hmin']
    · rfl
    · obtain ⟨hmin, hmin'⟩ := min_of_sameFields hx hy (Or.inr hb) (Or.inl ha) hlt
        fun hash hr => (hfields' hash hr).symm
      rw [stamp, stamp, if_pos hmin, if_pos hmin']
  · rintro ⟨hx, hy, hstamp⟩
    have hequals : ∀ hash, v.Reached x y hash → (v.equals hash x y = true ↔ v.SameTree x y) := by
      intro hash hreached
      rw [equals_iff]
      constructor
      · intro htree
        exact tree_mono (ι := Unit) (fun _ _ _ _ _ => rfl) fun _ => htree
      · intro hsame
        exact tree_mono (ι := Unit) (fun a b _ _ hab => sameFields_of_stamp hx hy hreached (hab ()))
          fun _ => hstamp hsame
    refine ⟨fun hash hreached m hm => ?_, hequals, fun hash hreached heq => ?_⟩
    · have hm' : v.NoNullRows m := hm.elim (fun hm => hx.within hm) fun hm => hy.within hm
      obtain ⟨hash', hcall, -⟩ := exists_answers hm' fun k _ => hreached.clean hx hy k
      rw [hcall]
      exact Option.some_ne_none _
    · have hroots : v.stamp x = v.stamp y := by
        rw [← mark_tree v.stamp x, hstamp ((hequals hash hreached).mp heq), mark_tree]
      have hcodes : v.hashOf x = v.hashOf y := by
        rcases eq_or_min_of_stamp hroots with rfl | ⟨hmin, hmin'⟩
        · rfl
        · rw [hmin, hmin']
      have hclean := hreached.clean hx hy
      obtain ⟨hash₁, hcall₁, -, hbelow, habove⟩ := exists_answers hx fun k _ => hclean k
      have hclean₁ : ∀ m, v.Clean hash₁ m := by
        intro m
        by_cases hm : m ≤ x
        · exact hbelow m hm
        · rw [Clean, habove m (not_le.mp hm)]
          exact hclean m
      obtain ⟨hash₂, hcall₂, -⟩ := exists_answers hy fun k _ => hclean₁ k
      rw [hcall₁, hcall₂, hcodes]

end Lawful

/-- Two values with the same scalar. -/
def twoScalars : ParsedValues ℕ where
  value _ := .leaf 5
  older _ _ hm := absurd hm List.not_mem_nil
  leafHash l := BitVec.ofNat 32 l
  identityHash _ := 0

/-- They are equal until `hashCode` is called for one of them. -/
theorem equal_until_hashed : twoScalars.SameTree 0 1 ∧
    twoScalars.equals .fresh 0 1 = true ∧ (twoScalars.hashCode 0 .fresh).1 = some 634 ∧
    twoScalars.equals (twoScalars.afterCalls [0]) 0 1 = false := by
  refine ⟨rfl, ?_, ?_, ?_⟩
  · decide +kernel
  · decide +kernel
  · decide +kernel

end JavaFx.Css.ParsedValues
