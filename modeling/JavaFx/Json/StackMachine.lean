import JavaFx.Json.Grammar
import JavaFx.Json.JSONStreamReader

/-!
# The stack of symbols reads the values

One round of the loop of `next()` takes a symbol off the stack: a marker, a symbol with a
transition for the token ahead, or a token, which the next one then replaces. `Run` is some
rounds, with what they tell. A value on the stack reads exactly its tokens: from the tokens one
gets the run (`JSONTree.reads`). In the other direction a run is read from its end: `Works` says
what each symbol has read once it has been worked off, and every round keeps that.
-/

namespace JavaFx.Json

open JSONSymbol

/-- The stack, the token ahead and the text after it. -/
structure Config where
  stack : List JSONSymbol
  tok : Token
  rest : JString

/-- What is told when a marker comes off the stack. -/
def markerTold : JSONSymbol → List Told
  | O_ => [.endObject]
  | OV_ => [.endValue]
  | A_ => [.endArray]
  | VA_ => [.endArrayElement]
  | _ => []

/-- What is told when a symbol is replaced by what it stands for. -/
def expandTold : JSONSymbol → List Told
  | X => [.startDocument]
  | O => [.startObject]
  | A => [.startArray]
  | VA => [.startArrayElement]
  | _ => []

/-- The number that the scanner has read last, at a token behind the number `n`. -/
def Token.lastNumber : Token → Number → Number
  | .number n', _ => n'
  | _, n => n

theorem Token.lastNumber_of_ne {tok : Token} (h : tok.symbol ≠ NUMBER) (n : Number) :
    tok.lastNumber n = n := by
  cases tok <;> first | rfl | exact absurd rfl h

/-- What is told of a token that the second one follows: whether a number is an integer is asked
when the scanner has read on. -/
def tokenTold : Token → Token → List Told
  | .keyword k, _ => [.keyword k]
  | .string s, _ => [.string s]
  | .number n, tok' =>
      [if (tok'.lastNumber n).isInt then .integer n.text else .number n.text]
  | _, _ => []

theorem tokenTold_number {tok' : Token} (h : tok'.symbol ≠ NUMBER) (n : Number) :
    tokenTold (.number n) tok' = [JSONTree.toldNumber n] := by
  rw [tokenTold, Token.lastNumber_of_ne h, JSONTree.toldNumber]

/-- One round of the loop. -/
inductive Turn : Config → List Told → Config → Prop where
  | marker {m : JSONSymbol} {st : List JSONSymbol} {tok : Token} {rest : JString} :
      m.isMarker = true → m ≠ X_ → Turn ⟨m :: st, tok, rest⟩ (markerTold m) ⟨st, tok, rest⟩
  | expand {s m : JSONSymbol} {target st : List JSONSymbol} {tok : Token} {rest : JString} :
      s ≠ OV → s.markerSymbol = some m → s.transitions tok.symbol = some target →
      Turn ⟨s :: st, tok, rest⟩ (expandTold s) ⟨target ++ m :: st, tok, rest⟩
  | consume {s : JSONSymbol} {st : List JSONSymbol} {tok tok' : Token} {rest rest' : JString} :
      tok.symbol = s → Lexes rest tok' rest' →
      Turn ⟨s :: st, tok, rest⟩ (tokenTold tok tok') ⟨st, tok', rest'⟩
  | value {st : List JSONSymbol} {key rest rest' : JString} {tok' : Token} :
      Lexes rest tok' rest' →
      Turn ⟨OV :: st, .string key, rest⟩ [.startValue key] ⟨COLON :: V :: OV_ :: st, tok', rest'⟩

/-- So many rounds, and what they tell. -/
inductive Run : ℕ → Config → List Told → Config → Prop where
  | refl (c : Config) : Run 0 c [] c
  | step {k : ℕ} {c c' c'' : Config} {ts ts' : List Told} :
      Turn c ts c' → Run k c' ts' c'' → Run (k + 1) c (ts ++ ts') c''

theorem Run.trans {k k' : ℕ} {c c' c'' : Config} {ts ts' : List Told} (h : Run k c ts c')
    (h' : Run k' c' ts' c'') : Run (k + k') c (ts ++ ts') c'' := by
  induction h with
  | refl c => simpa using h'
  | @step k _ _ _ ts₁ _ hturn _ ih =>
      rw [List.append_assoc, Nat.add_right_comm]
      exact .step hturn (ih h')

/-- There are rounds from one state to the other. -/
def Runs (c : Config) (ts : List Told) (c' : Config) : Prop := ∃ k, Run k c ts c'

theorem Runs.refl (c : Config) : Runs c [] c := ⟨0, .refl c⟩

theorem Runs.step {c c' c'' : Config} {ts ts' : List Told} (h : Turn c ts c')
    (h' : Runs c' ts' c'') : Runs c (ts ++ ts') c'' := by
  obtain ⟨k, h'⟩ := h'
  exact ⟨k + 1, .step h h'⟩

theorem Runs.trans {c c' c'' : Config} {ts ts' : List Told} (h : Runs c ts c')
    (h' : Runs c' ts' c'') : Runs c (ts ++ ts') c'' := by
  obtain ⟨k, h⟩ := h
  obtain ⟨k', h'⟩ := h'
  exact ⟨k + k', h.trans h'⟩

/-- The tokens `toks` are ahead, and after them `tok'` and `rest'`. -/
inductive Ahead : List Token → Token → JString → Token → JString → Prop where
  | nil (tok : Token) (rest : JString) : Ahead [] tok rest tok rest
  | cons {toks : List Token} {tok tok₁ tok' : Token} {rest rest₁ rest' : JString} :
      Lexes rest tok₁ rest₁ → Ahead toks tok₁ rest₁ tok' rest' →
      Ahead (tok :: toks) tok rest tok' rest'

theorem Ahead.append {toks toks' : List Token} {tok tok₁ tok₂ : Token}
    {rest rest₁ rest₂ : JString} (h : Ahead toks tok rest tok₁ rest₁)
    (h' : Ahead toks' tok₁ rest₁ tok₂ rest₂) : Ahead (toks ++ toks') tok rest tok₂ rest₂ := by
  induction h with
  | nil => exact h'
  | cons hlexes _ ih => exact .cons hlexes (ih h')

theorem Ahead.split {toks toks' : List Token} {tok tok₂ : Token} {rest rest₂ : JString}
    (h : Ahead (toks ++ toks') tok rest tok₂ rest₂) :
    ∃ tok₁ rest₁, Ahead toks tok rest tok₁ rest₁ ∧ Ahead toks' tok₁ rest₁ tok₂ rest₂ := by
  induction toks generalizing tok rest with
  | nil => exact ⟨tok, rest, .nil _ _, h⟩
  | cons t toks ih =>
      cases h with
      | cons hlexes h =>
          obtain ⟨tok₁, rest₁, h₁, h₂⟩ := ih h
          exact ⟨tok₁, rest₁, .cons hlexes h₁, h₂⟩

/-- The key, the colon and the value of an entry are ahead. -/
theorem Ahead.split_entry {key : JString} {toks toks' : List Token} {tok tok₂ : Token}
    {rest rest₂ : JString}
    (h : Ahead (.string key :: .colon :: (toks ++ toks')) tok rest tok₂ rest₂) :
    ∃ tok₁ rest₁, Ahead (.string key :: .colon :: toks) tok rest tok₁ rest₁ ∧
      Ahead toks' tok₁ rest₁ tok₂ rest₂ := by
  rw [← List.cons_append, ← List.cons_append] at h
  exact h.split

/-- The tokens of a text are ahead once the first one has been read. -/
theorem ahead_of_lexesAll {t rest rest' : JString} {toks : List Token} {tok : Token}
    (h : LexesAll t toks rest) (hnext : Lexes rest tok rest') :
    ∃ tok₀ rest₀, Lexes t tok₀ rest₀ ∧ Ahead toks tok₀ rest₀ tok rest' := by
  induction h with
  | nil t => exact ⟨tok, rest', hnext, .nil _ _⟩
  | cons hlexes _ ih =>
      obtain ⟨tok₀, rest₀, h₀, h⟩ := ih hnext
      exact ⟨_, _, hlexes, .cons h₀ h⟩

theorem lexesAll_of_ahead {t rest₀ rest' : JString} {toks : List Token} {tok₀ tok : Token}
    (hfirst : Lexes t tok₀ rest₀) (h : Ahead toks tok₀ rest₀ tok rest') :
    ∃ rest, LexesAll t toks rest ∧ Lexes rest tok rest' := by
  induction h generalizing t with
  | nil => exact ⟨t, .nil t, hfirst⟩
  | cons hlexes _ ih =>
      obtain ⟨rest, hall, hnext⟩ := ih hlexes
      exact ⟨rest, .cons hfirst hall, hnext⟩

/-! ## From the tokens to the run -/

/-- The tokens between the brackets of an object. -/
def JSONTree.innerMembers : List (JString × JSONTree) → List Token
  | [] => []
  | (key, v) :: members =>
      .string key :: .colon :: (v.tokens ++ JSONTree.moreMembers members)

/-- The tokens between the brackets of an array. -/
def JSONTree.innerElements : List JSONTree → List Token
  | [] => []
  | v :: elements => v.tokens ++ JSONTree.moreElements elements

theorem JSONTree.tokens_object (members : List (JString × JSONTree)) :
    (JSONTree.object members).tokens =
      .curlyOpen :: (JSONTree.innerMembers members ++ [.curlyClose]) := by
  cases members with
  | nil =>
      rw [JSONTree.tokens]
      rfl
  | cons m members =>
      rw [JSONTree.tokens, JSONTree.innerMembers, List.cons_append, List.cons_append,
        List.append_assoc]

theorem JSONTree.tokens_array (elements : List JSONTree) :
    (JSONTree.array elements).tokens =
      .squareOpen :: (JSONTree.innerElements elements ++ [.squareClose]) := by
  cases elements with
  | nil =>
      rw [JSONTree.tokens]
      rfl
  | cons v elements => rw [JSONTree.tokens, JSONTree.innerElements, List.append_assoc]

section Tokens

variable {st : List JSONSymbol} {tok tok' tok₁ : Token} {rest rest' rest₁ : JString}

theorem Runs.silent {c c' c'' : Config} {ts : List Told} (h : Turn c [] c')
    (h' : Runs c' ts c'') : Runs c ts c'' := Runs.step h h'

/-- The first token of a value is one that values and elements begin with. -/
theorem JSONTree.head_tokens (v : JSONTree) : ∃ t ts, v.tokens = t :: ts ∧
    VA.transitions t.symbol = some [V] ∧ A1.transitions t.symbol = some [VA, A2] := by
  cases v with
  | keyword k | string s | number n => exact ⟨_, _, by rw [JSONTree.tokens], rfl, rfl⟩
  | object members => exact ⟨_, _, JSONTree.tokens_object members, rfl, rfl⟩
  | array elements => exact ⟨_, _, JSONTree.tokens_array elements, rfl, rfl⟩

/-- The value reads its tokens and leaves its marker on the stack; what a number is shows if there
is no other one behind it. -/
def JSONTree.Reads (v : JSONTree) : Prop :=
  ∀ {st : List JSONSymbol} {tok tok' : Token} {rest rest' : JString},
    (v.IsCollection ∨ tok'.symbol ≠ NUMBER) → Ahead v.tokens tok rest tok' rest' →
      Runs ⟨V :: st, tok, rest⟩ v.told ⟨V_ :: st, tok', rest'⟩

/-- After an entry comes a comma or the closing bracket. -/
theorem Ahead.members_symbol {members : List (JString × JSONTree)}
    (h : Ahead (JSONTree.moreMembers members) tok rest .curlyClose rest') :
    tok.symbol ≠ NUMBER := by
  cases members with
  | nil | cons m members =>
      rw [JSONTree.moreMembers] at h
      cases h
      nofun

/-- After an element comes a comma or the closing bracket. -/
theorem Ahead.elements_symbol {elements : List JSONTree}
    (h : Ahead (JSONTree.moreElements elements) tok rest .squareClose rest') :
    tok.symbol ≠ NUMBER := by
  cases elements with
  | nil | cons v elements =>
      rw [JSONTree.moreElements] at h
      cases h
      nofun

/-- A value that is a token. -/
theorem Runs.leaf {t : Token} (ht : V.transitions t.symbol = some [t.symbol])
    (h : Ahead [t] tok rest tok' rest') :
    Runs ⟨V :: st, tok, rest⟩ (tokenTold t tok') ⟨V_ :: st, tok', rest'⟩ := by
  cases h with
  | cons hlexes h =>
      cases h
      have hturn : Turn ⟨tok.symbol :: V_ :: st, tok, rest⟩ (tokenTold tok tok')
          ⟨V_ :: st, tok', rest'⟩ := .consume rfl hlexes
      have hconsume := Runs.step hturn (.refl _)
      rw [List.append_nil] at hconsume
      exact Runs.silent (.expand (by decide) rfl ht) hconsume

/-- An entry of an object. -/
theorem JSONTree.Reads.entry {v : JSONTree} (hv : v.Reads) {key : JString} {c : Config}
    {ts : List Told} (h : Ahead (.string key :: .colon :: v.tokens) tok rest tok' rest')
    (htok' : tok'.symbol ≠ NUMBER) (hnext : Runs ⟨st, tok', rest'⟩ ts c) :
    Runs ⟨OV :: st, tok, rest⟩ (.startValue key :: (v.told ++ .endValue :: ts)) c := by
  cases h with
  | cons hkey h =>
      cases h with
      | cons hcolon h =>
          refine Runs.step (.value hkey) (Runs.silent (.consume (by rfl) hcolon) ?_)
          refine (hv (.inr htok') h).trans (Runs.silent (.marker rfl (by decide)) ?_)
          exact Runs.step (.marker rfl (by decide)) hnext

/-- An element of an array. -/
theorem JSONTree.Reads.element {v : JSONTree} (hv : v.Reads) {c : Config} {ts : List Told}
    (h : Ahead v.tokens tok rest tok' rest') (htok' : tok'.symbol ≠ NUMBER)
    (hnext : Runs ⟨st, tok', rest'⟩ ts c) :
    Runs ⟨VA :: st, tok, rest⟩ (.startArrayElement :: (v.told ++ .endArrayElement :: ts)) c := by
  have hbegins : VA.transitions tok.symbol = some [V] := by
    obtain ⟨t, toks, hv, hVA, -⟩ := v.head_tokens
    rw [hv] at h
    cases h with
    | cons => exact hVA
  refine Runs.step (.expand (by decide) rfl hbegins) ?_
  refine (hv (.inr htok') h).trans (Runs.silent (.marker rfl (by decide)) ?_)
  exact Runs.step (.marker rfl (by decide)) hnext

/-- An object begins with the bracket that a document and a value begin with. -/
theorem Ahead.object_symbol {members : List (JString × JSONTree)}
    (h : Ahead (JSONTree.object members).tokens tok rest tok' rest') :
    X.transitions tok.symbol = some [O] ∧ V.transitions tok.symbol = some [O] := by
  rw [JSONTree.tokens_object] at h
  cases h
  exact ⟨rfl, rfl⟩

theorem Ahead.array_symbol {elements : List JSONTree}
    (h : Ahead (JSONTree.array elements).tokens tok rest tok' rest') :
    X.transitions tok.symbol = some [A] ∧ V.transitions tok.symbol = some [A] := by
  rw [JSONTree.tokens_array] at h
  cases h
  exact ⟨rfl, rfl⟩

/-- An object, if its members are read. -/
theorem Runs.object {members : List (JString × JSONTree)}
    (hmembers : ∀ {st : List JSONSymbol} {tok : Token} {rest rest' : JString},
      Ahead (JSONTree.innerMembers members) tok rest .curlyClose rest' →
      Runs ⟨O1 :: st, tok, rest⟩ (JSONTree.toldMembers members) ⟨st, .curlyClose, rest'⟩)
    (h : Ahead (JSONTree.object members).tokens tok rest tok' rest') :
    Runs ⟨O :: st, tok, rest⟩ (JSONTree.object members).told ⟨st, tok', rest'⟩ := by
  rw [JSONTree.tokens_object] at h
  rw [JSONTree.told]
  cases h with
  | cons hopen h =>
      obtain ⟨tok₁, rest₁, hinner, h⟩ := h.split
      cases h with
      | cons hclose h =>
          cases h
          refine Runs.step (.expand (by decide) rfl rfl)
            (Runs.silent (.consume (by rfl) hopen) ?_)
          refine (hmembers hinner).trans (Runs.silent (.consume (by rfl) hclose) ?_)
          exact Runs.step (.marker rfl (by decide)) (.refl _)

/-- An array, if its elements are read. -/
theorem Runs.array {elements : List JSONTree}
    (helements : ∀ {st : List JSONSymbol} {tok : Token} {rest rest' : JString},
      Ahead (JSONTree.innerElements elements) tok rest .squareClose rest' →
      Runs ⟨A1 :: st, tok, rest⟩ (JSONTree.toldElements elements) ⟨st, .squareClose, rest'⟩)
    (h : Ahead (JSONTree.array elements).tokens tok rest tok' rest') :
    Runs ⟨A :: st, tok, rest⟩ (JSONTree.array elements).told ⟨st, tok', rest'⟩ := by
  rw [JSONTree.tokens_array] at h
  rw [JSONTree.told]
  cases h with
  | cons hopen h =>
      obtain ⟨tok₁, rest₁, hinner, h⟩ := h.split
      cases h with
      | cons hclose h =>
          cases h
          refine Runs.step (.expand (by decide) rfl rfl)
            (Runs.silent (.consume (by rfl) hopen) ?_)
          refine (helements hinner).trans (Runs.silent (.consume (by rfl) hclose) ?_)
          exact Runs.step (.marker rfl (by decide)) (.refl _)

mutual

/-- **A value on the stack reads its tokens.** -/
theorem JSONTree.reads (v : JSONTree) : v.Reads := by
  intro st tok tok' rest rest' htok' h
  match v with
  | .keyword k | .string s =>
      rw [JSONTree.tokens] at h
      rw [JSONTree.told]
      exact Runs.leaf rfl h
  | .number n =>
      rw [JSONTree.tokens] at h
      rw [JSONTree.told, ← tokenTold_number (htok'.resolve_left not_false)]
      exact Runs.leaf rfl h
  | .object members =>
      refine Runs.silent (.expand (by decide) rfl (Ahead.object_symbol h).2) ?_
      exact Runs.object (JSONTree.reads_inner_members members) h
  | .array elements =>
      refine Runs.silent (.expand (by decide) rfl (Ahead.array_symbol h).2) ?_
      exact Runs.array (JSONTree.reads_inner_elements elements) h

/-- The members of an object, up to the closing bracket. -/
theorem JSONTree.reads_inner_members (members : List (JString × JSONTree))
    {st : List JSONSymbol} {tok : Token} {rest rest' : JString}
    (h : Ahead (JSONTree.innerMembers members) tok rest .curlyClose rest') :
    Runs ⟨O1 :: st, tok, rest⟩ (JSONTree.toldMembers members) ⟨st, .curlyClose, rest'⟩ := by
  match members with
  | [] =>
      rw [JSONTree.innerMembers] at h
      rw [JSONTree.toldMembers]
      cases h
      exact Runs.silent (.expand (by decide) rfl rfl)
        (Runs.silent (.marker rfl (by decide)) (.refl _))
  | (key, v) :: members =>
      rw [JSONTree.innerMembers] at h
      rw [JSONTree.toldMembers]
      obtain ⟨tok₁, rest₁, hentry, hmore⟩ := Ahead.split_entry h
      have hexpand : O1.transitions tok.symbol = some [OV, O3] := by
        cases h
        rfl
      refine Runs.silent (.expand (by decide) rfl hexpand) ?_
      refine JSONTree.Reads.entry (JSONTree.reads v) hentry hmore.members_symbol ?_
      have hrest := @JSONTree.reads_members members (O1_ :: st) _ _ _ hmore
      simpa using hrest.trans (Runs.silent (.marker rfl (by decide)) (.refl _))

/-- The members after the first one, up to the closing bracket. -/
theorem JSONTree.reads_members (members : List (JString × JSONTree)) {st : List JSONSymbol}
    {tok : Token} {rest rest' : JString}
    (h : Ahead (JSONTree.moreMembers members) tok rest .curlyClose rest') :
    Runs ⟨O3 :: st, tok, rest⟩ (JSONTree.toldMembers members) ⟨st, .curlyClose, rest'⟩ := by
  match members with
  | [] =>
      rw [JSONTree.moreMembers] at h
      rw [JSONTree.toldMembers]
      cases h
      exact Runs.silent (.expand (by decide) rfl rfl)
        (Runs.silent (.marker rfl (by decide)) (.refl _))
  | (key, v) :: members =>
      rw [JSONTree.moreMembers] at h
      rw [JSONTree.toldMembers]
      cases h with
      | cons hcomma h =>
          obtain ⟨tok₁, rest₁, hentry, hmore⟩ := Ahead.split_entry h
          refine Runs.silent (.expand (by decide) rfl rfl)
            (Runs.silent (.consume (by rfl) hcomma) ?_)
          refine JSONTree.Reads.entry (JSONTree.reads v) hentry hmore.members_symbol ?_
          have hrest := @JSONTree.reads_members members (O3_ :: st) _ _ _ hmore
          simpa using hrest.trans (Runs.silent (.marker rfl (by decide)) (.refl _))

/-- The elements of an array, up to the closing bracket. -/
theorem JSONTree.reads_inner_elements (elements : List JSONTree) {st : List JSONSymbol}
    {tok : Token} {rest rest' : JString}
    (h : Ahead (JSONTree.innerElements elements) tok rest .squareClose rest') :
    Runs ⟨A1 :: st, tok, rest⟩ (JSONTree.toldElements elements) ⟨st, .squareClose, rest'⟩ := by
  match elements with
  | [] =>
      rw [JSONTree.innerElements] at h
      rw [JSONTree.toldElements]
      cases h
      exact Runs.silent (.expand (by decide) rfl rfl)
        (Runs.silent (.marker rfl (by decide)) (.refl _))
  | v :: elements =>
      rw [JSONTree.innerElements] at h
      rw [JSONTree.toldElements]
      obtain ⟨tok₁, rest₁, helement, hmore⟩ := h.split
      have hexpand : A1.transitions tok.symbol = some [VA, A2] := by
        obtain ⟨t, toks, hv, -, hA1⟩ := v.head_tokens
        rw [hv] at helement
        cases helement
        exact hA1
      refine Runs.silent (.expand (by decide) rfl hexpand) ?_
      refine JSONTree.Reads.element (JSONTree.reads v) helement hmore.elements_symbol ?_
      have hrest := @JSONTree.reads_elements elements (A1_ :: st) _ _ _ hmore
      simpa using hrest.trans (Runs.silent (.marker rfl (by decide)) (.refl _))

/-- The elements after the first one, up to the closing bracket. -/
theorem JSONTree.reads_elements (elements : List JSONTree) {st : List JSONSymbol}
    {tok : Token} {rest rest' : JString}
    (h : Ahead (JSONTree.moreElements elements) tok rest .squareClose rest') :
    Runs ⟨A2 :: st, tok, rest⟩ (JSONTree.toldElements elements) ⟨st, .squareClose, rest'⟩ := by
  match elements with
  | [] =>
      rw [JSONTree.moreElements] at h
      rw [JSONTree.toldElements]
      cases h
      exact Runs.silent (.expand (by decide) rfl rfl)
        (Runs.silent (.marker rfl (by decide)) (.refl _))
  | v :: elements =>
      rw [JSONTree.moreElements] at h
      rw [JSONTree.toldElements]
      cases h with
      | cons hcomma h =>
          obtain ⟨tok₁, rest₁, helement, hmore⟩ := h.split
          refine Runs.silent (.expand (by decide) rfl rfl)
            (Runs.silent (.consume (by rfl) hcomma) ?_)
          refine JSONTree.Reads.element (JSONTree.reads v) helement hmore.elements_symbol ?_
          have hrest := @JSONTree.reads_elements elements (A2_ :: st) _ _ _ hmore
          simpa using hrest.trans (Runs.silent (.marker rfl (by decide)) (.refl _))

end

end Tokens

/-! ## From the run to the tokens -/

section Runs

variable {s m : JSONSymbol} {a b st target : List JSONSymbol} {tok tok' : Token}
  {rest rest' : JString} {ts : List Told} {c c' : Config}

/-- What a symbol has read once it has been worked off, and what has been told then. What a number
is shows if there is no other one behind it. -/
def Works (s : JSONSymbol) (tok : Token) (rest : JString) (ts : List Told) (tok' : Token)
    (rest' : JString) : Prop :=
  match s with
  | X => ∃ v : JSONTree, v.IsCollection ∧ Ahead v.tokens tok rest tok' rest' ∧
      ts = .startDocument :: v.told
  | O => ∃ members, Ahead (JSONTree.object members).tokens tok rest tok' rest' ∧
      ts = (JSONTree.object members).told
  | O1 => tok' = .curlyClose ∧ ∃ members,
      Ahead (JSONTree.innerMembers members) tok rest .curlyClose rest' ∧
      ts = JSONTree.toldMembers members
  | O3 => tok' = .curlyClose ∧ ∃ members,
      Ahead (JSONTree.moreMembers members) tok rest .curlyClose rest' ∧
      ts = JSONTree.toldMembers members
  | OV => ∃ (key : JString) (v : JSONTree),
      Ahead (.string key :: .colon :: v.tokens) tok rest tok' rest' ∧
      (tok'.symbol ≠ NUMBER → ts = .startValue key :: (v.told ++ [.endValue]))
  | A => ∃ elements, Ahead (JSONTree.array elements).tokens tok rest tok' rest' ∧
      ts = (JSONTree.array elements).told
  | A1 => tok' = .squareClose ∧ ∃ elements,
      Ahead (JSONTree.innerElements elements) tok rest .squareClose rest' ∧
      ts = JSONTree.toldElements elements
  | A2 => tok' = .squareClose ∧ ∃ elements,
      Ahead (JSONTree.moreElements elements) tok rest .squareClose rest' ∧
      ts = JSONTree.toldElements elements
  | VA => ∃ v : JSONTree, Ahead v.tokens tok rest tok' rest' ∧
      (tok'.symbol ≠ NUMBER → ts = .startArrayElement :: (v.told ++ [.endArrayElement]))
  | V => ∃ v : JSONTree, Ahead v.tokens tok rest tok' rest' ∧ (tok'.symbol ≠ NUMBER → ts = v.told)
  | X_ | O_ | O1_ | O3_ | OV_ | A_ | A1_ | A2_ | V_ | VA_ =>
      ts = markerTold s ∧ tok' = tok ∧ rest' = rest
  | _ => tok.symbol = s ∧ Lexes rest tok' rest' ∧ ts = tokenTold tok tok'

theorem Works.of_marker (h : Works m tok rest ts tok' rest') (hm : m.isMarker = true) :
    ts = markerTold m ∧ tok' = tok ∧ rest' = rest := by
  cases m <;> first | exact h | cases hm

theorem works_marker (hm : m.isMarker = true) : Works m tok rest (markerTold m) tok rest := by
  cases m <;> first | exact ⟨rfl, rfl, rfl⟩ | cases hm

theorem works_token (h : Lexes rest tok' rest') :
    Works tok.symbol tok rest (tokenTold tok tok') tok' rest' := by
  cases tok <;> exact ⟨rfl, h, rfl⟩

/-- The symbols of a stack are worked off, one after the other. -/
inductive Chain : List JSONSymbol → Token → JString → List Told → Token → JString → Prop where
  | nil (tok : Token) (rest : JString) : Chain [] tok rest [] tok rest
  | cons {s : JSONSymbol} {st : List JSONSymbol} {tok tok₁ tok' : Token}
      {rest rest₁ rest' : JString} {ts ts' : List Told} : Works s tok rest ts tok₁ rest₁ →
      Chain st tok₁ rest₁ ts' tok' rest' → Chain (s :: st) tok rest (ts ++ ts') tok' rest'

theorem Chain.of_cons (h : Chain (s :: st) tok rest ts tok' rest') :
    ∃ ts₁ ts₂ tok₁ rest₁, ts = ts₁ ++ ts₂ ∧ Works s tok rest ts₁ tok₁ rest₁ ∧
      Chain st tok₁ rest₁ ts₂ tok' rest' := by
  cases h with
  | cons hs h => exact ⟨_, _, _, _, rfl, hs, h⟩

theorem Chain.split (h : Chain (a ++ b) tok rest ts tok' rest') :
    ∃ ts₁ ts₂ tok₁ rest₁, ts = ts₁ ++ ts₂ ∧ Chain a tok rest ts₁ tok₁ rest₁ ∧
      Chain b tok₁ rest₁ ts₂ tok' rest' := by
  induction a generalizing tok rest ts with
  | nil => exact ⟨[], ts, tok, rest, rfl, .nil tok rest, h⟩
  | cons s a ih =>
      obtain ⟨ts₁, ts₂, tok₁, rest₁, rfl, hs, h₁⟩ := h.of_cons
      obtain ⟨ts₃, ts₄, tok₂, rest₂, rfl, ha, hb⟩ := ih h₁
      exact ⟨ts₁ ++ ts₃, ts₄, tok₂, rest₂, (List.append_assoc ..).symm, .cons hs ha, hb⟩

theorem Chain.of_last (h : Chain [s] tok rest ts tok' rest') : Works s tok rest ts tok' rest' := by
  obtain ⟨ts₁, ts₂, tok₁, rest₁, rfl, hs, h₁⟩ := h.of_cons
  cases h₁
  rw [List.append_nil]
  exact hs

/-- Of what a symbol stands for the last is its marker. -/
theorem Chain.of_target (h : Chain (target ++ [m]) tok rest ts tok' rest')
    (hm : m.isMarker = true) : ∃ ts', ts = ts' ++ markerTold m ∧
      Chain target tok rest ts' tok' rest' := by
  obtain ⟨ts₁, ts₂, tok₁, rest₁, rfl, htarget, hm'⟩ := h.split
  obtain ⟨rfl, rfl, rfl⟩ := hm'.of_last.of_marker hm
  exact ⟨ts₁, rfl, htarget⟩

/-! ### What a symbol stands for -/

theorem works_X (ht : X.transitions tok.symbol = some target)
    (h : Chain target tok rest ts tok' rest') : Works X tok rest (.startDocument :: ts) tok' rest' := by
  cases tok <;> simp only [Token.symbol, transitions, Option.some.injEq, reduceCtorEq] at ht <;>
    subst ht
  case curlyOpen =>
      obtain ⟨members, hmembers, rfl⟩ := h.of_last
      exact ⟨.object members, trivial, hmembers, rfl⟩
  case squareOpen =>
      obtain ⟨elements, helements, rfl⟩ := h.of_last
      exact ⟨.array elements, trivial, helements, rfl⟩

theorem works_O (ht : O.transitions tok.symbol = some target)
    (h : Chain target tok rest ts tok' rest') :
    Works O tok rest (.startObject :: (ts ++ [.endObject])) tok' rest' := by
  cases tok <;> simp only [Token.symbol, transitions, Option.some.injEq, reduceCtorEq] at ht
  case curlyOpen =>
      subst ht
      obtain ⟨_, _, tok₁, rest₁, rfl, ⟨-, hopen, rfl⟩, h₁⟩ := h.of_cons
      obtain ⟨_, _, tok₂, rest₂, rfl, ⟨rfl, members, hmembers, rfl⟩, h₂⟩ := h₁.of_cons
      obtain ⟨-, hclose, rfl⟩ := h₂.of_last
      refine ⟨members, ?_, ?_⟩
      · rw [JSONTree.tokens_object]
        exact .cons hopen (hmembers.append (.cons hclose (.nil _ _)))
      · simp [JSONTree.told, tokenTold]

theorem works_O1 (ht : O1.transitions tok.symbol = some target)
    (h : Chain target tok rest ts tok' rest') : Works O1 tok rest ts tok' rest' := by
  cases tok <;> simp only [Token.symbol, transitions, Option.some.injEq, reduceCtorEq] at ht <;>
    subst ht
  case curlyClose =>
      cases h
      exact ⟨rfl, [], .nil _ _, by rw [JSONTree.toldMembers]⟩
  case string =>
      obtain ⟨_, _, tok₁, rest₁, rfl, ⟨key, v, hentry, htold⟩, h₁⟩ := h.of_cons
      obtain ⟨rfl, members, hmore, rfl⟩ := h₁.of_last
      obtain rfl := htold hmore.members_symbol
      exact ⟨rfl, (key, v) :: members, hentry.append hmore, by simp [JSONTree.toldMembers]⟩

theorem works_O3 (ht : O3.transitions tok.symbol = some target)
    (h : Chain target tok rest ts tok' rest') : Works O3 tok rest ts tok' rest' := by
  cases tok <;> simp only [Token.symbol, transitions, Option.some.injEq, reduceCtorEq] at ht <;>
    subst ht
  case curlyClose =>
      cases h
      refine ⟨rfl, [], ?_, by rw [JSONTree.toldMembers]⟩
      rw [JSONTree.moreMembers]
      exact .nil _ _
  case comma =>
      obtain ⟨_, _, tok₁, rest₁, rfl, ⟨-, hcomma, rfl⟩, h₁⟩ := h.of_cons
      obtain ⟨_, _, tok₂, rest₂, rfl, ⟨key, v, hentry, htold⟩, h₂⟩ := h₁.of_cons
      obtain ⟨rfl, members, hmore, rfl⟩ := h₂.of_last
      obtain rfl := htold hmore.members_symbol
      refine ⟨rfl, (key, v) :: members, ?_, by simp [JSONTree.toldMembers, tokenTold]⟩
      rw [JSONTree.moreMembers]
      exact .cons hcomma (hentry.append hmore)

theorem works_OV (h : Chain [COLON, V, OV_] tok rest ts tok' rest') {key rest₀ : JString}
    (hkey : Lexes rest₀ tok rest) : Works OV (.string key) rest₀ (.startValue key :: ts) tok' rest' := by
  obtain ⟨_, _, tok₁, rest₁, rfl, ⟨hsymbol, hcolon, rfl⟩, h₁⟩ := h.of_cons
  obtain ⟨_, _, tok₂, rest₂, rfl, ⟨v, hv, htold⟩, h₂⟩ := h₁.of_cons
  obtain ⟨rfl, rfl, rfl⟩ := h₂.of_last
  cases tok <;> cases hsymbol
  refine ⟨key, v, .cons hkey (.cons hcolon hv), fun htok' => ?_⟩
  rw [htold htok']
  rfl

theorem works_A (ht : A.transitions tok.symbol = some target)
    (h : Chain target tok rest ts tok' rest') :
    Works A tok rest (.startArray :: (ts ++ [.endArray])) tok' rest' := by
  cases tok <;> simp only [Token.symbol, transitions, Option.some.injEq, reduceCtorEq] at ht
  case squareOpen =>
      subst ht
      obtain ⟨_, _, tok₁, rest₁, rfl, ⟨-, hopen, rfl⟩, h₁⟩ := h.of_cons
      obtain ⟨_, _, tok₂, rest₂, rfl, ⟨rfl, elements, helements, rfl⟩, h₂⟩ := h₁.of_cons
      obtain ⟨-, hclose, rfl⟩ := h₂.of_last
      refine ⟨elements, ?_, ?_⟩
      · rw [JSONTree.tokens_array]
        exact .cons hopen (helements.append (.cons hclose (.nil _ _)))
      · simp [JSONTree.told, tokenTold]

theorem works_A1 (ht : A1.transitions tok.symbol = some target)
    (h : Chain target tok rest ts tok' rest') : Works A1 tok rest ts tok' rest' := by
  have hcases : tok = .squareClose ∧ target = [] ∨ target = [VA, A2] := by
    cases tok <;> simp only [Token.symbol, transitions, Option.some.injEq, reduceCtorEq] at ht <;>
      simp [ht]
  rcases hcases with ⟨rfl, rfl⟩ | rfl
  · cases h
    exact ⟨rfl, [], .nil _ _, by rw [JSONTree.toldElements]⟩
  · obtain ⟨_, _, tok₁, rest₁, rfl, ⟨v, helement, htold⟩, h₁⟩ := h.of_cons
    obtain ⟨rfl, elements, hmore, rfl⟩ := h₁.of_last
    obtain rfl := htold hmore.elements_symbol
    exact ⟨rfl, v :: elements, helement.append hmore, by simp [JSONTree.toldElements]⟩

theorem works_A2 (ht : A2.transitions tok.symbol = some target)
    (h : Chain target tok rest ts tok' rest') : Works A2 tok rest ts tok' rest' := by
  cases tok <;> simp only [Token.symbol, transitions, Option.some.injEq, reduceCtorEq] at ht <;>
    subst ht
  case squareClose =>
      cases h
      refine ⟨rfl, [], ?_, by rw [JSONTree.toldElements]⟩
      rw [JSONTree.moreElements]
      exact .nil _ _
  case comma =>
      obtain ⟨_, _, tok₁, rest₁, rfl, ⟨-, hcomma, rfl⟩, h₁⟩ := h.of_cons
      obtain ⟨_, _, tok₂, rest₂, rfl, ⟨v, helement, htold⟩, h₂⟩ := h₁.of_cons
      obtain ⟨rfl, elements, hmore, rfl⟩ := h₂.of_last
      obtain rfl := htold hmore.elements_symbol
      refine ⟨rfl, v :: elements, ?_, by simp [JSONTree.toldElements, tokenTold]⟩
      rw [JSONTree.moreElements]
      exact .cons hcomma (helement.append hmore)

theorem works_VA (ht : VA.transitions tok.symbol = some target)
    (h : Chain target tok rest ts tok' rest') :
    Works VA tok rest (.startArrayElement :: (ts ++ [.endArrayElement])) tok' rest' := by
  obtain rfl : target = [V] := by
    cases tok <;> simp only [Token.symbol, transitions, Option.some.injEq, reduceCtorEq] at ht <;>
      exact ht.symm
  obtain ⟨v, hv, htold⟩ := h.of_last
  exact ⟨v, hv, fun htok' => by rw [htold htok']⟩

theorem works_V (ht : V.transitions tok.symbol = some target)
    (h : Chain target tok rest ts tok' rest') : Works V tok rest ts tok' rest' := by
  cases tok <;> simp only [Token.symbol, transitions, Option.some.injEq, reduceCtorEq] at ht <;>
    subst ht
  case curlyOpen =>
      obtain ⟨members, hmembers, rfl⟩ := h.of_last
      exact ⟨.object members, hmembers, fun _ => rfl⟩
  case squareOpen =>
      obtain ⟨elements, helements, rfl⟩ := h.of_last
      exact ⟨.array elements, helements, fun _ => rfl⟩
  case keyword k =>
      obtain ⟨-, hlexes, rfl⟩ := h.of_last
      refine ⟨.keyword k, ?_, fun _ => by rw [JSONTree.told]; rfl⟩
      rw [JSONTree.tokens]
      exact .cons hlexes (.nil _ _)
  case string text =>
      obtain ⟨-, hlexes, rfl⟩ := h.of_last
      refine ⟨.string text, ?_, fun _ => by rw [JSONTree.told]; rfl⟩
      rw [JSONTree.tokens]
      exact .cons hlexes (.nil _ _)
  case number n =>
      obtain ⟨-, hlexes, rfl⟩ := h.of_last
      refine ⟨.number n, ?_, fun htok' => ?_⟩
      · rw [JSONTree.tokens]
        exact .cons hlexes (.nil _ _)
      · rw [JSONTree.told, tokenTold_number htok']

/-- **A symbol has read what it stands for.** -/
theorem works_of_target (hs : s ≠ OV) (hm : s.markerSymbol = some m)
    (ht : s.transitions tok.symbol = some target)
    (h : Chain (target ++ [m]) tok rest ts tok' rest') :
    Works s tok rest (expandTold s ++ ts) tok' rest' := by
  have hmarker : m.isMarker = true := by
    cases s <;> cases hm <;> rfl
  obtain ⟨ts', rfl, htarget⟩ := h.of_target hmarker
  cases s <;> cases hm <;> simp only [expandTold, markerTold, List.append_nil, List.nil_append,
    List.cons_append]
  case X => exact works_X ht htarget
  case O => exact works_O ht htarget
  case O1 => exact works_O1 ht htarget
  case O3 => exact works_O3 ht htarget
  case OV => exact absurd rfl hs
  case A => exact works_A ht htarget
  case A1 => exact works_A1 ht htarget
  case A2 => exact works_A2 ht htarget
  case VA => exact works_VA ht htarget
  case V => exact works_V ht htarget

/-! ### Rounds -/

theorem Turn.chain (hturn : Turn c ts c') {ts' : List Told}
    (h : Chain c'.stack c'.tok c'.rest ts' tok' rest') :
    Chain c.stack c.tok c.rest (ts ++ ts') tok' rest' := by
  cases hturn with
  | marker hm => exact .cons (works_marker hm) h
  | @expand s m target st tok rest hs hm ht =>
      have hsplit : Chain ((target ++ [m]) ++ st) tok rest ts' tok' rest' := by
        rw [List.append_assoc]
        exact h
      obtain ⟨ts₁, ts₂, tok₁, rest₁, rfl, htarget, hbelow⟩ := hsplit.split
      rw [← List.append_assoc]
      exact .cons (works_of_target hs hm ht htarget) hbelow
  | consume hs hlexes =>
      subst hs
      exact .cons (works_token hlexes) h
  | @value st key rest rest₁ tok₁ hlexes =>
      obtain ⟨ts₁, ts₂, tok₂, rest₂, rfl, hvalue, hbelow⟩ :=
        Chain.split (show Chain ([COLON, V, OV_] ++ st) tok₁ rest₁ ts' tok' rest' from h)
      have hentry : Chain (OV :: st) (.string key) rest ((.startValue key :: ts₁) ++ ts₂) tok' rest' :=
        .cons (works_OV hvalue hlexes) hbelow
      exact hentry

/-- What a run to the marker of the first symbol has read, and what it has told. -/
theorem Run.chain {k : ℕ} (h : Run k c ts c') (hc' : c'.stack = [X_]) :
    Chain c.stack c.tok c.rest ts c'.tok c'.rest := by
  induction h with
  | refl c =>
      rw [hc']
      exact .cons (works_marker rfl) (.nil _ _)
  | step hturn _ ih => exact hturn.chain (ih hc')

/-- **The stack machine reads documents**: it comes to the marker of the first symbol just when
the tokens are those of an object or an array, and it tells what there is in this value. -/
theorem runs_document_iff :
    Runs ⟨[X], tok, rest⟩ ts ⟨[X_], tok', rest'⟩ ↔
      ∃ v : JSONTree, v.IsCollection ∧ Ahead v.tokens tok rest tok' rest' ∧
        ts = .startDocument :: v.told := by
  constructor
  · rintro ⟨k, h⟩
    exact (h.chain rfl).of_last
  · rintro ⟨v, hcollection, h, rfl⟩
    match v, hcollection with
    | .object members, _ =>
        exact Runs.step (.expand (by decide) rfl h.object_symbol.1)
          (Runs.object (JSONTree.reads_inner_members members) h)
    | .array elements, _ =>
        exact Runs.step (.expand (by decide) rfl h.array_symbol.1)
          (Runs.array (JSONTree.reads_inner_elements elements) h)

end Runs

end JavaFx.Json
