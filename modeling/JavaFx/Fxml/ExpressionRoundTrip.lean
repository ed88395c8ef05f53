import JavaFx.Fxml.DelayedOperators
import JavaFx.Fxml.MisreadLeaves

/-!
# Expressions that come back from their text

The tokenizer reads the lexemes of a printed expression one by one, so what it makes of the text is
what the operator stack makes of the lexemes, as long as the leaves come back.
-/

namespace JavaFx.Fxml

open Postfix

variable {R : Type} {lang : Lang R}

/-! ## Operators and parentheses -/

/-- A unit `readToken` leaves to `readOperator`. -/
def isOperatorUnit (c : UInt16) : Bool :=
  c < 128 && !asciiStart c && !(asciiDigit 10 c).isSome && !asciiWhitespace c &&
    c != unit '"' && c != unit '\''

theorem readToken_operator (h : lang.Documented) {c : UInt16} (hc : isOperatorUnit c = true)
    (unary : Bool) (buffer rest : List UInt16) :
    lang.isWhitespace c = false ∧ readToken lang unary buffer c rest =
      (readOperator unary c rest).bind fun token => .ok (token, buffer) := by
  simp only [isOperatorUnit, Bool.and_eq_true, Bool.not_eq_true', decide_eq_true_eq,
    bne_iff_ne] at hc
  obtain ⟨⟨⟨⟨⟨hlt, hstart⟩, hdigit⟩, hws⟩, hq⟩, hq'⟩ := hc
  have hne : ∀ d : UInt16, asciiStart d = true → ¬(c == d) = true := by
    rintro d hd heq
    rw [beq_iff_eq.mp heq, hd] at hstart
    cases hstart
  have hquote : ¬(c == unit '"' || c == unit '\'') = true := by
    rw [Bool.or_eq_true, beq_iff_eq, beq_iff_eq]
    exact fun hor => hor.elim hq hq'
  have hnd : ¬lang.isDigit c = true := by
    rw [h.digit_unit hlt, hdigit]
    exact Bool.false_ne_true
  have hns : ¬lang.isJavaIdentifierStart c = true := by
    rw [h.start_ascii c hlt, hstart]
    exact Bool.false_ne_true
  refine ⟨(h.whitespace_ascii c hlt).trans hws, ?_⟩
  rw [readToken, if_neg (hne _ (by decide)), if_neg hquote, if_neg hnd, if_neg (hne _ (by decide)),
    if_neg (hne _ (by decide)), if_neg hns]
  rfl

/-- An operator or a parenthesis before a space or the end. -/
theorem readOperator_lexeme {x : Lexeme R} (hx : x.leaf? = none) {unary : Bool}
    {token : Token R} (htoken : x.token unary = some token) {k : List UInt16}
    (hk : Boundary k) : ∃ c w r, x.text lang = c :: w ∧ isOperatorUnit c = true ∧
      readOperator unary c (w ++ k) = .ok (token, r) ∧ (r = k ∨ r = k.tail) := by
  have hcases : k = [] ∨ ∃ rest, k = unit ' ' :: rest := by
    by_cases hne : k = []
    · exact Or.inl hne
    · exact Or.inr (hk.eq_cons hne)
  cases x with
  | leaf x => cases hx
  | leftParenthesis | rightParenthesis =>
      obtain rfl := Option.some.inj htoken
      exact ⟨_, _, k, rfl, by decide, by cases unary <;> rfl, Or.inl rfl⟩
  | operator op =>
      rcases hcases with rfl | ⟨rest, rfl⟩
      · cases op <;> cases unary <;> cases htoken <;>
          exact ⟨_, _, [], rfl, by decide, rfl, Or.inl rfl⟩
      · cases op <;> cases unary <;> cases htoken <;>
          first
          | exact ⟨_, _, unit ' ' :: rest, rfl, by decide, rfl, Or.inl rfl⟩
          | exact ⟨_, _, rest, rfl, by decide, rfl, Or.inr rfl⟩

theorem dropWhile_space (h : lang.Documented) (rest : List UInt16) :
    (unit ' ' :: rest).dropWhile lang.isWhitespace = rest.dropWhile lang.isWhitespace := by
  refine List.dropWhile_cons_of_pos ?_
  rw [h.whitespace_ascii _ (by decide)]
  decide

theorem readsAs_operator (h : lang.Documented) {x : Lexeme R} (hx : x.leaf? = none)
    {unary : Bool} {token : Token R} (htoken : x.token unary = some token) {k : List UInt16}
    (hk : Boundary k) {buffer : List UInt16} {texts : List (List UInt16)}
    (hbuffer : Buffered buffer texts) :
    ReadsAs lang unary buffer texts (x.text lang) k token := by
  obtain ⟨c, w, r, htext, hc, hread, hr⟩ := readOperator_lexeme hx htoken hk
  obtain ⟨hws, hbranch⟩ := readToken_operator h hc unary buffer (w ++ k)
  refine ⟨c, w, r, buffer, htext, hws, ?_, ?_, fun _ => hbuffer⟩
  · rw [hbranch, hread]
    rfl
  · rcases hr with rfl | rfl
    · rfl
    · rcases k with _ | ⟨d, rest⟩
      · rfl
      · rw [hk d rfl, List.tail_cons, dropWhile_space h]

/-! ## The tokenizer over lexemes -/

theorem tokenizeFrom_congr {reader reader' : List UInt16}
    (h : reader.dropWhile lang.isWhitespace = reader'.dropWhile lang.isWhitespace) (fuel : ℕ)
    (unary : Bool) (buffer : List UInt16) (s : Pending R) :
    tokenizeFrom lang fuel reader unary buffer s = tokenizeFrom lang fuel reader' unary buffer s := by
  rcases fuel with _ | fuel
  · rfl
  · rw [tokenizeFrom, tokenizeFrom, h]

theorem tokenizeFrom_token {reader rest : List UInt16} {c : UInt16}
    (hreader : reader.dropWhile lang.isWhitespace = c :: rest) (fuel : ℕ) (unary : Bool)
    (buffer : List UInt16) (s : Pending R) :
    tokenizeFrom lang (fuel + 1) reader unary buffer s =
      (readToken lang unary buffer c rest).bind fun read =>
        (s.process read.1.1).bind fun s' =>
          tokenizeFrom lang fuel read.1.2 read.1.1.unaryAfter read.2 s' := by
  rw [tokenizeFrom, hreader]
  rfl

theorem tokenizeFrom_readsAs {unary : Bool} {buffer : List UInt16} {texts : List (List UInt16)}
    {text k : List UInt16} {token : Token R}
    (h : ReadsAs lang unary buffer texts text k token) :
    ∃ buffer', (k ≠ [] → Buffered buffer' texts) ∧ ∀ fuel s,
      tokenizeFrom lang (fuel + 1) (text ++ k) unary buffer s =
        (s.process token).bind fun s' => tokenizeFrom lang fuel k token.unaryAfter buffer' s' := by
  obtain ⟨c, w, r, buffer', rfl, hws, hread, hr, hbuffer⟩ := h
  refine ⟨buffer', hbuffer, fun fuel s => ?_⟩
  have hdrop : (c :: w ++ k).dropWhile lang.isWhitespace = c :: (w ++ k) :=
    List.dropWhile_cons_of_neg (by rw [hws]; exact Bool.false_ne_true)
  rw [tokenizeFrom_token hdrop, hread]
  change (s.process token).bind _ = _
  cases s.process token with
  | error e => rfl
  | ok s' => exact tokenizeFrom_congr hr fuel _ _ s'

/-- What follows a lexeme in a text. -/
def follow (lang : Lang R) (xs : List (Lexeme R)) : List UInt16 :=
  if xs = [] then [] else unit ' ' :: textOf lang xs

theorem textOf_cons (x : Lexeme R) (xs : List (Lexeme R)) :
    textOf lang (x :: xs) = x.text lang ++ follow lang xs := by
  rcases xs with _ | ⟨y, xs⟩
  · rfl
  · rfl

theorem boundary_follow (xs : List (Lexeme R)) : Boundary (follow lang xs) := by
  rintro c hc
  unfold follow at hc
  split at hc
  · cases hc
  · exact (Option.some.inj hc).symm

theorem tokenizeFrom_follow (h : lang.Documented) (xs : List (Lexeme R)) (fuel : ℕ)
    (unary : Bool) (buffer : List UInt16) (s : Pending R) :
    tokenizeFrom lang fuel (follow lang xs) unary buffer s =
      tokenizeFrom lang fuel (textOf lang xs) unary buffer s := by
  rcases xs with _ | ⟨x, xs⟩
  · rfl
  · exact tokenizeFrom_congr (dropWhile_space h _) fuel unary buffer s

/-- The lexemes that are no token where they stand. -/
theorem token_none_cases {x : Lexeme R} {unary : Bool} (h : x.token unary = none) :
    (x = .operator .exclamation ∧ unary = false) ∨
      (x = .operator .exclamationEqual ∧ unary = true) := by
  cases x with
  | leaf x => cases h
  | operator op =>
      cases unary with
      | false =>
          cases op with
          | exclamation => exact Or.inl ⟨rfl, rfl⟩
          | _ => cases h
      | true =>
          cases op with
          | exclamationEqual => exact Or.inr ⟨rfl, rfl⟩
          | _ => cases h
  | leftParenthesis => cases h
  | rightParenthesis => cases h

theorem tokenizeFrom_none (h : lang.Documented) {x : Lexeme R} {unary : Bool}
    (hx : x.token unary = none) {k : List UInt16} (hk : Boundary k) (fuel : ℕ)
    (buffer : List UInt16) (s : Pending R) :
    ∃ e, tokenizeFrom lang (fuel + 2) (x.text lang ++ k) unary buffer s = .error e := by
  have hcases : k = [] ∨ ∃ rest, k = unit ' ' :: rest := by
    by_cases hne : k = []
    · exact Or.inl hne
    · exact Or.inr (hk.eq_cons hne)
  rcases token_none_cases hx with ⟨rfl, rfl⟩ | ⟨rfl, rfl⟩
  · -- a `!` after an operand wants its `=`
    obtain ⟨hws, hbranch⟩ := readToken_operator h (c := unit '!') (by decide) false buffer k
    have hdrop : (unit '!' :: k).dropWhile lang.isWhitespace = unit '!' :: k :=
      List.dropWhile_cons_of_neg (by rw [hws]; exact Bool.false_ne_true)
    have herror : readOperator (R := R) false (unit '!') k = .error (.illegalArgument "") := by
      rcases hcases with rfl | ⟨rest, rfl⟩ <;> rfl
    refine ⟨.illegalArgument "", ?_⟩
    change tokenizeFrom lang (fuel + 2) (unit '!' :: k) false buffer s = _
    rw [tokenizeFrom_token hdrop, hbranch, herror]
    rfl
  · -- a `!=` is read as a `!`, whose `=` wants another one
    obtain ⟨hws, hbranch⟩ := readToken_operator h (c := unit '!') (by decide) true buffer
      (unit '=' :: k)
    have hdrop : (unit '!' :: unit '=' :: k).dropWhile lang.isWhitespace =
        unit '!' :: unit '=' :: k :=
      List.dropWhile_cons_of_neg (by rw [hws]; exact Bool.false_ne_true)
    obtain ⟨hws', hbranch'⟩ := readToken_operator h (c := unit '=') (by decide) true buffer k
    have hdrop' : (unit '=' :: k).dropWhile lang.isWhitespace = unit '=' :: k :=
      List.dropWhile_cons_of_neg (by rw [hws']; exact Bool.false_ne_true)
    have herror : readOperator (R := R) true (unit '=') k = .error (.illegalArgument "") := by
      rcases hcases with rfl | ⟨rest, rfl⟩ <;> rfl
    refine ⟨.illegalArgument "", ?_⟩
    change tokenizeFrom lang (fuel + 1 + 1) (unit '!' :: unit '=' :: k) true buffer s = _
    rw [tokenizeFrom_token hdrop, hbranch]
    change tokenizeFrom lang (fuel + 1) (unit '=' :: k) true buffer _ = _
    rw [tokenizeFrom_token hdrop', hbranch', herror]
    rfl

/-- Every leaf comes back where it stands, after the leaves with these texts. -/
def AllComeBack (lang : Lang R) : List (List UInt16) → List (Lexeme R) → Prop
  | _, [] => True
  | texts, x :: xs =>
      match x.leaf? with
      | some y => ComesBack lang texts (follow lang xs) y ∧ AllComeBack lang (texts ++ [y.text lang]) xs
      | none => AllComeBack lang texts xs

theorem filterMap_leaf (x : Leaf R) (xs : List (Lexeme R)) :
    (Lexeme.leaf x :: xs).filterMap Lexeme.leaf? = x :: xs.filterMap Lexeme.leaf? := rfl

theorem runLexemes_toOption {x : Lexeme R} {unary : Bool} {token : Token R}
    (htoken : x.token unary = some token) (xs : List (Lexeme R)) (s : Pending R) :
    runLexemes (x :: xs) unary s =
      (s.process token).toOption.bind fun s' => runLexemes xs token.unaryAfter s' := by
  rw [runLexemes, htoken]
  rfl

/-- **The tokenizer does to the text what the stack does to the lexemes.** -/
theorem tokenizeFrom_textOf (h : lang.Documented) {xs : List (Lexeme R)}
    (hxs : ∀ x ∈ xs.filterMap Lexeme.leaf?, x.Writable lang) {texts : List (List UInt16)}
    (hback : AllComeBack lang texts xs) {buffer : List UInt16}
    (hbuffer : xs ≠ [] → Buffered buffer texts) {fuel : ℕ} (hfuel : xs.length < fuel) (unary : Bool)
    (s : Pending R) :
    (tokenizeFrom lang fuel (textOf lang xs) unary buffer s).toOption =
      (runLexemes xs unary s).map fun p => p.2.tokens ++ p.2.stack := by
  induction xs generalizing texts buffer fuel unary s with
  | nil =>
      obtain ⟨fuel, rfl⟩ := Nat.exists_eq_succ_of_ne_zero (Nat.ne_zero_of_lt hfuel)
      rfl
  | cons x xs ih =>
      obtain ⟨fuel, rfl⟩ := Nat.exists_eq_succ_of_ne_zero (Nat.ne_zero_of_lt hfuel)
      have hfuel' : xs.length < fuel := Nat.lt_of_succ_lt_succ hfuel
      have hbuf := hbuffer (List.cons_ne_nil _ _)
      have hk : Boundary (follow lang xs) := boundary_follow xs
      rw [textOf_cons]
      rcases htoken : x.token unary with _ | token
      · obtain ⟨fuel, rfl⟩ := Nat.exists_eq_succ_of_ne_zero (Nat.ne_zero_of_lt hfuel')
        obtain ⟨e, he⟩ := tokenizeFrom_none h htoken hk fuel buffer s
        rw [he, runLexemes, htoken]
        rfl
      -- what is read of `x`, and the condition on the rest
      obtain ⟨texts', hreads, hback', hxs'⟩ : ∃ texts',
          ReadsAs lang unary buffer texts' (x.text lang) (follow lang xs) token ∧
            AllComeBack lang texts' xs ∧ ∀ y ∈ xs.filterMap Lexeme.leaf?, y.Writable lang := by
        cases x with
        | leaf y =>
            obtain rfl := Option.some.inj htoken
            rw [filterMap_leaf] at hxs
            exact ⟨texts ++ [y.text lang],
              readsAs_leaf h (hxs y List.mem_cons_self) hk hbuf hback.1 unary, hback.2,
              fun z hz => hxs z (List.mem_cons_of_mem _ hz)⟩
        | operator op => exact ⟨texts, readsAs_operator h rfl htoken hk hbuf, hback, hxs⟩
        | leftParenthesis => exact ⟨texts, readsAs_operator h rfl htoken hk hbuf, hback, hxs⟩
        | rightParenthesis => exact ⟨texts, readsAs_operator h rfl htoken hk hbuf, hback, hxs⟩
      obtain ⟨buffer', hbuffer', hrun⟩ := tokenizeFrom_readsAs hreads
      rw [hrun, runLexemes_toOption htoken]
      cases hs : s.process token with
      | error e => rfl
      | ok s' =>
          have hrest := ih hxs' hback'
            (fun hne => hbuffer' (by rw [follow, if_neg hne]; exact List.cons_ne_nil _ _)) hfuel'
            token.unaryAfter s'
          rw [← tokenizeFrom_follow h] at hrest
          exact hrest

/-! ## The leaves of what has been read -/

/-- The leaf a token is. -/
def Token.leaf? : Token R → Option (Leaf R)
  | .leaf x => some x
  | _ => none

/-- The leaves of a list of tokens. -/
def leafTokens (tokens : List (Token R)) : List (Leaf R) := tokens.filterMap Token.leaf?

theorem leafTokens_append (a b : List (Token R)) :
    leafTokens (a ++ b) = leafTokens a ++ leafTokens b :=
  List.filterMap_append

/-- Tokens only go to the end of the list. -/
theorem popOperators_prefix (priority : ℕ) (tokens stack : List (Token R)) :
    ∃ moved, stack = moved ++ (popOperators priority tokens stack).stack ∧
      (popOperators priority tokens stack).tokens = tokens ++ moved := by
  induction stack generalizing tokens with
  | nil => exact ⟨[], rfl, (List.append_nil _).symm⟩
  | cons top stack ih =>
      unfold popOperators
      split
      · exact ⟨[], rfl, (List.append_nil _).symm⟩
      · split
        · obtain ⟨moved, hstack, htokens⟩ := ih (tokens ++ [top])
          refine ⟨top :: moved, ?_, ?_⟩
          · rw [List.cons_append, ← hstack]
          · rw [htokens, List.append_assoc, List.singleton_append]
        · exact ⟨[], rfl, (List.append_nil _).symm⟩

theorem popGroup_prefix {tokens stack : List (Token R)} {s' : Pending R}
    (h : popGroup tokens stack = .ok s') :
    ∃ moved, stack = moved ++ .beginGroup :: s'.stack ∧ s'.tokens = tokens ++ moved := by
  induction stack generalizing tokens with
  | nil => cases h
  | cons top stack ih =>
      cases top with
      | beginGroup =>
          obtain rfl := Except.ok.inj h
          exact ⟨[], rfl, (List.append_nil _).symm⟩
      | _ =>
          obtain ⟨moved, hstack, htokens⟩ := ih h
          refine ⟨_ :: moved, congrArg (List.cons _) hstack, ?_⟩
          rw [htokens, List.append_assoc, List.singleton_append]

theorem operator_leaf? {op : OperatorText} {unary : Bool} {token : Token R}
    (h : (Lexeme.operator op : Lexeme R).token unary = some token) : token.leaf? = none := by
  cases op <;> cases unary <;> cases h <;> rfl

/-- What a token does to the tokens and to the leaves. -/
theorem process_leafTokens {s s' : Pending R} {token : Token R}
    (h : s.process token = .ok s') (hstack : leafTokens s.stack = []) :
    s.tokens <+: s'.tokens ∧ leafTokens s'.stack = [] ∧
      leafTokens s'.tokens = leafTokens s.tokens ++ leafTokens [token] := by
  have hoperator : ∀ (op : OperatorText) (token : Token R), token.leaf? = none →
      s.operator token op = s' → s.tokens <+: s'.tokens ∧ leafTokens s'.stack = [] ∧
        leafTokens s'.tokens = leafTokens s.tokens ++ leafTokens [token] := by
    rintro op token hleaf rfl
    obtain ⟨moved, hmoved, htokens⟩ := popOperators_prefix (getPriority op) s.tokens s.stack
    rw [hmoved, leafTokens_append, List.append_eq_nil_iff] at hstack
    refine ⟨⟨moved, htokens.symm⟩, ?_, ?_⟩
    · exact (List.filterMap_cons_none hleaf).trans hstack.2
    · have hnone : leafTokens [token] = [] := List.filterMap_cons_none hleaf
      have heq : (s.operator token op).tokens = s.tokens ++ moved := htokens
      rw [heq, leafTokens_append, hstack.1, hnone]
  cases token with
  | leaf x =>
      obtain rfl := Except.ok.inj h
      exact ⟨List.prefix_append _ _, hstack, leafTokens_append _ _⟩
  | unaryOperator op | binaryOperator op => exact hoperator _ _ rfl (Except.ok.inj h)
  | beginGroup =>
      obtain rfl := Except.ok.inj h
      exact ⟨List.prefix_refl _, hstack, (List.append_nil _).symm⟩
  | endGroup =>
      obtain ⟨moved, hmoved, htokens⟩ := popGroup_prefix h
      rw [hmoved, leafTokens_append, List.append_eq_nil_iff] at hstack
      refine ⟨⟨moved, htokens.symm⟩, hstack.2, ?_⟩
      rw [htokens, leafTokens_append, hstack.1]
      rfl

/-- The tokens so far stay the first ones. -/
theorem tokenizeFrom_prefix {fuel : ℕ} {reader buffer : List UInt16} {unary : Bool}
    {s : Pending R} {ts : List (Token R)} (hstack : leafTokens s.stack = [])
    (h : tokenizeFrom lang fuel reader unary buffer s = .ok ts) : s.tokens <+: ts := by
  induction fuel generalizing reader buffer unary s with
  | zero =>
      obtain rfl := Except.ok.inj h
      exact List.prefix_append _ _
  | succ fuel ih =>
      rcases hreader : reader.dropWhile lang.isWhitespace with _ | ⟨c, rest⟩
      · rw [tokenizeFrom, hreader] at h
        obtain rfl := Except.ok.inj h
        exact List.prefix_append _ _
      rw [tokenizeFrom_token hreader] at h
      cases hread : readToken lang unary buffer c rest with
      | error e =>
          rw [hread] at h
          cases h
      | ok read =>
          rw [hread] at h
          change (s.process read.1.1).bind _ = _ at h
          cases hs : s.process read.1.1 with
          | error e =>
              rw [hs] at h
              cases h
          | ok s' =>
              rw [hs] at h
              obtain ⟨hstart, hstack', -⟩ := process_leafTokens hs hstack
              exact hstart.trans (ih hstack' h)

/-- If the leaves read are the leaves printed, then every leaf has come back. -/
theorem allComeBack_of_tokenize (h : lang.Documented) {xs : List (Lexeme R)}
    (hxs : ∀ x ∈ xs.filterMap Lexeme.leaf?, x.Writable lang) {texts : List (List UInt16)}
    (htexts : Printed lang texts) {buffer : List UInt16}
    (hbuffer : xs ≠ [] → Buffered buffer texts) {fuel : ℕ} (hfuel : xs.length < fuel) {unary : Bool}
    {s : Pending R} (hstack : leafTokens s.stack = []) {ts : List (Token R)}
    (hrun : tokenizeFrom lang fuel (textOf lang xs) unary buffer s = .ok ts)
    (hleaves : leafTokens ts = leafTokens s.tokens ++ xs.filterMap Lexeme.leaf?) :
    AllComeBack lang texts xs := by
  induction xs generalizing texts buffer fuel unary s with
  | nil => trivial
  | cons x xs ih =>
      obtain ⟨fuel, rfl⟩ := Nat.exists_eq_succ_of_ne_zero (Nat.ne_zero_of_lt hfuel)
      have hfuel' : xs.length < fuel := Nat.lt_of_succ_lt_succ hfuel
      have hbuf := hbuffer (List.cons_ne_nil _ _)
      have hk : Boundary (follow lang xs) := boundary_follow xs
      rw [textOf_cons] at hrun
      -- the rest of the run, once `x` has been read as its token
      have hstep : ∀ {texts' : List (List UInt16)} {token : Token R},
          ReadsAs lang unary buffer texts' (x.text lang) (follow lang xs) token →
            token.leaf? = x.leaf? → Printed lang texts' →
              (∀ y ∈ xs.filterMap Lexeme.leaf?, y.Writable lang) → AllComeBack lang texts' xs := by
        intro texts' token hreads hleaf htexts' hxs'
        obtain ⟨buffer', hbuffer', hreadRun⟩ := tokenizeFrom_readsAs hreads
        rw [hreadRun] at hrun
        cases hs : s.process token with
        | error e =>
            rw [hs] at hrun
            cases hrun
        | ok s' =>
            rw [hs] at hrun
            change tokenizeFrom lang fuel (follow lang xs) token.unaryAfter buffer' s' = .ok ts
              at hrun
            rw [tokenizeFrom_follow h] at hrun
            obtain ⟨-, hstack', htokens⟩ := process_leafTokens hs hstack
            refine ih hxs' htexts'
              (fun hne => hbuffer' (by rw [follow, if_neg hne]; exact List.cons_ne_nil _ _)) hfuel'
              hstack' hrun ?_
            rw [hleaves, htokens, List.append_assoc]
            congr 1
            have hcons : (x :: xs).filterMap Lexeme.leaf? =
                [x].filterMap Lexeme.leaf? ++ xs.filterMap Lexeme.leaf? :=
              List.filterMap_append (l := [x])
            rw [hcons, leafTokens]
            congr 1
            cases hx : x.leaf? with
            | none =>
                rw [List.filterMap_cons_none hx, List.filterMap_cons_none (hleaf.trans hx)]
                rfl
            | some y =>
                rw [List.filterMap_cons_some hx, List.filterMap_cons_some (hleaf.trans hx)]
                rfl
      cases x with
      | leaf y =>
          rw [filterMap_leaf] at hxs hleaves
          have hy := hxs y List.mem_cons_self
          have hxs' : ∀ z ∈ xs.filterMap Lexeme.leaf?, z.Writable lang :=
            fun z hz => hxs z (List.mem_cons_of_mem _ hz)
          by_cases hback : ComesBack lang texts (follow lang xs) y
          · refine ⟨hback, hstep (readsAs_leaf h hy hk hbuf hback unary) rfl ?_ hxs'⟩
            rintro t ht
            rcases List.mem_append.mp ht with ht | ht
            · exact htexts t ht
            · exact ⟨y, hy, (List.mem_singleton.mp ht).symm⟩
          · -- another leaf stands in the place of `y`
            obtain ⟨c, w, htext, hws, hread⟩ := misreads_leaf h hy hk hbuf htexts hback unary
            have hdrop : (y.text lang ++ follow lang xs).dropWhile lang.isWhitespace =
                c :: (w ++ follow lang xs) := by
              rw [htext]
              exact List.dropWhile_cons_of_neg (by rw [hws]; exact Bool.false_ne_true)
            change tokenizeFrom lang (fuel + 1) (y.text lang ++ follow lang xs) unary buffer s =
              .ok ts at hrun
            rw [tokenizeFrom_token hdrop] at hrun
            cases hr : readToken lang unary buffer c (w ++ follow lang xs) with
            | error e =>
                rw [hr] at hrun
                cases hrun
            | ok read =>
                obtain ⟨z, hz, hne⟩ := hread read hr
                rw [hr] at hrun
                change (s.process read.1.1).bind _ = _ at hrun
                rw [hz] at hrun
                change tokenizeFrom lang fuel read.1.2 (Token.leaf z).unaryAfter read.2
                  ⟨s.tokens ++ [.leaf z], s.stack⟩ = .ok ts at hrun
                have hstart := tokenizeFrom_prefix
                  (s := ⟨s.tokens ++ [.leaf z], s.stack⟩) hstack hrun
                obtain ⟨more, hmore⟩ := hstart
                rw [← hmore, leafTokens_append, leafTokens_append, List.append_assoc,
                  List.append_cancel_left_eq] at hleaves
                exact absurd (List.cons.inj hleaves).1 hne
      | operator op =>
          rcases htoken : (Lexeme.operator op : Lexeme R).token unary with _ | token
          · obtain ⟨fuel, rfl⟩ := Nat.exists_eq_succ_of_ne_zero (Nat.ne_zero_of_lt hfuel')
            obtain ⟨e, he⟩ := tokenizeFrom_none h htoken hk fuel buffer s
            rw [he] at hrun
            cases hrun
          · exact hstep (readsAs_operator h rfl htoken hk hbuf) (operator_leaf? htoken) htexts hxs
      | leftParenthesis =>
          exact hstep (readsAs_operator h rfl (beginGroup_token _) hk hbuf) rfl htexts hxs
      | rightParenthesis =>
          exact hstep (readsAs_operator h rfl (endGroup_token _) hk hbuf) rfl htexts hxs

/-! ## Building the expression -/

theorem build_ofItem (i : Op R) (stack : List (Expression R)) :
    ((Token.ofItem i).build stack).toOption = i.push stack := by
  cases i with
  | leaf x => rfl
  | unary u => cases stack <;> rfl
  | binary b => rcases stack with _ | ⟨r, _ | ⟨l, stack⟩⟩ <;> rfl

theorem buildAll_map (is : List (Op R)) (stack : List (Expression R)) :
    (buildAll (is.map Token.ofItem) stack).toOption = assemble is stack := by
  induction is generalizing stack with
  | nil => rfl
  | cons i is ih =>
      have hi := build_ofItem i stack
      rw [List.map_cons, buildAll, assemble, ← hi]
      cases (Token.ofItem i).build stack with
      | error e => rfl
      | ok stack' => exact ih stack'

/-- A parenthesis that is left makes no expression. -/
theorem exists_items_of_buildAll {ts : List (Token R)} {stack stack' : List (Expression R)}
    (h : buildAll ts stack = .ok stack') : ∃ is : List (Op R), ts = is.map Token.ofItem := by
  induction ts generalizing stack with
  | nil => exact ⟨[], rfl⟩
  | cons t ts ih =>
      rw [buildAll] at h
      cases ht : t.build stack with
      | error e =>
          rw [ht] at h
          cases h
      | ok s =>
          rw [ht] at h
          obtain ⟨is, rfl⟩ := ih h
          cases t with
          | leaf x => exact ⟨.leaf x :: is, rfl⟩
          | unaryOperator op => exact ⟨.unary op :: is, rfl⟩
          | binaryOperator op => exact ⟨.binary op :: is, rfl⟩
          | beginGroup => cases ht
          | endGroup => cases ht

theorem build_eq_ok_iff {ts : List (Token R)} {e : Expression R} :
    build ts = .ok e ↔ ts = e.word.map Token.ofItem := by
  constructor
  · intro h
    rw [build] at h
    cases hall : buildAll ts [] with
    | error x =>
        rw [hall] at h
        cases h
    | ok stack =>
        rw [hall] at h
        obtain ⟨is, rfl⟩ := exists_items_of_buildAll hall
        have hword := buildAll_map is []
        rw [hall] at hword
        rcases stack with _ | ⟨e', _ | ⟨e'', stack⟩⟩
        · cases h
        · obtain rfl := Except.ok.inj h
          rw [assemble_eq_some_iff.mp hword.symm]
        · cases h
  · rintro rfl
    have hword := buildAll_map e.word []
    rw [assemble_word] at hword
    rw [build]
    cases hall : buildAll (e.word.map Token.ofItem) [] with
    | error x =>
        rw [hall] at hword
        cases hword
    | ok stack =>
        rw [hall] at hword
        obtain rfl := Option.some.inj hword
        rfl

theorem leafTokens_map (is : List (Op R)) : leafTokens (is.map Token.ofItem) = leafList is := by
  rw [leafTokens, leafList, List.filterMap_map]
  congr 1
  funext i
  cases i <;> rfl

/-! ## Where the leaves stand -/

/-- A leaf at the end of the text is not the beginning of a keyword, or an earlier leaf has left a
space where it is cut. -/
def EndIsRead (lang : Lang R) (texts : List (List UInt16)) (xs : List (Lexeme R)) : Prop :=
  ∀ ys x, xs = ys ++ [.leaf x] → IsCut (x.text lang) →
    lastWritten (x.text lang).length
      (texts ++ (ys.filterMap Lexeme.leaf?).map (Leaf.text lang)) = some (unit ' ')

theorem endIsRead_nil (texts : List (List UInt16)) : EndIsRead lang texts [] := by
  rintro ys x heq
  exact absurd heq.symm (List.append_ne_nil_of_right_ne_nil _ (List.cons_ne_nil _ _))

theorem endIsRead_cons {texts : List (List UInt16)} {y : Lexeme R} (hy : y.leaf? = none)
    {xs : List (Lexeme R)} : EndIsRead lang texts (y :: xs) ↔ EndIsRead lang texts xs := by
  constructor
  · intro hall ys x heq
    have := hall (y :: ys) x (congrArg (List.cons y) heq)
    rwa [List.filterMap_cons_none hy] at this
  · intro hall ys x heq
    rcases ys with _ | ⟨z, ys⟩
    · rw [(List.cons.inj heq).1] at hy
      cases hy
    · obtain ⟨rfl, hxs⟩ := List.cons.inj heq
      rw [List.filterMap_cons_none hy]
      exact hall ys x hxs

theorem endIsRead_leaf {texts : List (List UInt16)} {y : Leaf R} {xs : List (Lexeme R)} :
    EndIsRead lang texts (.leaf y :: xs) ↔
      (follow lang xs = [] → IsCut (y.text lang) →
        lastWritten (y.text lang).length texts = some (unit ' ')) ∧
          EndIsRead lang (texts ++ [y.text lang]) xs := by
  constructor
  · intro hall
    refine ⟨fun hnil hcut => ?_, fun ys x heq hcut => ?_⟩
    · have hxs : xs = [] := by
        by_contra hne
        rw [follow, if_neg hne] at hnil
        cases hnil
      have := hall [] y (by rw [hxs]; rfl) hcut
      simpa only [List.filterMap_nil, List.map_nil, List.append_nil] using this
    · have := hall (.leaf y :: ys) x (congrArg (List.cons _) heq) hcut
      rwa [filterMap_leaf, List.map_cons, ← List.singleton_append, ← List.append_assoc] at this
  · rintro ⟨hlast, hall⟩ ys x heq hcut
    rcases ys with _ | ⟨z, ys⟩
    · obtain ⟨hyx, hxs⟩ := List.cons.inj heq
      injection hyx with hyx
      subst hyx
      have hnil : follow lang xs = [] := by rw [hxs, follow, if_pos rfl]
      simpa only [List.filterMap_nil, List.map_nil, List.append_nil] using hlast hnil hcut
    · obtain ⟨rfl, hxs⟩ := List.cons.inj heq
      have := hall ys x hxs hcut
      rwa [List.append_assoc] at this

theorem allComeBack_iff {texts : List (List UInt16)} {xs : List (Lexeme R)} :
    AllComeBack lang texts xs ↔
      (∀ x ∈ xs.filterMap Lexeme.leaf?, x.IsRead lang) ∧ EndIsRead lang texts xs := by
  induction xs generalizing texts with
  | nil => exact ⟨fun _ => ⟨fun x hx => absurd hx List.not_mem_nil, endIsRead_nil texts⟩, fun _ => trivial⟩
  | cons y xs ih =>
      cases y with
      | operator op => exact ih.trans (and_congr_right fun _ => (endIsRead_cons rfl).symm)
      | leftParenthesis => exact ih.trans (and_congr_right fun _ => (endIsRead_cons rfl).symm)
      | rightParenthesis => exact ih.trans (and_congr_right fun _ => (endIsRead_cons rfl).symm)
      | leaf y =>
          rw [filterMap_leaf, List.forall_mem_cons, endIsRead_leaf]
          change ComesBack lang texts (follow lang xs) y ∧ AllComeBack lang _ xs ↔ _
          rw [ih, ComesBack]
          tauto

/-! ## The round trip -/

theorem text_ne_nil (h : lang.Documented) {x : Leaf R} (hx : x.Writable lang) :
    x.text lang ≠ [] := by
  cases x with
  | literal v =>
      cases v with
      | null => exact List.cons_ne_nil _ _
      | bool b => cases b <;> exact List.cons_ne_nil _ _
      | string s => exact List.cons_ne_nil _ _
      | long n =>
          obtain ⟨c, w, htext, -⟩ := decimalText_head h n
          rw [Leaf.text, Value.text, htext]
          exact List.cons_ne_nil _ _
      | double d =>
          obtain ⟨c, w, htext, -⟩ := IsDecimal.head h hx
          rw [Leaf.text, Value.text, htext]
          exact List.cons_ne_nil _ _
  | «variable» keyPath =>
      rcases keyPath with _ | ⟨first, keys⟩
      · cases hx
      · exact List.append_ne_nil_of_left_ne_nil (identifier_ne_nil hx.1) _

theorem length_le_textOf (h : lang.Documented) {xs : List (Lexeme R)}
    (hxs : ∀ x ∈ xs.filterMap Lexeme.leaf?, x.Writable lang) :
    xs.length ≤ (textOf lang xs).length := by
  induction xs with
  | nil => exact Nat.zero_le _
  | cons x xs ih =>
      have hpos : 0 < (x.text lang).length ∧
          ∀ y ∈ xs.filterMap Lexeme.leaf?, y.Writable lang := by
        cases x with
        | leaf y =>
            rw [filterMap_leaf] at hxs
            exact ⟨List.length_pos_iff.mpr (text_ne_nil h (hxs y List.mem_cons_self)),
              fun z hz => hxs z (List.mem_cons_of_mem _ hz)⟩
        | operator op => exact ⟨by cases op <;> exact Nat.succ_pos _, hxs⟩
        | leftParenthesis => exact ⟨Nat.succ_pos _, hxs⟩
        | rightParenthesis => exact ⟨Nat.succ_pos _, hxs⟩
      have hrest := ih hpos.2
      have hfollow : (textOf lang xs).length ≤ (follow lang xs).length := by
        rcases xs with _ | ⟨y, xs⟩
        · exact le_rfl
        · exact Nat.le_succ _
      rw [textOf_cons, List.length_append, List.length_cons]
      omega

/-- An expression comes back if its operators do, and its leaves where they stand. -/
theorem parse_print_comesBack (h : lang.Documented) (e : Expression R)
    (he : ∀ x ∈ e.leaves, x.Writable lang) :
    parse lang (print lang e) = .ok e ↔ IsRead e ∧ AllComeBack lang [] (lexemes e) := by
  have hxs : ∀ x ∈ (lexemes e).filterMap Lexeme.leaf?, x.Writable lang := by
    rwa [filterMap_lexemes]
  have hfuel : (lexemes e).length < (print lang e).length + 2 :=
    Nat.lt_add_right 1 (Nat.lt_succ_of_le (length_le_textOf h hxs))
  have hparse : (parse lang (print lang e) = .ok e) ↔
      (tokenize lang (print lang e)).toOption = some (e.word.map Token.ofItem) := by
    rw [parse]
    cases tokenize lang (print lang e) with
    | error x =>
        constructor
        · rintro ⟨⟩
        · rintro ⟨⟩
    | ok ts =>
        refine build_eq_ok_iff.trans ⟨?_, ?_⟩
        · rintro rfl
          rfl
        · exact Option.some.inj
  have hrun : AllComeBack lang [] (lexemes e) → (tokenize lang (print lang e)).toOption =
      (runLexemes (lexemes e) true ⟨[], []⟩).map fun p => p.2.tokens ++ p.2.stack :=
    fun hall => tokenizeFrom_textOf h hxs hall (fun _ => buffered_nil) hfuel true ⟨[], []⟩
  rw [hparse]
  constructor
  · intro htokens
    have hall : AllComeBack lang [] (lexemes e) := by
      cases hts : tokenize lang (print lang e) with
      | error x =>
          rw [hts] at htokens
          cases htokens
      | ok ts =>
          rw [hts] at htokens
          obtain rfl := Option.some.inj htokens
          refine allComeBack_of_tokenize h hxs (fun t ht => absurd ht List.not_mem_nil)
            (fun _ => buffered_nil) hfuel rfl hts ?_
          rw [leafTokens_map, leafList_word, filterMap_lexemes]
          rfl
    refine ⟨(run_eq_word_iff e).mp ?_, hall⟩
    rw [← hrun hall]
    exact htokens
  · rintro ⟨hread, hall⟩
    rw [hrun hall]
    exact (run_eq_word_iff e).mpr hread

/-- **When an expression comes back from its text.** -/
theorem parse_print_iff (lang : Lang R) (h : lang.Documented) (e : Expression R)
    (he : ∀ x ∈ e.leaves, x.Writable lang) :
    parse lang (print lang e) = .ok e ↔
      IsRead e ∧ (∀ x ∈ e.leaves, x.IsRead lang) ∧ EndIsRead lang [] (lexemes e) := by
  have hback : AllComeBack lang [] (lexemes e) ↔
      (∀ x ∈ e.leaves, x.IsRead lang) ∧ EndIsRead lang [] (lexemes e) := by
    rw [allComeBack_iff, filterMap_lexemes]
  rw [← hback]
  exact parse_print_comesBack h e he

/-! ## A standard library for ASCII -/

/-- `Character` on ASCII, with one double. -/
def asciiLang : Lang Unit where
  isWhitespace := asciiWhitespace
  isJavaIdentifierStart := asciiStart
  isJavaIdentifierPart := asciiPart
  digit := fun c radix => asciiDigit radix c
  parseDouble := fun w => if w = units "0.5" then some () else none
  doubleToString := fun _ => units "0.5"

theorem asciiLang_isDigit {c : UInt16} (h : asciiLang.isDigit c = true) :
    48 ≤ c.toNat ∧ c.toNat ≤ 57 := by
  unfold Lang.isDigit asciiLang asciiDigit at h
  simp only [Nat.reduceEqDiff, false_and, if_false] at h
  split at h
  · next hc => exact ⟨UInt16.le_iff_toNat_le.mp hc.1, UInt16.le_iff_toNat_le.mp hc.2⟩
  · cases h

theorem asciiLang_documented : asciiLang.Documented := by
  constructor
  · exact fun c _ => rfl
  · exact fun c _ => rfl
  · exact fun c _ => rfl
  · exact fun c radix _ _ => rfl
  · intro c hc
    simp only [asciiLang, asciiPart] at hc ⊢
    rw [hc]
    simp only [Bool.true_or]
  · intro c hc
    have hdigit := asciiLang_isDigit hc
    simp only [asciiLang, asciiPart, Bool.or_eq_true, Bool.and_eq_true, decide_eq_true_eq,
      UInt16.le_iff_toNat_le]
    exact Or.inl (Or.inl (Or.inl (Or.inr hdigit)))
  · intro c hc
    have hdigit := asciiLang_isDigit hc
    have h36 : c ≠ 36 := by rintro rfl; exact absurd hdigit (by decide)
    have h95 : c ≠ 95 := by rintro rfl; exact absurd hdigit (by decide)
    simp only [asciiLang, asciiStart, Bool.or_eq_false_iff, Bool.and_eq_false_iff,
      decide_eq_false_iff_not, UInt16.le_iff_toNat_le, beq_eq_false_iff_ne]
    refine ⟨⟨⟨Or.inl ?_, Or.inl ?_⟩, h36⟩, h95⟩
    · exact not_le.mpr (lt_of_le_of_lt hdigit.2 (by decide))
    · exact not_le.mpr (lt_of_le_of_lt hdigit.2 (by decide))
  · intro c hc
    simp only [asciiLang, asciiPart, asciiStart, asciiWhitespace, Bool.or_eq_true,
      Bool.and_eq_true, Bool.or_eq_false_iff, Bool.and_eq_false_iff, decide_eq_true_eq,
      decide_eq_false_iff_not, beq_iff_eq, UInt16.le_iff_toNat_le, ← UInt16.toNat_inj,
      UInt16.reduceToNat] at hc ⊢
    omega
  · intro c hc
    have hdigit := asciiLang_isDigit hc
    simp only [isISOControl, Bool.and_eq_false_iff, Bool.or_eq_false_iff, decide_eq_false_iff_not,
      UInt16.le_iff_toNat_le, UInt16.reduceToNat]
    omega
  · exact fun d => rfl
  · intro w
    refine if_neg fun heq => ?_
    have hlast := congrArg List.getLast? heq
    rw [List.getLast?_concat] at hlast
    revert hlast
    decide

/-- The variable of one letter. -/
def letter (c : Char) : Expression Unit := .leaf (.variable [[unit c]])

theorem a_minus_b : parse asciiLang (print asciiLang
    (.binary .subtract (letter 'a') (letter 'b'))) =
      .ok (.binary .subtract (letter 'a') (letter 'b')) := by
  have hleaves : ∀ x ∈ (Tree.binary BinaryOperator.subtract (letter 'a') (letter 'b')).leaves,
      x = Leaf.variable [[unit 'a']] ∨ x = Leaf.variable [[unit 'b']] := by
    intro x hx
    simpa only [Tree.leaves, letter, List.cons_append, List.nil_append, List.mem_cons,
      List.not_mem_nil, or_false] using hx
  refine (parse_print_iff asciiLang asciiLang_documented _ ?_).mpr ⟨?_, ?_, ?_⟩
  · intro x hx
    rcases hleaves x hx with rfl | rfl
    · exact ⟨by decide, fun key hkey => absurd hkey List.not_mem_nil⟩
    · exact ⟨by decide, fun key hkey => absurd hkey List.not_mem_nil⟩
  · exact ⟨trivial, trivial, fun _ => rfl, nofun, Or.inr rfl⟩
  · intro x hx
    rcases hleaves x hx with rfl | rfl
    · exact ⟨nofun, fun key hkey => absurd hkey List.not_mem_nil⟩
    · exact ⟨nofun, fun key hkey => absurd hkey List.not_mem_nil⟩
  · -- no keyword begins with the last letter
    rintro ys x heq ⟨kw, hkw, -⟩
    have hlast := congrArg List.getLast? heq
    rw [List.getLast?_concat] at hlast
    obtain rfl : Leaf.variable [[unit 'b']] = x := by
      injection Option.some.inj hlast
    cases hkw

/-- Subtraction groups to the right. -/
theorem subtraction_groups_right :
    parse asciiLang (print asciiLang
      (.binary .subtract (.binary .subtract (letter 'a') (letter 'b')) (letter 'c'))) =
        .ok (.binary .subtract (letter 'a') (.binary .subtract (letter 'b') (letter 'c'))) ∧
    (Tree.binary .subtract (letter 'a') (.binary .subtract (letter 'b') (letter 'c')) :
      Expression Unit) ≠
        .binary .subtract (.binary .subtract (letter 'a') (letter 'b')) (letter 'c') := by
  decide +kernel

end JavaFx.Fxml
