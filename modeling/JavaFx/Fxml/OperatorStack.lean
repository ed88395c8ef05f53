import JavaFx.Fxml.ExpressionText

/-!
# What the operator stack makes of printed lexemes

`SUBTRACT` is the text of `NEGATE`, whose priority nothing pops, so that every `-` and every `!`
takes all that follows it in its group. `passed` computes what a printed expression has put out
and what it leaves on the stack; it spells the expression exactly if `IsRead` holds.
-/

namespace JavaFx.Fxml

open Postfix

variable {R : Type}

/-- The items of postfix words of expressions. -/
abbrev Op (R : Type) := Item (Leaf R) UnaryOperator BinaryOperator

/-- An item as a token. -/
def Token.ofItem : Op R → Token R
  | .leaf x => .leaf x
  | .unary u => .unaryOperator u
  | .binary b => .binaryOperator b

/-- The token of a lexeme, where `-` and `!` may be `unary`; `!=` is not read there, nor is `!`
elsewhere. -/
def Lexeme.token (unary : Bool) : Lexeme R → Option (Token R)
  | .leaf x => some (.leaf x)
  | .operator .minus => some (if unary then .unaryOperator .negate else .binaryOperator .subtract)
  | .operator .exclamation => if unary then some (.unaryOperator .not) else none
  | .operator .plus => some (.binaryOperator .add)
  | .operator .asterisk => some (.binaryOperator .multiply)
  | .operator .slash => some (.binaryOperator .divide)
  | .operator .percent => some (.binaryOperator .modulo)
  | .operator .greater => some (.binaryOperator .greaterThan)
  | .operator .greaterEqual => some (.binaryOperator .greaterThanOrEqualTo)
  | .operator .less => some (.binaryOperator .lessThan)
  | .operator .lessEqual => some (.binaryOperator .lessThanOrEqualTo)
  | .operator .equalEqual => some (.binaryOperator .equalTo)
  | .operator .exclamationEqual => if unary then none else some (.binaryOperator .notEqualTo)
  | .operator .ampersands => some (.binaryOperator .and)
  | .operator .bars => some (.binaryOperator .or)
  | .leftParenthesis => some .beginGroup
  | .rightParenthesis => some .endGroup

/-- The lexemes on the stack of operators: the last `unary` and what is pending. -/
def runLexemes : List (Lexeme R) → Bool → Pending R → Option (Bool × Pending R)
  | [], unary, s => some (unary, s)
  | x :: xs, unary, s => do
      let token ← x.token unary
      let s' ← (s.process token).toOption
      runLexemes xs token.unaryAfter s'

/-! ## Conditions on expressions -/

/-- The text ends in a parenthesis. -/
def endsInParenthesis : Expression R → Bool
  | .leaf _ => false
  | .unary _ x => wrapsOperand x || endsInParenthesis x
  | .binary b _ r => wrapsRight b r || endsInParenthesis r

/-- The text of the left operand ends in a parenthesis. -/
def leftEndsInParenthesis (b : BinaryOperator) (left : Expression R) : Bool :=
  wrapsLeft b left || endsInParenthesis left

/-- The text ends in the operand of a `-` or a `!`, outside parentheses. -/
def isOpen : Expression R → Bool
  | .leaf _ => false
  | .unary _ _ => true
  | .binary b _ r => b == .subtract || (!wrapsRight b r && isOpen r)

/-- A literal or a variable. -/
def isLeaf : Expression R → Bool
  | .leaf _ => true
  | _ => false

/-- No `!=` follows a parenthesis. -/
def NoFault : Expression R → Prop
  | .leaf _ => True
  | .unary _ x => NoFault x
  | .binary b l r =>
      NoFault l ∧ NoFault r ∧ (b = .notEqualTo → leftEndsInParenthesis b l = false)

/-- The expressions that come back from their text: the left operand of a `-` is a leaf, that of a
`!=` does not end in a parenthesis, and a left operand without parentheses does not end in the
operand of a `-` or a `!`. -/
def IsRead : Expression R → Prop
  | .leaf _ => True
  | .unary _ x => IsRead x
  | .binary b l r => IsRead l ∧ IsRead r ∧ (b = .subtract → isLeaf l = true) ∧
      (b = .notEqualTo → leftEndsInParenthesis b l = false) ∧
      (wrapsLeft b l = true ∨ isOpen l = false)

theorem IsRead.noFault {e : Expression R} (h : IsRead e) : NoFault e := by
  induction e with
  | leaf x => trivial
  | unary u x ih => exact ih h
  | binary b l r ihl ihr => exact ⟨ihl h.1, ihr h.2.1, h.2.2.2.1⟩

/-! ## What has been put out and what is left on the stack -/

/-- The priority of an operator on the stack. -/
def opPriority : Op R → ℕ
  | .leaf _ => 0
  | .unary u => getPriority u.text
  | .binary b => getPriority b.text

/-- An operator on the stack goes before `b`. -/
def yields (b : BinaryOperator) (i : Op R) : Bool :=
  getPriority b.text ≤ opPriority i && opPriority i != maxPriority

/-- Put out and left, for an operand in parentheses if it `wraps`. -/
def settle (wraps : Bool) (p : List (Op R) × List (Op R)) :
    List (Op R) × List (Op R) :=
  if wraps then (p.1 ++ p.2, []) else p

/-- The operator token of `b`: a `-` after a parenthesis is unary. -/
def operatorItem (b : BinaryOperator) (afterParenthesis : Bool) : Op R :=
  if b == .subtract && afterParenthesis then .unary .negate else .binary b

/-- What a printed expression has put out, and the operators it leaves, the top first. -/
def passed : Expression R → List (Op R) × List (Op R)
  | .leaf x => ([.leaf x], [])
  | .unary u x =>
      ((settle (wrapsOperand x) (passed x)).1, (settle (wrapsOperand x) (passed x)).2 ++ [.unary u])
  | .binary b l r =>
      let left := settle (wrapsLeft b l) (passed l)
      let right := settle (wrapsRight b r) (passed r)
      (left.1 ++ left.2.takeWhile (yields b) ++ right.1,
        right.2 ++ operatorItem b (leftEndsInParenthesis b l) :: left.2.dropWhile (yields b))

/-- The items are operators. -/
def AllOps (is : List (Op R)) : Prop := ∀ i ∈ is, ∃ op, (Token.ofItem i).operator? = some op

theorem ofItem_operator? {i : Op R} {op : OperatorText} (h : (Token.ofItem i).operator? = some op) :
    opPriority i = getPriority op := by
  cases i with
  | leaf x => cases h
  | unary u | binary b =>
      obtain rfl := Option.some.inj h
      rfl

theorem operatorItem_operator? (b : BinaryOperator) (a : Bool) :
    (Token.ofItem (operatorItem b a : Op R)).operator? = some b.text := by
  unfold operatorItem
  split
  · next h =>
      rw [Bool.and_eq_true, beq_iff_eq] at h
      rw [h.1]
      rfl
  · rfl

theorem opPriority_operatorItem (b : BinaryOperator) (a : Bool) :
    opPriority (operatorItem b a : Op R) = getPriority b.text :=
  ofItem_operator? (operatorItem_operator? b a)

theorem AllOps.settle {p : List (Op R) × List (Op R)} (h : AllOps p.2) (wraps : Bool) :
    AllOps (settle wraps p).2 := by
  cases wraps with
  | false => exact h
  | true => exact fun i hi => absurd hi List.not_mem_nil

theorem allOps_passed (e : Expression R) : AllOps (passed e).2 := by
  induction e with
  | leaf x => exact fun i hi => absurd hi List.not_mem_nil
  | unary u x ih =>
      rintro i hi
      rcases List.mem_append.mp hi with hi | hi
      · exact ih.settle _ i hi
      · rw [List.mem_singleton.mp hi]
        exact ⟨_, rfl⟩
  | binary b l r ihl ihr =>
      rintro i hi
      rcases List.mem_append.mp hi with hi | hi
      · exact ihr.settle _ i hi
      rcases List.mem_cons.mp hi with rfl | hi
      · exact ⟨_, operatorItem_operator? b _⟩
      · exact ihl.settle _ i ((List.dropWhile_sublist _).subset hi)

/-! ## Precedence of what is left -/

theorem precedence_le_priority (b : BinaryOperator) : b.precedence ≤ getPriority b.text := by
  cases b <;> decide

theorem priority_eq_of_ne {b : BinaryOperator} (h : b ≠ .subtract) :
    getPriority b.text = b.precedence := by
  cases b <;> first | rfl | exact absurd rfl h

theorem priority_subtract : getPriority BinaryOperator.subtract.text = maxPriority := rfl

theorem getPriority_le_max (op : OperatorText) : getPriority op ≤ maxPriority := by
  cases op <;> decide

theorem precedence_lt_max (b : BinaryOperator) : b.precedence < maxPriority := by
  cases b <;> decide

theorem priority_unary (u : UnaryOperator) : getPriority u.text = maxPriority := by
  cases u <;> rfl

/-- Nothing an expression leaves on the stack binds weaker than the expression. -/
theorem precedence_le_of_mem {e : Expression R} {i : Op R} (hi : i ∈ (passed e).2) :
    precedence e ≤ opPriority i := by
  induction e generalizing i with
  | leaf x => exact absurd hi List.not_mem_nil
  | unary u x ih =>
      rcases List.mem_append.mp hi with hi | hi
      · by_cases hw : wrapsOperand x = true
        · rw [settle, if_pos hw] at hi
          exact absurd hi List.not_mem_nil
        · rw [settle, if_neg hw] at hi
          have hx : 6 ≤ precedence x := not_lt.mp fun hlt => hw (decide_eq_true hlt)
          exact hx.trans (ih hi)
      · rw [List.mem_singleton.mp hi]
        exact (priority_unary u).ge
  | binary b l r ihl ihr =>
      rcases List.mem_append.mp hi with hi | hi
      · by_cases hw : wrapsRight b r = true
        · rw [settle, if_pos hw] at hi
          exact absurd hi List.not_mem_nil
        · rw [settle, if_neg hw] at hi
          have hr : b.precedence < precedence r := not_le.mp fun hle => hw (decide_eq_true hle)
          exact hr.le.trans (ihr hi)
      rcases List.mem_cons.mp hi with rfl | hi
      · rw [opPriority_operatorItem]
        exact precedence_le_priority b
      · have hmem := (List.dropWhile_sublist (yields b)).subset hi
        by_cases hw : wrapsLeft b l = true
        · rw [settle, if_pos hw] at hmem
          exact absurd hmem List.not_mem_nil
        · rw [settle, if_neg hw] at hmem
          have hl : b.precedence ≤ precedence l := not_lt.mp fun hlt => hw (decide_eq_true hlt)
          exact hl.trans (ihl hmem)

/-! ## The run over the lexemes of an expression -/

/-- The top of the stack stays where it is for every operator of at least this precedence. -/
def Guards (p : ℕ) (stack : List (Token R)) : Prop :=
  ∀ top ∈ stack.head?, ∀ op, top.operator? = some op →
    getPriority op < p ∨ getPriority op = maxPriority

theorem Guards.popOperators {stack : List (Token R)} {p q : ℕ} (h : Guards p stack)
    (hpq : p ≤ q) (tokens : List (Token R)) :
    popOperators q tokens stack = ⟨tokens, stack⟩ := by
  rcases stack with _ | ⟨top, stack⟩
  · rfl
  unfold Fxml.popOperators
  split
  · rfl
  · next op hop =>
      refine if_neg ?_
      rintro ⟨hle, hne⟩
      rcases h top rfl op hop with hlt | hmax
      · exact absurd (hpq.trans hle) (not_le.mpr hlt)
      · exact hne hmax

/-- The operators that yield go, and the first that does not, or the guard below, stops the loop. -/
theorem popOperators_map {b : BinaryOperator} {stack : List (Token R)}
    (hstack : Guards b.precedence stack) {is : List (Op R)} (his : AllOps is)
    (tokens : List (Token R)) :
    popOperators (getPriority b.text) tokens (is.map Token.ofItem ++ stack) =
      ⟨tokens ++ (is.takeWhile (yields b)).map Token.ofItem,
        (is.dropWhile (yields b)).map Token.ofItem ++ stack⟩ := by
  induction is generalizing tokens with
  | nil =>
      rw [List.map_nil, List.nil_append, hstack.popOperators (precedence_le_priority b)]
      simp only [List.takeWhile_nil, List.dropWhile_nil, List.map_nil, List.append_nil,
        List.nil_append]
  | cons i is ih =>
      obtain ⟨op, hop⟩ := his i List.mem_cons_self
      have hpri := ofItem_operator? hop
      rw [List.map_cons, List.cons_append, popOperators, hop]
      by_cases hy : yields b i = true
      · have hy' := hy
        rw [yields, Bool.and_eq_true, decide_eq_true_eq, bne_iff_ne, hpri] at hy'
        rw [List.takeWhile_cons_of_pos hy, List.dropWhile_cons_of_pos hy]
        refine (if_pos hy').trans ?_
        rw [ih fun j hj => his j (List.mem_cons_of_mem _ hj)]
        simp only [List.map_cons, List.append_assoc, List.singleton_append]
      · rw [List.takeWhile_cons_of_neg hy, List.dropWhile_cons_of_neg hy]
        have hy' : ¬(getPriority b.text ≤ getPriority op ∧ getPriority op ≠ maxPriority) := by
          rintro ⟨hle, hne⟩
          refine hy ?_
          rw [yields, Bool.and_eq_true, decide_eq_true_eq, bne_iff_ne, hpri]
          exact ⟨hle, hne⟩
        refine (if_neg hy').trans ?_
        simp only [List.map_nil, List.append_nil, List.map_cons, List.cons_append]

theorem popGroup_map {is : List (Op R)} (his : AllOps is) (tokens stack : List (Token R)) :
    popGroup tokens (is.map Token.ofItem ++ .beginGroup :: stack) =
      .ok ⟨tokens ++ is.map Token.ofItem, stack⟩ := by
  induction is generalizing tokens with
  | nil =>
      simp only [List.map_nil, List.nil_append, List.append_nil]
      rfl
  | cons i is ih =>
      have hrest := ih (fun j hj => his j (List.mem_cons_of_mem _ hj)) (tokens ++ [Token.ofItem i])
      rw [List.append_assoc, List.singleton_append] at hrest
      obtain ⟨op, hop⟩ := his i List.mem_cons_self
      cases i with
      | leaf x => cases hop
      | unary u => exact hrest
      | binary b => exact hrest

theorem runLexemes_cons {x : Lexeme R} {unary : Bool} {token : Token R} {s s' : Pending R}
    (htoken : x.token unary = some token) (hs : s.process token = .ok s') (xs : List (Lexeme R)) :
    runLexemes (x :: xs) unary s = runLexemes xs token.unaryAfter s' := by
  rw [runLexemes, htoken]
  simp only [Option.bind_eq_bind, Option.bind_some, hs, Except.toOption]

theorem beginGroup_token (unary : Bool) :
    (Lexeme.leftParenthesis : Lexeme R).token unary = some .beginGroup := rfl

theorem endGroup_token (unary : Bool) :
    (Lexeme.rightParenthesis : Lexeme R).token unary = some .endGroup := rfl

/-- The run over an expression between its neighbours. -/
def Runs (e : Expression R) : Prop :=
  ∀ (xs : List (Lexeme R)) (tokens stack : List (Token R)), Guards (precedence e) stack →
    runLexemes (lexemes e ++ xs) true ⟨tokens, stack⟩ =
      runLexemes xs (endsInParenthesis e)
        ⟨tokens ++ (passed e).1.map Token.ofItem, (passed e).2.map Token.ofItem ++ stack⟩

/-- An operand runs as it does alone, or is settled by its parentheses. -/
theorem Runs.wrap {e : Expression R} (h : Runs e) {wraps : Bool} (xs : List (Lexeme R))
    (tokens stack : List (Token R)) (hstack : wraps = false → Guards (precedence e) stack) :
    runLexemes (wrap wraps (lexemes e) ++ xs) true ⟨tokens, stack⟩ =
      runLexemes xs (wraps || endsInParenthesis e)
        ⟨tokens ++ (settle wraps (passed e)).1.map Token.ofItem,
          (settle wraps (passed e)).2.map Token.ofItem ++ stack⟩ := by
  cases wraps with
  | false => exact h xs tokens stack (hstack rfl)
  | true =>
      have hguard : Guards (precedence e) (.beginGroup :: stack) := by
        rintro top htop op hop
        obtain rfl := Option.some.inj htop
        cases hop
      have hinner := h (.rightParenthesis :: xs) tokens (.beginGroup :: stack) hguard
      have hclose : (⟨tokens ++ (passed e).1.map Token.ofItem,
          (passed e).2.map Token.ofItem ++ .beginGroup :: stack⟩ : Pending R).process .endGroup =
            .ok ⟨tokens ++ (passed e).1.map Token.ofItem ++ (passed e).2.map Token.ofItem, stack⟩ :=
        popGroup_map (allOps_passed e) _ stack
      rw [Fxml.wrap, if_pos rfl, List.cons_append, List.cons_append, List.append_assoc,
        List.singleton_append, runLexemes_cons (beginGroup_token _) rfl]
      refine hinner.trans ?_
      rw [runLexemes_cons (endGroup_token _) hclose]
      simp only [settle, if_pos, List.map_append, List.append_assoc, List.map_nil, List.nil_append]
      rfl

theorem unary_token (u : UnaryOperator) :
    (Lexeme.operator u.text : Lexeme R).token true = some (.unaryOperator u) := by
  cases u <;> rfl

theorem binary_token {b : BinaryOperator} {after : Bool}
    (h : b = .notEqualTo → after = false) :
    (Lexeme.operator b.text : Lexeme R).token after =
      some (Token.ofItem (operatorItem b after)) := by
  cases b with
  | subtract => cases after <;> rfl
  | notEqualTo =>
      rw [h rfl]
      rfl
  | _ => cases after <;> rfl

/-- The priority of a unary operator or a `-` takes nothing from the stack. -/
theorem popOperators_max (tokens stack : List (Token R)) :
    popOperators maxPriority tokens stack = ⟨tokens, stack⟩ := by
  rcases stack with _ | ⟨top, stack⟩
  · rfl
  unfold popOperators
  split
  · rfl
  · next op hop =>
      refine if_neg ?_
      rintro ⟨hle, hne⟩
      exact hne (le_antisymm (getPriority_le_max op) hle)

theorem process_operatorItem (b : BinaryOperator) (after : Bool) (s : Pending R) :
    s.process (Token.ofItem (operatorItem b after)) =
      .ok (s.operator (Token.ofItem (operatorItem b after)) b.text) := by
  unfold operatorItem
  split
  · next h =>
      rw [Bool.and_eq_true, beq_iff_eq] at h
      rw [h.1]
      rfl
  · rfl

theorem unaryAfter_operatorItem (b : BinaryOperator) (after : Bool) :
    (Token.ofItem (operatorItem b after) : Token R).unaryAfter = true := by
  unfold operatorItem
  split <;> rfl

theorem process_unary (u : UnaryOperator) (tokens stack : List (Token R)) :
    (⟨tokens, stack⟩ : Pending R).process (.unaryOperator u) =
      .ok ⟨tokens, .unaryOperator u :: stack⟩ := by
  simp only [Pending.process, Pending.operator, priority_unary, popOperators_max]

theorem guards_unary (u : UnaryOperator) (p : ℕ) (stack : List (Token R)) :
    Guards p (.unaryOperator u :: stack) := by
  rintro top htop op hop
  obtain rfl := Option.some.inj htop
  obtain rfl := Option.some.inj hop
  exact Or.inr (priority_unary u)

theorem Guards.left {stack : List (Token R)} (b : BinaryOperator) (l r : Expression R)
    (h : Guards (precedence (.binary b l r : Expression R)) stack) (hw : wrapsLeft b l = false) :
    Guards (precedence l) stack := by
  rintro top htop op hop
  have hle : b.precedence ≤ precedence l := not_lt.mp (of_decide_eq_false hw)
  exact (h top htop op hop).imp_left fun hlt => lt_of_lt_of_le hlt hle

theorem guards_right (b : BinaryOperator) (r : Expression R) (after : Bool)
    (stack : List (Token R)) (hw : wrapsRight b r = false) :
    Guards (precedence r) (Token.ofItem (operatorItem b after) :: stack) := by
  rintro top htop op hop
  obtain rfl := Option.some.inj htop
  rw [operatorItem_operator?] at hop
  obtain rfl := Option.some.inj hop
  have hlt : b.precedence < precedence r := not_le.mp (of_decide_eq_false hw)
  by_cases hsub : b = .subtract
  · right
    rw [hsub]
    rfl
  · left
    rw [priority_eq_of_ne hsub]
    exact hlt

theorem runs_of_noFault {e : Expression R} (h : NoFault e) : Runs e := by
  induction e with
  | leaf x =>
      rintro xs tokens stack -
      exact runLexemes_cons (show (Lexeme.leaf x).token true = some (.leaf x) from rfl) rfl xs
  | unary u x ih =>
      rintro xs tokens stack hstack
      rw [lexemes, List.cons_append, runLexemes_cons (unary_token u) (process_unary u _ _)]
      refine ((ih h).wrap xs tokens _ fun _ => guards_unary u _ _).trans ?_
      simp only [passed, List.map_append, List.map_cons, List.map_nil, List.append_assoc,
        List.cons_append, List.nil_append, Token.ofItem]
      rfl
  | binary b l r ihl ihr =>
      rintro xs tokens stack hstack
      obtain ⟨hl, hr, hne⟩ := h
      have hops : AllOps (settle (wrapsLeft b l) (passed l)).2 := (allOps_passed l).settle _
      rw [lexemes, List.append_assoc, List.cons_append]
      refine ((ihl hl).wrap _ tokens stack (hstack.left b l r)).trans ?_
      rw [← leftEndsInParenthesis,
        runLexemes_cons (binary_token hne) (process_operatorItem b _ _), Pending.operator,
        popOperators_map hstack hops, unaryAfter_operatorItem]
      refine ((ihr hr).wrap xs _ _ (guards_right b r _ _)).trans ?_
      simp only [passed, List.map_append, List.map_cons, List.append_assoc, List.cons_append]
      rfl

/-- The run over an expression throws. -/
def Throws (e : Expression R) : Prop :=
  ∀ (xs : List (Lexeme R)) (tokens stack : List (Token R)), Guards (precedence e) stack →
    runLexemes (lexemes e ++ xs) true ⟨tokens, stack⟩ = none

theorem Throws.wrap {e : Expression R} (h : Throws e) {wraps : Bool} (xs : List (Lexeme R))
    (tokens stack : List (Token R)) (hstack : wraps = false → Guards (precedence e) stack) :
    runLexemes (wrap wraps (lexemes e) ++ xs) true ⟨tokens, stack⟩ = none := by
  cases wraps with
  | false => exact h xs tokens stack (hstack rfl)
  | true =>
      rw [Fxml.wrap, if_pos rfl, List.cons_append, List.cons_append, List.append_assoc,
        List.singleton_append, runLexemes_cons (beginGroup_token _) rfl]
      refine h _ tokens (.beginGroup :: stack) ?_
      rintro top htop op hop
      obtain rfl := Option.some.inj htop
      cases hop

/-- A `!=` after a parenthesis is read as a `!` without its operand. -/
theorem throws_of_not_noFault {e : Expression R} (h : ¬NoFault e) : Throws e := by
  induction e with
  | leaf x => exact absurd trivial h
  | unary u x ih =>
      rintro xs tokens stack hstack
      rw [lexemes, List.cons_append, runLexemes_cons (unary_token u) (process_unary u _ _)]
      exact (ih h).wrap xs tokens _ fun _ => guards_unary u _ _
  | binary b l r ihl ihr =>
      rintro xs tokens stack hstack
      have hguardLeft := hstack.left b l r
      rw [lexemes, List.append_assoc, List.cons_append]
      by_cases hl : NoFault l
      · refine ((runs_of_noFault hl).wrap _ tokens stack hguardLeft).trans ?_
        rw [← leftEndsInParenthesis]
        by_cases hne : b = .notEqualTo → leftEndsInParenthesis b l = false
        · have hr : ¬NoFault r := fun hr => h ⟨hl, hr, hne⟩
          have hops : AllOps (settle (wrapsLeft b l) (passed l)).2 := (allOps_passed l).settle _
          rw [runLexemes_cons (binary_token hne) (process_operatorItem b _ _), Pending.operator,
            popOperators_map hstack hops, unaryAfter_operatorItem]
          exact (ihr hr).wrap xs _ _ (guards_right b r _ _)
        · obtain ⟨rfl, hafter⟩ := Classical.not_imp.mp hne
          rw [eq_true_of_ne_false hafter]
          rfl
      · exact (ihl hl).wrap _ tokens stack hguardLeft

end JavaFx.Fxml
