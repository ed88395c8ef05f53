import Mathlib.Data.List.TakeWhile
import JavaFx.Fxml.OperatorStack

/-!
# Which expressions come back from the operator stack

The stack never puts an operator out before its operands are out, but it may put it out late, or
take a `-` after a parenthesis as unary. Either makes the word lighter than the postfix form.
-/

namespace JavaFx.Fxml

open Postfix

variable {R : Type}

/-- The word that has been read when the stack is emptied after an expression. -/
def passedWord (e : Expression R) : List (Op R) := (passed e).1 ++ (passed e).2

theorem settle_append (wraps : Bool) (p : List (Op R) × List (Op R)) :
    (settle wraps p).1 ++ (settle wraps p).2 = p.1 ++ p.2 := by
  cases wraps with
  | false => rfl
  | true => exact List.append_nil _

theorem AllOps.leafCount_eq_zero {is : List (Op R)} (h : AllOps is) : leafCount is = 0 := by
  induction is with
  | nil => rfl
  | cons i is ih =>
      have htail := ih fun j hj => h j (List.mem_cons_of_mem _ hj)
      obtain ⟨op, hop⟩ := h i List.mem_cons_self
      cases i with
      | leaf x => cases hop
      | unary u => exact htail
      | binary b => exact htail

theorem AllOps.eq_nil {is : List (Op R)} (h : AllOps is) (hcount : opCount is = 0) : is = [] := by
  rcases is with _ | ⟨i, is⟩
  · rfl
  obtain ⟨op, hop⟩ := h i List.mem_cons_self
  cases i with
  | leaf x => cases hop
  | unary u => cases hcount
  | binary b => cases hcount

theorem AllOps.takeWhile {is : List (Op R)} (h : AllOps is) (p : Op R → Bool) :
    AllOps (is.takeWhile p) :=
  fun i hi => h i ((List.takeWhile_sublist p).subset hi)

theorem AllOps.dropWhile {is : List (Op R)} (h : AllOps is) (p : Op R → Bool) :
    AllOps (is.dropWhile p) :=
  fun i hi => h i ((List.dropWhile_sublist p).subset hi)

theorem ofItem_injective : Function.Injective (Token.ofItem : Op R → Token R) := by
  rintro (x | u | b) (y | v | c) h
  all_goals cases h
  all_goals rfl

/-! ## Counts -/

/-- The operators of `b` in the word: one is out, the other waits. -/
theorem opCount_operatorItem (b : BinaryOperator) (after : Bool) (is : List (Op R)) :
    opCount (operatorItem b after :: is) = opCount is + 1 := by
  unfold operatorItem
  split <;> rfl

theorem leafCount_operatorItem (b : BinaryOperator) (after : Bool) (is : List (Op R)) :
    leafCount (operatorItem b after :: is) = leafCount is := by
  unfold operatorItem
  split <;> rfl

theorem leafCount_settle (wraps : Bool) (e : Expression R)
    (h : leafCount (passed e).1 = leafCount e.word) :
    leafCount (settle wraps (passed e)).1 = leafCount e.word := by
  cases wraps with
  | false => exact h
  | true =>
      rw [settle, if_pos rfl, leafCount_append, (allOps_passed e).leafCount_eq_zero]
      exact h

theorem leafCount_passed (e : Expression R) : leafCount (passed e).1 = leafCount e.word := by
  induction e with
  | leaf x => rfl
  | unary u x ih =>
      rw [passed, leafCount_settle _ _ ih, Tree.word, leafCount_append]
      rfl
  | binary b l r ihl ihr =>
      have hops := ((allOps_passed l).settle (wrapsLeft b l)).takeWhile (yields b)
      rw [passed, leafCount_append, leafCount_append, leafCount_settle _ _ ihl,
        leafCount_settle _ _ ihr, hops.leafCount_eq_zero, Tree.word, leafCount_append,
        leafCount_append]
      rfl

theorem opCount_settle (wraps : Bool) (e : Expression R)
    (h : opCount (passedWord e) = opCount e.word) :
    opCount (settle wraps (passed e)).1 + opCount (settle wraps (passed e)).2 = opCount e.word := by
  rw [← opCount_append, settle_append]
  exact h

theorem opCount_passedWord (e : Expression R) : opCount (passedWord e) = opCount e.word := by
  induction e with
  | leaf x => rfl
  | unary u x ih =>
      have hx := opCount_settle (wrapsOperand x) x ih
      rw [passedWord, passed, Tree.word]
      simp only [opCount_append, ← hx]
      ring
  | binary b l r ihl ihr =>
      have hl := opCount_settle (wrapsLeft b l) l ihl
      have hr := opCount_settle (wrapsRight b r) r ihr
      rw [← List.takeWhile_append_dropWhile (p := yields b) (l := (settle (wrapsLeft b l) (passed l)).2),
        opCount_append] at hl
      rw [passedWord, passed, Tree.word]
      simp only [opCount_append, opCount_operatorItem, ← hl, ← hr, opCount]
      ring

/-! ## Weight -/

theorem weight_operatorItem_le (b : BinaryOperator) (after : Bool) :
    weight [(operatorItem b after : Op R)] ≤ 1 := by
  unfold operatorItem
  split
  · exact Nat.zero_le 1
  · exact le_rfl

theorem weight_settle (wraps : Bool) (e : Expression R) :
    weight (settle wraps (passed e)).1 + weight (settle wraps (passed e)).2 =
      weight (passedWord e) := by
  have hzero : leafCount (settle wraps (passed e)).2 = 0 :=
    ((allOps_passed e).settle wraps).leafCount_eq_zero
  have happend := weight_append (settle wraps (passed e)).1 (settle wraps (passed e)).2
  rw [settle_append, hzero, Nat.mul_zero, Nat.add_zero] at happend
  exact happend.symm

theorem weight_passedWord_unary (u : UnaryOperator) (x : Expression R) :
    weight (passedWord (.unary u x)) = weight (passedWord x) := by
  have hx := weight_settle (wrapsOperand x) x
  have hzero : leafCount (settle (wrapsOperand x) (passed x)).2 = 0 :=
    ((allOps_passed x).settle _).leafCount_eq_zero
  rw [passedWord, passed]
  simp only [weight_append, leafCount_append, hzero, weight, leafCount, ← hx]
  ring

/-- The weight of a binary expression: each operator that waits costs the leaves on the right. -/
theorem weight_passedWord_binary (b : BinaryOperator) (l r : Expression R) :
    weight (passedWord (.binary b l r)) +
        opCount ((settle (wrapsLeft b l) (passed l)).2.dropWhile (yields b)) * leafCount r.word =
      weight (passedWord l) + weight (passedWord r) +
        weight [(operatorItem b (leftEndsInParenthesis b l) : Op R)] +
          opCount l.word * leafCount r.word := by
  have hops : AllOps (settle (wrapsLeft b l) (passed l)).2 := (allOps_passed l).settle _
  have hopsRight : AllOps (settle (wrapsRight b r) (passed r)).2 := (allOps_passed r).settle _
  have hwl := weight_settle (wrapsLeft b l) l
  have hwr := weight_settle (wrapsRight b r) r
  have hl := opCount_settle (wrapsLeft b l) l (opCount_passedWord l)
  have hleaves := leafCount_settle (wrapsRight b r) r (leafCount_passed r)
  have htake := (hops.takeWhile (yields b)).leafCount_eq_zero
  have hdrop := (hops.dropWhile (yields b)).leafCount_eq_zero
  have hright := hopsRight.leafCount_eq_zero
  rw [← List.takeWhile_append_dropWhile (p := yields b) (l := (settle (wrapsLeft b l) (passed l)).2)]
    at hwl hl
  simp only [weight_append, opCount_append, hdrop, Nat.mul_zero, Nat.add_zero] at hwl hl
  have hitem : ∀ is : List (Op R), leafCount is = 0 →
      weight (operatorItem b (leftEndsInParenthesis b l) :: is) =
        weight [(operatorItem b (leftEndsInParenthesis b l) : Op R)] + weight is := by
    intro is his
    rw [← List.singleton_append, weight_append, his, Nat.mul_zero, Nat.add_zero]
  rw [passedWord, passed]
  simp only [weight_append, leafCount_append, opCount_append, leafCount_operatorItem, htake, hdrop,
    hright, hleaves, hitem _ hdrop, ← hwl, ← hwr, ← hl]
  ring

theorem weight_word_binary (b : BinaryOperator) (l r : Expression R) :
    weight (Tree.binary b l r : Expression R).word =
      weight l.word + weight r.word + 1 + opCount l.word * leafCount r.word := by
  rw [Tree.word]
  simp only [weight_append, weight, leafCount]
  ring

theorem weight_passedWord_le (e : Expression R) : weight (passedWord e) ≤ weight e.word := by
  induction e with
  | leaf x => exact le_rfl
  | unary u x ih =>
      rw [weight_passedWord_unary, Tree.word, weight_append]
      exact ih.trans (by simp only [weight, leafCount]; omega)
  | binary b l r ihl ihr =>
      have hitem := weight_operatorItem_le (R := R) b (leftEndsInParenthesis b l)
      have hbinary := weight_passedWord_binary b l r
      have hword := weight_word_binary b l r
      omega

/-! ## Expressions that come back -/

/-- An expression leaves a `-` or a `!` on the stack. -/
def LeavesMax (e : Expression R) : Prop := ∃ i ∈ (passed e).2, opPriority i = maxPriority

theorem passed_ne_nil {e : Expression R} (h : isLeaf e = false) : (passed e).2 ≠ [] := by
  cases e with
  | leaf x => cases h
  | unary u x | binary b l r => exact List.append_ne_nil_of_right_ne_nil _ (List.cons_ne_nil _ _)

/-- Whether `b` takes every operator that its left operand has left. -/
theorem dropWhile_eq_nil_iff (b : BinaryOperator) {l : Expression R}
    (hopen : LeavesMax l ↔ isOpen l = true) :
    (settle (wrapsLeft b l) (passed l)).2.dropWhile (yields b) = [] ↔
      wrapsLeft b l = true ∨ ((b = .subtract → isLeaf l = true) ∧ isOpen l = false) := by
  cases hw : wrapsLeft b l with
  | true => exact ⟨fun _ => Or.inl rfl, fun _ => rfl⟩
  | false =>
      have hle : b.precedence ≤ precedence l := not_lt.mp (of_decide_eq_false hw)
      rw [settle, if_neg Bool.false_ne_true, List.dropWhile_eq_nil_iff]
      constructor
      · intro hall
        refine Or.inr ⟨?_, ?_⟩
        · rintro rfl
          by_contra hleaf
          obtain ⟨i, is, his⟩ := List.exists_cons_of_ne_nil (passed_ne_nil (eq_false_of_ne_true hleaf))
          have hi := hall i (his ▸ List.mem_cons_self)
          rw [yields, Bool.and_eq_true, decide_eq_true_eq, bne_iff_ne, priority_subtract] at hi
          refine hi.2 (le_antisymm ?_ hi.1)
          cases i with
          | leaf x => exact Nat.zero_le _
          | unary u => exact getPriority_le_max _
          | binary c => exact getPriority_le_max _
        · refine eq_false_of_ne_true fun ho => ?_
          obtain ⟨i, hi, hmax⟩ := hopen.mpr ho
          have hy := hall i hi
          rw [yields, Bool.and_eq_true, bne_iff_ne] at hy
          exact hy.2 hmax
      · rintro (h | ⟨hleaf, ho⟩) i hi
        · cases h
        · have hne : opPriority i ≠ maxPriority := fun hmax => by
            have := hopen.mp ⟨i, hi, hmax⟩
            rw [ho] at this
            cases this
          rw [yields, Bool.and_eq_true, decide_eq_true_eq, bne_iff_ne]
          refine ⟨?_, hne⟩
          by_cases hsub : b = .subtract
          · -- a leaf leaves nothing
            cases l with
            | leaf x => exact absurd hi List.not_mem_nil
            | unary u x => cases hleaf hsub
            | binary c l₁ r₁ => cases hleaf hsub
          · rw [priority_eq_of_ne hsub]
            exact hle.trans (precedence_le_of_mem hi)

theorem IsRead.dropWhile_eq_nil {b : BinaryOperator} {l r : Expression R}
    (h : IsRead (.binary b l r : Expression R)) (hopen : LeavesMax l ↔ isOpen l = true) :
    (settle (wrapsLeft b l) (passed l)).2.dropWhile (yields b) = [] :=
  (dropWhile_eq_nil_iff b hopen).mpr (h.2.2.2.2.imp_right fun ho => ⟨h.2.2.1, ho⟩)

theorem IsRead.leavesMax_iff {e : Expression R} (h : IsRead e) :
    LeavesMax e ↔ isOpen e = true := by
  induction e with
  | leaf x =>
      constructor
      · rintro ⟨i, hi, -⟩
        exact absurd hi List.not_mem_nil
      · rintro ⟨⟩
  | unary u x ih =>
      refine ⟨fun _ => rfl, fun _ => ?_⟩
      exact ⟨.unary u, List.mem_append_right _ (List.mem_singleton.mpr rfl), priority_unary u⟩
  | binary b l r ihl ihr =>
      have hdrop := h.dropWhile_eq_nil (ihl h.1)
      have hitem : opPriority (operatorItem b (leftEndsInParenthesis b l) : Op R) = maxPriority ↔
          b = .subtract := by
        rw [opPriority_operatorItem]
        constructor
        · intro hmax
          by_contra hsub
          rw [priority_eq_of_ne hsub] at hmax
          exact (precedence_lt_max b).ne hmax
        · rintro rfl
          rfl
      rw [LeavesMax, passed, hdrop, isOpen, Bool.or_eq_true, beq_iff_eq, ← hitem, Bool.and_eq_true,
        ← ihr h.2.1, Bool.not_eq_true']
      constructor
      · rintro ⟨i, hi, hmax⟩
        rcases List.mem_append.mp hi with hi | hi
        · right
          cases hw : wrapsRight b r with
          | true =>
              rw [settle, if_pos hw] at hi
              exact absurd hi List.not_mem_nil
          | false =>
              rw [settle, if_neg (by rw [hw]; exact Bool.false_ne_true)] at hi
              exact ⟨rfl, i, hi, hmax⟩
        · left
          rw [← List.mem_singleton.mp hi]
          exact hmax
      · rintro (hmax | ⟨hw, i, hi, hmax⟩)
        · exact ⟨_, List.mem_append_right _ (List.mem_singleton.mpr rfl), hmax⟩
        · refine ⟨i, List.mem_append_left _ ?_, hmax⟩
          rw [settle, if_neg (by rw [hw]; exact Bool.false_ne_true)]
          exact hi

theorem IsRead.operatorItem {b : BinaryOperator} {l r : Expression R}
    (h : IsRead (.binary b l r : Expression R)) :
    (operatorItem b (leftEndsInParenthesis b l) : Op R) = .binary b := by
  refine if_neg fun hb => ?_
  rw [Bool.and_eq_true, beq_iff_eq] at hb
  obtain ⟨rfl, hafter⟩ := hb
  cases l with
  | leaf x => cases hafter
  | unary u x => cases h.2.2.1 rfl
  | binary c l₁ r₁ => cases h.2.2.1 rfl

theorem IsRead.passedWord_eq {e : Expression R} (h : IsRead e) : passedWord e = e.word := by
  induction e with
  | leaf x => rfl
  | unary u x ih =>
      have hx := settle_append (wrapsOperand x) (passed x)
      rw [passedWord, passed, Tree.word, ← ih h, passedWord, ← hx]
      exact (List.append_assoc _ _ _).symm
  | binary b l r ihl ihr =>
      have hdrop := h.dropWhile_eq_nil (IsRead.leavesMax_iff h.1)
      have htake := List.takeWhile_append_dropWhile (p := yields b)
        (l := (settle (wrapsLeft b l) (passed l)).2)
      rw [hdrop, List.append_nil] at htake
      have hr := settle_append (wrapsRight b r) (passed r)
      rw [passedWord, passed, hdrop, htake, settle_append, h.operatorItem, Tree.word, ← ihl h.1,
        ← ihr h.2.1, passedWord, passedWord, ← hr]
      simp only [List.append_assoc]

/-- An expression whose word is as heavy as the postfix form is the tree the stack builds. -/
theorem isRead_of_weight {e : Expression R} (hfault : NoFault e)
    (h : weight (passedWord e) = weight e.word) : IsRead e := by
  induction e with
  | leaf x => trivial
  | unary u x ih =>
      refine ih hfault ?_
      rw [weight_passedWord_unary, Tree.word, weight_append] at h
      have hle := weight_passedWord_le x
      simp only [weight, leafCount] at h
      omega
  | binary b l r ihl ihr =>
      obtain ⟨hfl, hfr, hne⟩ := hfault
      have hbinary := weight_passedWord_binary b l r
      have hword := weight_word_binary b l r
      have hl := weight_passedWord_le l
      have hr := weight_passedWord_le r
      have hitem := weight_operatorItem_le (R := R) b (leftEndsInParenthesis b l)
      have hlpost : IsRead l := ihl hfl (by omega)
      have hrpost : IsRead r := ihr hfr (by omega)
      have hone : weight [(Fxml.operatorItem b (leftEndsInParenthesis b l) : Op R)] = 1 := by
        omega
      have hzero : opCount ((settle (wrapsLeft b l) (passed l)).2.dropWhile (yields b)) *
          leafCount r.word = 0 := by
        omega
      have hdrop : (settle (wrapsLeft b l) (passed l)).2.dropWhile (yields b) = [] := by
        refine (((allOps_passed l).settle _).dropWhile _).eq_nil ?_
        exact (Nat.mul_eq_zero.mp hzero).resolve_right (leafCount_word_pos r).ne'
      have hsub : b = .subtract → leftEndsInParenthesis b l = false := by
        rintro rfl
        refine eq_false_of_ne_true fun hafter => ?_
        rw [hafter] at hone
        cases hone
      rcases (dropWhile_eq_nil_iff b hlpost.leavesMax_iff).mp hdrop with hw | ⟨hleaf, ho⟩
      · refine ⟨hlpost, hrpost, fun hb => ?_, hne, Or.inl hw⟩
        have := hsub hb
        rw [leftEndsInParenthesis, hw] at this
        cases this
      · exact ⟨hlpost, hrpost, hleaf, hne, Or.inr ho⟩

/-- **What the operator stack reads back**: exactly the expressions with `IsRead`. -/
theorem run_eq_word_iff (e : Expression R) :
    (runLexemes (lexemes e) true ⟨[], []⟩).map (fun p => p.2.tokens ++ p.2.stack) =
      some (e.word.map Token.ofItem) ↔ IsRead e := by
  have hguard : Guards (precedence e) ([] : List (Token R)) := by
    rintro top ⟨⟩
  constructor
  · intro h
    by_cases hfault : NoFault e
    · have hrun := runs_of_noFault hfault [] [] [] hguard
      rw [List.append_nil] at hrun
      rw [hrun, runLexemes, Option.map_some, Option.some.injEq, List.nil_append, List.append_nil,
        ← List.map_append] at h
      have hword : passedWord e = e.word := List.map_injective_iff.mpr ofItem_injective h
      exact isRead_of_weight hfault (by rw [hword])
    · have hrun := throws_of_not_noFault hfault [] [] [] hguard
      rw [List.append_nil] at hrun
      rw [hrun] at h
      cases h
  · intro h
    have hrun := runs_of_noFault h.noFault [] [] [] hguard
    rw [List.append_nil] at hrun
    rw [hrun, runLexemes, Option.map_some, List.nil_append, List.append_nil, ← List.map_append,
      ← h.passedWord_eq]
    rfl

end JavaFx.Fxml
