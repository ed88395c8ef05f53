import JavaFx.Method

/-!
# `VirtualFlow.ArrayLinkedList`

The cells of a flow stand in a window of an array. The first one is put into the middle, and the
window grows from there to both sides. Its ends are `-1` while the list is empty.
-/

namespace JavaFx

/-! ## `ArrayList` -/

namespace ArrayList

variable {β : Type}

/-- `array.get(index)`; only the array itself refuses a negative index. -/
def get (array : List β) (index : ℤ) : Except Exn β :=
  if array.length ≤ index then .error .indexOutOfBounds else arrayGet array index

def set (array : List β) (index : ℤ) (element : β) : Except Exn (List β) :=
  if array.length ≤ index then .error .indexOutOfBounds else arraySet array index element

/-- `array.add(index, element)` -/
def add (array : List β) (index : ℤ) (element : β) : Except Exn (List β) :=
  if array.length < index ∨ index < 0 then .error .indexOutOfBounds
  else .ok (array.insertIdx index.toNat element)

variable {pre post : List β} {x y : β} {index : ℤ}

theorem get_append (h : index = pre.length) : get (pre ++ x :: post) index = .ok x := by
  subst h
  have hlt : ¬ ((pre ++ x :: post).length : ℤ) ≤ pre.length := by
    rw [List.length_append, List.length_cons]
    omega
  rw [get, if_neg hlt]
  refine arrayGet_eq_of_getElem? (Int.natCast_nonneg _) ?_
  rw [Int.toNat_natCast, List.getElem?_append_right (le_refl _), Nat.sub_self,
    List.getElem?_cons_zero]

theorem set_append (h : index = pre.length) :
    set (pre ++ x :: post) index y = .ok (pre ++ y :: post) := by
  subst h
  have hlt : ¬ ((pre ++ x :: post).length : ℤ) ≤ pre.length := by
    rw [List.length_append, List.length_cons]
    omega
  rw [set, if_neg hlt, arraySet_of_lt y (by simp), List.set_append_right _ _ (le_refl _),
    Nat.sub_self, List.set_cons_zero]

theorem add_zero (array : List β) : add array 0 y = .ok (y :: array) := by
  rw [add, if_neg (by omega)]
  rfl

theorem add_length (array : List β) (h : index = array.length) :
    add array index y = .ok (array ++ [y]) := by
  subst h
  rw [add, if_neg (by simp), Int.toNat_natCast, List.insertIdx_length_self]

end ArrayList

namespace Control

/-- The fields; a cell may be `null`. -/
structure ArrayLinkedList (α : Type) where
  array : List (Option α)
  firstIndex : ℤ := -1
  lastIndex : ℤ := -1
deriving DecidableEq

namespace ArrayLinkedList

variable {α : Type}

/-- `new ArrayLinkedList()` -/
def new : ArrayLinkedList α := { array := List.replicate 50 none }

/-- `array.get(index)` -/
def arrayGet (index : ℤ) : Method (ArrayLinkedList α) (Option α) := do
  let s ← Method.this
  ArrayList.get s.array index

/-- `array.set(index, cell)` -/
def arraySet (index : ℤ) (cell : Option α) : Method (ArrayLinkedList α) Unit := do
  let s ← Method.this
  let array ← ArrayList.set s.array index cell
  set { s with array := array }

/-- `array.add(index, cell)` -/
def arrayAdd (index : ℤ) (cell : Option α) : Method (ArrayLinkedList α) Unit := do
  let s ← Method.this
  let array ← ArrayList.add s.array index cell
  set { s with array := array }

def getFirst : Method (ArrayLinkedList α) (Option α) := do
  let s ← Method.this
  if s.firstIndex = -1 then return none else arrayGet s.firstIndex

def getLast : Method (ArrayLinkedList α) (Option α) := do
  let s ← Method.this
  if s.lastIndex = -1 then return none else arrayGet s.lastIndex

def addFirst (cell : Option α) : Method (ArrayLinkedList α) Unit := do
  let s ← Method.this
  if s.firstIndex = -1 then
    let middle := (s.array.length / 2 : ℕ)
    set { s with firstIndex := middle, lastIndex := middle }
    arraySet middle cell
  else if s.firstIndex = 0 then
    arrayAdd 0 cell
    modify fun s => { s with lastIndex := s.lastIndex + 1 }
  else
    set { s with firstIndex := s.firstIndex - 1 }
    arraySet (s.firstIndex - 1) cell

def addLast (cell : Option α) : Method (ArrayLinkedList α) Unit := do
  let s ← Method.this
  if s.firstIndex = -1 then
    let middle := (s.array.length / 2 : ℕ)
    set { s with firstIndex := middle, lastIndex := middle }
    arraySet middle cell
  else
    set { s with lastIndex := s.lastIndex + 1 }
    if s.lastIndex = s.array.length - 1 then arrayAdd (s.lastIndex + 1) cell
    else arraySet (s.lastIndex + 1) cell

def size : Method (ArrayLinkedList α) ℤ := do
  let s ← Method.this
  return if s.firstIndex = -1 then 0 else s.lastIndex - s.firstIndex + 1

def isEmpty : Method (ArrayLinkedList α) Bool := do
  let s ← Method.this
  return s.firstIndex = -1

def get (index : ℤ) : Method (ArrayLinkedList α) (Option α) := do
  let s ← Method.this
  if index > s.lastIndex - s.firstIndex ∨ index < 0 then return none
  else arrayGet (s.firstIndex + index)

def clear : Method (ArrayLinkedList α) Unit :=
  modify fun s => { array := List.replicate s.array.length none, firstIndex := -1, lastIndex := -1 }

/-- So many rounds of `for (int i = ..; i <= lastIndex; i++) array.set(i - 1, array.get(i))`. -/
def shift : ℕ → ℤ → Method (ArrayLinkedList α) Unit
  | 0, _ => return
  | n + 1, i => do
      let cell ← arrayGet i
      arraySet (i - 1) cell
      shift n (i + 1)

/-- `array.set(lastIndex--, null)` -/
def dropLast : Method (ArrayLinkedList α) Unit := do
  let s ← Method.this
  set { s with lastIndex := s.lastIndex - 1 }
  arraySet s.lastIndex none

def remove (index : ℤ) : Method (ArrayLinkedList α) (Option α) := do
  let s ← Method.this
  if index > s.lastIndex - s.firstIndex ∨ index < 0 then throw .arrayIndexOutOfBounds
  else if index = 0 then
    let cell ← arrayGet s.firstIndex
    arraySet s.firstIndex none
    if s.firstIndex = s.lastIndex then
      modify fun s => { s with firstIndex := -1, lastIndex := -1 }
    else modify fun s => { s with firstIndex := s.firstIndex + 1 }
    return cell
  else if index = s.lastIndex - s.firstIndex then
    let cell ← arrayGet s.lastIndex
    dropLast
    return cell
  else
    let cell ← arrayGet (s.firstIndex + index)
    arraySet (s.firstIndex + index) none
    shift (s.lastIndex - (s.firstIndex + index)).toNat (s.firstIndex + index + 1)
    dropLast
    return cell

def removeFirst : Method (ArrayLinkedList α) (Option α) := do
  if ← isEmpty then return none else remove 0

def removeLast : Method (ArrayLinkedList α) (Option α) := do
  let s ← Method.this
  if ← isEmpty then return none else remove (s.lastIndex - s.firstIndex)

/-! ## Calls -/

inductive Call (α : Type) where
  | addFirst (cell : Option α)
  | addLast (cell : Option α)
  | removeFirst
  | removeLast
  | remove (index : ℤ)
  | clear
  | get (index : ℤ)
  | getFirst
  | getLast
  | size
  | isEmpty
deriving DecidableEq

/-- What a call returns. -/
inductive Answer (α : Type) where
  | none
  | cell (cell : Option α)
  | size (size : ℤ)
  | bool (b : Bool)
deriving DecidableEq

def call : Call α → Method (ArrayLinkedList α) (Answer α)
  | .addFirst cell => do addFirst cell; return .none
  | .addLast cell => do addLast cell; return .none
  | .removeFirst => return .cell (← removeFirst)
  | .removeLast => return .cell (← removeLast)
  | .remove index => return .cell (← remove index)
  | .clear => do clear; return .none
  | .get index => return .cell (← get index)
  | .getFirst => return .cell (← getFirst)
  | .getLast => return .cell (← getLast)
  | .size => return .size (← size)
  | .isEmpty => return .bool (← isEmpty)

/-- The same call on a plain sequence. -/
def plainCall : Call α → Method (List (Option α)) (Answer α)
  | .addFirst cell => do modify (cell :: ·); return .none
  | .addLast cell => do modify (· ++ [cell]); return .none
  | .removeFirst => do
      let l ← Method.this
      set l.tail
      return .cell l.head?.join
  | .removeLast => do
      let l ← Method.this
      set l.dropLast
      return .cell l.getLast?.join
  | .remove index => do
      let l ← Method.this
      if 0 ≤ index ∧ index < l.length then
        set (l.eraseIdx index.toNat)
        return .cell l[index.toNat]?.join
      else throw .arrayIndexOutOfBounds
  | .clear => do set ([] : List (Option α)); return .none
  | .get index => do
      let l ← Method.this
      return .cell (if 0 ≤ index then l[index.toNat]?.join else none)
  | .getFirst => do
      let l ← Method.this
      return .cell l.head?.join
  | .getLast => do
      let l ← Method.this
      return .cell l.getLast?.join
  | .size => do
      let l ← Method.this
      return .size l.length
  | .isEmpty => do
      let l ← Method.this
      return .bool l.isEmpty

/-- What the calls of a run return or throw. -/
def answers {σ γ β : Type} (call : γ → Method σ β) : List γ → σ → List (Except Exn β)
  | [], _ => []
  | c :: calls, s => ((call c).run s).1 :: answers call calls ((call c).run s).2

/-- The state that a run leaves. -/
def after {σ γ β : Type} (call : γ → Method σ β) (calls : List γ) (s : σ) : σ :=
  calls.foldl (fun s c => ((call c).run s).2) s

/-! ## The window -/

/-- The list that the fields stand for: it fills the window of the array, or there is no window. -/
inductive Represents : ArrayLinkedList α → List (Option α) → Prop
  | empty {array : List (Option α)} (h : 0 < array.length) :
      Represents { array := array, firstIndex := -1, lastIndex := -1 } []
  | window {pre l post : List (Option α)} (h : l ≠ []) :
      Represents { array := pre ++ l ++ post, firstIndex := pre.length,
                   lastIndex := pre.length + l.length - 1 } l

variable {s s' : ArrayLinkedList α} {l pre post : List (Option α)} {x : Option α} {index i : ℤ}

theorem represents_new : Represents (new : ArrayLinkedList α) [] :=
  .empty (by rw [List.length_replicate]; omega)

/-- A window given by its ends. -/
theorem represents_of (pre post : List (Option α)) (harray : s.array = pre ++ l ++ post)
    (hne : l ≠ []) (hfirst : s.firstIndex = pre.length) (hlast : s.lastIndex = pre.length + l.length - 1) :
    Represents s l := by
  obtain ⟨array, firstIndex, lastIndex⟩ := s
  cases harray
  cases hfirst
  cases hlast
  exact .window hne

/-! ## The calls on a window -/

theorem run_arrayGet (s : ArrayLinkedList α) (harray : s.array = pre ++ x :: post)
    (h : index = pre.length) : (arrayGet index).run s = (.ok x, s) := by
  rw [arrayGet, Method.run_this_bind, harray, ArrayList.get_append h]
  rfl

theorem run_arraySet (s : ArrayLinkedList α) (y : Option α) (harray : s.array = pre ++ x :: post)
    (h : index = pre.length) :
    (arraySet index y).run s = (.ok (), { s with array := pre ++ y :: post }) := by
  rw [arraySet, Method.run_this_bind, harray, ArrayList.set_append h]
  rfl

theorem run_getFirst (h : Represents s l) : getFirst.run s = (.ok l.head?.join, s) := by
  cases h with
  | empty _ => rfl
  | @window pre l post hne =>
      cases l with
      | nil => exact absurd rfl hne
      | cons x l =>
          have harray : pre ++ x :: l ++ post = pre ++ x :: (l ++ post) := List.append_assoc _ _ _
          rw [getFirst, Method.run_this_bind, if_neg (by simp only []; omega)]
          exact run_arrayGet _ harray rfl

theorem run_getLast (h : Represents s l) : getLast.run s = (.ok l.getLast?.join, s) := by
  cases h with
  | empty _ => rfl
  | @window pre l post hne =>
      cases l using List.reverseRecOn with
      | nil => exact absurd rfl hne
      | append_singleton l x =>
          have hlast : (pre.length + (l ++ [x]).length - 1 : ℤ) = (pre ++ l).length := by
            rw [List.length_append, List.length_append, List.length_singleton]
            omega
          have harray : pre ++ (l ++ [x]) ++ post = pre ++ l ++ x :: post := by
            rw [← List.append_assoc, List.append_assoc, List.singleton_append]
          rw [getLast, Method.run_this_bind, if_neg (by simp only [hlast]; omega),
            List.getLast?_concat]
          exact run_arrayGet _ harray hlast

/-- The first cell of all goes into the middle. -/
theorem run_arraySet_middle {array : List (Option α)} (hpos : 0 < array.length)
    (cell : Option α) : ∃ s', (arraySet (array.length / 2 : ℕ) cell).run
      { array := array, firstIndex := (array.length / 2 : ℕ),
        lastIndex := (array.length / 2 : ℕ) } = (.ok (), s') ∧ Represents s' [cell] := by
  have hmid : array.length / 2 < array.length := by omega
  have hlength : (array.take (array.length / 2)).length = array.length / 2 := by
    rw [List.length_take]
    omega
  have harray : array =
      array.take (array.length / 2) ++ array[array.length / 2] :: array.drop (array.length / 2 + 1) := by
    rw [← List.drop_eq_getElem_cons hmid, List.take_append_drop]
  rw [run_arraySet _ cell harray (by rw [hlength])]
  refine ⟨_, rfl, represents_of (array.take (array.length / 2))
    (array.drop (array.length / 2 + 1)) ?_ (List.cons_ne_nil _ _) ?_ ?_⟩
  · rw [List.append_assoc, List.singleton_append]
  · simp only [hlength]
  · simp only [hlength, List.length_singleton]
    omega

theorem addFirst_spec (h : Represents s l) (cell : Option α) :
    ∃ s', (addFirst cell).run s = (.ok (), s') ∧ Represents s' (cell :: l) := by
  cases h with
  | @empty array hpos =>
      rw [addFirst, Method.run_this_bind, if_pos rfl]
      exact run_arraySet_middle hpos cell
  | @window pre l post hne =>
      rw [addFirst, Method.run_this_bind, if_neg (by simp only []; omega)]
      cases pre using List.reverseRecOn with
      | nil =>
          -- the window begins with the array, which grows
          rw [if_pos (by rfl), arrayAdd]
          simp only [Method.run_bind, Method.run_this, ArrayList.add_zero, Method.run_lift,
            Method.run_set, Method.run_modify]
          refine ⟨_, rfl, represents_of [] post rfl (List.cons_ne_nil _ _) rfl ?_⟩
          simp only [List.length_cons, List.length_nil]
          omega
      | append_singleton pre x =>
          have hfirst : (((pre ++ [x]).length : ℤ) - 1) = pre.length := by
            rw [List.length_append, List.length_singleton]
            omega
          have harray : pre ++ [x] ++ l ++ post = pre ++ x :: (l ++ post) := by
            rw [List.append_assoc, List.append_assoc, List.singleton_append]
          rw [if_neg (by simp only [List.length_append, List.length_singleton]; omega)]
          simp only [Method.run_set_bind, hfirst, harray]
          rw [run_arraySet _ cell rfl rfl]
          refine ⟨_, rfl, represents_of pre post (by simp)
            (List.cons_ne_nil _ _) rfl ?_⟩
          simp only [List.length_append, List.length_cons, List.length_nil]
          omega

theorem addLast_spec (h : Represents s l) (cell : Option α) :
    ∃ s', (addLast cell).run s = (.ok (), s') ∧ Represents s' (l ++ [cell]) := by
  cases h with
  | @empty array hpos =>
      rw [addLast, Method.run_this_bind, if_pos rfl]
      exact run_arraySet_middle hpos cell
  | @window pre l post hne =>
      rw [addLast, Method.run_this_bind, if_neg (by simp only []; omega)]
      have hnext : ((pre.length : ℤ) + l.length - 1 + 1) = (pre ++ l).length := by
        rw [List.length_append]
        omega
      simp only [Method.run_set_bind, hnext]
      cases post with
      | nil =>
          -- the window ends with the array, which grows
          rw [if_pos (by simp only [List.append_nil, List.length_append]; omega), arrayAdd,
            Method.run_this_bind]
          simp only [List.append_nil]
          rw [ArrayList.add_length _ rfl]
          exact ⟨_, rfl, represents_of pre [] (by simp) (by simp) rfl
            (by simp; omega)⟩
      | cons x post =>
          rw [if_neg (by simp only [List.length_append, List.length_cons]; omega),
            run_arraySet _ cell rfl rfl]
          exact ⟨_, rfl, represents_of pre post (by simp) (by simp) rfl
            (by simp; omega)⟩

theorem run_size (h : Represents s l) : size.run s = (.ok (l.length : ℤ), s) := by
  cases h with
  | empty _ => rfl
  | @window pre l post hne =>
      rw [size, Method.run_this_bind, if_neg (by simp only []; omega)]
      have hlength : ((pre.length : ℤ) + l.length - 1 - pre.length + 1) = l.length := by omega
      rw [hlength]
      rfl

theorem run_isEmpty (h : Represents s l) : isEmpty.run s = (.ok l.isEmpty, s) := by
  cases h with
  | empty _ => rfl
  | @window pre l post hne =>
      rw [isEmpty, Method.run_this_bind, decide_eq_false (by simp only []; omega),
        List.isEmpty_eq_false_iff.mpr hne]
      rfl

theorem clear_spec (h : Represents s l) :
    ∃ s', clear.run s = (.ok (), s') ∧ Represents s' [] := by
  have hpos : 0 < s.array.length := by
    cases h with
    | empty hpos => exact hpos
    | window hne =>
        have hlength := List.length_pos_iff.mpr hne
        simp only [List.length_append]
        omega
  exact ⟨_, rfl, .empty (by rw [List.length_replicate]; exact hpos)⟩

/-- An element of the window. -/
theorem run_get (h : Represents s l) (hindex : l ≠ [] ∨ index ≠ 0) :
    (get index).run s = (.ok (if 0 ≤ index then l[index.toNat]?.join else none), s) := by
  cases h with
  | @empty array _ =>
      have hout : index > (-1 : ℤ) - -1 ∨ index < 0 := by
        rcases hindex with hne | hne
        · exact absurd rfl hne
        · omega
      rw [get, Method.run_this_bind, if_pos hout]
      split
      · rfl
      · rfl
  | @window pre l post hne =>
      rw [get, Method.run_this_bind]
      have hlast : ((pre.length : ℤ) + l.length - 1) - pre.length = l.length - 1 := by omega
      simp only [hlast]
      split
      next hout =>
        split
        next hpos =>
          rw [List.getElem?_eq_none (by omega)]
          rfl
        next => rfl
      next hin =>
        have hlt : index.toNat < l.length := by omega
        rw [if_pos (by omega)]
        have harray : pre ++ l ++ post =
            (pre ++ l.take index.toNat) ++ l[index.toNat] :: (l.drop (index.toNat + 1) ++ post) := by
          rw [List.append_assoc pre, List.append_assoc pre, ← List.cons_append,
            ← List.drop_eq_getElem_cons hlt, ← List.append_assoc (l.take _), List.take_append_drop]
        rw [run_arrayGet _ harray (by simp; omega), List.getElem?_eq_getElem hlt]
        rfl

/-- The cells behind a hole are moved into it one by one. -/
theorem run_shift (s : ArrayLinkedList α) {moved : List (Option α)}
    (harray : s.array = pre ++ x :: (moved ++ post)) (hi : i = pre.length + 1) :
    ∃ y, (shift moved.length i).run s =
      (.ok (), { s with array := pre ++ moved ++ y :: post }) := by
  induction moved generalizing s pre x i with
  | nil =>
      refine ⟨x, ?_⟩
      have hsame : s.array = pre ++ [] ++ x :: post := by
        rw [harray, List.append_nil, List.nil_append]
      rw [← hsame]
      rfl
  | cons y moved ih =>
      have hread : (arrayGet i).run s = (.ok y, s) := by
        have hrest : s.array = (pre ++ [x]) ++ y :: (moved ++ post) := by
          rw [harray, List.append_assoc, List.singleton_append, List.cons_append]
        exact run_arrayGet s hrest (by rw [hi, List.length_append, List.length_singleton]; rfl)
      have hwrite : (arraySet (i - 1) y).run s =
          (.ok (), { s with array := pre ++ y :: (y :: moved ++ post) }) :=
        run_arraySet s y harray (by omega)
      have hrest : pre ++ y :: (y :: moved ++ post) = (pre ++ [y]) ++ y :: (moved ++ post) := by
        rw [List.append_assoc, List.singleton_append, List.cons_append]
      obtain ⟨z, hz⟩ := ih { s with array := pre ++ y :: (y :: moved ++ post) } hrest
        (show i + 1 = ((pre ++ [y]).length : ℤ) + 1 by
          rw [hi, List.length_append, List.length_singleton]; rfl)
      refine ⟨z, ?_⟩
      rw [List.length_cons, shift, Method.run_bind_ok hread, Method.run_bind_ok hwrite, hz]
      simp

/-- The last cell of the window is given up. -/
theorem dropLast_spec (s : ArrayLinkedList α) (hne : l ≠ [])
    (harray : s.array = pre ++ l ++ x :: post) (hfirst : s.firstIndex = pre.length)
    (hlast : s.lastIndex = pre.length + l.length) :
    ∃ s', dropLast.run s = (.ok (), s') ∧ Represents s' l := by
  rw [dropLast, Method.run_this_bind, Method.run_set_bind,
    run_arraySet { s with lastIndex := s.lastIndex - 1 } none harray
      (by rw [hlast, List.length_append]; omega)]
  exact ⟨_, rfl, represents_of pre (none :: post) rfl hne hfirst
    (by simp only [hlast])⟩

theorem remove_out (h : Represents s l) (hindex : ¬ (0 ≤ index ∧ index < l.length)) :
    (remove index).run s = (.error .arrayIndexOutOfBounds, s) := by
  cases h with
  | @empty array hpos =>
      rw [remove, Method.run_this_bind]
      split
      · rfl
      next hin =>
        -- the index is 0, and the cell before the array is read
        have hzero : index = 0 := by
          simp only [] at hin
          omega
        rw [if_pos hzero, Method.run_bind_error]
        rw [arrayGet, Method.run_this_bind, ArrayList.get, if_neg (by simp only []; omega)]
        rfl
  | @window pre l post hne =>
      rw [remove, Method.run_this_bind, if_pos (by simp only []; omega)]
      rfl

/-- The only cell, or the first of several. -/
theorem remove_first_spec (h : Represents s (x :: l)) :
    ∃ s', (remove 0).run s = (.ok x, s') ∧ Represents s' l := by
  generalize hl : x :: l = cells at h
  cases h with
  | empty _ => cases hl
  | @window before _ after _ =>
      subst hl
      have harray : before ++ x :: l ++ after = before ++ x :: (l ++ after) :=
        List.append_assoc _ _ _
      rw [remove, Method.run_this_bind, if_neg (by simp only [List.length_cons]; omega), if_pos rfl,
        Method.run_bind_ok (run_arrayGet _ harray rfl),
        Method.run_bind_ok (run_arraySet _ none harray rfl)]
      cases l with
      | nil =>
          rw [if_pos (by simp only [List.length_singleton]; omega)]
          exact ⟨_, rfl, .empty (by simp only [List.length_append, List.length_cons]; omega)⟩
      | cons y l =>
          rw [if_neg (by simp only [List.length_cons]; omega)]
          refine ⟨_, rfl, represents_of (before ++ [none]) after ?_ (List.cons_ne_nil _ _) ?_ ?_⟩
          · show before ++ none :: (y :: l ++ after) = before ++ [none] ++ (y :: l) ++ after
            rw [List.append_assoc, List.append_assoc]
            rfl
          · simp only [List.length_append, List.length_singleton]
            rfl
          · simp only [List.length_append, List.length_cons, List.length_nil]
            omega

/-- The last of several cells. -/
theorem remove_last_spec (h : Represents s (l ++ [x])) (hne : l ≠ []) :
    ∃ s', (remove l.length).run s = (.ok x, s') ∧ Represents s' l := by
  generalize hl : l ++ [x] = cells at h
  have hpos := List.length_pos_iff.mpr hne
  cases h with
  | empty _ => exact absurd hl (List.append_ne_nil_of_right_ne_nil _ (List.cons_ne_nil _ _))
  | @window before _ after _ =>
      subst hl
      have harray : before ++ (l ++ [x]) ++ after = before ++ l ++ x :: after := by
        rw [← List.append_assoc, List.append_assoc, List.singleton_append]
      have hlast : (before.length : ℤ) + (l ++ [x]).length - 1 = (before ++ l).length := by
        rw [List.length_append, List.length_append, List.length_singleton]
        omega
      have hlength : ((before ++ l).length : ℤ) = before.length + l.length := by
        rw [List.length_append]
        rfl
      rw [remove, Method.run_this_bind]
      simp only [hlast]
      rw [if_neg (by omega), if_neg (by omega), if_pos (by omega),
        Method.run_bind_ok (run_arrayGet _ harray rfl)]
      obtain ⟨s', hdrop, hs'⟩ := dropLast_spec
        { array := before ++ (l ++ [x]) ++ after, firstIndex := before.length,
          lastIndex := (before ++ l).length } hne harray rfl hlength
      rw [Method.run_bind_ok hdrop]
      exact ⟨s', rfl, hs'⟩

/-- A cell with others on both sides, whose hole is moved to the end. -/
theorem remove_between_spec (h : Represents s (pre ++ x :: post)) (hpre : pre ≠ [])
    (hpost : post ≠ []) :
    ∃ s', (remove pre.length).run s = (.ok x, s') ∧ Represents s' (pre ++ post) := by
  generalize hl : pre ++ x :: post = cells at h
  have hpre' := List.length_pos_iff.mpr hpre
  have hpost' := List.length_pos_iff.mpr hpost
  cases h with
  | empty _ => exact absurd hl (List.append_ne_nil_of_right_ne_nil _ (List.cons_ne_nil _ _))
  | @window before _ after _ =>
      subst hl
      have harray : before ++ (pre ++ x :: post) ++ after =
          before ++ pre ++ x :: (post ++ after) := by
        rw [← List.append_assoc, List.append_assoc, List.cons_append]
      have hhole : (before.length : ℤ) + pre.length = (before ++ pre).length := by
        rw [List.length_append]
        rfl
      have hlast : (before.length : ℤ) + (pre ++ x :: post).length - 1 =
          (before ++ pre).length + post.length := by
        rw [List.length_append, List.length_append, List.length_cons]
        omega
      have hrounds : (((before ++ pre).length : ℤ) + post.length - (before ++ pre).length).toNat =
          post.length := by omega
      rw [remove, Method.run_this_bind]
      simp only [hlast, hhole]
      rw [if_neg (by omega), if_neg (by omega), if_neg (by omega),
        Method.run_bind_ok (run_arrayGet _ harray rfl),
        Method.run_bind_ok (run_arraySet _ none harray rfl), hrounds]
      obtain ⟨y, hshift⟩ := run_shift
        { array := before ++ pre ++ none :: (post ++ after), firstIndex := before.length,
          lastIndex := (before ++ pre).length + post.length } rfl rfl
      rw [Method.run_bind_ok hshift]
      have harray' : before ++ pre ++ post ++ y :: after = before ++ (pre ++ post) ++ y :: after := by
        rw [List.append_assoc before]
      obtain ⟨s', hdrop, hs'⟩ := dropLast_spec
        { array := before ++ pre ++ post ++ y :: after, firstIndex := before.length,
          lastIndex := (before ++ pre).length + post.length }
        (List.append_ne_nil_of_left_ne_nil hpre _) harray' rfl
        (by simp only [List.length_append]; omega)
      rw [Method.run_bind_ok hdrop]
      exact ⟨s', rfl, hs'⟩

theorem remove_spec (h : Represents s (pre ++ x :: post)) :
    ∃ s', (remove pre.length).run s = (.ok x, s') ∧ Represents s' (pre ++ post) := by
  cases pre with
  | nil => exact remove_first_spec h
  | cons y pre =>
      cases post with
      | nil =>
          rw [List.append_nil]
          exact remove_last_spec h (List.cons_ne_nil _ _)
      | cons z post => exact remove_between_spec h (List.cons_ne_nil _ _) (List.cons_ne_nil _ _)

/-! ## Every call, and every run -/

/-- The call that is not answered as on a plain sequence. -/
def ReadsFirstOfEmpty (c : Call α) (l : List (Option α)) : Prop := c = .get 0 ∧ l = []

theorem Represents.lastIndex_sub (h : Represents s l) (hne : l ≠ []) :
    s.lastIndex - s.firstIndex = l.length - 1 := by
  cases h with
  | empty _ => exact absurd rfl hne
  | window _ =>
      simp only []
      omega

theorem removeFirst_spec (h : Represents s l) :
    ∃ s', removeFirst.run s = (.ok l.head?.join, s') ∧ Represents s' l.tail := by
  rw [removeFirst, Method.run_bind_ok (run_isEmpty h)]
  cases l with
  | nil => exact ⟨s, rfl, h⟩
  | cons x l => exact remove_first_spec h

theorem removeLast_spec (h : Represents s l) :
    ∃ s', removeLast.run s = (.ok l.getLast?.join, s') ∧ Represents s' l.dropLast := by
  rw [removeLast, Method.run_this_bind, Method.run_bind_ok (run_isEmpty h)]
  cases l using List.reverseRecOn with
  | nil => exact ⟨s, rfl, h⟩
  | append_singleton l x =>
      have hne : l ++ [x] ≠ [] := List.append_ne_nil_of_right_ne_nil _ (List.cons_ne_nil _ _)
      have hlast : s.lastIndex - s.firstIndex = l.length := by
        rw [h.lastIndex_sub hne, List.length_append, List.length_singleton]
        omega
      have hnonempty : (l ++ [x]).isEmpty = false := List.isEmpty_eq_false_iff.mpr hne
      obtain ⟨s', hremove, hs'⟩ := remove_spec h
      rw [hnonempty, hlast, List.getLast?_concat, List.dropLast_concat]
      rw [List.append_nil] at hs'
      exact ⟨s', hremove, hs'⟩

/-- **Every other call** is answered as on a plain sequence. -/
theorem call_spec (h : Represents s l) {c : Call α} (hc : ¬ ReadsFirstOfEmpty c l) :
    ∃ s', (call c).run s = (((plainCall c).run l).1, s') ∧
      Represents s' ((plainCall c).run l).2 := by
  cases c with
  | addFirst cell =>
      obtain ⟨s', hrun, hs'⟩ := addFirst_spec h cell
      exact ⟨s', Method.run_bind_ok hrun, hs'⟩
  | addLast cell =>
      obtain ⟨s', hrun, hs'⟩ := addLast_spec h cell
      exact ⟨s', Method.run_bind_ok hrun, hs'⟩
  | removeFirst =>
      obtain ⟨s', hrun, hs'⟩ := removeFirst_spec h
      exact ⟨s', Method.run_bind_ok hrun, hs'⟩
  | removeLast =>
      obtain ⟨s', hrun, hs'⟩ := removeLast_spec h
      exact ⟨s', Method.run_bind_ok hrun, hs'⟩
  | remove index =>
      rw [plainCall, Method.run_this_bind]
      by_cases hin : 0 ≤ index ∧ index < l.length
      · rw [if_pos hin]
        obtain ⟨n, rfl⟩ := Int.eq_ofNat_of_zero_le hin.1
        have hlt : n < l.length := by omega
        have hsplit : l = l.take n ++ l[n] :: l.drop (n + 1) := by
          rw [← List.drop_eq_getElem_cons hlt, List.take_append_drop]
        have hlength : (l.take n).length = n := by
          rw [List.length_take]
          omega
        rw [hsplit] at h
        obtain ⟨s', hrun, hs'⟩ := remove_spec h
        rw [hlength] at hrun
        rw [← List.eraseIdx_eq_take_drop_succ] at hs'
        refine ⟨s', (Method.run_bind_ok hrun).trans ?_, hs'⟩
        rw [Int.toNat_natCast, List.getElem?_eq_getElem hlt]
        rfl
      · rw [if_neg hin]
        exact ⟨s, Method.run_bind_error (remove_out h hin), h⟩
  | clear =>
      obtain ⟨s', hrun, hs'⟩ := clear_spec h
      exact ⟨s', Method.run_bind_ok hrun, hs'⟩
  | get index =>
      have hindex : l ≠ [] ∨ index ≠ 0 := by
        by_contra hnot
        obtain ⟨hl, hzero⟩ := not_or.mp hnot
        exact hc ⟨congrArg Call.get (not_not.mp hzero), not_not.mp hl⟩
      exact ⟨s, Method.run_bind_ok (run_get h hindex), h⟩
  | getFirst => exact ⟨s, Method.run_bind_ok (run_getFirst h), h⟩
  | getLast => exact ⟨s, Method.run_bind_ok (run_getLast h), h⟩
  | size => exact ⟨s, Method.run_bind_ok (run_size h), h⟩
  | isEmpty => exact ⟨s, Method.run_bind_ok (run_isEmpty h), h⟩

/-- `get(0)` on an empty list reads the cell before the array. -/
theorem call_of_readsFirstOfEmpty (h : Represents s l) {c : Call α} (hc : ReadsFirstOfEmpty c l) :
    (call c).run s = (.error .arrayIndexOutOfBounds, s) := by
  obtain ⟨rfl, rfl⟩ := hc
  cases h with
  | empty _ =>
      refine Method.run_bind_error ?_
      rw [get, Method.run_this_bind, if_neg (by simp only []; omega), arrayGet,
        Method.run_this_bind, ArrayList.get, if_neg (by simp only []; omega)]
      rfl
  | window hne => exact absurd rfl hne

/-- Whatever is called, the fields go on standing for the plain sequence. -/
theorem represents_call (h : Represents s l) (c : Call α) :
    Represents ((call c).run s).2 ((plainCall c).run l).2 := by
  by_cases hc : ReadsFirstOfEmpty c l
  · rw [call_of_readsFirstOfEmpty h hc]
    obtain ⟨rfl, rfl⟩ := hc
    exact h
  · obtain ⟨s', hrun, hs'⟩ := call_spec h hc
    rw [hrun]
    exact hs'

/-- **One call** is answered as on a plain sequence, unless it reads the first of no cells. -/
theorem call_answer_iff (h : Represents s l) (c : Call α) :
    ((call c).run s).1 = ((plainCall c).run l).1 ↔ ¬ ReadsFirstOfEmpty c l := by
  constructor
  · intro hanswer hc
    rw [call_of_readsFirstOfEmpty h hc] at hanswer
    obtain ⟨rfl, rfl⟩ := hc
    cases hanswer
  · intro hc
    obtain ⟨s', hrun, -⟩ := call_spec h hc
    rw [hrun]

theorem answers_eq_iff (h : Represents s l) (calls : List (Call α)) :
    answers call calls s = answers plainCall calls l ↔
      ∀ before c rest, calls = before ++ c :: rest →
        ¬ ReadsFirstOfEmpty c (after plainCall before l) := by
  induction calls generalizing s l with
  | nil => exact ⟨fun _ before c rest hsplit => by simp at hsplit, fun _ => rfl⟩
  | cons c calls ih =>
      rw [answers, answers, List.cons.injEq, call_answer_iff h, ih (represents_call h c)]
      constructor
      · rintro ⟨hfirst, hrest⟩ before d rest hsplit
        cases before with
        | nil =>
            cases hsplit
            exact hfirst
        | cons b before =>
            cases hsplit
            exact hrest before d rest rfl
      · intro hall
        refine ⟨hall [] c calls rfl, fun before d rest hsplit => ?_⟩
        have := hall (c :: before) d rest (by rw [hsplit, List.cons_append])
        exact this

/-- **Every run** on a new list is answered as on a plain sequence exactly when it never asks for
the first cell while there is none. -/
theorem deque_iff (calls : List (Call α)) :
    answers call calls new = answers plainCall calls [] ↔
      ∀ before c rest, calls = before ++ c :: rest →
        ¬ ReadsFirstOfEmpty c (after plainCall before []) :=
  answers_eq_iff represents_new calls

/-- The first cell of an empty list. -/
theorem get_zero_of_new : answers call [.get 0] (new : ArrayLinkedList ℕ) =
      [.error .arrayIndexOutOfBounds] ∧
    answers plainCall [.get 0] ([] : List (Option ℕ)) = [.ok (.cell none)] :=
  ⟨rfl, rfl⟩

end ArrayLinkedList

end Control

end JavaFx
