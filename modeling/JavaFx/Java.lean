import JavaFx.Lib.Splice

/-!
# The Java runtime as the models see it

Methods that can throw are `Except Exn`. Arrays are lists whose accesses are
bounds-checked with the index the source computes, which may be negative.
-/

namespace JavaFx

/-- The exceptions the modelled methods throw, with the text of those the
source raises itself. -/
inductive Exn where
  | illegalState (msg : String)
  | illegalArgument (msg : String)
  | nullPointer
  | arrayIndexOutOfBounds
  | indexOutOfBounds
  | negativeArraySize
  | assertion
  | concurrentModification
  | noSuchElement
  | stackOverflow
  | outOfMemory
deriving DecidableEq, Repr

/-- `a[i]` -/
def arrayGet {β : Type} (a : List β) (i : ℤ) : Except Exn β :=
  if 0 ≤ i then
    match a[i.toNat]? with
    | some x => .ok x
    | none => .error .arrayIndexOutOfBounds
  else .error .arrayIndexOutOfBounds

/-- `a[i] = x` -/
def arraySet {β : Type} (a : List β) (i : ℤ) (x : β) : Except Exn (List β) :=
  if 0 ≤ i ∧ i.toNat < a.length then .ok (a.set i.toNat x)
  else .error .arrayIndexOutOfBounds

/-- `System.arraycopy(src, srcPos, dest, destPos, length)` -/
def arraycopy {β : Type} (src : List β) (srcPos : ℤ) (dest : List β)
    (destPos length : ℤ) : Except Exn (List β) :=
  if 0 ≤ srcPos ∧ 0 ≤ destPos ∧ 0 ≤ length ∧ srcPos + length ≤ src.length ∧
      destPos + length ≤ dest.length then
    .ok (Splice.splice destPos.toNat length.toNat
      (Splice.slice srcPos.toNat (srcPos + length).toNat src) dest)
  else .error .arrayIndexOutOfBounds

/-- `a[i].f()` on an array of references. -/
def arrayDeref {β : Type} (a : List (Option β)) (i : ℤ) : Except Exn β := do
  let x ← arrayGet a i
  match x with
  | some x => return x
  | none => .error .nullPointer

/-- `list.get(i)` -/
def listGet {β : Type} (l : List β) (i : ℕ) : Except Exn β :=
  match l[i]? with
  | some x => .ok x
  | none => .error .indexOutOfBounds

theorem listGet_inj {β : Type} {l : List β} {i j : ℕ}
    (h : listGet l i = listGet l j) : l[i]? = l[j]? := by
  unfold listGet at h
  cases hi : l[i]? with
  | none =>
      cases hj : l[j]? with
      | none => rfl
      | some y => rw [hi, hj] at h; cases h
  | some x =>
      cases hj : l[j]? with
      | none => rw [hi, hj] at h; cases h
      | some y => rw [hi, hj] at h; cases h; rfl

theorem arrayGet_of_lt {β : Type} {a : List β} {i : ℕ} (h : i < a.length) :
    arrayGet a (i : ℤ) = .ok a[i] := by
  simp [arrayGet, h]

theorem arraySet_of_lt {β : Type} {a : List β} {i : ℕ} (x : β)
    (h : i < a.length) : arraySet a (i : ℤ) x = .ok (a.set i x) := by
  simp [arraySet, h]

theorem arrayGet_eq_of_getElem? {β : Type} {a : List β} {i : ℤ} {x : β}
    (hi : 0 ≤ i) (h : a[i.toNat]? = some x) : arrayGet a i = .ok x := by
  simp [arrayGet, hi, h]

theorem arraycopy_of_le {β : Type} {src dest : List β} {srcPos destPos length : ℕ}
    (hs : srcPos + length ≤ src.length) (hd : destPos + length ≤ dest.length) :
    arraycopy src srcPos dest destPos length =
      .ok (Splice.splice destPos length
        (Splice.slice srcPos (srcPos + length) src) dest) := by
  rw [arraycopy, if_pos (by omega)]
  rfl

/-- Copying the end of a range to the left closes a gap. -/
theorem arraycopy_close {β : Type} {a pre old post tail : List β}
    (ha : a = pre ++ (old ++ (post ++ tail))) {lo n m : ℕ} (hlo : pre.length = lo)
    (hn : old.length = n) (hm : post.length = m) :
    ∃ tail', arraycopy a ((lo + n : ℕ) : ℤ) a lo (m : ℕ) =
        .ok (pre ++ (post ++ tail')) ∧ tail'.length = tail.length + n := by
  subst hlo hn hm
  have hlen : a.length = pre.length + (old.length + (post.length + tail.length)) := by
    rw [ha]
    simp
  refine ⟨a.drop (pre.length + post.length), ?_, ?_⟩
  · rw [arraycopy_of_le (by omega) (by omega)]
    have hslice : Splice.slice (pre.length + old.length)
        (pre.length + old.length + post.length) a = post := by
      rw [Splice.slice, Nat.add_sub_cancel_left, ha, ← List.append_assoc,
        List.drop_left' (List.length_append), List.take_left]
    have htake : a.take pre.length = pre := by rw [ha, List.take_left]
    rw [hslice, Splice.splice, htake]
  · rw [List.length_drop]
    omega

/-- Copying the end of a range to the right opens a gap. -/
theorem arraycopy_open {β : Type} {a pre post tail : List β}
    (ha : a = pre ++ (post ++ tail)) {lo k m : ℕ} (hlo : pre.length = lo)
    (hm : post.length = m) (hk : k ≤ tail.length) :
    ∃ gap tail', arraycopy a lo a ((lo + k : ℕ) : ℤ) (m : ℕ) =
        .ok (pre ++ (gap ++ (post ++ tail'))) ∧ gap.length = k ∧
      tail'.length = tail.length - k := by
  subst hlo hm
  have hlen : a.length = pre.length + (post.length + tail.length) := by
    rw [ha]
    simp
  refine ⟨(post ++ tail).take k, a.drop (pre.length + k + post.length), ?_, ?_, ?_⟩
  · rw [arraycopy_of_le (by omega) (by omega)]
    have hslice : Splice.slice pre.length (pre.length + post.length) a = post := by
      rw [Splice.slice, Nat.add_sub_cancel_left, ha, List.drop_left, List.take_left]
    have htake : a.take (pre.length + k) = pre ++ (post ++ tail).take k := by
      rw [ha, List.take_length_add_append]
    rw [hslice, Splice.splice, htake, List.append_assoc]
  · rw [List.length_take, List.length_append]
    omega
  · rw [List.length_drop]
    omega

/-! ## `Except` in sequence -/

@[simp] theorem except_ok_bind {ε β γ : Type} (b : β) (f : β → Except ε γ) :
    ((Except.ok b : Except ε β) >>= f) = f b := rfl

@[simp] theorem except_error_bind {ε β γ : Type} (e : ε) (f : β → Except ε γ) :
    ((Except.error e : Except ε β) >>= f) = .error e := rfl

theorem except_bind_eq_ok {ε β γ : Type} {x : Except ε β} {f : β → Except ε γ}
    {c : γ} : (x >>= f) = .ok c ↔ ∃ b, x = .ok b ∧ f b = .ok c := by
  cases x <;> simp

theorem except_map_eq_ok {ε β γ : Type} {x : Except ε β} {f : β → γ} {c : γ} :
    x.map f = .ok c ↔ ∃ b, x = .ok b ∧ f b = c := by
  cases x <;> simp [Except.map]

theorem except_map_injective {ε β γ : Type} {f : β → γ}
    (hf : ∀ x y, f x = f y → x = y) {x y : Except ε β} (h : x.map f = y.map f) :
    x = y := by
  cases x with
  | error e =>
      cases y with
      | error e' => cases h; rfl
      | ok b => cases h
  | ok a =>
      cases y with
      | error e' => cases h
      | ok b => rw [hf a b (Except.ok.inj h)]

/-- A loop whose rounds all succeed while `P` holds computes the plain fold. -/
theorem foldlM_eq_ok {ε β γ : Type} {f : β → γ → Except ε β} {g : β → γ → β}
    (P : β → Prop) {l : List γ} {s : β}
    (h : ∀ s x, x ∈ l → P s → f s x = .ok (g s x) ∧ P (g s x)) (hs : P s) :
    l.foldlM f s = .ok (l.foldl g s) ∧ P (l.foldl g s) := by
  induction l generalizing s with
  | nil => exact ⟨rfl, hs⟩
  | cons x l ih =>
      obtain ⟨hx, hP⟩ := h s x List.mem_cons_self hs
      obtain ⟨hl, hl'⟩ := ih (fun s y hy => h s y (List.mem_cons_of_mem _ hy)) hP
      rw [List.foldlM_cons, hx, except_ok_bind, hl]
      exact ⟨rfl, hl'⟩

theorem foldlM_append_ok {ε β γ : Type} {f : β → γ → Except ε β} {l l' : List γ}
    {s t : β} (h : l.foldlM f s = .ok t) :
    (l ++ l').foldlM f s = l'.foldlM f t := by
  rw [List.foldlM_append, h, except_ok_bind]

theorem mapM_eq_ok {ε β γ : Type} {f : β → Except ε γ} {g : β → γ} {l : List β}
    (h : ∀ x ∈ l, f x = .ok (g x)) : l.mapM f = .ok (l.map g) := by
  induction l with
  | nil => rfl
  | cons x l ih =>
      rw [List.mapM_cons, h x List.mem_cons_self, except_ok_bind,
        ih fun y hy => h y (List.mem_cons_of_mem _ hy), except_ok_bind]
      rfl

end JavaFx
