import Mathlib.Data.List.Basic
import Mathlib.Data.Nat.Init
import Mathlib.Tactic

/-!
# Byte streams

Readers take bytes from the front of an input. `Decodes r bs a` says that `r` takes exactly the
bytes `bs` and returns `a`, whatever follows them, and composes along the binds of a reader.
-/

namespace ByteStream

abbrev Byte := BitVec 8

/-- A reader that can fail with an `ε`. -/
abbrev Reader (ε α : Type) := StateT (List Byte) (Except ε) α

variable {ε α β : Type}

/-- The reader takes the bytes `bs` from any input that starts with them and returns `a`. -/
def Decodes (r : Reader ε α) (bs : List Byte) (a : α) : Prop :=
  ∀ rest, r (bs ++ rest) = .ok (a, rest)

theorem decodes_pure (a : α) : Decodes (pure a : Reader ε α) [] a := fun _ => rfl

/-- A reader that has returned has been through its parts. -/
theorem bind_eq_ok {r : Reader ε α} {f : α → Reader ε β} {s s'' : List Byte} {b : β}
    (h : (r >>= f) s = .ok (b, s'')) : ∃ a s', r s = .ok (a, s') ∧ f a s' = .ok (b, s'') := by
  change (r s).bind (fun x => f x.1 x.2) = _ at h
  cases hr : r s with
  | error e => rw [hr] at h; cases h
  | ok x =>
      rw [hr] at h
      exact ⟨x.1, x.2, rfl, h⟩

theorem bind_of_ok {r : Reader ε α} {s s' : List Byte} {a : α} (h : r s = .ok (a, s'))
    (f : α → Reader ε β) : (r >>= f) s = f a s' := by
  show (r s).bind (fun x => f x.1 x.2) = _
  rw [h]
  rfl

/-- What comes after goes on behind the bytes. -/
theorem Decodes.bind_apply {r : Reader ε α} {bs : List Byte} {a : α} (h : Decodes r bs a)
    (f : α → Reader ε β) (rest : List Byte) : (r >>= f) (bs ++ rest) = f a rest :=
  bind_of_ok (h rest) f

theorem Decodes.bind {r : Reader ε α} {bs bs' : List Byte} {a : α} {f : α → Reader ε β} {b : β}
    (h : Decodes r bs a) (h' : Decodes (f a) bs' b) : Decodes (r >>= f) (bs ++ bs') b := by
  intro rest
  rw [List.append_assoc, h.bind_apply]
  exact h' rest

theorem Decodes.map {r : Reader ε α} {bs : List Byte} {a : α} (h : Decodes r bs a) (g : α → β) :
    Decodes (g <$> r) bs (g a) := by
  intro rest
  show (r (bs ++ rest)).bind (fun x => .ok (g x.1, x.2)) = _
  rw [h]
  rfl

/-- What comes after may take no bytes. -/
theorem Decodes.bind_nil {r : Reader ε α} {bs : List Byte} {a : α} {f : α → Reader ε β} {b : β}
    (h : Decodes r bs a) (h' : Decodes (f a) [] b) : Decodes (r >>= f) bs b := by
  have := h.bind h'
  rwa [List.append_nil] at this

/-! ## A number of bytes -/

/-- The next `n` bytes. -/
def take (eof : ε) (n : ℕ) : Reader ε (List Byte) := fun s =>
  if n ≤ s.length then .ok (s.take n, s.drop n) else .error eof

theorem decodes_take (eof : ε) {n : ℕ} {bs : List Byte} (h : bs.length = n) :
    Decodes (take eof n) bs bs := by
  intro rest
  rw [take, if_pos (by rw [List.length_append]; omega), List.take_left' h, List.drop_left' h]

/-! ## Big-endian numbers -/

/-- The last `k` bytes of a number, the highest one first. -/
def bigEndian : ℕ → ℕ → List Byte
  | 0, _ => []
  | k + 1, n => bigEndian k (n / 256) ++ [BitVec.ofNat 8 n]

/-- The number that some bytes stand for. -/
def value (bs : List Byte) : ℕ := bs.foldl (fun n b => n * 256 + b.toNat) 0

@[simp] theorem length_bigEndian (k n : ℕ) : (bigEndian k n).length = k := by
  induction k generalizing n with
  | zero => rfl
  | succ k ih => rw [bigEndian, List.length_append, ih, List.length_singleton]

theorem value_bigEndian (k n : ℕ) : value (bigEndian k n) = n % 256 ^ k := by
  induction k generalizing n with
  | zero => rw [Nat.pow_zero, Nat.mod_one]; rfl
  | succ k ih =>
      have hstep : value (bigEndian (k + 1) n) = value (bigEndian k (n / 256)) * 256 + n % 256 := by
        rw [value, bigEndian, List.foldl_append]
        rfl
      rw [hstep, ih, Nat.pow_succ', Nat.mod_mul]
      omega

/-! ## Repetition -/

/-- `n` values, one after the other. -/
def replicateReader (r : Reader ε α) : ℕ → Reader ε (List α)
  | 0 => pure []
  | n + 1 => do
      let a ← r
      let rest ← replicateReader r n
      pure (a :: rest)

/-- As many values are read as have been asked for. -/
theorem length_replicateReader {r : Reader ε α} {n : ℕ} {s rest : List Byte} {as : List α}
    (h : replicateReader r n s = .ok (as, rest)) : as.length = n := by
  induction n generalizing s as with
  | zero =>
      cases h
      rfl
  | succ n ih =>
      obtain ⟨x, s', -, hrest⟩ := bind_eq_ok h
      obtain ⟨xs, s'', hxs, hpure⟩ := bind_eq_ok hrest
      cases hpure
      rw [List.length_cons, ih hxs]

/-- Looking at every value. -/
theorem replicateReader_map (r : Reader ε α) (g : α → β) (n : ℕ) :
    replicateReader (g <$> r) n = List.map g <$> replicateReader r n := by
  induction n with
  | zero => rfl
  | succ n ih =>
      rw [replicateReader, replicateReader, ih]
      simp only [bind_map_left, map_bind, map_pure, List.map_cons]

theorem map_eq_ok {r : Reader ε α} {g : α → β} {s s' : List Byte} {b : β}
    (h : (g <$> r) s = .ok (b, s')) : ∃ a, r s = .ok (a, s') ∧ g a = b := by
  change (r s).bind (fun x => .ok (g x.1, x.2)) = _ at h
  cases hr : r s with
  | error e => rw [hr] at h; cases h
  | ok x =>
      rw [hr] at h
      cases h
      exact ⟨x.1, rfl, rfl⟩

end ByteStream
