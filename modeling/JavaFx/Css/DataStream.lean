import JavaFx.Java
import JavaFx.Lib.ByteStream

/-!
# `DataOutputStream` and `DataInputStream`

What the binary style sheets are written with: integers of two, four and eight bytes, and
strings in modified UTF-8.
-/

namespace JavaFx.Css

open ByteStream

/-- What reading and writing can end in. The first two are an `IOException`. -/
inductive StreamExn where
  | eof
  | utfDataFormat
  | runtime (e : Exn)
  | classCast
  | internalError
  | outOfMemory
deriving DecidableEq

/-- A Java string: its UTF-16 code units. -/
abbrev JString := List (BitVec 16)

/-- The code units of a character. -/
def unitsOf (c : Char) : List (BitVec 16) :=
  if c.toNat < 0x10000 then [BitVec.ofNat 16 c.toNat]
  else [BitVec.ofNat 16 (0xd800 + (c.toNat - 0x10000) / 1024),
    BitVec.ofNat 16 (0xdc00 + c.toNat % 1024)]

/-- A string literal of the source. -/
def lit (s : String) : JString := s.toList.flatMap unitsOf

theorem toNat_unit {n : ℕ} (h : n < 0x10000) : (BitVec.ofNat 16 n).toNat = n := by
  rw [BitVec.toNat_ofNat, Nat.mod_eq_of_lt h]

/-- No character is a surrogate. -/
theorem toNat_char (c : Char) :
    c.toNat < 0xd800 ∨ 0xdfff < c.toNat ∧ c.toNat < 0x110000 := c.valid

theorem unitsOf_ne_nil (c : Char) : unitsOf c ≠ [] := by
  unfold unitsOf
  split
  · exact List.cons_ne_nil _ _
  · exact List.cons_ne_nil _ _

theorem unitsOf_append_inj {c d : Char} {l m : List (BitVec 16)}
    (h : unitsOf c ++ l = unitsOf d ++ m) : c = d ∧ l = m := by
  have hc := toNat_char c
  have hd := toNat_char d
  have hunit : ∀ {x y : ℕ}, x < 0x10000 → y < 0x10000 → BitVec.ofNat 16 x = BitVec.ofNat 16 y →
      x = y := by
    intro x y hx hy hxy
    rw [← toNat_unit hx, hxy, toNat_unit hy]
  unfold unitsOf at h
  by_cases hcs : c.toNat < 0x10000
  · rw [if_pos hcs] at h
    by_cases hds : d.toNat < 0x10000
    · rw [if_pos hds] at h
      obtain ⟨hhead, htail⟩ := List.cons.inj h
      exact ⟨Char.toNat_inj.mp (hunit hcs hds hhead), htail⟩
    · rw [if_neg hds] at h
      have := hunit hcs (by omega) (List.cons.inj h).1
      omega
  · rw [if_neg hcs] at h
    by_cases hds : d.toNat < 0x10000
    · rw [if_pos hds] at h
      have := hunit (by omega) hds (List.cons.inj h).1
      omega
    · rw [if_neg hds] at h
      obtain ⟨hhead, htail⟩ := List.cons.inj h
      obtain ⟨hsecond, hrest⟩ := List.cons.inj htail
      have h₁ := hunit (by omega) (by omega) hhead
      have h₂ := hunit (by omega) (by omega) hsecond
      exact ⟨Char.toNat_inj.mp (by omega), hrest⟩

theorem flatMap_unitsOf_injective (l : List Char) :
    ∀ m, l.flatMap unitsOf = m.flatMap unitsOf → l = m := by
  induction l with
  | nil =>
      intro m h
      cases m with
      | nil => rfl
      | cons d m =>
          rw [List.flatMap_nil, List.flatMap_cons] at h
          exact absurd (List.append_eq_nil_iff.mp h.symm).1 (unitsOf_ne_nil d)
  | cons c l ih =>
      intro m h
      cases m with
      | nil =>
          rw [List.flatMap_nil, List.flatMap_cons] at h
          exact absurd (List.append_eq_nil_iff.mp h).1 (unitsOf_ne_nil c)
      | cons d m =>
          rw [List.flatMap_cons, List.flatMap_cons] at h
          obtain ⟨rfl, hrest⟩ := unitsOf_append_inj h
          rw [ih m hrest]

/-- Literals are the same if their characters are. -/
theorem lit_injective : Function.Injective lit := fun _ _ h =>
  String.toList_inj.mp (flatMap_unitsOf_injective _ _ h)

/-- The bits of a `double`, where all NaNs are one. -/
def canonicalBits (b : BitVec 64) : BitVec 64 :=
  if b.toNat % 2 ^ 63 > 0x7ff0000000000000 then 0x7ff8000000000000#64 else b

/-- A `double`. -/
structure Double where
  bits : BitVec 64
  canonical : canonicalBits bits = bits
deriving DecidableEq

def doubleToLongBits (d : Double) : BitVec 64 := d.bits

theorem canonicalBits_idem (b : BitVec 64) :
    canonicalBits (canonicalBits b) = canonicalBits b := by
  unfold canonicalBits
  by_cases h : b.toNat % 2 ^ 63 > 0x7ff0000000000000
  · rw [if_pos h]
    decide
  · rw [if_neg h, if_neg h]

def longBitsToDouble (b : BitVec 64) : Double := ⟨canonicalBits b, canonicalBits_idem b⟩

theorem longBitsToDouble_toLongBits (d : Double) : longBitsToDouble (doubleToLongBits d) = d := by
  obtain ⟨bits, h⟩ := d
  simp only [longBitsToDouble, doubleToLongBits, h]

/-! ## Integers -/

def writeByte (n : ℕ) : List Byte := bigEndian 1 n

def writeShort (n : ℕ) : List Byte := bigEndian 2 n

def writeInt (n : ℕ) : List Byte := bigEndian 4 n

def writeLong (b : BitVec 64) : List Byte := bigEndian 8 b.toNat

def writeBoolean (b : Bool) : List Byte := writeByte (if b then 1 else 0)

/-- `k` bytes as an unsigned number. -/
def readUnsigned (k : ℕ) : Reader StreamExn ℕ := value <$> take .eof k

/-- The two's complement reading of a number below `2 ^ w`. -/
def toSigned (w n : ℕ) : ℤ := if n < 2 ^ (w - 1) then n else n - 2 ^ w

def readByte : Reader StreamExn ℤ := toSigned 8 <$> readUnsigned 1

def readShort : Reader StreamExn ℤ := toSigned 16 <$> readUnsigned 2

def readInt : Reader StreamExn ℤ := toSigned 32 <$> readUnsigned 4

def readLong : Reader StreamExn (BitVec 64) := BitVec.ofNat 64 <$> readUnsigned 8

def readBoolean : Reader StreamExn Bool := (· ≠ 0) <$> readUnsigned 1

theorem decodes_unsigned (k n : ℕ) : Decodes (readUnsigned k) (bigEndian k n) (n % 256 ^ k) := by
  rw [← value_bigEndian]
  exact (decodes_take StreamExn.eof (length_bigEndian k n)).map value

/-- A short comes back as its last sixteen bits, with a sign. -/
theorem decodes_short (n : ℕ) : Decodes readShort (writeShort n) (toSigned 16 (n % 65536)) :=
  (decodes_unsigned 2 n).map _

theorem toSigned_of_lt {w n : ℕ} (h : n < 2 ^ (w - 1)) : toSigned w n = n := if_pos h

/-- A short that is not negative comes back. -/
theorem decodes_short_of_lt {n : ℕ} (h : n < 32768) : Decodes readShort (writeShort n) n := by
  have hn : toSigned 16 (n % 65536) = n := by
    rw [Nat.mod_eq_of_lt (by omega)]
    exact toSigned_of_lt h
  rw [← hn]
  exact decodes_short n

/-- No other number comes back from a short. -/
theorem toSigned_short_eq {n : ℕ} (h : toSigned 16 (n % 65536) = n) : n < 32768 := by
  unfold toSigned at h
  split at h <;> omega

theorem toSigned_short_neg {n : ℕ} (h : ¬ n % 65536 < 32768) : toSigned 16 (n % 65536) < 0 := by
  unfold toSigned
  split <;> omega

theorem decodes_int_of_lt {n : ℕ} (h : n < 2 ^ 31) : Decodes readInt (writeInt n) n := by
  have hn : toSigned 32 (n % 256 ^ 4) = n := by
    rw [Nat.mod_eq_of_lt (by omega)]
    exact toSigned_of_lt h
  rw [← hn]
  exact (decodes_unsigned 4 n).map _

theorem decodes_byte_of_lt {n : ℕ} (h : n < 128) : Decodes readByte (writeByte n) n := by
  have hn : toSigned 8 (n % 256 ^ 1) = n := by
    rw [Nat.mod_eq_of_lt (by omega)]
    exact toSigned_of_lt h
  rw [← hn]
  exact (decodes_unsigned 1 n).map _

theorem decodes_boolean (b : Bool) : Decodes readBoolean (writeBoolean b) b := by
  cases b
  · exact (decodes_unsigned 1 0).map _
  · exact (decodes_unsigned 1 1).map _

theorem decodes_long (b : BitVec 64) : Decodes readLong (writeLong b) b := by
  have hb : BitVec.ofNat 64 (b.toNat % 256 ^ 8) = b := by
    rw [Nat.mod_eq_of_lt (by have := b.isLt; omega), BitVec.ofNat_toNat, BitVec.setWidth_eq]
  have h := (decodes_unsigned 8 b.toNat).map (BitVec.ofNat 64)
  rwa [hb] at h

/-! ## Strings -/

/-- The bytes of one code unit. -/
def encodeUnit (c : BitVec 16) : List Byte :=
  if 1 ≤ c.toNat ∧ c.toNat ≤ 0x7f then [BitVec.ofNat 8 c.toNat]
  else if 0x7ff < c.toNat then
    [BitVec.ofNat 8 (0xe0 + c.toNat / 4096 % 16), BitVec.ofNat 8 (0x80 + c.toNat / 64 % 64),
      BitVec.ofNat 8 (0x80 + c.toNat % 64)]
  else [BitVec.ofNat 8 (0xc0 + c.toNat / 64 % 32), BitVec.ofNat 8 (0x80 + c.toNat % 64)]

def encodeUTF (s : JString) : List Byte := s.flatMap encodeUnit

/-- The `switch` of `readUTF` over the upper half of a byte. -/
def decodeUTF : List Byte → Option JString
  | [] => some []
  | b :: rest =>
      if b.toNat / 16 < 8 then (decodeUTF rest).map (BitVec.ofNat 16 b.toNat :: ·)
      else if b.toNat / 16 = 12 ∨ b.toNat / 16 = 13 then
        match rest with
        | b₂ :: rest =>
            if b₂.toNat / 64 = 2 then
              (decodeUTF rest).map (BitVec.ofNat 16 (b.toNat % 32 * 64 + b₂.toNat % 64) :: ·)
            else none
        | [] => none
      else if b.toNat / 16 = 14 then
        match rest with
        | b₂ :: b₃ :: rest =>
            if b₂.toNat / 64 = 2 ∧ b₃.toNat / 64 = 2 then
              (decodeUTF rest).map (BitVec.ofNat 16
                (b.toNat % 16 * 4096 + b₂.toNat % 64 * 64 + b₃.toNat % 64) :: ·)
            else none
        | _ => none
      else none

theorem decodeUTF_encodeUnit (c : BitVec 16) (rest : List Byte) :
    decodeUTF (encodeUnit c ++ rest) = (decodeUTF rest).map (c :: ·) := by
  have hc := c.isLt
  unfold encodeUnit
  split
  · next h =>
      have hb : (BitVec.ofNat 8 c.toNat).toNat = c.toNat := by
        rw [BitVec.toNat_ofNat]
        omega
      rw [List.singleton_append, decodeUTF.eq_def]
      simp only [hb]
      rw [if_pos (by omega), BitVec.ofNat_toNat, BitVec.setWidth_eq]
  · split
    · next h =>
        have h₁ : (BitVec.ofNat 8 (0xe0 + c.toNat / 4096 % 16)).toNat =
            0xe0 + c.toNat / 4096 % 16 := by
          rw [BitVec.toNat_ofNat]
          omega
        have h₂ : (BitVec.ofNat 8 (0x80 + c.toNat / 64 % 64)).toNat = 0x80 + c.toNat / 64 % 64 := by
          rw [BitVec.toNat_ofNat]
          omega
        have h₃ : (BitVec.ofNat 8 (0x80 + c.toNat % 64)).toNat = 0x80 + c.toNat % 64 := by
          rw [BitVec.toNat_ofNat]
          omega
        have hunit : (0xe0 + c.toNat / 4096 % 16) % 16 * 4096 + (0x80 + c.toNat / 64 % 64) % 64 * 64 +
            (0x80 + c.toNat % 64) % 64 = c.toNat := by
          omega
        simp only [List.cons_append, List.nil_append]
        rw [decodeUTF, h₁, if_neg (by omega), if_neg (by omega), if_pos (by omega)]
        simp only [h₂, h₃]
        rw [if_pos (by omega), hunit, BitVec.ofNat_toNat, BitVec.setWidth_eq]
    · next h h' =>
        have h₁ : (BitVec.ofNat 8 (0xc0 + c.toNat / 64 % 32)).toNat = 0xc0 + c.toNat / 64 % 32 := by
          rw [BitVec.toNat_ofNat]
          omega
        have h₂ : (BitVec.ofNat 8 (0x80 + c.toNat % 64)).toNat = 0x80 + c.toNat % 64 := by
          rw [BitVec.toNat_ofNat]
          omega
        have hunit : (0xc0 + c.toNat / 64 % 32) % 32 * 64 + (0x80 + c.toNat % 64) % 64 =
            c.toNat := by
          omega
        simp only [List.cons_append, List.nil_append]
        rw [decodeUTF, h₁, if_neg (by omega), if_pos (by omega)]
        simp only [h₂]
        rw [if_pos (by omega), hunit, BitVec.ofNat_toNat, BitVec.setWidth_eq]

/-- Every sequence of code units comes back, surrogates without a partner included. -/
theorem decodeUTF_encodeUTF (s : JString) : decodeUTF (encodeUTF s) = some s := by
  induction s with
  | nil => rfl
  | cons c s ih =>
      rw [encodeUTF, List.flatMap_cons, decodeUTF_encodeUnit]
      change (decodeUTF (encodeUTF s)).map _ = _
      rw [ih]
      rfl

/-- `writeUTF`; the length has to fit in two bytes. -/
def writeUTF (s : JString) : Except StreamExn (List Byte) :=
  if (encodeUTF s).length > 65535 then .error .utfDataFormat
  else .ok (writeShort (encodeUTF s).length ++ encodeUTF s)

def readUTF : Reader StreamExn JString := do
  let utflen ← readUnsigned 2
  let bytes ← take .eof utflen
  match decodeUTF bytes with
  | some s => pure s
  | none => throw .utfDataFormat

theorem decodes_UTF {s : JString} {bs : List Byte} (h : writeUTF s = .ok bs) :
    Decodes readUTF bs s := by
  unfold writeUTF at h
  split at h
  · cases h
  · next hlen =>
      injection h with h
      subst h
      have hmod : (encodeUTF s).length % 256 ^ 2 = (encodeUTF s).length :=
        Nat.mod_eq_of_lt (by omega)
      have hfirst := decodes_unsigned 2 (encodeUTF s).length
      rw [hmod] at hfirst
      refine hfirst.bind ?_
      refine (decodes_take StreamExn.eof rfl).bind_nil ?_
      rw [decodeUTF_encodeUTF]
      exact decodes_pure s

end JavaFx.Css
