import JavaFx.Lib.Decimal
import JavaFx.Fxml.ExpressionText

/-!
# Reading printed literals

`Lang.Documented` is what the documentation of `Character` and `Double` says, in full for ASCII and
between the classes of the other units. Each literal is read from its text, up to the space or the
end of the text that follows it.
-/

namespace JavaFx.Fxml

/-! ## The standard library -/

def asciiWhitespace (c : UInt16) : Bool := (9 ≤ c && c ≤ 13) || (28 ≤ c && c ≤ 32)

def asciiStart (c : UInt16) : Bool :=
  (65 ≤ c && c ≤ 90) || (97 ≤ c && c ≤ 122) || c == 36 || c == 95

/-- The parts of identifiers; control characters may be ignored in them. -/
def asciiPart (c : UInt16) : Bool :=
  asciiStart c || (48 ≤ c && c ≤ 57) || c ≤ 8 || (14 ≤ c && c ≤ 27) || c == 127

def asciiDigit (radix : ℕ) (c : UInt16) : Option ℕ :=
  if 48 ≤ c ∧ c ≤ 57 then some (c.toNat - 48)
  else if radix = 16 ∧ 97 ≤ c ∧ c ≤ 102 then some (c.toNat - 87)
  else if radix = 16 ∧ 65 ≤ c ∧ c ≤ 70 then some (c.toNat - 55)
  else none

variable {R : Type}

/-- What `Character` and `Double` document. -/
structure Lang.Documented (lang : Lang R) : Prop where
  whitespace_ascii : ∀ c, c < 128 → lang.isWhitespace c = asciiWhitespace c
  start_ascii : ∀ c, c < 128 → lang.isJavaIdentifierStart c = asciiStart c
  part_ascii : ∀ c, c < 128 → lang.isJavaIdentifierPart c = asciiPart c
  digit_ascii : ∀ c radix, c < 128 → radix = 10 ∨ radix = 16 → lang.digit c radix = asciiDigit radix c
  part_of_start : ∀ c, lang.isJavaIdentifierStart c = true → lang.isJavaIdentifierPart c = true
  part_of_digit : ∀ c, lang.isDigit c = true → lang.isJavaIdentifierPart c = true
  not_start_of_digit : ∀ c, lang.isDigit c = true → lang.isJavaIdentifierStart c = false
  not_whitespace_of_part : ∀ c, lang.isJavaIdentifierPart c = true → lang.isWhitespace c = false
  not_control_of_digit : ∀ c, lang.isDigit c = true → isISOControl c = false
  parse_toString : ∀ d, lang.parseDouble (lang.doubleToString d) = some d
  /-- an exponent has a digit -/
  parse_exponent : ∀ w, lang.parseDouble (w ++ [unit 'E']) = none

variable {lang : Lang R}

theorem Lang.Documented.digit_unit (h : lang.Documented) {c : UInt16} (hc : c < 128) :
    lang.isDigit c = (asciiDigit 10 c).isSome := by
  rw [Lang.isDigit, h.digit_ascii c 10 hc (Or.inl rfl)]

/-- A unit of one class is no ASCII unit outside it. -/
theorem ne_of_ascii {p : UInt16 → Bool} {q : UInt16 → Bool} (h : ∀ c, c < 128 → p c = q c)
    {c d : UInt16} (hc : p c = true) (hd : d < 128) (hq : q d = false) : c ≠ d := by
  rintro rfl
  rw [h c hd, hq] at hc
  cases hc

theorem Lang.Documented.start_ne (h : lang.Documented) {c d : UInt16}
    (hc : lang.isJavaIdentifierStart c = true) (hd : d < 128) (hq : asciiStart d = false) : c ≠ d :=
  ne_of_ascii h.start_ascii hc hd hq

theorem Lang.Documented.part_ne (h : lang.Documented) {c d : UInt16}
    (hc : lang.isJavaIdentifierPart c = true) (hd : d < 128) (hq : asciiPart d = false) : c ≠ d :=
  ne_of_ascii h.part_ascii hc hd hq

theorem Lang.Documented.digit_ne (h : lang.Documented) {c d : UInt16} (hc : lang.isDigit c = true)
    (hd : d < 128) (hq : (asciiDigit 10 d).isSome = false) : c ≠ d :=
  ne_of_ascii (fun _ hlt => h.digit_unit hlt) hc hd hq

/-- A token ends at a space or at the end of the text. -/
def Boundary (k : List UInt16) : Prop := ∀ c ∈ k.head?, c = unit ' '

theorem boundary_nil : Boundary [] := fun c hc => by cases hc

theorem span_boundary {p : UInt16 → Bool} {w k : List UInt16} (hw : ∀ c ∈ w, p c = true)
    (hk : ∀ c ∈ k.head?, p c = false) : (w ++ k).span p = (w, k) := by
  rw [List.span_eq_takeWhile_dropWhile]
  have htake : k.takeWhile p = [] := by
    rcases k with _ | ⟨c, k⟩
    · rfl
    · exact List.takeWhile_cons_of_neg (by rw [hk c rfl]; exact Bool.false_ne_true)
  have hdrop : k.dropWhile p = k := by
    rcases k with _ | ⟨c, k⟩
    · rfl
    · exact List.dropWhile_cons_of_neg (by rw [hk c rfl]; exact Bool.false_ne_true)
  rw [List.takeWhile_append_of_pos hw, List.dropWhile_append_of_pos hw, htake, hdrop,
    List.append_nil]

/-! ## Numbers -/

theorem asciiDigit_decimalUnit {d : ℕ} (hd : d < 10) :
    decimalUnit d < 128 ∧ asciiDigit 10 (decimalUnit d) = some d := by
  interval_cases d <;> decide

theorem asciiDigit_hexUnit {d : ℕ} (hd : d < 16) :
    hexUnit d < 128 ∧ asciiDigit 16 (hexUnit d) = some d ∧ hexUnit d ≠ unit '-' ∧
      hexUnit d ≠ unit '+' := by
  interval_cases d <;> decide

theorem Lang.Documented.digit_decimalUnit (h : lang.Documented) {d : ℕ} (hd : d < 10) :
    lang.digit (decimalUnit d) 10 = some d := by
  rw [h.digit_ascii _ _ (asciiDigit_decimalUnit hd).1 (Or.inl rfl)]
  exact (asciiDigit_decimalUnit hd).2

theorem Lang.Documented.digit_hexUnit (h : lang.Documented) {d : ℕ} (hd : d < 16) :
    lang.digit (hexUnit d) 16 = some d := by
  rw [h.digit_ascii _ _ (asciiDigit_hexUnit hd).1 (Or.inr rfl)]
  exact (asciiDigit_hexUnit hd).2.1

theorem parseDigits_decimal (h : lang.Documented) {ds : List ℕ} (hds : ∀ d ∈ ds, d < 10) (n : ℕ) :
    parseDigits lang 10 n (ds.map decimalUnit) = some (ds.foldl (fun n d => n * 10 + d) n) := by
  induction ds generalizing n with
  | nil => rfl
  | cons d ds ih =>
      rw [List.map_cons, parseDigits, h.digit_decimalUnit (hds d List.mem_cons_self)]
      exact ih (fun e he => hds e (List.mem_cons_of_mem _ he)) _

/-- The digits of a number in decimal. -/
theorem exists_digits (n : ℕ) : ∃ ds : List ℕ, ds ≠ [] ∧ (∀ d ∈ ds, d < 10) ∧
    decimalText n = ds.map decimalUnit ∧ ds.foldl (fun n d => n * 10 + d) 0 = n := by
  refine ⟨Decimal.digits n, Decimal.digits_ne_nil n, fun _ => Decimal.digits_lt, ?_,
    Decimal.read_digits n⟩
  unfold decimalText Decimal.digits
  split_ifs with hn <;> rfl

theorem isNumberPart_decimalUnit (h : lang.Documented) {d : ℕ} (hd : d < 10) :
    lang.isNumberPart (decimalUnit d) = true := by
  rw [Lang.isNumberPart, Lang.isDigit, h.digit_decimalUnit hd]
  rfl

theorem isNumberPart_boundary (h : lang.Documented) {k : List UInt16} (hk : Boundary k) :
    ∀ c ∈ k.head?, lang.isNumberPart c = false := by
  rintro c hc
  rw [hk c hc, Lang.isNumberPart, h.digit_unit (by decide)]
  decide

theorem decimalUnit_ne_dot {d : ℕ} (hd : d < 10) : unit '.' ≠ decimalUnit d := by
  interval_cases d <;> decide

theorem readNumber_long (h : lang.Documented) {n : ℕ} (hn : n < 2 ^ 63) {k : List UInt16}
    (hk : Boundary k) : readNumber lang (decimalText n ++ k) = .ok (.long n, k) := by
  obtain ⟨ds, -, hds, htext, hfold⟩ := exists_digits n
  have hspan : (decimalText n ++ k).span lang.isNumberPart = (decimalText n, k) := by
    refine span_boundary ?_ (isNumberPart_boundary h hk)
    rintro c hc
    rw [htext] at hc
    obtain ⟨d, hd, rfl⟩ := List.mem_map.mp hc
    exact isNumberPart_decimalUnit h (hds d hd)
  have hdot : unit '.' ∉ decimalText n := by
    rw [htext]
    rintro hc
    obtain ⟨d, hd, heq⟩ := List.mem_map.mp hc
    exact decimalUnit_ne_dot (hds d hd) heq.symm
  have hparse : parseLong lang (decimalText n) = .ok n := by
    rw [parseLong, htext, parseDigits_decimal h hds, hfold]
    exact if_pos hn
  simp only [readNumber, hspan, if_neg hdot, hparse]
  rfl

/-- A decimal digit. -/
def isDecimalDigit (c : UInt16) : Bool := 48 ≤ c && c ≤ 57

/-- The texts of finite doubles without a sign: digits, a dot, digits, and perhaps an exponent. -/
def IsDecimal (w : List UInt16) : Prop :=
  ∃ whole fraction exponent, w = whole ++ unit '.' :: fraction ++ exponent ∧ whole ≠ [] ∧
    (∀ c ∈ whole ++ fraction, isDecimalDigit c = true) ∧
      (exponent = [] ∨ ∃ digits : List UInt16, (∀ c ∈ digits, isDecimalDigit c = true) ∧
        (exponent = unit 'E' :: digits ∨ exponent = unit 'E' :: unit '-' :: digits))

theorem isDigit_of_decimal (h : lang.Documented) {c : UInt16} (hc : isDecimalDigit c = true) :
    lang.isDigit c = true := by
  rw [isDecimalDigit, Bool.and_eq_true, decide_eq_true_eq, decide_eq_true_eq] at hc
  have hlt : c < 128 := UInt16.lt_of_le_of_lt hc.2 (by decide)
  rw [h.digit_unit hlt, asciiDigit, if_pos hc]
  rfl

theorem isNumberPart_of_decimal (h : lang.Documented) {c : UInt16} (hc : isDecimalDigit c = true) :
    lang.isNumberPart c = true := by
  rw [Lang.isNumberPart, isDigit_of_decimal h hc]
  rfl

theorem isNumberPart_mantissa (h : lang.Documented) {whole fraction : List UInt16}
    (hdigits : ∀ c ∈ whole ++ fraction, isDecimalDigit c = true) :
    ∀ c ∈ whole ++ unit '.' :: fraction, lang.isNumberPart c = true := by
  rintro c hc
  rcases List.mem_append.mp hc with hc | hc
  · exact isNumberPart_of_decimal h (hdigits c (List.mem_append_left _ hc))
  rcases List.mem_cons.mp hc with rfl | hc
  · simp only [Lang.isNumberPart, beq_self_eq_true, Bool.or_true, Bool.true_or]
  · exact isNumberPart_of_decimal h (hdigits c (List.mem_append_right _ hc))

theorem isNumberPart_E (c : UInt16) (hc : c = unit 'E') : lang.isNumberPart c = true := by
  rw [hc]
  simp only [Lang.isNumberPart, beq_self_eq_true, Bool.or_true]

/-- A double comes back if its exponent is not negative. -/
theorem readNumber_double (h : lang.Documented) {d : R} (hd : IsDecimal (lang.doubleToString d))
    (hminus : unit '-' ∉ lang.doubleToString d) {k : List UInt16} (hk : Boundary k) :
    readNumber lang (lang.doubleToString d ++ k) = .ok (.double d, k) := by
  have hparse := h.parse_toString d
  obtain ⟨whole, fraction, exponent, hw, -, hdigits, hexp⟩ := hd
  rw [hw] at hminus hparse ⊢
  have hparts : ∀ c ∈ whole ++ unit '.' :: fraction ++ exponent, lang.isNumberPart c = true := by
    rintro c hc
    rcases List.mem_append.mp hc with hc | hc
    · exact isNumberPart_mantissa h hdigits c hc
    rcases hexp with rfl | ⟨digits, hds, rfl | rfl⟩
    · exact absurd hc List.not_mem_nil
    · rcases List.mem_cons.mp hc with hc | hc
      · exact isNumberPart_E c hc
      · exact isNumberPart_of_decimal h (hds c hc)
    · refine absurd ?_ hminus
      exact List.mem_append_right _ (List.mem_cons_of_mem _ List.mem_cons_self)
  have hdot : unit '.' ∈ whole ++ unit '.' :: fraction ++ exponent :=
    List.mem_append_left _ (List.mem_append_right _ List.mem_cons_self)
  simp only [readNumber, span_boundary hparts (isNumberPart_boundary h hk), if_pos hdot, hparse]

/-- The sign of a negative exponent ends the number after its `E`. -/
theorem readNumber_negative (h : lang.Documented) {d : R}
    (hd : IsDecimal (lang.doubleToString d)) (hminus : unit '-' ∈ lang.doubleToString d)
    (k : List UInt16) :
    readNumber lang (lang.doubleToString d ++ k) = .error .numberFormat := by
  obtain ⟨whole, fraction, exponent, hw, -, hdigits, hexp⟩ := hd
  rw [hw] at hminus ⊢
  have hnot : ∀ digits : List UInt16, (∀ c ∈ digits, isDecimalDigit c = true) →
      unit '-' ∉ digits := by
    rintro digits hds hmem
    exact absurd (hds _ hmem) (by decide)
  have hmant : unit '-' ∉ whole ++ unit '.' :: fraction := by
    rintro hmem
    rcases List.mem_append.mp hmem with hmem | hmem
    · exact hnot whole (fun c hc => hdigits c (List.mem_append_left _ hc)) hmem
    rcases List.mem_cons.mp hmem with heq | hmem
    · exact absurd heq (by decide)
    · exact hnot fraction (fun c hc => hdigits c (List.mem_append_right _ hc)) hmem
  rcases hexp with rfl | ⟨digits, hds, rfl | rfl⟩
  · rw [List.append_nil] at hminus
    exact absurd hminus hmant
  · rcases List.mem_append.mp hminus with hmem | hmem
    · exact absurd hmem hmant
    rcases List.mem_cons.mp hmem with heq | hmem
    · exact absurd heq (by decide)
    · exact absurd hmem (hnot digits hds)
  have hparts : ∀ c ∈ whole ++ unit '.' :: fraction ++ [unit 'E'],
      lang.isNumberPart c = true := by
    rintro c hc
    rcases List.mem_append.mp hc with hc | hc
    · exact isNumberPart_mantissa h hdigits c hc
    · exact isNumberPart_E c (List.mem_singleton.mp hc)
  have hstop : ∀ c ∈ (unit '-' :: digits ++ k).head?, lang.isNumberPart c = false := by
    rintro c hc
    obtain rfl := Option.some.inj hc
    rw [Lang.isNumberPart, h.digit_unit (by decide)]
    decide
  have htext : whole ++ unit '.' :: fraction ++ unit 'E' :: unit '-' :: digits ++ k =
      (whole ++ unit '.' :: fraction ++ [unit 'E']) ++ (unit '-' :: digits ++ k) := by
    simp only [List.append_assoc, List.cons_append, List.nil_append]
  have hdot : unit '.' ∈ whole ++ unit '.' :: fraction ++ [unit 'E'] :=
    List.mem_append_left _ (List.mem_append_right _ List.mem_cons_self)
  rw [htext]
  simp only [readNumber, span_boundary hparts hstop, if_pos hdot, h.parse_exponent]

/-! ## Strings -/

theorem ofInt_toNat (c : UInt16) : UInt16.ofInt (c.toNat : ℤ) = c := by
  have hlt : (c.toNat : ℤ) < 2 ^ 16 := by exact_mod_cast c.toNat_lt
  rw [UInt16.ofInt, Int.emod_eq_of_lt (Int.natCast_nonneg _) hlt, Int.toNat_natCast]
  exact UInt16.ofNat_toNat

theorem parseHex_units (h : lang.Documented) (c : UInt16) :
    parseHex lang [hexUnit (c.toNat / 4096), hexUnit (c.toNat / 256 % 16),
      hexUnit (c.toNat / 16 % 16), hexUnit (c.toNat % 16)] = some (c.toNat : ℤ) := by
  have hlt : c.toNat < 65536 := c.toNat_lt
  have h₁ : c.toNat / 4096 < 16 := by omega
  have h₂ : c.toNat / 256 % 16 < 16 := Nat.mod_lt _ (by decide)
  have h₃ : c.toNat / 16 % 16 < 16 := Nat.mod_lt _ (by decide)
  have h₄ : c.toNat % 16 < 16 := Nat.mod_lt _ (by decide)
  have hminus : (hexUnit (c.toNat / 4096) == unit '-') = false :=
    beq_eq_false_iff_ne.mpr (asciiDigit_hexUnit h₁).2.2.1
  have hplus : (hexUnit (c.toNat / 4096) == unit '+') = false :=
    beq_eq_false_iff_ne.mpr (asciiDigit_hexUnit h₁).2.2.2
  have hsum : (((0 * 16 + c.toNat / 4096) * 16 + c.toNat / 256 % 16) * 16 + c.toNat / 16 % 16) * 16 +
      c.toNat % 16 = c.toNat := by omega
  simp only [parseHex, hminus, hplus, Bool.false_eq_true, if_false, parseDigits,
    h.digit_hexUnit h₁, h.digit_hexUnit h₂, h.digit_hexUnit h₃, h.digit_hexUnit h₄,
    Option.bind_eq_bind, Option.bind_some, hsum]
  rfl

theorem readString_delimiter (t : UInt16) (k : List UInt16) :
    readString lang t (t :: k) = .ok ([], k) := by
  rw [readString.eq_def]
  exact if_pos (beq_self_eq_true t)

theorem readString_raw {t c : UInt16} (ht : (c == t) = false) (hc : isISOControl c = false)
    (hb : (c == unit '\\') = false) {rest s k : List UInt16}
    (h : readString lang t rest = .ok (s, k)) :
    readString lang t (c :: rest) = .ok (c :: s, k) := by
  rw [readString.eq_def]
  simp only [ht, hc, hb, Bool.false_eq_true, if_false, h]
  rfl

theorem readString_escape {t e d : UInt16} (ht : (unit '\\' == t) = false)
    (hu : (e == unit 'u') = false) (he : readEscape t e = .ok d) {rest s k : List UInt16}
    (h : readString lang t rest = .ok (s, k)) :
    readString lang t (unit '\\' :: e :: rest) = .ok (d :: s, k) := by
  have hcontrol : isISOControl (unit '\\') = false := by decide
  rw [readString.eq_def]
  simp only [ht, hu, hcontrol, beq_self_eq_true, Bool.false_eq_true, if_false, if_true, he, h]
  rfl

theorem readString_unicode {t : UInt16} (ht : (unit '\\' == t) = false)
    {h₁ h₂ h₃ h₄ : UInt16} {n : ℤ} (hn : parseHex lang [h₁, h₂, h₃, h₄] = some n)
    {rest s k : List UInt16} (h : readString lang t rest = .ok (s, k)) :
    readString lang t (unit '\\' :: unit 'u' :: h₁ :: h₂ :: h₃ :: h₄ :: rest) =
      .ok (UInt16.ofInt n :: s, k) := by
  have hcontrol : isISOControl (unit '\\') = false := by decide
  rw [readString.eq_def]
  simp only [ht, hcontrol, beq_self_eq_true, Bool.false_eq_true, if_false, if_true, hn, h]
  rfl

theorem readString_escapes (h : lang.Documented) (s k : List UInt16) :
    readString lang (unit '"') (s.flatMap escapeUnit ++ unit '"' :: k) = .ok (s, k) := by
  induction s with
  | nil => exact readString_delimiter _ k
  | cons c s ih =>
      rw [List.flatMap_cons, List.append_assoc]
      by_cases hq : (c == unit '"' || c == unit '\\') = true
      · have hcases := hq
        rw [Bool.or_eq_true, beq_iff_eq, beq_iff_eq] at hcases
        have hu : (c == unit 'u') = false := by
          rcases hcases with rfl | rfl <;> decide
        have hescape : readEscape (unit '"') c = .ok c := by
          rcases hcases with rfl | rfl <;> rfl
        rw [escapeUnit, if_pos hq]
        exact readString_escape (by decide) hu hescape ih
      · rw [escapeUnit, if_neg hq]
        rw [Bool.not_eq_true, Bool.or_eq_false_iff] at hq
        by_cases hc : isISOControl c = true
        · rw [if_pos hc]
          have hread := readString_unicode (t := unit '"') (by decide) (parseHex_units h c) ih
          rw [ofInt_toNat] at hread
          exact hread
        · rw [if_neg hc]
          exact readString_raw hq.1 (eq_false_of_ne_true hc) hq.2 ih

end JavaFx.Fxml
