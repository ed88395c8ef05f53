import Mathlib.Data.List.TakeWhile
import JavaFx.Json.Grammar

/-!
# The scanner finds the tokens of a text

`At t` says that the text `t` is still to be read, the first character of it being at hand. Then
`nextSymbol` returns exactly if the text has a first token, and what is left is what that token
leaves (`nextSymbol_ok_iff`).
-/

namespace JavaFx.Json

open JSONScanner

/-! ## Characters -/

theorem ne_of_isDigit {c d : UInt16} (hc : isDigit c = true) (hd : isDigit d = false) : c ≠ d := by
  rintro rfl
  rw [hc] at hd
  cases hd

/-! ## White space -/

theorem Blank.dropWhile {w : JString} (h : Blank w) (t : JString) :
    (w ++ t).dropWhile isWhitespace = t.dropWhile isWhitespace :=
  List.dropWhile_append_of_pos h

theorem blank_takeWhile (t : JString) : Blank (t.takeWhile isWhitespace) :=
  fun _ hc => List.mem_takeWhile_imp hc

theorem blank_iff {t : JString} : Blank t ↔ t.dropWhile isWhitespace = [] :=
  List.dropWhile_eq_nil_iff.symm

theorem skipWhitespace_eq (t : JString) (p : Place) :
    ∃ p', skipWhitespace t.head? t.tail p =
      ((t.dropWhile isWhitespace).head?, (t.dropWhile isWhitespace).tail, p') := by
  induction t generalizing p with
  | nil => exact ⟨p, rfl⟩
  | cons ch t ih =>
      cases hch : isWhitespace ch with
      | false =>
          rw [List.dropWhile_cons_of_neg (by rw [hch]; decide)]
          cases t with
          | nil | cons c t => exact ⟨p, by simp [skipWhitespace, hch]⟩
      | true =>
          rw [List.dropWhile_cons_of_pos hch]
          cases t with
          | nil => exact ⟨p.after none, by simp [skipWhitespace, hch]⟩
          | cons c t =>
              obtain ⟨p', hp'⟩ := ih (p.after (some c))
              refine ⟨p', ?_⟩
              rw [← hp']
              simp [skipWhitespace, hch]

/-! ## Keywords -/

theorem readLetters_ok_iff {text reader : JString} {p : Place} {rest : JString} :
    (∃ p', readLetters text reader p = (.ok (), rest, p')) ↔ reader = text ++ rest := by
  induction text generalizing reader p with
  | nil =>
      constructor
      · rintro ⟨p', h⟩
        cases h
        rfl
      · rintro rfl
        exact ⟨p, rfl⟩
  | cons k text ih =>
      cases reader with
      | nil => simp [readLetters]
      | cons c reader =>
          by_cases hc : c = k
          · rw [readLetters, if_pos hc, ih]
            simp [hc]
          · simp [readLetters, hc]

/-! ## Strings -/

/-- What a place of the loop still asks for: the string from there on, after `val`. -/
def Rest : StringPlace → JString → JString → JString → Prop
  | .plain, val, v, b => ∃ s, StringBody s b ∧ v = val ++ s
  | .escape, val, v, b => ∃ s, StringBody s (unit '\\' :: b) ∧ v = val ++ s
  | .unicode left u, val, v, b => ∃ ds c s b', b = ds ++ b' ∧ ds.length = left + 1 ∧
      hexValue u ds = some c ∧ StringBody s b' ∧ v = val ++ c :: s

theorem escape_ne_u : escaped (unit 'u') = none := by decide

theorem StringBody.cons_plain {c : UInt16} {v b : JString} (h : StringBody v (c :: b))
    (hc : c ≠ unit '\\') :
    c ≠ unit '"' ∧ isControl c = false ∧ ∃ s, v = c :: s ∧ StringBody s b := by
  cases h with
  | plain hquote _ hcontrol h => exact ⟨hquote, hcontrol, _, rfl, h⟩
  | escape => exact absurd rfl hc
  | unicode => exact absurd rfl hc

/-- **The loop of `readString`** returns at the quotation mark that ends a string. -/
theorem readStringLoop_ok_iff {place : StringPlace} {val reader v rest : JString} {p : Place} :
    (∃ p', readStringLoop place val reader p = (.ok v, rest, p')) ↔
      ∃ b, reader = b ++ unit '"' :: rest ∧ Rest place val v b := by
  fun_induction readStringLoop place val reader p with
  | case1 => simp
  | case2 place val p hplace =>
      simp
  | case3 val reader p ih =>
      rw [ih]
      constructor
      · rintro ⟨b, rfl, s, hs, rfl⟩
        exact ⟨unit '\\' :: b, rfl, s, hs, rfl⟩
      · rintro ⟨b, hb, s, hs, rfl⟩
        cases b with
        | nil => exact absurd (List.cons.inj hb).1 (by decide)
        | cons c b =>
            obtain ⟨rfl, rfl⟩ := List.cons.inj hb
            exact ⟨b, rfl, s, hs, rfl⟩
  | case4 val reader p hquote =>
      constructor
      · rintro ⟨p', h⟩
        cases h
        exact ⟨[], rfl, [], .nil, by simp⟩
      · rintro ⟨b, hb, s, hs, rfl⟩
        cases b with
        | nil =>
            cases hs
            obtain ⟨-, rfl⟩ := List.cons.inj hb
            exact ⟨p.after (some (unit '"')), by simp⟩
        | cons c b =>
            obtain ⟨rfl, rfl⟩ := List.cons.inj hb
            exact absurd rfl (hs.cons_plain (by decide)).1
  | case5 val ch reader p hback hquote hcontrol =>
      refine iff_of_false (by simp) ?_
      rintro ⟨b, hb, s, hs, rfl⟩
      cases b with
      | nil => exact hquote (List.cons.inj hb).1
      | cons c b =>
          obtain ⟨rfl, rfl⟩ := List.cons.inj hb
          have := (hs.cons_plain hback).2.1
          rw [hcontrol] at this
          cases this
  | case6 val ch reader p hback hquote hcontrol ih =>
      rw [ih]
      constructor
      · rintro ⟨b, rfl, s, hs, rfl⟩
        exact ⟨ch :: b, rfl, ch :: s, .plain hquote hback (by simpa using hcontrol) hs, by simp⟩
      · rintro ⟨b, hb, s, hs, rfl⟩
        cases b with
        | nil => exact absurd (List.cons.inj hb).1 hquote
        | cons c b =>
            obtain ⟨rfl, rfl⟩ := List.cons.inj hb
            obtain ⟨-, -, s', rfl, hs'⟩ := hs.cons_plain hback
            exact ⟨b, rfl, s', hs', by simp⟩
  | case7 val reader p ih =>
      rw [ih]
      constructor
      · rintro ⟨b, rfl, ds, c, s, b', rfl, hlength, hvalue, hs, rfl⟩
        exact ⟨unit 'u' :: (ds ++ b'), rfl, c :: s, .unicode hlength hvalue hs, rfl⟩
      · rintro ⟨b, hb, s, hs, rfl⟩
        cases b with
        | nil => exact absurd (List.cons.inj hb).1 (by decide)
        | cons c b =>
            obtain ⟨rfl, rfl⟩ := List.cons.inj hb
            cases hs with
            | plain _ hback => exact absurd rfl hback
            | escape hc => exact absurd hc (by rw [escape_ne_u]; nofun)
            | unicode hlength hvalue hs =>
                exact ⟨_, rfl, _, _, _, _, rfl, hlength, hvalue, hs, rfl⟩
  | case8 val ch2 reader p hu c hc ih =>
      rw [ih]
      constructor
      · rintro ⟨b, rfl, s, hs, rfl⟩
        exact ⟨ch2 :: b, rfl, c :: s, .escape hc hs, by simp⟩
      · rintro ⟨b, hb, s, hs, rfl⟩
        cases b with
        | nil =>
            cases hs with
            | plain _ hback => exact absurd rfl hback
        | cons e b =>
            obtain ⟨rfl, rfl⟩ := List.cons.inj hb
            cases hs with
            | plain _ hback => exact absurd rfl hback
            | escape hc' hs =>
                rw [hc] at hc'
                cases hc'
                exact ⟨b, rfl, _, hs, by simp⟩
            | unicode => exact absurd rfl hu
  | case9 val ch2 reader p hu hc =>
      refine iff_of_false (by simp) ?_
      rintro ⟨b, hb, s, hs, rfl⟩
      cases b with
      | nil =>
          cases hs with
          | plain _ hback => exact absurd rfl hback
      | cons e b =>
          obtain ⟨rfl, rfl⟩ := List.cons.inj hb
          cases hs with
          | plain _ hback => exact absurd rfl hback
          | escape hc' =>
              rw [hc] at hc'
              cases hc'
          | unicode => exact hu rfl
  | case10 unicode val ch2 reader p d hd ih =>
      rw [ih]
      constructor
      · rintro ⟨b, rfl, s, hs, rfl⟩
        refine ⟨ch2 :: b, rfl, [ch2], unicode * 16 + d, s, b, rfl, rfl, ?_, hs, by simp⟩
        simp [hexValue, hd]
      · rintro ⟨b, hb, ds, c, s, b', rfl, hlength, hvalue, hs, rfl⟩
        obtain ⟨x, rfl⟩ := List.length_eq_one_iff.mp hlength
        obtain ⟨rfl, rfl⟩ := List.cons.inj hb
        simp only [hexValue, hd, Option.some.injEq] at hvalue
        exact ⟨b', rfl, s, hs, by simp [hvalue]⟩
  | case11 unicode val ch2 reader p d left hd ih =>
      rw [ih]
      constructor
      · rintro ⟨b, rfl, ds, c, s, b', rfl, hlength, hvalue, hs, rfl⟩
        refine ⟨ch2 :: (ds ++ b'), rfl, ch2 :: ds, c, s, b', rfl, by simp [hlength], ?_, hs, rfl⟩
        simpa [hexValue, hd] using hvalue
      · rintro ⟨b, hb, ds, c, s, b', rfl, hlength, hvalue, hs, rfl⟩
        cases ds with
        | nil => cases hlength
        | cons x ds =>
            obtain ⟨rfl, rfl⟩ := List.cons.inj hb
            simp only [hexValue, hd] at hvalue
            exact ⟨ds ++ b', rfl, ds, c, s, b', rfl, by simpa using hlength, hvalue, hs, rfl⟩
  | case12 left unicode val ch2 reader p hd =>
      refine iff_of_false (by simp) ?_
      rintro ⟨b, hb, ds, c, s, b', rfl, hlength, hvalue, hs, rfl⟩
      cases ds with
      | nil => cases hlength
      | cons x ds =>
          obtain ⟨rfl, -⟩ := List.cons.inj hb
          rw [hexValue, hd] at hvalue
          cases hvalue

/-! ## Numbers -/

/-- The text `done` has been appended, and `rest` begins with the character at hand. -/
structure Scanned (n : NumberScan) (done rest : JString) : Prop where
  ch : n.ch = rest.head?
  val : n.val = done ++ [charOf rest.head?]
  reader : n.reader = rest.tail

/-- The text does not go on with a digit. -/
def Stops (rest : JString) : Prop := ∀ c, rest.head? = some c → isDigit c = false

theorem stops_dropWhile (t : JString) : Stops (t.dropWhile isDigit) := by
  intro c hc
  have := List.head?_dropWhile_not isDigit t
  rw [hc] at this
  simpa using this

theorem takeWhile_digits {ds rest : JString} (hds : Number.Digits ds) (hrest : Stops rest) :
    (ds ++ rest).takeWhile isDigit = ds ∧ (ds ++ rest).dropWhile isDigit = rest := by
  rw [List.takeWhile_append_of_pos hds, List.dropWhile_append_of_pos hds]
  cases rest with
  | nil => simp
  | cons c rest => simp [hrest c rfl]

namespace Scanned

variable {n : NumberScan} {done rest : JString} {c : UInt16}

theorem ch_cons (h : Scanned n done (c :: rest)) : n.ch = some c := h.ch

theorem read (h : Scanned n done (c :: rest)) : Scanned n.read (done ++ [c]) rest where
  ch := by rw [NumberScan.read, h.reader]; rfl
  val := by rw [NumberScan.read, h.reader, h.val]; rfl
  reader := by rw [NumberScan.read, h.reader]; rfl

theorem digits (val reader : JString) (p : Place) :
    Scanned (NumberScan.digits val reader p) (val ++ reader.takeWhile isDigit)
      (reader.dropWhile isDigit) := by
  induction reader generalizing val p with
  | nil => exact ⟨rfl, by simp [NumberScan.digits], rfl⟩
  | cons d reader ih =>
      cases hd : isDigit d with
      | true =>
          rw [NumberScan.digits, if_pos hd, List.takeWhile_cons_of_pos hd,
            List.dropWhile_cons_of_pos hd]
          have := ih (val ++ [d]) (p.after (some d))
          rwa [List.append_assoc] at this
      | false =>
          have hd' : ¬isDigit d = true := by rw [hd]; decide
          rw [NumberScan.digits, if_neg hd', List.takeWhile_cons_of_neg hd',
            List.dropWhile_cons_of_neg hd']
          exact ⟨rfl, by simp [charOf], rfl⟩

theorem readDigits (h : Scanned n done (c :: rest)) :
    Scanned n.readDigits (done ++ c :: rest.takeWhile isDigit) (rest.dropWhile isDigit) := by
  have := digits n.val n.reader n.place
  rw [h.val, h.reader] at this
  unfold NumberScan.readDigits
  rw [h.val, h.reader]
  simpa [charOf] using this

theorem readDigits_of {ds : JString} (h : Scanned n done (c :: (ds ++ rest)))
    (hds : Number.Digits ds) (hrest : Stops rest) :
    Scanned n.readDigits (done ++ c :: ds) rest := by
  have := h.readDigits
  rwa [(takeWhile_digits hds hrest).1, (takeWhile_digits hds hrest).2] at this

/-! The integer part. -/

theorem int_zero (h : Scanned n done (unit '0' :: rest)) :
    Scanned n.int (done ++ [unit '0']) rest := by
  rw [NumberScan.int, if_pos h.ch_cons]
  exact h.read

theorem int_digits {ds : JString} (h : Scanned n done (c :: (ds ++ rest))) (hc : c ≠ unit '0')
    (hds : Number.Digits ds) (hrest : Stops rest) : Scanned n.int (done ++ c :: ds) rest := by
  rw [NumberScan.int, if_neg (by rw [h.ch]; simpa using hc)]
  exact h.readDigits_of hds hrest

/-! The fraction. -/

theorem frac_none (h : Scanned n done rest) (hpoint : rest.head? ≠ some (unit '.')) :
    n.frac = (.ok n, n) := by
  rw [NumberScan.frac, if_neg (by rwa [h.ch])]

theorem frac_digits {ds : JString} (h : Scanned n done (unit '.' :: (ds ++ rest)))
    (hne : ds ≠ []) (hds : Number.Digits ds) (hrest : Stops rest) :
    ∃ m, n.frac = (.ok m, m) ∧ Scanned m (done ++ unit '.' :: ds) rest := by
  have hm := h.readDigits_of hds hrest
  refine ⟨n.readDigits, ?_, hm⟩
  have hlength : n.readDigits.val.length ≠ n.val.length + 1 := by
    have := List.length_pos_iff.mpr hne
    rw [hm.val, h.val]
    simp
    omega
  rw [NumberScan.frac, if_pos h.ch_cons]
  simp only [if_neg hlength]

theorem frac_error (h : Scanned n done (unit '.' :: rest)) (hrest : Stops rest) :
    ∃ e m, n.frac = (.error e, m) := by
  have hm := @readDigits_of n done rest _ [] h (by simp [Number.Digits]) hrest
  have hlength : n.readDigits.val.length = n.val.length + 1 := by
    rw [hm.val, h.val]
    simp
  rw [NumberScan.frac, if_pos h.ch_cons]
  simp only [if_pos hlength]
  exact ⟨_, _, rfl⟩

/-! The exponent. -/

theorem hasExp_iff (h : Scanned n done rest) :
    n.hasExp = true ↔ rest.head? = some (unit 'e') ∨ rest.head? = some (unit 'E') := by
  simp [NumberScan.hasExp, h.ch]

theorem exp_none (hexp : n.hasExp = false) : n.exp = (.ok n, n) := by
  rw [NumberScan.exp, if_neg (by rw [hexp]; decide)]

theorem exp_read (h : Scanned n done (c :: rest)) (hexp : n.hasExp = true) {sign : JString}
    {t : JString} (hrest : rest = sign ++ t)
    (hsign : sign = [] ∧ rest.head? ≠ some (unit '+') ∧ rest.head? ≠ some (unit '-') ∨
      sign = [unit '+'] ∨ sign = [unit '-']) :
    ∃ m, Scanned m (done ++ c :: sign) t ∧
      n.exp = if m.isDigit then (.ok m.readDigits, m.readDigits) else (.error m.unexpected, m) := by
  have hm := h.read
  rw [NumberScan.exp, if_pos hexp]
  rcases hsign with ⟨rfl, hplus, hminus⟩ | hsign
  · obtain rfl : rest = t := hrest
    refine ⟨n.read, hm, ?_⟩
    simp only [hm.ch, hplus, hminus, or_self, if_false]
  · obtain ⟨sg, rfl, hsg⟩ : ∃ sg, sign = [sg] ∧ (sg = unit '+' ∨ sg = unit '-') := by
      rcases hsign with rfl | rfl
      · exact ⟨_, rfl, .inl rfl⟩
      · exact ⟨_, rfl, .inr rfl⟩
    obtain rfl : rest = sg :: t := hrest
    refine ⟨n.read.read, by simpa using hm.read, ?_⟩
    have hch : n.read.ch = some (unit '+') ∨ n.read.ch = some (unit '-') := by
      rw [hm.ch]
      exact hsg.imp (congrArg some) (congrArg some)
    simp only [if_pos hch]

theorem exp_digits {sign ds : JString} (h : Scanned n done (c :: (sign ++ (ds ++ rest))))
    (hexp : n.hasExp = true) (hsign : sign = [] ∨ sign = [unit '+'] ∨ sign = [unit '-'])
    (hne : ds ≠ []) (hds : Number.Digits ds) (hrest : Stops rest) :
    ∃ m, n.exp = (.ok m, m) ∧ Scanned m (done ++ c :: (sign ++ ds)) rest := by
  obtain ⟨d, ds, rfl⟩ := List.exists_cons_of_ne_nil hne
  have hd := hds d List.mem_cons_self
  obtain ⟨m, hm, heq⟩ := h.exp_read hexp rfl (hsign.imp (fun hs => ⟨hs, by
    subst hs
    constructor
    · simpa using ne_of_isDigit hd (by decide)
    · simpa using ne_of_isDigit hd (by decide)⟩) id)
  have hdigit : m.isDigit = true := by
    rw [NumberScan.isDigit, hm.ch]
    exact hd
  refine ⟨m.readDigits, by rw [heq, if_pos hdigit], ?_⟩
  have := hm.readDigits_of (fun x hx => hds x (List.mem_cons_of_mem _ hx)) hrest
  simpa using this

theorem exp_error {sign : JString} (h : Scanned n done (c :: (sign ++ rest)))
    (hexp : n.hasExp = true)
    (hsign : sign = [] ∧ rest.head? ≠ some (unit '+') ∧ rest.head? ≠ some (unit '-') ∨
      sign = [unit '+'] ∨ sign = [unit '-'])
    (hrest : Stops rest) : ∃ e m, n.exp = (.error e, m) := by
  obtain ⟨m, hm, heq⟩ := h.exp_read hexp rfl (hsign.imp (fun hs => ⟨hs.1, by
    rw [hs.1]
    exact hs.2⟩) id)
  have hdigit : m.isDigit = false := by
    rw [NumberScan.isDigit, hm.ch]
    cases hhead : rest.head? with
    | none => rfl
    | some x => exact hrest x hhead
  exact ⟨_, _, by rw [heq, if_neg (by rw [hdigit]; decide)]⟩

/-! The parts of a number that is there. -/

theorem sign_of {minus : JString} (h : Scanned n [] (minus ++ rest))
    (hminus : minus = [] ∧ rest.head? ≠ some (unit '-') ∨ minus = [unit '-']) :
    Scanned n.sign minus rest := by
  rcases hminus with ⟨rfl, hhead⟩ | rfl
  · rw [NumberScan.sign, if_neg (by rw [h.ch]; exact hhead)]
    exact h
  · rw [NumberScan.sign, if_pos h.ch_cons]
    exact h.read

theorem int_of {int : JString} (h : Scanned n done (int ++ rest)) (hint : Number.IntPart int)
    (hrest : int ≠ [unit '0'] → Stops rest) : Scanned n.int (done ++ int) rest := by
  rcases hint with rfl | ⟨d, ds, rfl, -, hd, hds⟩
  · exact h.int_zero
  · refine h.int_digits hd hds (hrest ?_)
    intro heq
    exact hd (List.cons.inj heq).1

theorem frac_of {frac : JString} (h : Scanned n done (frac ++ rest)) (hfrac : Number.FracPart frac)
    (hrest : frac ≠ [] → Stops rest) (hpoint : frac = [] → rest.head? ≠ some (unit '.')) :
    ∃ m, n.frac = (.ok m, m) ∧ Scanned m (done ++ frac) rest ∧
      (n.ch ≠ some (unit '.') ↔ frac = []) := by
  rcases hfrac with rfl | ⟨ds, rfl, hne, hds⟩
  · refine ⟨n, h.frac_none (hpoint rfl), by simpa using h, ?_⟩
    rw [h.ch]
    exact iff_of_true (hpoint rfl) rfl
  · obtain ⟨m, hm, hscanned⟩ := h.frac_digits hne hds (hrest (List.cons_ne_nil _ _))
    exact ⟨m, hm, hscanned, iff_of_false (fun hch => hch h.ch_cons) (List.cons_ne_nil _ _)⟩

theorem exp_of {exp : JString} (h : Scanned n done (exp ++ rest)) (hexp : Number.ExpPart exp)
    (hrest : exp ≠ [] → Stops rest)
    (hhead : exp = [] → ¬(rest.head? = some (unit 'e') ∨ rest.head? = some (unit 'E'))) :
    ∃ m, n.exp = (.ok m, m) ∧ Scanned m (done ++ exp) rest ∧ (n.hasExp = false ↔ exp = []) := by
  rcases hexp with rfl | ⟨e, sign, ds, rfl, he, hsign, hne, hds⟩
  · have hnone : n.hasExp = false := by
      rw [← Bool.not_eq_true, h.hasExp_iff]
      exact hhead rfl
    exact ⟨n, exp_none hnone, by simpa using h, iff_of_true hnone rfl⟩
  · have hsome : n.hasExp = true := by
      rw [h.hasExp_iff]
      exact he.imp (congrArg some) (congrArg some)
    rw [List.cons_append, List.append_assoc] at h
    obtain ⟨m, hm, hscanned⟩ := h.exp_digits hsome hsign hne hds (hrest (List.cons_ne_nil _ _))
    exact ⟨m, hm, hscanned, iff_of_false (by rw [hsome]; decide) (List.cons_ne_nil _ _)⟩

/-! The parts of whatever is there. -/

theorem digits_takeWhile (t : JString) : Number.Digits (t.takeWhile isDigit) :=
  fun _ hc => List.mem_takeWhile_imp hc

theorem split_minus (t : JString) : ∃ minus rest, t = minus ++ rest ∧
    (minus = [] ∧ rest.head? ≠ some (unit '-') ∨ minus = [unit '-']) := by
  by_cases h : t.head? = some (unit '-')
  · obtain ⟨rest, rfl⟩ : ∃ rest, t = unit '-' :: rest := by
      cases t with
      | nil => cases h
      | cons c rest => exact ⟨rest, by rw [Option.some.inj h]⟩
    exact ⟨[unit '-'], rest, rfl, .inr rfl⟩
  · exact ⟨[], t, rfl, .inl ⟨rfl, h⟩⟩

theorem split_int {d : UInt16} (hd : isDigit d = true) (t : JString) :
    ∃ int rest, d :: t = int ++ rest ∧ Number.IntPart int ∧ (int ≠ [unit '0'] → Stops rest) := by
  by_cases hzero : d = unit '0'
  · exact ⟨[d], t, rfl, .inl (by rw [hzero]), fun h => absurd (by rw [hzero]) h⟩
  · refine ⟨d :: t.takeWhile isDigit, t.dropWhile isDigit, ?_,
      .inr ⟨d, _, rfl, hd, hzero, digits_takeWhile t⟩, fun _ => stops_dropWhile t⟩
    rw [List.cons_append, List.takeWhile_append_dropWhile]

theorem split_frac (h : Scanned n done rest) : (∃ e m, n.frac = (.error e, m)) ∨
    ∃ frac t, rest = frac ++ t ∧ Number.FracPart frac ∧ (frac ≠ [] → Stops t) ∧
      (frac = [] → t.head? ≠ some (unit '.')) := by
  by_cases hpoint : rest.head? = some (unit '.')
  · obtain ⟨t, rfl⟩ : ∃ t, rest = unit '.' :: t := by
      cases rest with
      | nil => cases hpoint
      | cons c t => exact ⟨t, by rw [Option.some.inj hpoint]⟩
    by_cases hne : t.takeWhile isDigit = []
    · refine .inl (h.frac_error ?_)
      have hdrop := List.takeWhile_append_dropWhile (p := isDigit) (l := t)
      rw [hne, List.nil_append] at hdrop
      rw [← hdrop]
      exact stops_dropWhile t
    · refine .inr ⟨unit '.' :: t.takeWhile isDigit, t.dropWhile isDigit, ?_,
        .inr ⟨_, rfl, hne, digits_takeWhile t⟩, fun _ => stops_dropWhile t, by simp⟩
      rw [List.cons_append, List.takeWhile_append_dropWhile]
  · exact .inr ⟨[], rest, rfl, .inl rfl, fun h => absurd rfl h, fun _ => hpoint⟩

theorem split_sign (t : JString) : ∃ sign rest, t = sign ++ rest ∧
    (sign = [] ∧ rest.head? ≠ some (unit '+') ∧ rest.head? ≠ some (unit '-') ∨
      sign = [unit '+'] ∨ sign = [unit '-']) := by
  cases t with
  | nil => exact ⟨[], [], rfl, .inl ⟨rfl, by simp⟩⟩
  | cons c t =>
      by_cases hplus : c = unit '+'
      · exact ⟨[c], t, rfl, .inr (.inl (by rw [hplus]))⟩
      · by_cases hminus : c = unit '-'
        · exact ⟨[c], t, rfl, .inr (.inr (by rw [hminus]))⟩
        · exact ⟨[], c :: t, rfl, .inl ⟨rfl, by simpa using hplus, by simpa using hminus⟩⟩

theorem split_exp (h : Scanned n done rest) : (∃ e m, n.exp = (.error e, m)) ∨
    ∃ exp t, rest = exp ++ t ∧ Number.ExpPart exp ∧ (exp ≠ [] → Stops t) ∧
      (exp = [] → ¬(t.head? = some (unit 'e') ∨ t.head? = some (unit 'E'))) := by
  cases hexp : n.hasExp with
  | false =>
      refine .inr ⟨[], rest, rfl, .inl rfl, fun h => absurd rfl h, fun _ => ?_⟩
      rw [← h.hasExp_iff, hexp]
      decide
  | true =>
      have hhead := h.hasExp_iff.mp hexp
      obtain ⟨e, t, rfl, he⟩ : ∃ e t, rest = e :: t ∧ (e = unit 'e' ∨ e = unit 'E') := by
        cases rest with
        | nil => simp at hhead
        | cons c t => exact ⟨c, t, rfl, by simpa using hhead⟩
      obtain ⟨sign, t, rfl, hsign⟩ := split_sign t
      by_cases hne : t.takeWhile isDigit = []
      · refine .inl (h.exp_error hexp hsign ?_)
        have hdrop := List.takeWhile_append_dropWhile (p := isDigit) (l := t)
        rw [hne, List.nil_append] at hdrop
        rw [← hdrop]
        exact stops_dropWhile t
      · refine .inr ⟨e :: (sign ++ t.takeWhile isDigit), t.dropWhile isDigit, ?_,
          .inr ⟨e, sign, _, rfl, he, hsign.imp And.left id, hne, digits_takeWhile t⟩,
          fun _ => stops_dropWhile t, by simp⟩
        rw [List.cons_append, List.append_assoc, List.takeWhile_append_dropWhile]

end Scanned

/-! What follows the parts of a number. -/

theorem stops_cons {c : UInt16} (h : isDigit c = false) (t : JString) : Stops (c :: t) := by
  intro d hd
  rw [← Option.some.inj hd]
  exact h

theorem Number.ExpPart.head {exp : JString} (h : Number.ExpPart exp) (hne : exp ≠ []) :
    ∃ e t, exp = e :: t ∧ (e = unit 'e' ∨ e = unit 'E') := by
  rcases h with rfl | ⟨e, sign, ds, rfl, he, -⟩
  · exact absurd rfl hne
  · exact ⟨e, _, rfl, he⟩

theorem Number.FracPart.head {frac : JString} (h : Number.FracPart frac) (hne : frac ≠ []) :
    ∃ t, frac = unit '.' :: t := by
  rcases h with rfl | ⟨ds, rfl, -⟩
  · exact absurd rfl hne
  · exact ⟨ds, rfl⟩

theorem isDigit_exponent {e : UInt16} (h : e = unit 'e' ∨ e = unit 'E') : isDigit e = false := by
  rcases h with rfl | rfl <;> decide

theorem stops_exp {exp rest : JString} (hexp : Number.ExpPart exp)
    (hrest : exp = [] → Stops rest) : Stops (exp ++ rest) := by
  by_cases hne : exp = []
  · rw [hne, List.nil_append]
    exact hrest hne
  · obtain ⟨e, t, rfl, he⟩ := hexp.head hne
    exact stops_cons (isDigit_exponent he) _

theorem stops_frac {frac rest : JString} (hfrac : Number.FracPart frac)
    (hrest : frac = [] → Stops rest) : Stops (frac ++ rest) := by
  by_cases hne : frac = []
  · rw [hne, List.nil_append]
    exact hrest hne
  · obtain ⟨t, rfl⟩ := hfrac.head hne
    exact stops_cons (by decide) _

theorem Number.IntPart.head {int : JString} (h : Number.IntPart int) :
    ∃ d t, int = d :: t ∧ isDigit d = true := by
  rcases h with rfl | ⟨d, ds, rfl, hd, -⟩
  · exact ⟨_, [], rfl, by decide⟩
  · exact ⟨d, ds, rfl, hd⟩

/-- What a scanner has found of a token. -/
structure Found (s : JSONScanner) (tok : Token) (rest : JString) : Prop where
  prevChar : s.prevChar = rest.head?
  reader : s.reader = rest.tail
  value : s.value = tok.value
  isInt : ∀ n, tok = .number n → s.isInt = n.isInt

/-- The scan of a number before its sign. -/
theorem scanned_first (prefetch : UInt16) (reader : JString) (p : Place) :
    Scanned ⟨some prefetch, [prefetch], reader, p⟩ [] (prefetch :: reader) :=
  ⟨rfl, rfl, rfl⟩

/-- **A number is read** to its end. -/
theorem readNumber_ok {s : JSONScanner} {prefetch : UInt16} {n : Number} {rest : JString}
    (hn : n.Valid) (hends : n.Ends rest) (ht : prefetch :: s.reader = n.text ++ rest) :
    ∃ s', s.readNumber prefetch = (.ok .NUMBER, s') ∧ Found s' (.number n) rest := by
  obtain ⟨d, ds, hint, hd⟩ := hn.int.head
  have hfirst := scanned_first prefetch s.reader s.place
  rw [ht, Number.text, List.append_assoc, List.append_assoc, List.append_assoc] at hfirst
  have hminus : n.minus = [] ∧ (n.int ++ (n.frac ++ (n.exp ++ rest))).head? ≠ some (unit '-') ∨
      n.minus = [unit '-'] := by
    refine hn.minus.imp (fun h => ⟨h, ?_⟩) id
    rw [hint]
    simpa using ne_of_isDigit hd (by decide)
  have hsign := hfirst.sign_of hminus
  have hsigned : (NumberScan.sign ⟨some prefetch, [prefetch], s.reader, s.place⟩).isDigit = true := by
    rw [NumberScan.isDigit, hsign.ch, hint]
    exact hd
  have hinted := hsign.int_of hn.int fun hne =>
    stops_frac hn.frac fun hfrac => stops_exp hn.exp fun hexp c hc => by
      by_contra hdigit
      exact hne (hends.digit c hc (by simpa using hdigit)).1
  obtain ⟨m, hm, hfraced, hpoint⟩ := hinted.frac_of hn.frac
    (fun hne => stops_exp hn.exp fun hexp c hc => by
      by_contra hdigit
      exact hne (hends.digit c hc (by simpa using hdigit)).2.1)
    (fun hnone hhead => by
      by_cases hexp : n.exp = []
      · rw [hexp, List.nil_append] at hhead
        exact (hends.point hhead).elim (fun h => h hnone) (fun h => h hexp)
      · obtain ⟨e, t, heq, he⟩ := hn.exp.head hexp
        rw [heq] at hhead
        have : e = unit '.' := Option.some.inj hhead
        rcases he with rfl | rfl
        · exact absurd this (by decide)
        · exact absurd this (by decide))
  obtain ⟨m', hm', hdone, hexp⟩ := hfraced.exp_of hn.exp
    (fun hne c hc => by
      by_contra hdigit
      exact hne (hends.digit c hc (by simpa using hdigit)).2.2)
    (fun hnone hhead => hends.exponent hhead hnone)
  unfold JSONScanner.readNumber
  simp only [hsigned, Bool.not_true, Bool.and_false, Bool.false_eq_true, if_false, hm, hm']
  refine ⟨_, rfl, hdone.ch, hdone.reader, ?_, ?_⟩
  · change some m'.val.dropLast = some n.text
    rw [hdone.val, List.dropLast_concat, Number.text]
    simp only [List.append_assoc]
  · rintro n' h
    cases h
    change (decide (_ ≠ some (unit '.')) && !m.hasExp) = (decide (n.frac = []) && decide (n.exp = []))
    rw [decide_eq_decide.mpr hpoint]
    congr 1
    cases hh : m.hasExp with
    | false => simp [hexp.mp hh]
    | true =>
        have : n.exp ≠ [] := fun h => by
          rw [hexp.mpr h] at hh
          cases hh
        simp [this]

/-- A number that is read without an exception is one. -/
theorem readNumber_split {s s' : JSONScanner} {prefetch : UInt16} {symbol : JSONSymbol}
    (hprefetch : prefetch = unit '-' ∨ isDigit prefetch = true)
    (h : s.readNumber prefetch = (.ok symbol, s')) :
    ∃ (n : Number) (rest : JString), n.Valid ∧ n.Ends rest ∧ prefetch :: s.reader = n.text ++ rest := by
  obtain ⟨minus, t, hminus, hminus'⟩ := Scanned.split_minus (prefetch :: s.reader)
  have hfirst := scanned_first prefetch s.reader s.place
  rw [hminus] at hfirst
  have hsign := hfirst.sign_of hminus'
  unfold JSONScanner.readNumber at h
  -- a digit comes next
  obtain ⟨d, t, rfl, hd⟩ : ∃ d t', t = d :: t' ∧ isDigit d = true := by
    rcases hminus' with ⟨rfl, hhead⟩ | rfl
    · obtain rfl : prefetch :: s.reader = t := hminus
      rcases hprefetch with rfl | hd
      · exact absurd rfl hhead
      · exact ⟨prefetch, s.reader, rfl, hd⟩
    · obtain ⟨rfl, -⟩ := List.cons.inj hminus
      cases hdigit : (NumberScan.sign ⟨some (unit '-'), [unit '-'], s.reader, s.place⟩).isDigit with
      | false =>
          rw [if_pos (by rw [hdigit]; decide)] at h
          cases h
      | true =>
          rw [NumberScan.isDigit, hsign.ch] at hdigit
          cases t with
          | nil => cases hdigit
          | cons d t => exact ⟨d, t, rfl, hdigit⟩
  have hsigned :
      (NumberScan.sign ⟨some prefetch, [prefetch], s.reader, s.place⟩).isDigit = true := by
    rw [NumberScan.isDigit, hsign.ch]
    exact hd
  rw [if_neg (by rw [hsigned]; simp)] at h
  dsimp only at h
  obtain ⟨int, t', ht, hint, hstops⟩ := Scanned.split_int hd t
  rw [ht] at hsign
  have hinted := hsign.int_of hint hstops
  rcases hinted.split_frac with ⟨e, m, hfrac⟩ | ⟨frac, t₂, rfl, hfrac, hstops₂, hpoint⟩
  · rw [hfrac] at h
    cases h
  · obtain ⟨m, hm, hfraced, -⟩ := hinted.frac_of hfrac hstops₂ hpoint
    rcases hfraced.split_exp with ⟨e, m', hexp⟩ | ⟨exp, rest, rfl, hexp, hstops₃, hhead⟩
    · rw [hm] at h
      dsimp only at h
      rw [hexp] at h
      cases h
    · refine ⟨⟨minus, int, frac, exp⟩, rest, ⟨hminus'.imp And.left id, hint, hfrac, hexp⟩,
        ⟨?_, ?_, ?_⟩, ?_⟩
      · intro c hc hdigit
        have hstop {l : JString} (hl : Stops (l ++ rest)) : l ≠ [] := by
          rintro rfl
          rw [List.nil_append] at hl
          rw [hl c hc] at hdigit
          cases hdigit
        have hempty : exp = [] := by
          by_contra hne
          have := hstops₃ hne c hc
          rw [this] at hdigit
          cases hdigit
        subst hempty
        have hempty : frac = [] := by
          by_contra hne
          exact hstop (hstops₂ hne) rfl
        subst hempty
        refine ⟨?_, rfl, rfl⟩
        by_contra hne
        exact hstop (l := []) (by simpa using hstops hne) rfl
      · intro hc
        by_contra hboth
        rw [not_or, not_not, not_not] at hboth
        obtain ⟨rfl, rfl⟩ := hboth
        exact hpoint rfl (by simpa using hc)
      · intro hc hempty
        exact hhead hempty hc
      · rw [hminus, ht]
        simp only [Number.text, List.append_assoc]

/-! ## Symbols -/

/-- The text `t` is still to be read. -/
structure Ready (s : JSONScanner) (t : JString) : Prop where
  prevChar : s.prevChar = t.head?
  reader : s.reader = t.tail

theorem ready_new (t : JString) : Ready (JSONScanner.new t) t := ⟨rfl, rfl⟩

theorem Found.ready {s : JSONScanner} {tok : Token} {rest : JString} (h : Found s tok rest) :
    Ready s rest := ⟨h.prevChar, h.reader⟩

/-- The character a number begins with begins nothing else. -/
theorem begins_number {c : UInt16} (h : c = unit '-' ∨ isDigit c = true) :
    punctuation c = none ∧ keyword c = none ∧ c ≠ unit '"' ∧ isWhitespace c = false := by
  rcases h with rfl | h
  · decide
  · have hne {d : UInt16} (hd : isDigit d = false) : c ≠ d := ne_of_isDigit h hd
    refine ⟨?_, ?_, hne (by decide), ?_⟩
    · simp only [punctuation, if_neg (hne (d := unit '{') (by decide)),
        if_neg (hne (d := unit '}') (by decide)), if_neg (hne (d := unit '[') (by decide)),
        if_neg (hne (d := unit ']') (by decide)), if_neg (hne (d := unit ':') (by decide)),
        if_neg (hne (d := unit ',') (by decide))]
    · simp only [keyword, if_neg (hne (d := unit 't') (by decide)),
        if_neg (hne (d := unit 'f') (by decide)), if_neg (hne (d := unit 'n') (by decide))]
    · have h20 := hne (d := 0x20) (by decide)
      have h09 := hne (d := 0x09) (by decide)
      have h0c := hne (d := 0x0c) (by decide)
      have h0a := hne (d := 0x0a) (by decide)
      have h0d := hne (d := 0x0d) (by decide)
      simp [isWhitespace, h20, h09, h0c, h0a, h0d]

theorem Number.Valid.head {n : Number} (h : n.Valid) :
    ∃ c t, n.text = c :: t ∧ (c = unit '-' ∨ isDigit c = true) := by
  obtain ⟨d, t, hint, hd⟩ := h.int.head
  rcases h.minus with hminus | hminus
  · exact ⟨d, t ++ (n.frac ++ n.exp), by rw [Number.text, hminus, hint]; rfl, .inr hd⟩
  · exact ⟨unit '-', n.int ++ (n.frac ++ n.exp), by rw [Number.text, hminus]; rfl, .inl rfl⟩

/-- No token begins with white space. -/
theorem Token.Spelled.head {tok : Token} {u : JString} (h : tok.Spelled u) :
    ∃ c t, u = c :: t ∧ isWhitespace c = false := by
  cases h with
  | keyword k =>
      cases k with
      | true_ => exact ⟨_, _, rfl, by decide⟩
      | false_ => exact ⟨_, _, rfl, by decide⟩
      | null_ => exact ⟨_, _, rfl, by decide⟩
  | string h => exact ⟨_, _, rfl, by decide⟩
  | number h =>
      obtain ⟨c, t, ht, hc⟩ := h.head
      exact ⟨c, t, ht, (begins_number hc).2.2.2⟩
  | curlyOpen => exact ⟨_, _, rfl, by decide⟩
  | curlyClose => exact ⟨_, _, rfl, by decide⟩
  | squareOpen => exact ⟨_, _, rfl, by decide⟩
  | squareClose => exact ⟨_, _, rfl, by decide⟩
  | colon => exact ⟨_, _, rfl, by decide⟩
  | comma => exact ⟨_, _, rfl, by decide⟩

section Switch

variable {s : JSONScanner} {rest : JString}

theorem found_fetch {tok : Token} (hreader : s.reader = rest) (hvalue : s.value = tok.value)
    (htok : ∀ n, tok ≠ .number n) : Found s.fetch tok rest where
  prevChar := by rw [← hreader]; rfl
  reader := by rw [← hreader]; rfl
  value := hvalue
  isInt := fun n h => absurd h (htok n)

theorem symbolAt_punctuation {c : UInt16} {symbol : JSONSymbol}
    (h : punctuation c = some symbol) : symbolAt (some c) s = (.ok symbol, s.fetch) := by
  simp only [symbolAt, h]

theorem symbolAt_keyword {k : Keyword} {c : UInt16} {t : JString} (hk : k.text = c :: t)
    (hpunctuation : punctuation c = none) (hkeyword : keyword c = some k.text)
    (hreader : s.reader = t ++ rest) :
    ∃ s', symbolAt (some c) s = (.ok .KEYWORD, s') ∧ Found s' (.keyword k) rest := by
  obtain ⟨p, hp⟩ := (readLetters_ok_iff (p := s.place)).mpr hreader
  simp only [symbolAt, hpunctuation, hkeyword, readKeyword, hk, List.tail_cons, hp]
  exact ⟨_, rfl, found_fetch rfl (by rw [← hk]; rfl) (by simp)⟩

theorem symbolAt_string {v b : JString} (h : StringBody v b)
    (hreader : s.reader = b ++ unit '"' :: rest) :
    ∃ s', symbolAt (some (unit '"')) s = (.ok .STRING, s') ∧ Found s' (.string v) rest := by
  obtain ⟨p, hp⟩ := (@readStringLoop_ok_iff .plain [] s.reader v rest s.place).mpr
    ⟨b, hreader, v, h, rfl⟩
  have hquote : punctuation (unit '"') = none ∧ keyword (unit '"') = none := by decide
  simp only [symbolAt, hquote.1, hquote.2, if_true, readString, hp]
  exact ⟨_, rfl, ⟨rfl, rfl, rfl, by simp⟩⟩

theorem symbolAt_number {c : UInt16} (hc : c = unit '-' ∨ isDigit c = true) :
    symbolAt (some c) s = s.readNumber c := by
  obtain ⟨hpunctuation, hkeyword, hquote, -⟩ := begins_number hc
  have hcond : (c = unit '-' || isDigit c) = true := by simpa using hc
  simp only [symbolAt, hpunctuation, hkeyword, if_neg hquote]
  exact if_pos hcond

/-- The symbol of a token that stands at the beginning. -/
theorem symbolAt_spelled {tok : Token} {c : UInt16} {u t : JString} (h : tok.Spelled u)
    (hends : tok.Ends rest) (ht : u ++ rest = c :: t) (hreader : s.reader = t)
    (hvalue : s.value = none) :
    ∃ s', symbolAt (some c) s = (.ok tok.symbol, s') ∧ Found s' tok rest := by
  cases h with
  | curlyOpen | curlyClose | squareOpen | squareClose | colon | comma =>
      obtain ⟨rfl, rfl⟩ := List.cons.inj ht
      exact ⟨_, symbolAt_punctuation (by decide), found_fetch hreader hvalue (by simp)⟩
  | keyword k =>
      cases k with
      | true_ =>
          obtain ⟨rfl, rfl⟩ := List.cons.inj ht
          exact symbolAt_keyword (k := .true_) rfl (by decide) (by decide) hreader
      | false_ =>
          obtain ⟨rfl, rfl⟩ := List.cons.inj ht
          exact symbolAt_keyword (k := .false_) rfl (by decide) (by decide) hreader
      | null_ =>
          obtain ⟨rfl, rfl⟩ := List.cons.inj ht
          exact symbolAt_keyword (k := .null_) rfl (by decide) (by decide) hreader
  | string h =>
      obtain ⟨rfl, rfl⟩ := List.cons.inj ht
      exact symbolAt_string h (by rw [hreader]; simp)
  | @number n h =>
      obtain ⟨c', t', hn, hc⟩ := h.head
      have hc' : c' = c := by
        rw [hn] at ht
        exact (List.cons.inj ht).1
      subst hc'
      rw [symbolAt_number hc]
      exact readNumber_ok h hends (by rw [hreader, ht])

end Switch

/-- **The first token of the text is read.** -/
theorem nextSymbol_of_lexes {s : JSONScanner} {t rest : JString} {tok : Token} (hs : Ready s t)
    (h : Lexes t tok rest) :
    ∃ s', s.nextSymbol = (.ok tok.symbol, s') ∧ Found s' tok rest := by
  obtain ⟨p, hp⟩ := skipWhitespace_eq t s.place
  unfold nextSymbol
  rw [hs.prevChar, hs.reader, hp]
  dsimp only
  cases h with
  | eos hblank =>
      rw [blank_iff.mp hblank]
      exact ⟨_, rfl, ⟨rfl, rfl, rfl, by simp⟩⟩
  | @token w u rest tok hblank hspelled hends =>
      obtain ⟨c, u', hu, hc⟩ := hspelled.head
      have hdrop : (w ++ (u ++ rest)).dropWhile isWhitespace = u ++ rest := by
        rw [hblank.dropWhile, hu, List.cons_append,
          List.dropWhile_cons_of_neg (by rw [hc]; decide)]
      rw [hdrop]
      have ht : u ++ rest = c :: (u' ++ rest) := by rw [hu, List.cons_append]
      rw [ht]
      exact symbolAt_spelled hspelled hends ht rfl rfl

theorem punctuation_cases {c : UInt16} {symbol : JSONSymbol} (h : punctuation c = some symbol) :
    ∃ tok : Token, tok.Spelled [c] ∧ ∀ rest, tok.Ends rest := by
  unfold punctuation at h
  split_ifs at h with h₁ h₂ h₃ h₄ h₅ h₆
  · exact ⟨.curlyOpen, h₁ ▸ .curlyOpen, fun _ => trivial⟩
  · exact ⟨.curlyClose, h₂ ▸ .curlyClose, fun _ => trivial⟩
  · exact ⟨.squareOpen, h₃ ▸ .squareOpen, fun _ => trivial⟩
  · exact ⟨.squareClose, h₄ ▸ .squareClose, fun _ => trivial⟩
  · exact ⟨.colon, h₅ ▸ .colon, fun _ => trivial⟩
  · exact ⟨.comma, h₆ ▸ .comma, fun _ => trivial⟩

theorem keyword_cases {c : UInt16} {text : JString} (h : keyword c = some text) :
    ∃ k : Keyword, text = k.text ∧ text = c :: text.tail := by
  unfold keyword at h
  split_ifs at h with h₁ h₂ h₃
  · cases h
    exact ⟨.true_, rfl, by rw [h₁]; rfl⟩
  · cases h
    exact ⟨.false_, rfl, by rw [h₂]; rfl⟩
  · cases h
    exact ⟨.null_, rfl, by rw [h₃]; rfl⟩

/-- What the switch returns on is a token. -/
theorem spelled_of_symbolAt {s s' : JSONScanner} {c : UInt16} {symbol : JSONSymbol}
    (h : symbolAt (some c) s = (.ok symbol, s')) :
    ∃ (tok : Token) (u rest : JString), c :: s.reader = u ++ rest ∧ tok.Spelled u ∧
      tok.Ends rest := by
  unfold symbolAt at h
  dsimp only at h
  split at h
  · rename_i hpunctuation
    obtain ⟨tok, hspelled, hends⟩ := punctuation_cases hpunctuation
    exact ⟨tok, [c], s.reader, rfl, hspelled, hends _⟩
  · split at h
    · rename_i text hkeyword
      obtain ⟨k, rfl, hk⟩ := keyword_cases hkeyword
      unfold readKeyword at h
      rcases hread : readLetters k.text.tail s.reader s.place with ⟨result, rest, p⟩
      rw [hread] at h
      cases result with
      | error e => cases h
      | ok _ =>
          have hreader := readLetters_ok_iff.mp ⟨p, hread⟩
          refine ⟨.keyword k, k.text, rest, ?_, .keyword k, trivial⟩
          rw [hk, hreader]
          rfl
    · split_ifs at h with hquote hnumber
      · unfold readString at h
        rcases hread : readStringLoop .plain [] s.reader s.place with ⟨result, rest, p⟩
        rw [hread] at h
        cases result with
        | error e => cases h
        | ok v =>
            obtain ⟨b, hreader, v', hbody, -⟩ := readStringLoop_ok_iff.mp ⟨p, hread⟩
            refine ⟨.string v', _, rest, ?_, .string hbody, trivial⟩
            rw [hreader, hquote]
            simp
      · obtain ⟨n, rest, hn, hends, heq⟩ := readNumber_split (by simpa using hnumber) h
        exact ⟨.number n, n.text, rest, heq, .number hn, hends⟩
      · cases h

/-- **If a symbol is returned, the text has a first token.** -/
theorem lexes_of_nextSymbol {s s' : JSONScanner} {t : JString} {symbol : JSONSymbol}
    (hs : Ready s t) (h : s.nextSymbol = (.ok symbol, s')) :
    ∃ tok rest, Lexes t tok rest ∧ symbol = tok.symbol ∧ Found s' tok rest := by
  have hlexes : ∃ tok rest, Lexes t tok rest := by
    obtain ⟨p, hp⟩ := skipWhitespace_eq t s.place
    unfold nextSymbol at h
    rw [hs.prevChar, hs.reader, hp] at h
    dsimp only at h
    cases ht : t.dropWhile isWhitespace with
    | nil => exact ⟨.eos, [], .eos (blank_iff.mpr ht)⟩
    | cons c t' =>
        rw [ht] at h
        obtain ⟨tok, u, rest, heq, hspelled, hends⟩ := spelled_of_symbolAt h
        refine ⟨tok, rest, ?_⟩
        have hsplit := List.takeWhile_append_dropWhile (p := isWhitespace) (l := t)
        rw [ht] at hsplit
        rw [← hsplit]
        change c :: t' = u ++ rest at heq
        rw [heq]
        exact .token (blank_takeWhile t) hspelled hends
  obtain ⟨tok, rest, hlexes⟩ := hlexes
  obtain ⟨s'', hnext, hfound⟩ := nextSymbol_of_lexes hs hlexes
  rw [h] at hnext
  cases hnext
  exact ⟨tok, rest, hlexes, rfl, hfound⟩

/-- Only a number changes what the scanner says about integers. -/
theorem nextSymbol_isInt {s s' : JSONScanner} {symbol : JSONSymbol}
    (h : s.nextSymbol = (.ok symbol, s')) (hsymbol : symbol ≠ .NUMBER) : s'.isInt = s.isInt := by
  unfold nextSymbol symbolAt at h
  dsimp only at h
  split at h
  · cases h
    rfl
  · split at h
    · cases h
      rfl
    · split at h
      · unfold readKeyword at h
        dsimp only at h
        split at h <;> cases h
        rfl
      · split_ifs at h with hquote hnumber
        · unfold readString at h
          dsimp only at h
          split at h <;> cases h
          rfl
        · unfold readNumber at h
          dsimp only at h
          split_ifs at h
          · cases h
          · split at h
            · cases h
            · split at h <;> cases h
              exact absurd rfl hsymbol
        · cases h

end JavaFx.Json
