import JavaFx.Web.DateParser

/-!
# Dates come back

A second of the calendar is rendered in the three forms in which servers write dates. The tokens of
such a text are met in their order: no name of a weekday begins like a month, a day of one or two
digits comes before the year, and nothing but the time has a colon.
-/

namespace JavaFx.Web.DateParser

open Css (JString lit)
open Calendar (Date daysBeforeYear daysInMonth)

/-! ## Seconds of the calendar -/

/-- A date with the time of the day. -/
structure CivilTime extends Date where
  hour : ℕ
  minute : ℕ
  second : ℕ
  hour_lt : hour < 24
  minute_lt : minute < 60
  second_lt : second < 60

namespace CivilTime

/-- The seconds from the beginning of 1970. -/
def epochSecond (c : CivilTime) : ℤ :=
  (((c.dayNumber - epochDay) * 24 + c.hour) * 60 + c.minute) * 60 + c.second

/-- The date and time at a second. -/
def ofSecond (t : ℤ) : CivilTime where
  toDate := Date.ofDayNumber (t / 86400 + epochDay).toNat
  hour := (t % 86400 / 3600).toNat
  minute := (t % 3600 / 60).toNat
  second := (t % 60).toNat
  hour_lt := by omega
  minute_lt := by omega
  second_lt := by omega

/-- The first second of a year. -/
def yearStart (year : ℕ) : ℤ := (daysBeforeYear year - epochDay) * 86400

theorem epochSecond_ofSecond {t : ℤ} (ht : yearStart 0 ≤ t) : (ofSecond t).epochSecond = t := by
  have hday : ((ofSecond t).dayNumber : ℤ) = t / 86400 + epochDay := by
    have hpos : 0 ≤ t / 86400 + epochDay := by
      have hzero : ((daysBeforeYear 0 : ℕ) : ℤ) = 0 := by decide
      unfold yearStart at ht
      rw [hzero] at ht
      omega
    rw [ofSecond, Date.dayNumber_ofDayNumber, Int.toNat_of_nonneg hpos]
  have hhour : ((ofSecond t).hour : ℤ) = t % 86400 / 3600 := Int.toNat_of_nonneg (by omega)
  have hminute : ((ofSecond t).minute : ℤ) = t % 3600 / 60 := Int.toNat_of_nonneg (by omega)
  have hsecond : ((ofSecond t).second : ℤ) = t % 60 := Int.toNat_of_nonneg (by omega)
  rw [epochSecond, hday, hhour, hminute, hsecond]
  omega

theorem le_year_ofSecond {t : ℤ} {year : ℕ} (ht : yearStart year ≤ t) :
    year ≤ (ofSecond t).year := by
  refine Date.le_year_ofDayNumber ?_
  unfold yearStart at ht
  omega

theorem year_ofSecond_lt {t : ℤ} {year : ℕ} (ht : t < yearStart year) (hyear : 0 < year) :
    (ofSecond t).year < year := by
  refine Date.year_ofDayNumber_lt ?_
  have hpos : 0 < daysBeforeYear year := by
    unfold daysBeforeYear
    omega
  unfold yearStart at ht
  omega

theorem getTimeInMillis_eq (c : CivilTime) :
    getTimeInMillis c.year c.month c.day ⟨c.hour, c.minute, c.second⟩ =
      some (c.epochSecond * 1000) := by
  rw [getTimeInMillis, dif_pos ⟨c.month_lt, c.day_pos, c.day_le⟩]
  rfl

/-! ## Rendering -/

def weekdays : List JString :=
  ["Sunday", "Monday", "Tuesday", "Wednesday", "Thursday", "Friday", "Saturday"].map lit

def months : List JString :=
  ["Jan", "Feb", "Mar", "Apr", "May", "Jun", "Jul", "Aug", "Sep", "Oct", "Nov", "Dec"].map lit

/-- The name of the weekday; the year 0 began on a Saturday. -/
def weekday (c : CivilTime) : JString := weekdays.getD ((c.dayNumber + 6) % 7) []

def monthName (c : CivilTime) : JString := months.getD c.month []

def digit (d : ℕ) : BitVec 16 := BitVec.ofNat 16 (48 + d)

/-- The last two digits of a number. -/
def two (n : ℕ) : JString := [digit (n / 10 % 10), digit (n % 10)]

def four (n : ℕ) : JString := two (n / 100) ++ two n

/-- A day without a zero before it. -/
def short (n : ℕ) : JString := if n < 10 then [digit n] else two n

def clock (c : CivilTime) : JString :=
  two c.hour ++ unit ':' :: (two c.minute ++ unit ':' :: two c.second)

/-- `Wdy, DD Mon YYYY HH:MM:SS GMT` -/
def rfc1123Date (c : CivilTime) : JString :=
  c.weekday.take 3 ++ unit ',' :: unit ' ' :: (two c.day ++ unit ' ' :: (c.monthName ++
    unit ' ' :: (four c.year ++ unit ' ' :: (c.clock ++ unit ' ' :: lit "GMT"))))

/-- `Wdy Mon D HH:MM:SS YYYY` -/
def asctimeDate (c : CivilTime) : JString :=
  c.weekday.take 3 ++ unit ' ' :: (c.monthName ++ unit ' ' :: (short c.day ++
    unit ' ' :: (c.clock ++ unit ' ' :: four c.year)))

/-- `Weekday, DD-Mon-YY HH:MM:SS GMT` -/
def rfc850Date (c : CivilTime) : JString :=
  c.weekday ++ unit ',' :: unit ' ' :: (two c.day ++ unit '-' :: (c.monthName ++
    unit '-' :: (two c.year ++ unit ' ' :: (c.clock ++ unit ' ' :: lit "GMT"))))

end CivilTime

open CivilTime

/-! ## Numbers -/

theorem toNat_digit {d : ℕ} (hd : d < 10) : (digit d).toNat = 48 + d := by
  rw [digit, BitVec.toNat_ofNat, Nat.mod_eq_of_lt (by omega)]

theorem isDigit_digit {d : ℕ} (hd : d < 10) : isDigit (digit d) = true := by
  rw [isDigit, Bool.and_eq_true, decide_eq_true_eq, decide_eq_true_eq, BitVec.le_def, BitVec.le_def,
    toNat_digit hd]
  change 48 ≤ 48 + d ∧ 48 + d ≤ 57
  omega

/-- What follows a number is no digit. -/
def EndsNumber (rest : JString) : Prop := ∀ c ∈ rest.head?, isDigit c = false

theorem leadingNumber_digits (lo hi : ℕ) {digits rest : JString}
    (hdigits : ∀ c ∈ digits, isDigit c = true) (hrest : EndsNumber rest) :
    leadingNumber lo hi (digits ++ rest) =
      if lo ≤ digits.length ∧ digits.length ≤ hi then some (parseInt digits, rest) else none := by
  have htake : (digits ++ rest).takeWhile isDigit = digits := by
    rw [List.takeWhile_append_of_pos hdigits]
    rcases rest with _ | ⟨c, rest⟩
    · exact List.append_nil _
    · rw [List.takeWhile_cons_of_neg (by rw [hrest c rfl]; exact Bool.false_ne_true),
        List.append_nil]
  rw [leadingNumber, htake, List.drop_left]

theorem digits_two (n : ℕ) : ∀ c ∈ two n, isDigit c = true := by
  rintro c hc
  simp only [two, List.mem_cons, List.not_mem_nil, or_false] at hc
  rcases hc with rfl | rfl
  · exact isDigit_digit (Nat.mod_lt _ (by decide))
  · exact isDigit_digit (Nat.mod_lt _ (by decide))

theorem digits_four (n : ℕ) : ∀ c ∈ four n, isDigit c = true := by
  rintro c hc
  rcases List.mem_append.mp hc with hc | hc
  · exact digits_two _ c hc
  · exact digits_two _ c hc

theorem digits_short {n : ℕ} : ∀ c ∈ short n, isDigit c = true := by
  rintro c hc
  unfold short at hc
  split_ifs at hc with hn
  · rw [List.mem_singleton.mp hc]
    exact isDigit_digit hn
  · exact digits_two n c hc

theorem parseInt_two {n : ℕ} (hn : n < 100) : parseInt (two n) = n := by
  simp only [parseInt, two, List.foldl_cons, List.foldl_nil,
    toNat_digit (Nat.mod_lt _ (show 0 < 10 by decide))]
  omega

theorem parseInt_four {n : ℕ} (hn : n < 10000) : parseInt (four n) = n := by
  simp only [parseInt, four, two, List.cons_append, List.nil_append, List.foldl_cons,
    List.foldl_nil, toNat_digit (Nat.mod_lt _ (show 0 < 10 by decide))]
  omega

theorem parseInt_short {n : ℕ} (hn : n < 100) : parseInt (short n) = n := by
  unfold short
  split_ifs with h
  · simp only [parseInt, List.foldl_cons, List.foldl_nil, toNat_digit h]
    omega
  · exact parseInt_two hn

theorem endsNumber_nil : EndsNumber [] := fun _ hc => nomatch hc

theorem endsNumber_colon (rest : JString) : EndsNumber (unit ':' :: rest) := by
  rintro c hc
  obtain rfl := Option.some.inj hc
  rfl

/-- A number that is a token of its own is no time. -/
theorem parseTime_digits {digits : JString} (hdigits : ∀ c ∈ digits, isDigit c = true) :
    parseTime digits = none := by
  have hlead := leadingNumber_digits 1 2 hdigits endsNumber_nil
  rw [List.append_nil] at hlead
  rw [parseTime, hlead]
  split_ifs <;> rfl

theorem parseDayOfMonth_digits {digits : JString} (hdigits : ∀ c ∈ digits, isDigit c = true)
    (hlen : 1 ≤ digits.length ∧ digits.length ≤ 2) :
    parseDayOfMonth digits = some (parseInt digits) := by
  have hlead := leadingNumber_digits 1 2 hdigits endsNumber_nil
  rw [List.append_nil, if_pos hlen] at hlead
  rw [parseDayOfMonth, hlead]
  rfl

theorem parseYear_digits {digits : JString} (hdigits : ∀ c ∈ digits, isDigit c = true)
    (hlen : 2 ≤ digits.length ∧ digits.length ≤ 4) :
    parseYear digits = some (parseInt digits) := by
  have hlead := leadingNumber_digits 2 4 hdigits endsNumber_nil
  rw [List.append_nil, if_pos hlen] at hlead
  rw [parseYear, hlead]
  rfl

theorem parseTime_clock (c : CivilTime) :
    parseTime c.clock = some ⟨c.hour, c.minute, c.second⟩ := by
  have hlen : ∀ n, 1 ≤ (two n).length ∧ (two n).length ≤ 2 := fun n =>
    show 1 ≤ 2 ∧ 2 ≤ 2 by decide
  have hhour := leadingNumber_digits 1 2 (digits_two c.hour)
    (endsNumber_colon (two c.minute ++ unit ':' :: two c.second))
  have hminute := leadingNumber_digits 1 2 (digits_two c.minute)
    (endsNumber_colon (two c.second))
  have hsecond := leadingNumber_digits 1 2 (digits_two c.second) endsNumber_nil
  rw [if_pos (hlen _), parseInt_two (c.hour_lt.trans (by decide))] at hhour
  rw [if_pos (hlen _), parseInt_two (c.minute_lt.trans (by decide))] at hminute
  rw [List.append_nil, if_pos (hlen _), parseInt_two (c.second_lt.trans (by decide))] at hsecond
  rw [clock, parseTime, hhour]
  simp only [Option.bind_eq_bind, Option.bind_some, afterColon, if_true, hminute, hsecond]
  rfl

/-! ## Words -/

/-- What `String.toLowerCase` documents for ASCII texts in every locale; in some an `I` has another
small letter. -/
def LowersAscii (toLowerCase : JString → JString) : Prop :=
  ∀ s : JString, (s.all fun c => c < 128 && c != unit 'I') = true →
    toLowerCase s = s.map asciiLower

/-- A token that does not begin with a digit. -/
def IsWord (token : JString) : Prop := token ≠ [] ∧ EndsNumber token

theorem leadingNumber_word {token : JString} (hword : IsWord token) {lo : ℕ} (hlo : 1 ≤ lo)
    (hi : ℕ) : leadingNumber lo hi token = none := by
  have hnone : ∀ c ∈ ([] : JString), isDigit c = true := fun c hc => absurd hc List.not_mem_nil
  have hlead := leadingNumber_digits lo hi hnone hword.2
  rw [List.nil_append, List.length_nil, if_neg (by omega)] at hlead
  exact hlead

variable {toLowerCase : JString → JString}

theorem missing_some {α : Type} (x : α) (parsed : Option α) : missing (some x) parsed = none := rfl

theorem missing_none {α : Type} (field : Option α) : missing field none = none := by
  cases field <;> rfl

/-- A word can be a month only. -/
theorem readToken_word {token : JString} (hword : IsWord token) (f : Fields) :
    readToken toLowerCase f token =
      match missing f.month (parseMonth toLowerCase token) with
      | some month => { f with month := some month }
      | none => f := by
  have htime : parseTime token = none := by
    rw [parseTime, leadingNumber_word hword le_rfl]
    rfl
  have hday : parseDayOfMonth token = none := by
    rw [parseDayOfMonth, leadingNumber_word hword le_rfl]
    rfl
  have hyear : parseYear token = none := by
    rw [parseYear, leadingNumber_word hword (by decide)]
    rfl
  rw [readToken, if_neg hword.1, htime, hday, hyear]
  cases missing f.month (parseMonth toLowerCase token) with
  | none => simp only [missing_none]
  | some month => simp only [missing_none]

theorem readToken_nil (f : Fields) : readToken toLowerCase f [] = f := rfl

/-! ## Tokens -/

/-- The fields after the tokens of a text. -/
def readAll (toLowerCase : JString → JString) (text : JString) (f : Fields) : Fields :=
  (text.splitOnP isDelimiter).foldl (readToken toLowerCase) f

/-- A delimiter separates the tokens before it from those after it. -/
theorem readAll_append (text rest : JString) {d : BitVec 16} (hd : isDelimiter d = true)
    (f : Fields) :
    readAll toLowerCase (text ++ d :: rest) f =
      readAll toLowerCase rest (readAll toLowerCase text f) := by
  rw [readAll, List.splitOnP_append_cons text rest hd, List.foldl_append]
  rfl

theorem readAll_token {token : JString} (htoken : ∀ c ∈ token, isDelimiter c = false) (f : Fields) :
    readAll toLowerCase token f = readToken toLowerCase f token := by
  rw [readAll, List.splitOnP_eq_singleton htoken]
  rfl

theorem readAll_cons {token : JString} (htoken : ∀ c ∈ token, isDelimiter c = false)
    {d : BitVec 16} (hd : isDelimiter d = true) (rest : JString) (f : Fields) :
    readAll toLowerCase (token ++ d :: rest) f =
      readAll toLowerCase rest (readToken toLowerCase f token) := by
  rw [readAll_append token rest hd, readAll_token htoken]

theorem readAll_delimiter {d : BitVec 16} (hd : isDelimiter d = true) (rest : JString)
    (f : Fields) :
    readAll toLowerCase (d :: rest) f = readAll toLowerCase rest f :=
  readAll_append [] rest hd f

/-- All fields are there. -/
def Fields.IsFull (f : Fields) : Prop :=
  f.time.isSome ∧ f.dayOfMonth.isSome ∧ f.month.isSome ∧ f.year.isSome

theorem readToken_full {f : Fields} (hf : f.IsFull) (token : JString) :
    readToken toLowerCase f token = f := by
  rcases f with ⟨time, dayOfMonth, month, year⟩
  obtain ⟨htime, hday, hmonth, hyear⟩ := hf
  obtain ⟨time, rfl⟩ := Option.isSome_iff_exists.mp htime
  obtain ⟨dayOfMonth, rfl⟩ := Option.isSome_iff_exists.mp hday
  obtain ⟨month, rfl⟩ := Option.isSome_iff_exists.mp hmonth
  obtain ⟨year, rfl⟩ := Option.isSome_iff_exists.mp hyear
  unfold readToken
  split
  · rfl
  · rfl

theorem readAll_full {f : Fields} (hf : f.IsFull) (text : JString) :
    readAll toLowerCase text f = f := by
  rw [readAll]
  induction text.splitOnP isDelimiter with
  | nil => rfl
  | cons token tokens ih => rw [List.foldl_cons, readToken_full hf, ih]

/-! ## The tokens of the three forms -/

theorem words_of_weekdays : ∀ w ∈ weekdays,
    (w.all fun c => !isDelimiter c && !isDigit c) = true ∧ 3 ≤ w.length ∧
      ((w.take 3).all fun c => c < 128 && c != unit 'I') = true ∧
      (w.take 3).map asciiLower ∉ MONTH_MAP := by
  decide +kernel

theorem words_of_months : ∀ m < 12,
    ((months.getD m []).all fun c => !isDelimiter c && !isDigit c) = true ∧
      (months.getD m []).length = 3 ∧
      ((months.getD m []).all fun c => c < 128 && c != unit 'I') = true ∧
      (months.getD m []).map asciiLower ∈ MONTH_MAP ∧
      MONTH_MAP.idxOf ((months.getD m []).map asciiLower) = m := by
  decide +kernel

theorem words_of_monthName (c : CivilTime) :
    (c.monthName.all fun d => !isDelimiter d && !isDigit d) = true ∧
      c.monthName.length = 3 ∧
      (c.monthName.all fun d => d < 128 && d != unit 'I') = true ∧
      c.monthName.map asciiLower ∈ MONTH_MAP ∧
      MONTH_MAP.idxOf (c.monthName.map asciiLower) = c.month :=
  words_of_months c.month c.month_lt

theorem weekday_mem (c : CivilTime) : c.weekday ∈ weekdays := by
  have hlt : (c.dayNumber + 6) % 7 < weekdays.length := Nat.mod_lt _ (by decide)
  rw [weekday, List.getD_eq_getElem?_getD, List.getElem?_eq_getElem hlt]
  exact List.getElem_mem hlt

theorem isWord_of_all {w : JString} (hall : (w.all fun c => !isDelimiter c && !isDigit c) = true)
    (hne : w ≠ []) : IsWord w ∧ ∀ c ∈ w, isDelimiter c = false := by
  have hboth : ∀ c ∈ w, isDelimiter c = false ∧ isDigit c = false := by
    rintro c hc
    have := List.all_eq_true.mp hall c hc
    rwa [Bool.and_eq_true, Bool.not_eq_true', Bool.not_eq_true'] at this
  refine ⟨⟨hne, fun c hc => ?_⟩, fun c hc => (hboth c hc).1⟩
  exact (hboth c (List.mem_of_mem_head? hc)).2

/-- No weekday is a month. -/
theorem readToken_weekday (hlow : LowersAscii toLowerCase) {w token : JString} (hw : w ∈ weekdays)
    (htoken : token.take 3 = w.take 3) (hlen : 3 ≤ token.length) (hword : IsWord token)
    (f : Fields) : readToken toLowerCase f token = f := by
  obtain ⟨-, -, hascii, hnone⟩ := words_of_weekdays w hw
  have hmonth : parseMonth toLowerCase token = none := by
    rw [parseMonth, if_pos hlen, htoken, hlow _ hascii]
    exact if_neg hnone
  rw [readToken_word hword, hmonth, missing_none]

theorem readToken_month (hlow : LowersAscii toLowerCase) (c : CivilTime) {f : Fields}
    (hf : f.month = none) :
    readToken toLowerCase f c.monthName = { f with month := some c.month } := by
  obtain ⟨hall, hlen, hascii, hmem, hidx⟩ := words_of_monthName c
  have hne : c.monthName ≠ [] := List.ne_nil_of_length_pos (hlen ▸ Nat.succ_pos 2)
  have hkey : toLowerCase (c.monthName.take 3) = c.monthName.map asciiLower := by
    rw [List.take_of_length_le hlen.le, hlow _ hascii]
  have hmonth : parseMonth toLowerCase c.monthName = some c.month := by
    rw [parseMonth, if_pos hlen.ge, hkey]
    exact (if_pos hmem).trans (congrArg some hidx)
  rw [readToken_word (isWord_of_all hall hne).1, hmonth, hf]
  rfl

/-- A number of its own is the day if that is missing. -/
theorem readToken_day {f : Fields} {digits : JString} (hdigits : ∀ c ∈ digits, isDigit c = true)
    (hlen : 1 ≤ digits.length ∧ digits.length ≤ 2) (hf : f.dayOfMonth = none) :
    readToken toLowerCase f digits = { f with dayOfMonth := some (parseInt digits) } := by
  have hne : digits ≠ [] := List.ne_nil_of_length_pos hlen.1
  rw [readToken, if_neg hne, parseTime_digits hdigits, missing_none,
    parseDayOfMonth_digits hdigits hlen, hf]
  rfl

/-- It is the year if the day is there; a month is a word. -/
theorem readToken_year {f : Fields} {digits : JString} (hdigits : ∀ c ∈ digits, isDigit c = true)
    (hlen : 2 ≤ digits.length ∧ digits.length ≤ 4) (hday : f.dayOfMonth.isSome)
    (hmonth : f.month.isSome) (hf : f.year = none) :
    readToken toLowerCase f digits = { f with year := some (parseInt digits) } := by
  have hne : digits ≠ [] := by
    rintro rfl
    exact absurd hlen.1 (by decide)
  obtain ⟨day, hday⟩ := Option.isSome_iff_exists.mp hday
  obtain ⟨month, hmonth⟩ := Option.isSome_iff_exists.mp hmonth
  rw [readToken, if_neg hne, parseTime_digits hdigits, missing_none, hday, missing_some, hmonth,
    missing_some, parseYear_digits hdigits hlen, hf]
  rfl

theorem readToken_clock (c : CivilTime) {f : Fields} (hf : f.time = none) :
    readToken toLowerCase f c.clock = { f with time := some ⟨c.hour, c.minute, c.second⟩ } := by
  have hne : c.clock ≠ [] := List.cons_ne_nil _ _
  rw [readToken, if_neg hne, parseTime_clock, hf]
  rfl

/-! ## Delimiters -/

theorem not_delimiter_digits {digits : JString} (hdigits : ∀ c ∈ digits, isDigit c = true) :
    ∀ c ∈ digits, isDelimiter c = false := by
  rintro c hc
  have hdigit := hdigits c hc
  rw [isDigit, Bool.and_eq_true, decide_eq_true_eq, decide_eq_true_eq, BitVec.le_def,
    BitVec.le_def] at hdigit
  change 48 ≤ c.toNat ∧ c.toNat ≤ 57 at hdigit
  simp only [isDelimiter, Bool.or_eq_false_iff, Bool.and_eq_false_iff, decide_eq_false_iff_not,
    BitVec.le_def, ← BitVec.toNat_inj, BitVec.ofNat_eq_ofNat, BitVec.toNat_ofNat]
  omega

theorem not_delimiter_clock (c : CivilTime) : ∀ d ∈ c.clock, isDelimiter d = false := by
  have htwo : ∀ n, ∀ d ∈ two n, isDelimiter d = false :=
    fun n => not_delimiter_digits (digits_two n)
  rintro d hd
  rw [clock] at hd
  rcases List.mem_append.mp hd with hd | hd
  · exact htwo _ d hd
  rcases List.mem_cons.mp hd with rfl | hd
  · rfl
  rcases List.mem_append.mp hd with hd | hd
  · exact htwo _ d hd
  rcases List.mem_cons.mp hd with rfl | hd
  · rfl
  · exact htwo _ d hd

theorem not_delimiter_month (c : CivilTime) : ∀ d ∈ c.monthName, isDelimiter d = false := by
  obtain ⟨hall, hlen, -⟩ := words_of_monthName c
  exact (isWord_of_all hall (List.ne_nil_of_length_pos (hlen ▸ Nat.succ_pos 2))).2

/-- A weekday, in full or in three letters. -/
theorem weekday_token (hlow : LowersAscii toLowerCase) (c : CivilTime) {token : JString}
    (htoken : token = c.weekday ∨ token = c.weekday.take 3) (f : Fields) :
    readToken toLowerCase f token = f ∧ ∀ d ∈ token, isDelimiter d = false := by
  have hmem := weekday_mem c
  obtain ⟨hall, hlen, -⟩ := words_of_weekdays _ hmem
  have hshort : ((c.weekday.take 3).all fun d => !isDelimiter d && !isDigit d) = true :=
    List.all_eq_true.mpr fun d hd => List.all_eq_true.mp hall d (List.mem_of_mem_take hd)
  have hthree : (c.weekday.take 3).length = 3 := by rw [List.length_take, min_eq_left hlen]
  rcases htoken with rfl | rfl
  · obtain ⟨hword, hdelim⟩ := isWord_of_all hall (List.ne_nil_of_length_pos (by omega))
    exact ⟨readToken_weekday hlow hmem rfl hlen hword f, hdelim⟩
  · obtain ⟨hword, hdelim⟩ := isWord_of_all hshort (List.ne_nil_of_length_pos (by omega))
    refine ⟨readToken_weekday hlow hmem ?_ hthree.ge hword f, hdelim⟩
    rw [List.take_take, min_self]

/-! ## Dates -/

theorem parse_eq (date : JString) :
    parse toLowerCase date = resultOf (readAll toLowerCase date ⟨none, none, none, none⟩) := by
  rw [parse, foldl_splitRuns readToken_nil]
  rfl

/-- A text whose tokens fill the fields with those of a second. -/
theorem parse_of_fields {c : CivilTime} {text : JString} {year : ℕ}
    (hfields : readAll toLowerCase text ⟨none, none, none, none⟩ =
      ⟨some ⟨c.hour, c.minute, c.second⟩, some c.day, some c.month, some year⟩)
    (hyear : fullYear year = c.year) (hfirst : 1601 ≤ c.year) :
    parse toLowerCase text = .ok (c.epochSecond * 1000) := by
  have hday : c.day ≤ 31 := c.day_le.trans (Calendar.daysInMonth_le _ _)
  have hhour := c.hour_lt
  have hminute := c.minute_lt
  have hsecond := c.second_lt
  have hpos := c.day_pos
  rw [parse_eq, hfields, resultOf]
  simp only [Option.map_some, hyear]
  rw [if_neg (by omega), getTimeInMillis_eq]

theorem day_lt (c : CivilTime) : c.day < 100 :=
  (c.day_le.trans (Calendar.daysInMonth_le _ _)).trans_lt (by decide)

theorem length_two (n : ℕ) : 1 ≤ (two n).length ∧ (two n).length ≤ 2 :=
  show 1 ≤ 2 ∧ 2 ≤ 2 by decide

theorem length_four (n : ℕ) : 2 ≤ (four n).length ∧ (four n).length ≤ 4 :=
  show 2 ≤ 4 ∧ 4 ≤ 4 by decide

theorem length_short (n : ℕ) : 1 ≤ (short n).length ∧ (short n).length ≤ 2 := by
  unfold short
  split
  · exact show 1 ≤ 1 ∧ 1 ≤ 2 by decide
  · exact length_two n

theorem fullYear_four {year : ℕ} (hfirst : 1601 ≤ year) : fullYear year = year := by
  unfold fullYear
  split_ifs <;> omega

/-- Two digits stand for a year of the hundred from 1970 on. -/
theorem fullYear_two {year : ℕ} (hfirst : 1970 ≤ year) (hlast : year < 2070) :
    fullYear (parseInt (two year)) = year := by
  have hvalue : parseInt (two year) = year % 100 := by
    have hmod : two year = two (year % 100) := by
      rw [two, two, Nat.mod_mod_of_dvd _ (by decide : 10 ∣ 100)]
      congr 2
      omega
    rw [hmod, parseInt_two (Nat.mod_lt _ (by decide))]
  unfold fullYear
  rw [hvalue]
  split_ifs <;> omega

theorem parse_rfc1123Date (hlow : LowersAscii toLowerCase) {c : CivilTime} (hfirst : 1601 ≤ c.year)
    (hlast : c.year < 10000) : parse toLowerCase c.rfc1123Date = .ok (c.epochSecond * 1000) := by
  refine parse_of_fields ?_ (fullYear_four hfirst) hfirst
  obtain ⟨hweek, hdelim⟩ := weekday_token hlow c (Or.inr rfl) ⟨none, none, none, none⟩
  rw [rfc1123Date, readAll_cons hdelim (by decide), hweek, readAll_delimiter (by decide),
    readAll_cons (not_delimiter_digits (digits_two _)) (by decide),
    readToken_day (digits_two _) (length_two _) rfl,
    readAll_cons (not_delimiter_month c) (by decide), readToken_month hlow c rfl,
    readAll_cons (not_delimiter_digits (digits_four _)) (by decide),
    readToken_year (digits_four _) (length_four _) rfl rfl rfl,
    readAll_cons (not_delimiter_clock c) (by decide), readToken_clock c rfl,
    readAll_full ⟨rfl, rfl, rfl, rfl⟩, parseInt_two (day_lt c), parseInt_four hlast]

theorem parse_asctimeDate (hlow : LowersAscii toLowerCase) {c : CivilTime} (hfirst : 1601 ≤ c.year)
    (hlast : c.year < 10000) : parse toLowerCase c.asctimeDate = .ok (c.epochSecond * 1000) := by
  refine parse_of_fields ?_ (fullYear_four hfirst) hfirst
  obtain ⟨hweek, hdelim⟩ := weekday_token hlow c (Or.inr rfl) ⟨none, none, none, none⟩
  rw [asctimeDate, readAll_cons hdelim (by decide), hweek,
    readAll_cons (not_delimiter_month c) (by decide), readToken_month hlow c rfl,
    readAll_cons (not_delimiter_digits digits_short) (by decide),
    readToken_day digits_short (length_short _) rfl,
    readAll_cons (not_delimiter_clock c) (by decide), readToken_clock c rfl,
    readAll_token (not_delimiter_digits (digits_four _)),
    readToken_year (digits_four _) (length_four _) rfl rfl rfl,
    parseInt_short (day_lt c), parseInt_four hlast]

theorem parse_rfc850Date (hlow : LowersAscii toLowerCase) {c : CivilTime} (hfirst : 1970 ≤ c.year)
    (hlast : c.year < 2070) : parse toLowerCase c.rfc850Date = .ok (c.epochSecond * 1000) := by
  refine parse_of_fields ?_ (fullYear_two hfirst hlast) (le_trans (by decide) hfirst)
  obtain ⟨hweek, hdelim⟩ := weekday_token hlow c (Or.inl rfl) ⟨none, none, none, none⟩
  have hyear : 2 ≤ (two c.year).length ∧ (two c.year).length ≤ 4 := show 2 ≤ 2 ∧ 2 ≤ 4 by decide
  rw [rfc850Date, readAll_cons hdelim (by decide), hweek, readAll_delimiter (by decide),
    readAll_cons (not_delimiter_digits (digits_two _)) (by decide),
    readToken_day (digits_two _) (length_two _) rfl,
    readAll_cons (not_delimiter_month c) (by decide), readToken_month hlow c rfl,
    readAll_cons (not_delimiter_digits (digits_two _)) (by decide),
    readToken_year (digits_two _) hyear rfl rfl rfl,
    readAll_cons (not_delimiter_clock c) (by decide), readToken_clock c rfl,
    readAll_full ⟨rfl, rfl, rfl, rfl⟩, parseInt_two (day_lt c)]

/-- A result rests on all fields. -/
theorem full_of_resultOf {f : Fields} {r : ℤ} (hresult : resultOf f = .ok r) : f.IsFull := by
  rcases f with ⟨time, dayOfMonth, month, year⟩
  rcases time with _ | time
  · cases hresult
  rcases dayOfMonth with _ | dayOfMonth
  · cases hresult
  rcases month with _ | month
  · cases hresult
  rcases year with _ | year
  · cases hresult
  exact ⟨rfl, rfl, rfl, rfl⟩

/-- The last or the first character of a text is a delimiter between the two. -/
def Separated (date more : JString) : Prop :=
  (∃ d ∈ date.getLast?, isDelimiter d = true) ∨ ∃ d ∈ more.head?, isDelimiter d = true

/-- More tokens are not looked at once all fields are there. -/
theorem parse_append {date more : JString} {r : ℤ} (hparse : parse toLowerCase date = .ok r)
    (hsep : Separated date more) : parse toLowerCase (date ++ more) = .ok r := by
  rw [parse_eq] at hparse ⊢
  have hfull := full_of_resultOf hparse
  rcases hsep with ⟨d, hlast, hd⟩ | ⟨d, hhead, hd⟩
  · obtain ⟨text, rfl⟩ := List.getLast?_eq_some_iff.mp hlast
    have htext : readAll toLowerCase (text ++ [d]) ⟨none, none, none, none⟩ =
        readAll toLowerCase text ⟨none, none, none, none⟩ := by
      rw [readAll_append text [] hd]
      rfl
    rw [htext] at hparse hfull
    rw [List.append_assoc, List.singleton_append, readAll_append text more hd, readAll_full hfull]
    exact hparse
  · obtain ⟨rest, rfl⟩ : ∃ rest, more = d :: rest := by
      rcases more with _ | ⟨e, rest⟩
      · cases hhead
      · exact ⟨rest, by rw [Option.some.inj hhead]⟩
    rw [readAll_append date rest hd, readAll_full hfull]
    exact hparse

variable (toLowerCase)

/-- **Dates come back.** The milliseconds of every second from 1601 to 9999 are read from its two
forms with a full year, those of the years 1970 to 2069 also from the form with two digits, and more
tokens behind a date that is read change nothing. -/
theorem dates_come_back (hlow : LowersAscii toLowerCase) :
    (∀ t, yearStart 1601 ≤ t → t < yearStart 10000 →
      parse toLowerCase (ofSecond t).rfc1123Date = .ok (t * 1000) ∧
        parse toLowerCase (ofSecond t).asctimeDate = .ok (t * 1000)) ∧
    (∀ t, yearStart 1970 ≤ t → t < yearStart 2070 →
      parse toLowerCase (ofSecond t).rfc850Date = .ok (t * 1000)) ∧
    (∀ date more r, parse toLowerCase date = .ok r → Separated date more →
      parse toLowerCase (date ++ more) = .ok r) := by
  have hsecond : ∀ t year, yearStart year ≤ t → (ofSecond t).epochSecond = t := by
    rintro t year ht
    refine epochSecond_ofSecond (le_trans ?_ ht)
    have hzero : daysBeforeYear 0 ≤ daysBeforeYear year :=
      Date.monotone_daysBeforeYear (Nat.zero_le year)
    unfold yearStart
    omega
  refine ⟨?_, ?_, ?_⟩
  · rintro t hfirst hlast
    have hyear := le_year_ofSecond hfirst
    have hlt := year_ofSecond_lt hlast (by decide)
    have hrfc := parse_rfc1123Date hlow hyear hlt
    have hasc := parse_asctimeDate hlow hyear hlt
    rw [hsecond t 1601 hfirst] at hrfc hasc
    exact ⟨hrfc, hasc⟩
  · rintro t hfirst hlast
    have hback := parse_rfc850Date hlow (le_year_ofSecond hfirst)
      (year_ofSecond_lt hlast (by decide))
    rwa [hsecond t 1970 hfirst] at hback
  · rintro date more r hparse hsep
    exact parse_append hparse hsep

theorem lowersAscii_map : LowersAscii (List.map asciiLower) := fun _ _ => rfl

/-- A second of November 1994. -/
theorem november_comes_back :
    parse (List.map asciiLower) (lit "Sun, 06 Nov 1994 08:49:37 GMT") = .ok 784111777000 := by
  have hsecond := (dates_come_back (List.map asciiLower) lowersAscii_map).1 784111777
    (by decide +kernel) (by decide +kernel)
  have htext : (ofSecond 784111777).rfc1123Date = lit "Sun, 06 Nov 1994 08:49:37 GMT" := by
    decide +kernel
  rw [htext] at hsecond
  exact hsecond.1

end JavaFx.Web.DateParser
