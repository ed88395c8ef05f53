import JavaFx.Lib.Calendar
import JavaFx.Web.Cookie
import JavaFx.JavaText

/-!
# `DateParser`

The tokens of a date are taken, in their order, for the time, the day, the month and the year, each
for the first of these that is missing and that it matches. `Calendar` is the proleptic Gregorian
calendar, not lenient.
-/

namespace JavaFx.Web.DateParser

open Css (JString lit)

/-! ## The patterns -/

/-- `DELIMITER_PATTERN`, for one character -/
def isDelimiter (c : BitVec 16) : Bool :=
  c = 0x09 || (0x20 ≤ c && c ≤ 0x2f) || (0x3b ≤ c && c ≤ 0x40) || (0x5b ≤ c && c ≤ 0x60) ||
    (0x7b ≤ c && c ≤ 0x7e)

def isDigit (c : BitVec 16) : Bool := unit '0' ≤ c && c ≤ unit '9'

/-- `Integer.parseInt` of digits -/
def parseInt (digits : JString) : ℕ := digits.foldl (fun n c => 10 * n + (c.toNat - 48)) 0

/-- A group of `lo` to `hi` digits before something that is no digit: the number, and the rest. -/
def leadingNumber (lo hi : ℕ) (token : JString) : Option (ℕ × JString) :=
  let digits := token.takeWhile isDigit
  if lo ≤ digits.length ∧ digits.length ≤ hi then
    some (parseInt digits, token.drop digits.length)
  else none

def afterColon : JString → Option JString
  | [] => none
  | c :: rest => if c = unit ':' then some rest else none

structure Time where
  hour : ℕ
  minute : ℕ
  second : ℕ
deriving DecidableEq

def parseTime (token : JString) : Option Time := do
  let hour ← leadingNumber 1 2 token
  let rest ← afterColon hour.2
  let minute ← leadingNumber 1 2 rest
  let rest ← afterColon minute.2
  let second ← leadingNumber 1 2 rest
  return ⟨hour.1, minute.1, second.1⟩

def parseDayOfMonth (token : JString) : Option ℕ := (leadingNumber 1 2 token).map Prod.fst

/-- `MONTH_MAP` -/
def MONTH_MAP : List JString :=
  ["jan", "feb", "mar", "apr", "may", "jun", "jul", "aug", "sep", "oct", "nov", "dec"].map lit

/-- `parseMonth`; `toLowerCase` is that of the default locale. -/
def parseMonth (toLowerCase : JString → JString) (token : JString) : Option ℕ :=
  if 3 ≤ token.length then
    let key := toLowerCase (token.take 3)
    if key ∈ MONTH_MAP then some (MONTH_MAP.idxOf key) else none
  else none

def parseYear (token : JString) : Option ℕ := (leadingNumber 2 4 token).map Prod.fst

/-! ## Parsing -/

/-- The variables of `parse`. -/
structure Fields where
  time : Option Time
  dayOfMonth : Option ℕ
  month : Option ℕ
  year : Option ℕ
deriving DecidableEq

/-- A field that is missing yet, if `parsed` is there to fill it. -/
def missing {α : Type} (field parsed : Option α) : Option α :=
  if field.isNone then parsed else none

/-- A turn of the loop over the tokens. -/
def readToken (toLowerCase : JString → JString) (f : Fields) (token : JString) : Fields :=
  if token = [] then f
  else
    match missing f.time (parseTime token) with
    | some time => { f with time := some time }
    | none =>
      match missing f.dayOfMonth (parseDayOfMonth token) with
      | some dayOfMonth => { f with dayOfMonth := some dayOfMonth }
      | none =>
        match missing f.month (parseMonth toLowerCase token) with
        | some month => { f with month := some month }
        | none =>
          match missing f.year (parseYear token) with
          | some year => { f with year := some year }
          | none => f

/-- A year of two digits is one of the hundred from 1970 on. -/
def fullYear (year : ℕ) : ℕ :=
  if 70 ≤ year ∧ year ≤ 99 then year + 1900 else if year ≤ 69 then year + 2000 else year

/-- The day number of the first of January 1970. -/
def epochDay : ℤ := Calendar.daysBeforeYear 1970

/-- `getTimeInMillis` of a calendar in UTC that has been set; an invalid day is an exception. -/
def getTimeInMillis (year month dayOfMonth : ℕ) (time : Time) : Option ℤ :=
  if h : month < 12 ∧ 1 ≤ dayOfMonth ∧ dayOfMonth ≤ Calendar.daysInMonth year month then
    let date : Calendar.Date := ⟨year, month, dayOfMonth, h.1, h.2.1, h.2.2⟩
    let hours := (date.dayNumber - epochDay) * 24 + time.hour
    some (((hours * 60 + time.minute) * 60 + time.second) * 1000)
  else none

structure ParseException where
  message : String
  errorOffset : ℕ
deriving DecidableEq

/-- `parse` after the loop. -/
def resultOf (f : Fields) : Except ParseException ℤ :=
  match f.time, f.dayOfMonth, f.month, f.year.map fullYear with
  | some time, some dayOfMonth, some month, some year =>
      if dayOfMonth < 1 ∨ 31 < dayOfMonth ∨ year < 1601 ∨ 23 < time.hour ∨ 59 < time.minute ∨
          59 < time.second then
        .error ⟨"Error parsing date", 0⟩
      else
        match getTimeInMillis year month dayOfMonth time with
        | some result => .ok result
        | none => .error ⟨"Error parsing date", 0⟩
  | _, _, _, _ => .error ⟨"Error parsing date", 0⟩

def parse (toLowerCase : JString → JString) (date : JString) : Except ParseException ℤ :=
  resultOf ((splitRuns isDelimiter date).foldl (readToken toLowerCase) ⟨none, none, none, none⟩)

end JavaFx.Web.DateParser
