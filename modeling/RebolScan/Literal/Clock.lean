import RebolScan.Calendar.Date
import RebolScan.Literal.Number

/-!
# Time and date literals

A time is `H:M`, `H:M:S` or, with a fraction after two numbers, `M:S.frac`; hours may be missing as
in `:30`, and `AM` or `PM` may follow. A fraction is cut after the ninth digit.

A date is day first or year first, its three parts between two equal separators; two-digit years
fall into the hundred years from 1950. A time may follow after a slash or a space, and a zone after
that.

The readers take what is left of the text and give back what they leave of it.
-/

set_option autoImplicit false

namespace RebolScan.Literal

open Ascii

/-- The letters at the front of `s`. -/
def letters (s : Bytes) : Bytes := s.takeWhile isLetter

/-- The digits at the front of `s`. -/
def digits (s : Bytes) : Bytes := s.takeWhile isDigit

def afterDigits (s : Bytes) : Bytes := s.dropWhile isDigit

/-! ## Times -/

/-- The numbers of a written time, the fraction in nanoseconds. -/
structure ClockText where
  first : Nat
  second : Nat
  third : Option Nat
  fraction : Option Nat
deriving DecidableEq, Repr

/-- The digits of a fraction of a second as nanoseconds. -/
def fractionNanos (ds : Bytes) : Nat :=
  let kept := ds.take 9
  decimalValue kept * Nat.pow 10 (9 - kept.length)

/-- A third number after a colon, if a colon is there. -/
def thirdNumber? (s : Bytes) : Option (Option Nat × Bytes) :=
  if byteAt s 0 == colon then
    let ds := digits (s.drop 1)
    if ds.isEmpty then none else some (some (decimalValue ds), afterDigits (s.drop 1))
  else some (none, s)

/-- A fraction after a point or comma, if one is there. -/
def fraction? (s : Bytes) : Option (Option Nat × Bytes) :=
  if byteAt s 0 == period || byteAt s 0 == comma then
    let ds := digits (s.drop 1)
    if ds.isEmpty then none else some (some (fractionNanos ds), afterDigits (s.drop 1))
  else some (none, s)

/-- The hour that `AM` or `PM` at the front of `s` makes of a twelve-hour one, and what follows; no
hour above twelve may carry either. -/
def meridian? (hour : Nat) (s : Bytes) : Option (Nat × Bytes) :=
  let half := toUpper (byteAt s 0)
  if (half == 0x41 || half == 0x50) && toUpper (byteAt s 1) == 0x4D then
    if 12 < hour then none
    else some (if half == 0x50 then (if hour == 12 then 12 else hour + 12)
      else if hour == 12 then 0 else hour, s.drop 2)
  else some (hour, s)

/-- The numbers at the front of `s`, which no sign starts. -/
def clockText? (s : Bytes) : Option (ClockText × Bytes) := do
  let first := decimalValue (digits s)
  let s := afterDigits s
  guard (byteAt s 0 == colon)
  let ds := digits (s.drop 1)
  guard (!ds.isEmpty)
  let second := decimalValue ds
  let (third, s) ← thirdNumber? (afterDigits (s.drop 1))
  let (fraction, s) ← fraction? s
  let (first, s) ← meridian? first s
  return ({ first, second, third, fraction }, s)

/-- The nanoseconds of a written time. With two numbers and a fraction they are minutes and seconds,
and otherwise hours and minutes come first. -/
def ClockText.nanos? (c : ClockText) : Option Nat :=
  let seconds := c.third.getD 0
  let n :=
    -- `1:30.5` counts minutes and seconds, `1:30` hours and minutes.
    if c.third.isSome || c.fraction.isNone then
      c.first * Time.nanosPerHour + c.second * Time.nanosPerMinute + seconds * Time.nanosPerSecond
    else c.first * Time.nanosPerMinute + c.second * Time.nanosPerSecond
  let n := n + c.fraction.getD 0
  if c.second ≤ 59 && seconds ≤ 59 && fitsInt64 n then some n else none

/-- The time at the front of `s` and what follows it. -/
def timeFront? (s : Bytes) : Option (Time × Bytes) := do
  let (negative, s) := splitSign s
  guard (byteAt s 0 != plus && byteAt s 0 != minus)
  let (clock, s) ← clockText? s
  let nanos ← clock.nanos?
  return (⟨if negative then -(nanos : Int) else nanos⟩, s)

/-- A whole text as a time. -/
def time? (text : Bytes) : Option Time :=
  match timeFront? text with
  | some (t, []) => some t
  | _ => none

/-! ## Dates -/

/-- The last year of a date literal. -/
def maxYear : Nat := 0x3FFF

/-- The month that a name of three letters or more starts, in any case. -/
def monthOfName? (name : Bytes) : Option Nat :=
  if name.length < 3 then none
  else
    let starts := fun month : String =>
      let full := month.toList.map (·.toUInt8)
      name.length ≤ full.length && sameIgnoringCase (full.take name.length) name
    (Date.monthNames.findIdx? starts).map (· + 1)

/-- A month by number or by name at the front of `s`, and what follows it. -/
def month? (s : Bytes) : Option (Nat × Bytes) :=
  let ds := digits s
  if ds.isEmpty then (monthOfName? (letters s)).map fun m => (m, s.dropWhile isLetter)
  else some (decimalValue ds, afterDigits s)

/-- The year that the last digits of a day-first date stand for. -/
def writtenYear (ds : Bytes) : Nat :=
  let n := decimalValue ds
  if 3 ≤ ds.length then n else if 50 ≤ n then 1900 + n else 2000 + n

/-- A weekday with its comma is skipped. -/
def skipWeekday (s : Bytes) : Bytes :=
  let n := (letters s).length
  if 0 < n && byteAt s n == comma then s.drop (n + 1) else s

/-- The day at the front of `s` and what follows it. Up to three digits in front are a day, and more
are a year. -/
def day? (s : Bytes) : Option (Date × Bytes) := do
  let lead := digits s
  guard (!lead.isEmpty)
  let s := afterDigits s
  let separator := byteAt s 0
  guard (separator == slash || separator == minus || separator == period || separator == space)
  let (month, s) ← month? (s.drop 1)
  guard (byteAt s 0 == separator)
  let last := digits (s.drop 1)
  guard (!last.isEmpty)
  let s := afterDigits (s.drop 1)
  -- Year first or day first: the length of the first number tells.
  let (year, day) :=
    if lead.length ≤ 3 then (writtenYear last, decimalValue lead)
    else (decimalValue lead, decimalValue last)
  guard (year ≤ maxYear)
  let date ← Date.ofDay? year month day
  return (date, s)

/-- The time of day after a slash or a space, if anything follows that. -/
def timeOfDay? (s : Bytes) : Option (Option Time × Bytes) :=
  if byteAt s 0 == slash || byteAt s 0 == space then
    if (s.drop 1).isEmpty then some (none, [])
    else
      match timeFront? (s.drop 1) with
      | some (t, s) => if t.isTimeOfDay then some (some t, s) else none
      | none => none
  else some (none, s)

/-- The minutes of a written zone without its sign: `H`, `HH`, `HMM`, `HHMM` or `H:M`. -/
def zoneMinutes? (s : Bytes) : Option (Nat × Bytes) :=
  let ds := digits s
  let n := decimalValue ds
  let s := afterDigits s
  if ds.isEmpty || 4 < ds.length then none
  else if byteAt s 0 == colon then
    let ms := digits (s.drop 1)
    if ms.isEmpty || 59 < decimalValue ms then none
    else some (n * 60 + decimalValue ms, afterDigits (s.drop 1))
  else if ds.length ≤ 2 then some (n * 60, s)
  else if 59 < n % 100 then none
  else some (n / 100 * 60 + n % 100, s)

/-- The zone after a sign, if a sign is there. -/
def zone? (s : Bytes) : Option (Option Zone × Bytes) :=
  let sign := byteAt s 0
  if sign == plus || sign == minus then do
    let (n, s) ← zoneMinutes? (s.drop 1)
    let zone ← Zone.ofMinutes? (if sign == minus then -(n : Int) else n)
    return (some zone, s)
  else some (none, s)

/-- A whole text as a date. -/
def date? (text : Bytes) : Option Date := do
  let (date, s) ← day? (skipWeekday text)
  let (time, s) ← timeOfDay? s
  let (zone, s) ← zone? s
  guard s.isEmpty
  return { date with time, zone }

end RebolScan.Literal
