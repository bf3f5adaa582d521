import RebolScan.Calendar.Time

/-!
# Dates

A date is a day of the Gregorian calendar, with a time of day and a zone where they are known. It is
written day first, `1-Jan-2021/10:00:00-5:00`.
-/

set_option autoImplicit false

namespace RebolScan

/-- An offset from UTC in minutes. -/
structure Zone where
  minutes : Int
deriving DecidableEq, Repr

namespace Zone

/-- The farthest offset: fifteen hours. -/
def maxMinutes : Nat := 15 * 60

/-- The zone of an offset: a multiple of a quarter of an hour, no farther than `maxMinutes`. -/
def ofMinutes? (minutes : Int) : Option Zone :=
  if minutes.natAbs ≤ maxMinutes ∧ minutes % 15 = 0 then some ⟨minutes⟩ else none

/-- Sign, hours, and minutes in two digits. -/
def text (z : Zone) : String :=
  let n := z.minutes.natAbs
  (if z.minutes < 0 then "-" else "+") ++ toString (n / 60) ++ ":" ++ Time.padded 2 (n % 60)

end Zone

/-- A day, counted from 1 in its month, which is counted from 1 in its year. -/
structure Date where
  year : Int
  month : Nat
  day : Nat
  time : Option Time
  zone : Option Zone
deriving DecidableEq, Repr

namespace Date

/-- The months in English. -/
def monthNames : List String :=
  ["January", "February", "March", "April", "May", "June", "July", "August", "September",
   "October", "November", "December"]

/-- Every fourth year but the full centuries, of which every fourth is a leap year. -/
def isLeapYear (year : Int) : Bool := (year % 4 == 0 && year % 100 != 0) || year % 400 == 0

/-- The days of a month; none for a month that is not there. -/
def daysInMonth? (year : Int) (month : Nat) : Option Nat :=
  match month with
  | 2 => some (if isLeapYear year then 29 else 28)
  | 4 | 6 | 9 | 11 => some 30
  | 1 | 3 | 5 | 7 | 8 | 10 | 12 => some 31
  | _ => none

/-- The day, if the calendar has it. -/
def ofDay? (year : Int) (month day : Nat) : Option Date :=
  match daysInMonth? year month with
  | some last => if 1 ≤ day ∧ day ≤ last then some ⟨year, month, day, none, none⟩ else none
  | none => none

/-- The first three letters of a month's name. -/
def monthText (month : Nat) : String :=
  match month with
  | 0 => "???"
  | m + 1 =>
    match monthNames[m]? with
    | some name => String.ofList (name.toList.take 3)
    | none => "???"

/-- Day, month and year, then the time after a slash, then the zone. -/
def text (d : Date) : String :=
  toString d.day ++ "-" ++ monthText d.month ++ "-" ++ toString d.year
    ++ (match d.time with | some t => "/" ++ t.text | none => "")
    ++ (match d.zone with | some z => z.text | none => "")

end Date

end RebolScan
