/-!
# Times

A time is a signed number of nanoseconds: a time of day, or a duration of any sign and length. It is
written as hours, minutes and seconds, `-1:02:03.5`, with no more of the fraction than is needed.
-/

set_option autoImplicit false

namespace RebolScan

/-- A duration, or a time of day, in nanoseconds. -/
structure Time where
  nanos : Int
deriving DecidableEq, Repr

namespace Time

def nanosPerSecond : Nat := 1000000000

def nanosPerMinute : Nat := 60 * nanosPerSecond

def nanosPerHour : Nat := 60 * nanosPerMinute

def nanosPerDay : Nat := 24 * nanosPerHour

/-- The time of so many hours, minutes, seconds and nanoseconds, all of any size and sign. -/
def ofParts (hours minutes seconds nanos : Int) : Time :=
  ⟨hours * nanosPerHour + minutes * nanosPerMinute + seconds * nanosPerSecond + nanos⟩

def negate (t : Time) : Time := ⟨-t.nanos⟩

/-- A time of day: from midnight to just before the next. -/
def isTimeOfDay (t : Time) : Bool := 0 ≤ t.nanos && t.nanos < nanosPerDay

/-- The decimal digits of `n`, with zeros in front up to `width`. -/
def padded (width n : Nat) : String :=
  let digits := toString n
  String.ofList (List.replicate (width - digits.length) '0') ++ digits

/-- A fraction of a second in nanoseconds, as the digits after the point; nothing for none. -/
def fractionText (nanos : Nat) : String :=
  if nanos == 0 then ""
  else
    let digits := (padded 9 nanos).toList
    "." ++ String.ofList ((digits.reverse.dropWhile (· == '0')).reverse)

/-- Hours, minutes and seconds, minutes and seconds in two digits each. -/
def text (t : Time) : String :=
  let total := t.nanos.natAbs
  let sign := if t.nanos < 0 then "-" else ""
  let hours := total / nanosPerHour
  let minutes := total / nanosPerMinute % 60
  let seconds := total / nanosPerSecond % 60
  sign ++ toString hours ++ ":" ++ padded 2 minutes ++ ":" ++ padded 2 seconds
    ++ fractionText (total % nanosPerSecond)

end Time

end RebolScan
