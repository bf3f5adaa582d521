import RebolScan.Text.Alphabet

/-!
# Number literals

Integers, decimals, percents, amounts of money, pairs and tuples. Each reader takes the whole text
of a token and converts all of it or refuses. Ticks between digits are separators and count for
nothing, and a comma may stand for the decimal point.

Integers are exact and must fit 64 bits with sign. Decimals are rounded to the nearest
floating-point number, a tie to the even one, and refused where that is not finite.
-/

set_option autoImplicit false

namespace RebolScan.Literal

open Ascii

/-- The value of a run of decimal digits. -/
def decimalValue (digits : Bytes) : Nat := digits.foldl (fun v b => v * 10 + digitValue b) 0

/-- The range of a 64-bit integer with sign. -/
def fitsInt64 (n : Int) : Bool := -0x8000000000000000 ≤ n && n < 0x8000000000000000

/-- Takes a sign off the front; true for minus. -/
def splitSign : Bytes → Bool × Bytes
  | [] => (false, [])
  | b :: rest =>
    if b == minus then (true, rest) else if b == plus then (false, rest) else (false, b :: rest)

/-- A digit, or the separator that may stand between digits. -/
def isDigitOrTick (b : UInt8) : Bool := isDigit b || b == tick

/-- The digits at the front of `s`, ticks left out, and what follows them. -/
def digitRun (s : Bytes) : Bytes × Bytes :=
  ((s.takeWhile isDigitOrTick).filter isDigit, s.dropWhile isDigitOrTick)

/-- A sign, a digit, and then digits and ticks. -/
def integer? (text : Bytes) : Option Int :=
  let (negative, digits) := splitSign text
  if isDigit (byteAt digits 0) && digits.all isDigitOrTick then
    let magnitude : Int := decimalValue (digits.filter isDigit)
    let n := if negative then -magnitude else magnitude
    if fitsInt64 n then some n else none
  else none

/-! ## Decimals -/

/-- A decimal in the form in which it is written: digits before and after the point, and a power of
ten. -/
structure DecimalText where
  negative : Bool
  whole : Bytes
  fraction : Bytes
  exponent : Int
deriving DecidableEq, Repr

/-- The exponent at the front of `s`: nothing, or `e` with a sign and digits, to the end. -/
def exponent? (s : Bytes) : Option Int :=
  match s with
  | [] => some 0
  | b :: rest =>
    if b == letterE || b == capitalE then
      let (negative, rest) := splitSign rest
      let (digits, rest) := digitRun rest
      if digits.isEmpty || !rest.isEmpty then none
      else
        let n : Int := decimalValue digits
        some (if negative then -n else n)
    else none

/-- The parts of a decimal. Digits may be missing on one side of the point, not on both. -/
def decimalText? (text : Bytes) : Option DecimalText :=
  let (negative, rest) := splitSign text
  let (whole, rest) := digitRun rest
  let point := byteAt rest 0
  let (fraction, rest) :=
    if point == period || point == comma then digitRun (rest.drop 1) else ([], rest)
  if whole.isEmpty && fraction.isEmpty then none
  else (exponent? rest).map fun exponent => { negative, whole, fraction, exponent }

/-- The floating-point number nearest to a written decimal. -/
def DecimalText.toFloat (d : DecimalText) : Float :=
  let e : Int := d.exponent - d.fraction.length
  let x := Float.ofScientific (decimalValue (d.whole ++ d.fraction)) (e < 0) e.natAbs
  if d.negative then -x else x

/-- A sign, digits with a point or comma, and an exponent. -/
def decimal? (text : Bytes) : Option Float :=
  match decimalText? text with
  | some d =>
    let x := d.toFloat
    if x.isFinite then some x else none
  | none => none

/-- A decimal before a percent sign, as a fraction of one. -/
def percent? (text : Bytes) : Option Float :=
  match dropLast? percent text with
  | some body => (decimal? body).map (· / 100)
  | none => none

/-- A sign, a dollar sign, and a decimal without a sign of its own. -/
def money? (text : Bytes) : Option Float :=
  let (negative, rest) := splitSign text
  match dropLead? [dollar] rest with
  | some body =>
    if byteAt body 0 == plus || byteAt body 0 == minus then none
    else (decimal? body).map fun x => if negative then -x else x
  | none => none

/-- Two decimals with an `x` of either case between them. -/
def pair? (text : Bytes) : Option (Float × Float) :=
  let isCross := fun b : UInt8 => b == letterX || b == capitalX
  match text.findIdx? isCross with
  | some i =>
    match decimal? (text.take i), decimal? (text.drop (i + 1)) with
    | some x, some y => some (x, y)
    | _, _ => none
  | none => none

/-! ## Tuples -/

/-- The parts of a text between its separators; one more than there are separators. -/
def parts (separator : UInt8) : Bytes → List Bytes
  | [] => [[]]
  | b :: rest =>
    match parts separator rest with
    | [] => [[b]]
    | p :: ps => if b == separator then [] :: p :: ps else (b :: p) :: ps

/-- The fewest parts of a tuple; shorter ones are filled up with zeros. -/
def minTuple : Nat := 3

/-- The most parts of a tuple. -/
def maxTuple : Nat := 10

/-- A part of a tuple: up to three digits below 256; no digits are 0. -/
def tuplePart? (part : Bytes) : Option Nat :=
  if part.length ≤ 3 && part.all isDigit && decimalValue part < 256 then some (decimalValue part)
  else none

/-- Numbers below 256 with points between them. -/
def tuple? (text : Bytes) : Option (List Nat) :=
  let ps := parts period text
  if maxTuple < ps.length then none
  else (ps.mapM tuplePart?).map fun ns => ns ++ List.replicate (minTuple - ns.length) 0

end RebolScan.Literal
