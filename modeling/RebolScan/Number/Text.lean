import RebolScan.Number.Shortest

/-!
# Decimal texts of floating-point numbers

Three texts are in use. Plain text is positional throughout, with no point where the number is
whole. Full text always shows that the number is not an integer: a whole number has `.0`, and
numbers far from 1 have an exponent. Amounts have a fixed number of places, rounded from the exact
value, a tie to the even digit. A sign shows on negative zero too.
-/

set_option autoImplicit false

namespace RebolScan

/-- How the shortest digits of a number are laid out. -/
structure NumberLayout where
  /-- the exponents of the leading digit that are written positionally, from the first up to, not
  including, the second; without them all are -/
  positional : Option (Int × Int)
  /-- a whole number has `.0` behind it -/
  pointZero : Bool
deriving DecidableEq, Repr

namespace NumberLayout

/-- Plain text. -/
def plain : NumberLayout := ⟨none, false⟩

/-- Full text: an exponent below a ten-thousandth and from ten to the sixteenth on. -/
def full : NumberLayout := ⟨some (-4, 16), true⟩

def zeros (n : Nat) : List Char := List.replicate n '0'

/-- The digits with the point after the first `whole` of them, where `whole` may be none or more
than there are. -/
def positionalText (layout : NumberLayout) (digits : List Char) (whole : Int) : List Char :=
  if whole ≤ 0 then ['0', '.'] ++ zeros (-whole).toNat ++ digits
  else if digits.length ≤ whole.toNat then
    digits ++ zeros (whole.toNat - digits.length) ++ (if layout.pointZero then ['.', '0'] else [])
  else digits.take whole.toNat ++ '.' :: digits.drop whole.toNat

/-- The first digit, a point before the others if there are any, and the exponent. -/
def exponentText (digits : List Char) (exponent : Int) : List Char :=
  digits.take 1 ++ (if digits.length ≤ 1 then [] else '.' :: digits.drop 1)
    ++ 'e' :: (toString exponent).toList

/-- The text of a decimal without sign. Zeros at the end of its digits do not show. -/
def decimalText (layout : NumberLayout) (d : Decimal) : List Char :=
  let all := Nat.toDigits 10 d.digits
  let digits := (all.reverse.dropWhile (· == '0')).reverse
  let whole : Int := (all.length : Int) + d.exponent
  match layout.positional with
  | none => positionalText layout digits whole
  | some (first, last) =>
    if first ≤ whole - 1 && whole - 1 < last then positionalText layout digits whole
    else exponentText digits (whole - 1)

/-- The text of a number's magnitude. -/
def magnitudeText (layout : NumberLayout) (x : Binary64) : List Char :=
  if x.m == 0 then positionalText layout ['0'] 1 else decimalText layout x.shortest

/-- The text of a floating-point number. -/
def text (layout : NumberLayout) (x : Float) : String :=
  let sign := if Binary64.isNegative x.toBits then ['-'] else []
  if x.isNaN then "NaN"
  else if x.isFinite then
    String.ofList (sign ++ layout.magnitudeText (Binary64.ofBits x.toBits))
  else String.ofList (sign ++ ['i', 'n', 'f'])

end NumberLayout

/-- The text of a number with so many places after the point. -/
def fixedText (places : Nat) (x : Float) : String :=
  let sign := if Binary64.isNegative x.toBits then "-" else ""
  let b := Binary64.ofBits x.toBits
  let (num, den) := Binary64.fraction b.m b.q places
  let digits := Nat.toDigits 10 (roundQuotient .toEven num den)
  let digits := NumberLayout.zeros (places + 1 - digits.length) ++ digits
  let whole := digits.length - places
  if x.isFinite then
    sign ++ String.ofList (digits.take whole ++ '.' :: digits.drop whole)
  else NumberLayout.plain.text x

end RebolScan
