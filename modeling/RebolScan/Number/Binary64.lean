/-!
# Floating-point numbers as exact fractions

A finite 64-bit floating-point number is `m * 2 ^ q` for naturals `m` and integers `q`, with a sign.
All of its decimal texts are made from that by exact arithmetic on naturals.
-/

set_option autoImplicit false

namespace RebolScan

/-- The magnitude of a finite floating-point number, `m * 2 ^ q`. -/
structure Binary64 where
  m : Nat
  q : Int
  /-- the number below is half as far away as the number above -/
  narrowBelow : Bool
deriving DecidableEq, Repr

namespace Binary64

/-- The magnitude that the bits of a finite number spell. -/
def ofBits (bits : UInt64) : Binary64 :=
  let e : Nat := bits.toNat / Nat.pow 2 52 % Nat.pow 2 11
  let f : Nat := bits.toNat % Nat.pow 2 52
  if e == 0 then ⟨f, -1074, false⟩ else ⟨Nat.pow 2 52 + f, (e : Int) - 1075, f == 0 && 1 < e⟩

/-- The sign bit. -/
def isNegative (bits : UInt64) : Bool := bits.toNat / Nat.pow 2 63 == 1

/-- `a * 2 ^ i * 10 ^ j` as a fraction. -/
def fraction (a : Nat) (i j : Int) : Nat × Nat :=
  (a * Nat.pow 2 i.toNat * Nat.pow 10 j.toNat, Nat.pow 2 (-i).toNat * Nat.pow 10 (-j).toNat)

/-- Compares `a * 10 ^ i` with `n * 2 ^ j`. -/
def compareDecimal (a : Nat) (i : Int) (n : Nat) (j : Int) : Ordering :=
  compare (a * Nat.pow 10 i.toNat * Nat.pow 2 (-j).toNat)
    (n * Nat.pow 2 j.toNat * Nat.pow 10 (-i).toNat)

end Binary64

/-- How a quotient that lies half way between two numbers is rounded. -/
inductive Tie
  | toEven
  | up
deriving DecidableEq, Repr

/-- The whole number nearest to `num / den`. -/
def roundQuotient (tie : Tie) (num den : Nat) : Nat :=
  let whole := num / den
  match compare (2 * (num % den)) den, tie with
  | .lt, _ => whole
  | .gt, _ => whole + 1
  | .eq, .up => whole + 1
  | .eq, .toEven => if whole % 2 == 0 then whole else whole + 1

end RebolScan
