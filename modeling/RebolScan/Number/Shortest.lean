import RebolScan.Number.Binary64

/-!
# The shortest decimal that reads back

Of all decimals that round to a given floating-point number, the shortest is the one with the fewest
digits, and among those the nearest. The search tries one digit, two digits and so on: on each such
grid only the two neighbours of the number can be nearest, and the first grid with a neighbour that
reads back decides. Seventeen digits are always enough.
-/

set_option autoImplicit false

namespace RebolScan

/-- `digits * 10 ^ exponent`. -/
structure Decimal where
  digits : Nat
  exponent : Int
deriving DecidableEq, Repr

namespace Binary64

/-- The decimal is one of those that round to `x`: it lies between the two half-way points around
`x`, which themselves round to it when `m` is even. -/
def readsBack (x : Binary64) (d : Decimal) : Bool :=
  let low := if x.narrowBelow then 4 * x.m - 1 else 4 * x.m - 2
  let high := 4 * x.m + 2
  let closed := x.m % 2 == 0
  let below := compareDecimal d.digits d.exponent low (x.q - 2)
  let above := compareDecimal d.digits d.exponent high (x.q - 2)
  (below == .gt || (closed && below == .eq)) && (above == .lt || (closed && above == .eq))

/-- The least `k` for which `x` is below `10 ^ k`, `x` not being 0. -/
def scale (x : Binary64) : Int :=
  let (num, den) := fraction x.m x.q 0
  if den ≤ num then (Nat.toDigits 10 (num / den)).length
  else
    match (List.range 400).find? fun j => den ≤ num * Nat.pow 10 (j + 1) with
    | some j => -(j : Int)
    | none => -400

/-- The nearer neighbour of `x` on the grid of `10 ^ e` among those that read back; of two that are
equally near the greater. -/
def onGrid? (x : Binary64) (e : Int) : Option Decimal :=
  let (num, den) := fraction x.m x.q (-e)
  let lower : Decimal := ⟨num / den, e⟩
  let upper : Decimal := ⟨num / den + 1, e⟩
  match x.readsBack lower, x.readsBack upper with
  | true, true => if roundQuotient .up num den == lower.digits then some lower else some upper
  | true, false => some lower
  | false, true => some upper
  | false, false => none

/-- The exact value as a decimal. -/
def exact (x : Binary64) : Decimal :=
  if 0 ≤ x.q then ⟨x.m * Nat.pow 2 x.q.toNat, 0⟩ else ⟨x.m * Nat.pow 5 (-x.q).toNat, x.q⟩

/-- The shortest decimal that reads back as `x`, which is not 0. -/
def shortest (x : Binary64) : Decimal :=
  let k := x.scale
  match (List.range 17).findSome? fun n : Nat => x.onGrid? (k - (n + 1)) with
  | some d => d
  | none => x.exact

end Binary64

end RebolScan
