import RebolScan.Literal.Number

/-!
# Binary text in bases 2, 16 and 64

Bytes are written as digits: eight of base 2 or two of base 16 for a byte, and four of base 64 for
three bytes, filled up with `=` at the end. Reading passes over white space in every base and takes
hexadecimal digits of either case; it refuses a digit of another base and a last group that is not
complete.
-/

set_option autoImplicit false

namespace RebolScan

open Ascii

/-- A base that binary text is written in. -/
inductive Radix
  | two
  | sixteen
  | sixtyFour
deriving DecidableEq, Repr

namespace Radix

/-- The base as a number. -/
def toNat : Radix → Nat
  | .two => 2
  | .sixteen => 16
  | .sixtyFour => 64

def ofNat? : Nat → Option Radix
  | 2 => some .two
  | 16 => some .sixteen
  | 64 => some .sixtyFour
  | _ => none

/-! ## Reading -/

/-- The value of a digit of base 2. -/
def bit? (b : UInt8) : Option Nat :=
  if b == 0x30 then some 0 else if b == 0x31 then some 1 else none

/-- The value of a digit of base 64: capitals, small letters, decimal digits, `+` and `/`. -/
def sextet? (b : UInt8) : Option Nat :=
  if isUpper b then some (b.toNat - 0x41)
  else if isLower b then some (b.toNat - 0x61 + 26)
  else if isDigit b then some (digitValue b + 52)
  else if b == plus then some 62
  else if b == slash then some 63
  else none

/-- Packs bits, eight to a byte, onto the bytes packed so far, newest first. -/
def packBits : List Nat → Bytes → Option Bytes
  | [], packed => some packed.reverse
  | a :: b :: c :: d :: e :: f :: g :: h :: rest, packed =>
    let n := ((((((a * 2 + b) * 2 + c) * 2 + d) * 2 + e) * 2 + f) * 2 + g) * 2 + h
    packBits rest (n.toUInt8 :: packed)
  | _, _ => none

/-- Packs hexadecimal digits, two to a byte. -/
def packNibbles : List Nat → Bytes → Option Bytes
  | [], packed => some packed.reverse
  | hi :: lo :: rest, packed => packNibbles rest ((hi * 16 + lo).toUInt8 :: packed)
  | [_], _ => none

/-- The three bytes of a number of 24 bits. -/
def threeBytes (n : Nat) : Bytes := [(n / 65536).toUInt8, (n / 256).toUInt8, n.toUInt8]

/-- Packs sextets, four to three bytes. Two or three that are left at the end make one or two bytes
more. -/
def packSextets : List Nat → Bytes → Option Bytes
  | [], packed => some packed.reverse
  | [a, b], packed => some (packed.reverse ++ (threeBytes ((a * 64 + b) * 4096)).take 1)
  | [a, b, c], packed => some (packed.reverse ++ (threeBytes (((a * 64 + b) * 64 + c) * 64)).take 2)
  | a :: b :: c :: d :: rest, packed =>
    packSextets rest ((threeBytes (((a * 64 + b) * 64 + c) * 64 + d)).reverse ++ packed)
  | [_], _ => none

/-- Base 64: digits, and then nothing but `=`, which fill the last group up to four. -/
def decodeSextets (digits : Bytes) : Option Bytes := do
  let data := digits.takeWhile (· != equal)
  let fill := digits.dropWhile (· != equal)
  guard (fill.all (· == equal))
  let sextets ← data.mapM sextet?
  guard (fill.isEmpty || sextets.length % 4 + fill.length == 4)
  packSextets sextets []

/-- The bytes that `text` spells, read up to the first `delimiter` if there is one. -/
def decode (base : Radix) (delimiter : Option UInt8) (text : Bytes) : Option Bytes :=
  let text := match delimiter with
    | some d => text.takeWhile (· != d)
    | none => text
  let digits := text.filter fun b => !isAnySpace b
  match base with
  | .two => do packBits (← digits.mapM bit?) []
  | .sixteen => do packNibbles (← digits.mapM hexDigit?) []
  | .sixtyFour => decodeSextets digits

/-! ## Writing -/

/-- The digit of base 16 for a value, a capital from ten on. -/
def nibbleDigit (n : Nat) : UInt8 := (if n < 10 then 0x30 + n else 0x41 + (n - 10)).toUInt8

/-- The digit of base 64 for a value. -/
def sextetDigit (n : Nat) : UInt8 :=
  if n < 26 then (0x41 + n).toUInt8
  else if n < 52 then (0x61 + (n - 26)).toUInt8
  else if n < 62 then (0x30 + (n - 52)).toUInt8
  else if n == 62 then plus
  else slash

/-- The eight bits of a byte, the highest first. -/
def bitDigits (b : UInt8) : Bytes :=
  [128, 64, 32, 16, 8, 4, 2, 1].map fun w : Nat => (0x30 + b.toNat / w % 2).toUInt8

def nibbleDigits (b : UInt8) : Bytes := [nibbleDigit (b.toNat / 16), nibbleDigit (b.toNat % 16)]

/-- The first `n` digits of base 64 of a number of 24 bits. -/
def sextetDigits (n value : Nat) : Bytes :=
  ([262144, 4096, 64, 1].take n).map fun w : Nat => sextetDigit (value / w % 64)

/-- Groups of three bytes in base 64, put onto the digits so far, newest first. -/
def encodeSextets : Bytes → Bytes → Bytes
  | [], written => written.reverse
  | [a], written => written.reverse ++ sextetDigits 2 (a.toNat * 65536) ++ [equal, equal]
  | [a, b], written =>
    written.reverse ++ sextetDigits 3 (a.toNat * 65536 + b.toNat * 256) ++ [equal]
  | a :: b :: c :: rest, written =>
    encodeSextets rest
      ((sextetDigits 4 (a.toNat * 65536 + b.toNat * 256 + c.toNat)).reverse ++ written)

/-- A line feed after every `width` digits but the last; none if `width` is 0. -/
def breakLines (width : Nat) (digits : Bytes) : Bytes :=
  digits.zipIdx.flatMap fun (d, i) => if 0 < i && i % width == 0 then [lineFeed, d] else [d]

/-- The digits that spell `bytes`, broken into lines of `width` digits unless that is 0. -/
def encode (base : Radix) (width : Nat) (bytes : Bytes) : Bytes :=
  breakLines width (match base with
    | .two => bytes.flatMap bitDigits
    | .sixteen => bytes.flatMap nibbleDigits
    | .sixtyFour => encodeSextets bytes [])

end Radix

namespace Literal

/-- The base written in front of `#` in a binary literal; none written is 16. A plus sign may stand
before it. -/
def writtenRadix? (lead : Bytes) : Option Radix :=
  if lead.isEmpty then some .sixteen
  else
    let ds := if byteAt lead 0 == plus then lead.drop 1 else lead
    if !ds.isEmpty && ds.all isDigit then Radix.ofNat? (decimalValue ds) else none

/-- A base, `#`, and digits between braces. -/
def binary? (text : Bytes) : Option Bytes := do
  let opening ← text.idxOf? braceOpen
  let base ← writtenRadix? (← dropLast? pound (text.take opening))
  let body := text.drop (opening + 1)
  guard (body.idxOf? braceClose == some (body.length - 1))
  base.decode (some braceClose) body

end Literal

end RebolScan
