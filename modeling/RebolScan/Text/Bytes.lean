import RebolScan.Text.Ascii

/-!
# Source bytes

Source text is a list of bytes; nothing promises that it is valid UTF-8. Two conventions hold for
the whole library:

* a position past the end reads as byte 0, the end-of-input byte (`byteAt`);
* a range `start, stop` is half open and is cut to the text it is taken from (`between`).

Scanning works on *what is left* of the source, so most functions take the rest of the text and say
how many bytes of it they used.
-/

set_option autoImplicit false

namespace RebolScan

/-- Bytes of source text, or of a part of it. -/
abbrev Bytes := List UInt8

/-- The byte `i` places into `s`, and 0 past its end. -/
def byteAt (s : Bytes) (i : Nat) : UInt8 := s.getD i 0

@[simp] theorem byteAt_nil (i : Nat) : byteAt [] i = 0 := by simp [byteAt]

@[simp] theorem byteAt_cons_zero (b : UInt8) (s : Bytes) : byteAt (b :: s) 0 = b := by simp [byteAt]

@[simp] theorem byteAt_cons_succ (b : UInt8) (s : Bytes) (i : Nat) :
    byteAt (b :: s) (i + 1) = byteAt s i := by simp [byteAt]

/-- Reading past a dropped front is reading further along. -/
theorem byteAt_drop (s : Bytes) (n i : Nat) : byteAt (s.drop n) i = byteAt s (n + i) := by
  simp [byteAt, List.getD_eq_getElem?_getD]

/-- A byte of a class is none that is not of the class. -/
theorem beq_false_of_class {p : UInt8 → Bool} {b c : UInt8} (hb : p b = true) (hc : p c = false) :
    (b == c) = false := by
  apply beq_false_of_ne
  rintro rfl
  rw [hb] at hc
  cases hc

/-- The bytes from `start` up to, not including, `stop`. -/
def between (s : Bytes) (start stop : Nat) : Bytes := (s.drop start).take (stop - start)

/-- The bytes of a UTF-8 byte order mark. -/
def byteOrderMark : Bytes := [0xEF, 0xBB, 0xBF]

/-- How many bytes a byte order mark takes in front of `source`: three or none. -/
def byteOrderMarkLength (source : Bytes) : Nat :=
  if byteOrderMark.isPrefixOf source then byteOrderMark.length else 0

/-- The size to which a buffer of `n` source bytes is rounded up: whole blocks of 64 bytes, with
room for one zero byte at least. -/
def paddedLength (n : Nat) : Nat := (n + 64) / 64 * 64

/-- `source` as a buffer holds it: with the zero byte that ends it, and zeros up to the next block.
-/
def paddedSource (source : Bytes) : Bytes :=
  source ++ List.replicate (paddedLength source.length - source.length) 0

/-- Equality of two texts whose ASCII letters may differ in case. -/
def sameIgnoringCase (a b : Bytes) : Bool := a.map Ascii.toUpper == b.map Ascii.toUpper

/-- `s` without the blanks at its two ends. -/
def trimBlanks (s : Bytes) : Bytes :=
  ((s.dropWhile Ascii.isBlank).reverse.dropWhile Ascii.isBlank).reverse

/-- `s` without `lead` in front, when it starts so. -/
def dropLead? (lead s : Bytes) : Option Bytes :=
  if lead.isPrefixOf s then some (s.drop lead.length) else none

/-- `s` without the byte `b` at its end, when it ends so. -/
def dropLast? (b : UInt8) (s : Bytes) : Option Bytes :=
  if s.getLast? == some b then some s.dropLast else none

end RebolScan
