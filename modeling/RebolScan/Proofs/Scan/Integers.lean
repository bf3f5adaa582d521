import RebolScan.Proofs.Literal.Magnitude
import RebolScan.Proofs.Scan.Numeral
import RebolScan.Proofs.Token.Written

/-!
# Integers in a scan

**An integer literal is read exactly, however many digits it has**: it is a sign, a digit, and digits
and ticks, and its value is the number that the digits spell, if 64 bits hold it (`integer?_eq_some`).
Leading zeros and ticks are no matter, and the least number is read although its opposite does not
fit. A register that counts down digit by digit reads the same (`integer?_register`), and what an
integer is written as scans back to it.
-/

set_option autoImplicit false

namespace RebolScan

open Ascii Literal

namespace Literal

/-- The number that a sign and digits spell, ticks left out. -/
def signedValue (sign whole : Bytes) : Int :=
  let n : Int := positional (whole.filter isDigit)
  if sign = [minus] then -n else n

theorem fitsInt64_iff (n : Int) : fitsInt64 n = true ↔ -2 ^ 63 ≤ n ∧ n ≤ 2 ^ 63 - 1 := by
  simp only [fitsInt64, Bool.and_eq_true, decide_eq_true_eq]
  omega

/-- What stands in front of a digit is no part of the sign. -/
theorem splitSign_grouped {sign whole : Bytes} (hsign : IsSign sign) (hwhole : Grouped whole) :
    splitSign (sign ++ whole) = (decide (sign = [minus]), whole) := by
  have hne {b : UInt8} (hb : isDigit b = false) : byteAt whole 0 ≠ b := by
    rintro rfl
    rw [hwhole.first] at hb
    cases hb
  exact splitSign_append hsign (hne rfl) (hne rfl)

/-- What is read of a sign and digits with ticks among them. -/
theorem integer?_grouped {sign whole : Bytes} (hsign : IsSign sign) (hwhole : Grouped whole) :
    integer? (sign ++ whole) =
      if fitsInt64 (signedValue sign whole) then some (signedValue sign whole) else none := by
  have hvalue : (if decide (sign = [minus]) = true then
      -((decimalValue (whole.filter isDigit) : Nat) : Int)
        else (decimalValue (whole.filter isDigit) : Nat)) = signedValue sign whole := by
    rw [decimalValue_eq, signedValue]
    simp only [decide_eq_true_eq]
  rw [integer?, splitSign_grouped hsign hwhole]
  dsimp only
  rw [hwhole.first, List.all_eq_true.2 hwhole.all, hvalue]
  rfl

/-- No other text is an integer. -/
theorem grouped_of_integer? {text : Bytes} {n : Int} (h : integer? text = some n) :
    ∃ sign whole, IsSign sign ∧ Grouped whole ∧ text = sign ++ whole := by
  obtain ⟨sign, hsign, htext, -⟩ := exists_sign text
  rw [integer?] at h
  dsimp only at h
  split at h
  · rename_i hwhole
    rw [Bool.and_eq_true, List.all_eq_true] at hwhole
    exact ⟨sign, _, hsign, ⟨hwhole.1, hwhole.2⟩, htext⟩
  · cases h

/-- **Integers are exact.** A text is one if it is a sign and digits with ticks among them and 64 bits
hold the number; and then that is what is read. -/
theorem integer?_eq_some {text : Bytes} {n : Int} : integer? text = some n ↔
    ∃ sign whole, IsSign sign ∧ Grouped whole ∧ text = sign ++ whole ∧
      n = signedValue sign whole ∧ -2 ^ 63 ≤ n ∧ n ≤ 2 ^ 63 - 1 := by
  constructor
  · intro h
    obtain ⟨sign, whole, hsign, hwhole, rfl⟩ := grouped_of_integer? h
    rw [integer?_grouped hsign hwhole] at h
    split at h
    · rename_i hfits
      obtain rfl := Option.some.inj h
      exact ⟨sign, whole, hsign, hwhole, rfl, rfl, (fitsInt64_iff _).1 hfits⟩
    · exact absurd h (Option.some_ne_none n).symm
  · rintro ⟨sign, whole, hsign, hwhole, rfl, rfl, hrange⟩
    rw [integer?_grouped hsign hwhole, if_pos ((fitsInt64_iff _).2 hrange)]

/-- An integer as a register of 64 bits reads it: it counts down from zero, since the least number has
no opposite, and turns the sign at the end. -/
def registerInteger? (text : Bytes) : Option Int :=
  let (negative, digits) := splitSign text
  if isDigit (byteAt digits 0) && digits.all isDigitOrTick then do
    let n ← countWithin (2 ^ 63) 0 (digits.filter isDigit)
    if negative then some (-n) else (checked (2 ^ 63 - 1) n).map Int.ofNat
  else none

/-- **A register reads the same**: it overflows on the way, or at the last turn, only where the number
does not fit. -/
theorem integer?_register (text : Bytes) : integer? text = registerInteger? text := by
  rw [integer?, registerInteger?]
  dsimp only
  generalize (splitSign text).1 = negative
  generalize (splitSign text).2 = digits
  rw [countWithin_zero, decimalValue_eq]
  generalize positional (digits.filter isDigit) = n
  split
  · have hfits := fitsInt64_iff (if negative = true then -(n : Int) else n)
    cases negative with
    | true =>
      rw [if_pos rfl] at hfits ⊢
      by_cases h : n ≤ 2 ^ 63
      · have hcount : checked (2 ^ 63) n = some n := if_pos h
        rw [if_pos (hfits.2 (by omega)), hcount]
        rfl
      · have hcount : checked (2 ^ 63) n = none := if_neg h
        rw [if_neg (by rw [hfits]; omega), hcount]
        rfl
    | false =>
      rw [if_neg Bool.false_ne_true] at hfits ⊢
      -- The one number that is counted but has no opposite is lost at the turn.
      by_cases h : n ≤ 2 ^ 63 - 1
      · have hcount : checked (2 ^ 63) n = some n := if_pos (by omega)
        have hturn : checked (2 ^ 63 - 1) n = some n := if_pos h
        rw [if_pos (hfits.2 (by omega)), hcount]
        show _ = (checked (2 ^ 63 - 1) n).map Int.ofNat
        rw [hturn]
        rfl
      · have hturn : checked (2 ^ 63 - 1) n = none := if_neg h
        rw [if_neg (show ¬fitsInt64 n = true by rw [hfits]; omega), checked]
        split
        · show _ = (checked (2 ^ 63 - 1) n).map Int.ofNat
          rw [hturn]
          rfl
        · rfl
  · rfl

/-- **An integer is read back**, the least one too. -/
theorem integer?_text {n : Int} (hleast : -2 ^ 63 ≤ n) (hmost : n ≤ 2 ^ 63 - 1) :
    integer? (Utf8.encode (toString n)) = some n := by
  rw [encode_toString_int]
  refine integer?_signed _ (digits_toString _) ?_ ((fitsInt64_iff n).2 ⟨hleast, hmost⟩)
  rcases Int.lt_or_le n 0 with h | h
  · rw [decide_eq_true h, if_pos rfl]
    omega
  · rw [decide_eq_false (Int.not_lt.2 h), if_neg Bool.false_ne_true]
    omega

end Literal

/-- **An integer** is written as one. -/
theorem numeral_integerText (n : Int) : Numeral .integer (Utf8.encode (toString n)) := by
  rw [encode_toString_int]
  exact .integer (isSign_signBytes _) (Lexeme.grouped_of_digits (digits_toString _))

/-- What an integer is written as is all one lexeme, and scans to it. -/
theorem scanSource_integerText {n : Int} (hleast : -2 ^ 63 ≤ n) (hmost : n ≤ 2 ^ 63 - 1)
    (symbols : SymbolTable) :
    scanSource (Utf8.encode (toString n)) symbols =
      (.ok ⟨[⟨.integer n, false, ⟨0, (Utf8.encode (toString n)).length⟩⟩], false⟩, symbols) := by
  have hread : numeral? .integer (Utf8.encode (toString n)) = some (.integer n) :=
    congrArg (Option.map Value.integer) (integer?_text hleast hmost)
  have htext := numeral_integerText n
  exact (scanSource_number htext.starts (Lexeme.ofFront_numeral htext rfl)
    (Element.of_numeral htext.kind_mem) symbols).1 _ hread

/-- **Integer literals are exact.** A text is an integer if and only if it is a sign and digits with
ticks among them and 64 bits hold the number that the digits spell, which is then its value; a register
that may overflow on the way tells the same; and what an integer is written as scans to that one
integer. -/
theorem integers_exact (text : Bytes) (n : Int) (symbols : SymbolTable) :
    (integer? text = some n ↔
      ∃ sign whole, IsSign sign ∧ Grouped whole ∧ text = sign ++ whole ∧
        n = signedValue sign whole ∧ -2 ^ 63 ≤ n ∧ n ≤ 2 ^ 63 - 1) ∧
    integer? text = registerInteger? text ∧
    (-2 ^ 63 ≤ n → n ≤ 2 ^ 63 - 1 →
      scanSource (Utf8.encode (toString n)) symbols =
        (.ok ⟨[⟨.integer n, false, ⟨0, (Utf8.encode (toString n)).length⟩⟩], false⟩, symbols)) :=
  ⟨integer?_eq_some, integer?_register text, fun hleast hmost =>
    scanSource_integerText hleast hmost symbols⟩

/-- The least integer. -/
theorem integers_exact_least :
    scanSource (Utf8.encode "-9223372036854775808") .initial =
      (.ok ⟨[⟨.integer (-2 ^ 63), false, ⟨0, 20⟩⟩], false⟩, .initial) := by
  have htext : toString (-2 ^ 63 : Int) = "-9223372036854775808" := by decide +kernel
  have hscan := (integers_exact [] (-2 ^ 63) .initial).2.2 (by decide) (by decide)
  rw [htext] at hscan
  exact hscan

end RebolScan
