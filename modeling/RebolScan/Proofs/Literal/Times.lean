import RebolScan.Proofs.Literal.Magnitude

/-!
# Times

A time may be written with its hours left out, with seconds or without, and with a fraction of any
length behind a point or a comma (`TimeText`). **Its reader takes it for what it says or refuses it**
(`timeFront?_bytes`), however many digits its numbers have: it is refused where minutes or seconds are
not below sixty, or where 64 bits do not hold the nanoseconds. A register that checks each step of the
sum refuses the same (`TimeText.registerNanos?_eq`).

What a time is written as is such a text, and is read back (`timeFront?_text`).
-/

set_option autoImplicit false

namespace RebolScan.Literal

open Ascii

/-! ## Texts -/

/-- One or more digits. -/
structure IsDigits (ds : Bytes) : Prop where
  ne_nil : ds ≠ []
  isDigit : ∀ b ∈ ds, isDigit b = true

theorem IsDigits.digits {ds : Bytes} (h : IsDigits ds) : Digits ds (positional ds) :=
  ⟨h.ne_nil, h.isDigit, decimalValue_eq ds⟩

theorem Digits.isDigits {ds : Bytes} {n : Nat} (h : Digits ds n) :
    IsDigits ds ∧ positional ds = n :=
  ⟨⟨h.ne_nil, h.isDigit⟩, (decimalValue_eq ds).symm.trans h.value⟩

/-- The digits of a fraction of a second in whole nanoseconds, the rest cut off. -/
def nanosOf (ds : Bytes) : Nat := positional ds * 10 ^ 9 / 10 ^ ds.length

/-- A time as it may be written: a sign, two numbers with a colon between them, of which the first may
be left out, a third number behind another colon, and a fraction behind a point or a comma. -/
structure TimeText where
  sign : Bytes
  first : Bytes
  second : Bytes
  third : Option Bytes
  fraction : Option (UInt8 × Bytes)
  isSign : IsSign sign
  first_digits : ∀ b ∈ first, isDigit b = true
  second_digits : IsDigits second
  third_digits : ∀ ds ∈ third, IsDigits ds
  radix : ∀ f ∈ fraction, f.1 = period ∨ f.1 = comma
  fraction_digits : ∀ f ∈ fraction, IsDigits f.2

namespace TimeText

variable (t : TimeText)

/-- The third number behind its colon. -/
def thirdBytes : Bytes := t.third.elim [] (colon :: ·)

/-- The fraction behind its point or comma. -/
def fractionBytes : Bytes := t.fraction.elim [] fun f => f.1 :: f.2

/-- The text behind its sign. -/
def unsigned : Bytes := t.first ++ colon :: (t.second ++ (t.thirdBytes ++ t.fractionBytes))

/-- All of the text. -/
def bytes : Bytes := t.sign ++ t.unsigned

/-- A text without its sign starts with a digit or a colon. -/
theorem byteAt_unsigned (rest : Bytes) {b : UInt8} (hb : Ascii.isDigit b = false) (hne : b ≠ colon) :
    byteAt (t.unsigned ++ rest) 0 ≠ b := by
  cases hfirst : t.first with
  | nil =>
    rw [unsigned, hfirst]
    exact Ne.symm hne
  | cons d ds =>
    have hd := t.first_digits d (by rw [hfirst]; exact List.mem_cons_self)
    rw [unsigned, hfirst]
    rintro rfl
    exact Bool.false_ne_true (hb.symm.trans hd)

/-! ## What they say -/

/-- The third number, zero where it is left out. -/
def thirdValue : Nat := t.third.elim 0 positional

/-- The fraction of a second, zero where there is none. -/
def fractionValue : Nat := t.fraction.elim 0 fun f => nanosOf f.2

/-- The nanoseconds that a text counts: hours and minutes come first, but minutes and seconds where two
numbers have a fraction. -/
def magnitude : Nat :=
  if t.third = none ∧ t.fraction ≠ none then
    positional t.first * Time.nanosPerMinute + positional t.second * Time.nanosPerSecond +
      t.fractionValue
  else
    positional t.first * Time.nanosPerHour + positional t.second * Time.nanosPerMinute +
      t.thirdValue * Time.nanosPerSecond + t.fractionValue

/-- Minutes and seconds are below sixty, and 64 bits hold the whole. -/
structure Fits : Prop where
  second : positional t.second ≤ 59
  third : t.thirdValue ≤ 59
  magnitude : t.magnitude ≤ 2 ^ 63 - 1

theorem fits_iff : t.Fits ↔
    positional t.second ≤ 59 ∧ t.thirdValue ≤ 59 ∧ t.magnitude ≤ 2 ^ 63 - 1 :=
  ⟨fun h => ⟨h.second, h.third, h.magnitude⟩, fun h => ⟨h.1, h.2.1, h.2.2⟩⟩

instance : Decidable t.Fits := decidable_of_iff' _ t.fits_iff

/-- The time that a text says. -/
def value : Time := ⟨if t.sign = [minus] then -(t.magnitude : Int) else t.magnitude⟩

/-- The numbers of a text. -/
def clock : ClockText where
  first := positional t.first
  second := positional t.second
  third := t.third.map positional
  fraction := t.fraction.map fun f => nanosOf f.2

end TimeText

/-! ## The numbers -/

/-- **Nine digits of a fraction are kept**, and zeros make up for what is missing. -/
theorem fractionNanos_eq {ds : Bytes} (h : ∀ b ∈ ds, isDigit b = true) :
    fractionNanos ds = nanosOf ds := by
  rw [fractionNanos, nanosOf, decimalValue_eq, List.length_take]
  by_cases hlength : ds.length ≤ 9
  · have hpow : 10 ^ 9 = 10 ^ (9 - ds.length) * 10 ^ ds.length := by
      rw [← Nat.pow_add, Nat.sub_add_cancel hlength]
    rw [List.take_of_length_le hlength, Nat.min_eq_right hlength, hpow, ← Nat.mul_assoc,
      Nat.mul_div_cancel _ (Nat.pow_pos (by decide))]
    rfl
  · -- The digits behind the ninth are worth less than one of it.
    have hcut : positional ds =
        positional (ds.take 9) * 10 ^ (ds.length - 9) + positional (ds.drop 9) := by
      rw [← List.length_drop, ← positional_append, List.take_append_drop]
    have hrest : positional (ds.drop 9) < 10 ^ (ds.length - 9) := by
      rw [← List.length_drop]
      exact positional_lt fun b hb => h b (List.mem_of_mem_drop hb)
    have hpow : 10 ^ ds.length = 10 ^ (ds.length - 9) * 10 ^ 9 := by
      rw [← Nat.pow_add, Nat.sub_add_cancel (by omega)]
    rw [Nat.min_eq_left (by omega), Nat.sub_self, hpow,
      Nat.mul_div_mul_right _ _ (by decide), hcut, Nat.add_comm,
      Nat.add_mul_div_right _ _ (Nat.pow_pos (by decide)), Nat.div_eq_of_lt hrest, Nat.zero_add]
    exact Nat.mul_one _

/-- What the numbers of a text come to. -/
theorem nanos?_clock (t : TimeText) :
    t.clock.nanos? = if t.Fits then some t.magnitude else none := by
  have hthird : t.clock.third.getD 0 = t.thirdValue := by
    rw [TimeText.clock, TimeText.thirdValue]
    cases t.third <;> rfl
  have hfraction : t.clock.fraction.getD 0 = t.fractionValue := by
    rw [TimeText.clock, TimeText.fractionValue]
    cases t.fraction <;> rfl
  have hshape : (t.clock.third.isSome || t.clock.fraction.isNone) =
      !decide (t.third = none ∧ t.fraction ≠ none) := by
    rw [TimeText.clock]
    cases t.third <;> cases t.fraction <;> simp
  have hmagnitude : (if t.clock.third.isSome || t.clock.fraction.isNone then
        positional t.first * Time.nanosPerHour + positional t.second * Time.nanosPerMinute +
          t.thirdValue * Time.nanosPerSecond
      else positional t.first * Time.nanosPerMinute + positional t.second * Time.nanosPerSecond) +
        t.fractionValue = t.magnitude := by
    rw [hshape, TimeText.magnitude]
    by_cases h : t.third = none ∧ t.fraction ≠ none <;> simp [h]
  have hfits : fitsInt64 t.magnitude = decide (t.magnitude ≤ 2 ^ 63 - 1) := by
    rw [Bool.eq_iff_iff, decide_eq_true_eq]
    simp only [fitsInt64, Bool.and_eq_true, decide_eq_true_eq]
    omega
  rw [ClockText.nanos?, hthird, hfraction, show t.clock.first = positional t.first from rfl,
    show t.clock.second = positional t.second from rfl, hmagnitude, hfits]
  simp only [t.fits_iff, Bool.and_eq_true, decide_eq_true_eq, and_assoc]

/-! ## Reading -/

/-- The byte behind a written time is no part of it. -/
def endsClock (b : UInt8) : Bool :=
  !Ascii.isDigit b && !isLetter b && b != period && b != comma

section

variable {rest : Bytes} (hrest : endsClock (byteAt rest 0) = true)

include hrest

theorem not_digit_of_endsClock : Ascii.isDigit (byteAt rest 0) = false := by
  simp only [endsClock, Bool.and_eq_true, Bool.not_eq_true'] at hrest
  exact hrest.1.1.1

theorem meridian?_endsClock (hour : Nat) : meridian? hour rest = some (hour, rest) := by
  simp only [endsClock, Bool.and_eq_true, Bool.not_eq_true'] at hrest
  have hletter := hrest.1.1.2
  have hlower : isLower (byteAt rest 0) = false := (Bool.or_eq_false_iff.1 hletter).2
  have hnone {b : UInt8} (hb : isLetter b = true) : (toUpper (byteAt rest 0) == b) = false := by
    rw [toUpper, hlower, if_neg Bool.false_ne_true]
    refine beq_false_of_ne fun he => ?_
    rw [he, hb] at hletter
    cases hletter
  simp [meridian?, hnone (b := 0x41) rfl, hnone (b := 0x50) rfl]

variable (t : TimeText)

/-- A fraction is read up to where the time ends. -/
theorem fraction?_bytes :
    fraction? (t.fractionBytes ++ rest) = some (t.clock.fraction, rest) := by
  rw [TimeText.fractionBytes, TimeText.clock]
  cases hfraction : t.fraction with
  | none =>
    simp only [endsClock, Bool.and_eq_true, bne_iff_ne] at hrest
    simp [fraction?, hrest.1.2, hrest.2]
  | some f =>
    obtain ⟨b, ds⟩ := f
    have hds : IsDigits ds := t.fraction_digits _ hfraction
    obtain ⟨h₁, h₂⟩ := hds.digits.append rest (not_digit_of_endsClock hrest)
    have hradix : (byteAt (b :: (ds ++ rest)) 0 == period || byteAt (b :: (ds ++ rest)) 0 == comma) =
        true := by
      rw [byteAt_cons_zero]
      rcases (t.radix _ hfraction : b = period ∨ b = comma) with rfl | rfl <;> rfl
    have hne : ds.isEmpty = false := List.isEmpty_eq_false_iff.2 hds.ne_nil
    show fraction? (b :: (ds ++ rest)) = _
    rw [fraction?, if_pos hradix, List.drop_one, List.tail_cons, h₁, h₂]
    simp only [hne, fractionNanos_eq hds.isDigit]
    rfl

/-- No digit starts what stands behind the last number. -/
theorem not_digit_fractionBytes : Ascii.isDigit (byteAt (t.fractionBytes ++ rest) 0) = false := by
  rw [TimeText.fractionBytes]
  cases hfraction : t.fraction with
  | none => exact not_digit_of_endsClock hrest
  | some f =>
    show Ascii.isDigit f.1 = false
    rcases t.radix f hfraction with h | h <;> rw [h] <;> rfl

variable (hcolon : t.third = none → byteAt rest 0 ≠ colon)

include hcolon

/-- A third number is read up to the fraction. -/
theorem thirdNumber?_bytes : thirdNumber? (t.thirdBytes ++ (t.fractionBytes ++ rest)) =
    some (t.clock.third, t.fractionBytes ++ rest) := by
  have hdigit := not_digit_fractionBytes hrest t
  rw [TimeText.thirdBytes, TimeText.clock]
  cases hthird : t.third with
  | none =>
    have hne : byteAt (t.fractionBytes ++ rest) 0 ≠ colon := by
      rw [TimeText.fractionBytes]
      cases hfraction : t.fraction with
      | none => exact hcolon hthird
      | some f =>
        show f.1 ≠ colon
        rcases t.radix f hfraction with h | h <;> rw [h] <;> decide
    exact if_neg (by simpa using hne)
  | some ds =>
    have hds := t.third_digits ds hthird
    obtain ⟨h₁, h₂⟩ := hds.digits.append _ hdigit
    have hne : ds.isEmpty = false := List.isEmpty_eq_false_iff.2 hds.ne_nil
    show thirdNumber? (colon :: (ds ++ (t.fractionBytes ++ rest))) = _
    generalize t.fractionBytes ++ rest = behind at h₁ h₂
    have hmark : (byteAt (colon :: (ds ++ behind)) 0 == colon) = true := rfl
    rw [thirdNumber?, if_pos hmark, List.drop_one, List.tail_cons, h₁, h₂]
    simp only [hne, decimalValue_eq]
    rfl

/-- The numbers of a text are read off it. -/
theorem clockText?_bytes : clockText? (t.unsigned ++ rest) = some (t.clock, rest) := by
  have hfraction := fraction?_bytes hrest t
  have hthird := thirdNumber?_bytes hrest t hcolon
  have hdigit : Ascii.isDigit (byteAt (t.thirdBytes ++ (t.fractionBytes ++ rest)) 0) = false := by
    rw [TimeText.thirdBytes]
    cases t.third with
    | none => exact not_digit_fractionBytes hrest t
    | some ds => rfl
  have hall : t.unsigned ++ rest =
      t.first ++ colon :: (t.second ++ (t.thirdBytes ++ (t.fractionBytes ++ rest))) := by
    simp [TimeText.unsigned]
  rw [hall]
  generalize t.thirdBytes ++ (t.fractionBytes ++ rest) = behind at hthird hdigit
  generalize t.fractionBytes ++ rest = last at hthird hfraction
  have hmark : Ascii.isDigit (byteAt (colon :: (t.second ++ behind)) 0) = false := rfl
  obtain ⟨hfirst₁, hfirst₂⟩ := digits_append t.first_digits hmark
  obtain ⟨hsecond₁, hsecond₂⟩ := t.second_digits.digits.append behind hdigit
  have hdrop : (colon :: (t.second ++ behind)).drop 1 = t.second ++ behind := rfl
  have hcolon : (byteAt (colon :: (t.second ++ behind)) 0 == colon) = true := rfl
  have hsome : (!t.second.isEmpty) = true := by
    rw [List.isEmpty_eq_false_iff.2 t.second_digits.ne_nil, Bool.not_false]
  unfold clockText?
  dsimp only
  rw [hfirst₁, hfirst₂, hdrop, hsecond₁, hsecond₂, guard_of hcolon, guard_of hsome, hthird,
    decimalValue_eq, decimalValue_eq]
  show (fraction? last >>= fun x => meridian? (positional t.first) x.2 >>= fun y =>
    pure (ClockText.mk y.1 (positional t.second) t.clock.third x.1, y.2)) = _
  rw [hfraction]
  show (meridian? (positional t.first) rest >>= fun y =>
    pure (ClockText.mk y.1 (positional t.second) t.clock.third t.clock.fraction, y.2)) = _
  rw [meridian?_endsClock hrest]
  rfl

/-- **A text is read for what it says**, and is refused if that does not fit. -/
theorem timeFront?_bytes :
    timeFront? (t.bytes ++ rest) = if t.Fits then some (t.value, rest) else none := by
  have hclock := clockText?_bytes hrest t hcolon
  have hplus : byteAt (t.unsigned ++ rest) 0 ≠ plus := t.byteAt_unsigned rest rfl (by decide)
  have hminus : byteAt (t.unsigned ++ rest) 0 ≠ minus := t.byteAt_unsigned rest rfl (by decide)
  have hunsigned : (byteAt (t.unsigned ++ rest) 0 != plus &&
      byteAt (t.unsigned ++ rest) 0 != minus) = true := by
    rw [bne_iff_ne.2 hplus, bne_iff_ne.2 hminus, Bool.and_self]
  rw [TimeText.bytes, List.append_assoc, timeFront?, splitSign_append t.isSign hplus hminus]
  dsimp only
  rw [guard_of hunsigned]
  simp only [decide_eq_true_eq]
  show (clockText? _ >>= fun x => x.1.nanos? >>= fun n =>
    pure (Time.mk (if t.sign = [minus] then -(n : Int) else n), x.2)) = _
  rw [hclock]
  show (t.clock.nanos? >>= fun n =>
    pure (Time.mk (if t.sign = [minus] then -(n : Int) else n), rest)) = _
  rw [nanos?_clock]
  split <;> rfl

end

theorem time?_bytes (t : TimeText) : time? t.bytes = if t.Fits then some t.value else none := by
  have hend : endsClock (byteAt [] 0) = true := rfl
  have hfront := timeFront?_bytes hend t fun _ => by decide
  rw [List.append_nil] at hfront
  rw [time?, hfront]
  by_cases hfits : t.Fits
  · rw [if_pos hfits, if_pos hfits]
  · rw [if_neg hfits, if_neg hfits]

/-! ## Registers -/

namespace TimeText

variable (t : TimeText)

/-- What the numbers of a text count, to be added up. -/
def terms (first second third : Nat) : List Nat :=
  if t.third = none ∧ t.fraction ≠ none then
    [first * Time.nanosPerMinute, second * Time.nanosPerSecond, t.fractionValue]
  else
    [first * Time.nanosPerHour, second * Time.nanosPerMinute, third * Time.nanosPerSecond,
      t.fractionValue]

theorem sum_terms :
    (t.terms (positional t.first) (positional t.second) t.thirdValue).sum = t.magnitude := by
  -- Of any three or four numbers, since those here have factors that are better not unfolded.
  have hthree (a b c : Nat) : [a, b, c].sum = a + b + c := by simp [Nat.add_assoc]
  have hfour (a b c d : Nat) : [a, b, c, d].sum = a + b + c + d := by simp [Nat.add_assoc]
  rw [terms, magnitude]
  split
  · exact hthree _ _ _
  · exact hfour _ _ _ _

/-- What a text counts in a register of 64 bits: each of its numbers and each sum has to fit. -/
def registerNanos? : Option Nat := do
  let first ← countWithin (2 ^ 63 - 1) 0 t.first
  let second ← countWithin (2 ^ 63 - 1) 0 t.second
  let third ← t.third.elim (some 0) (countWithin (2 ^ 63 - 1) 0)
  guard (second ≤ 59 ∧ third ≤ 59)
  sumWithin (2 ^ 63 - 1) 0 (t.terms first second third)

/-- **A register tells the same**: where one of its steps overflows, the whole does not fit. -/
theorem registerNanos?_eq : t.registerNanos? = if t.Fits then some t.magnitude else none := by
  have hthird : t.third.elim (some 0) (countWithin (2 ^ 63 - 1) 0) =
      checked (2 ^ 63 - 1) t.thirdValue := by
    rw [thirdValue]
    cases t.third with
    | none => rfl
    | some ds => exact countWithin_zero _ ds
  have hfirst : positional t.first ≤ t.magnitude := by
    rw [magnitude]
    simp only [Time.nanosPerHour, Time.nanosPerMinute, Time.nanosPerSecond]
    split <;> omega
  rw [registerNanos?, countWithin_zero, countWithin_zero, hthird]
  ext n
  simp only [sumWithin_eq (Nat.zero_le _), Option.bind_eq_bind, Option.bind_eq_some_iff,
    checked_eq_some, Option.guard_eq_some', Option.ite_none_right_eq_some, Option.some_inj,
    t.fits_iff, and_assoc, exists_and_left, exists_eq_left', exists_const, t.sum_terms, Nat.zero_add]
  omega

end TimeText

/-! ## What was written -/

/-- What a time is written as. -/
theorem encode_timeText (t : Time) : ∃ h m sec tail,
    Utf8.encode t.text = signBytes (decide (t.nanos < 0)) ++
      (h ++ colon :: (m ++ colon :: (sec ++ tail))) ∧
    Digits h (t.nanos.natAbs / Time.nanosPerHour) ∧
    Digits m (t.nanos.natAbs / Time.nanosPerMinute % 60) ∧
    Digits sec (t.nanos.natAbs / Time.nanosPerSecond % 60) ∧
    WrittenFraction tail (t.nanos.natAbs % Time.nanosPerSecond) := by
  refine ⟨_, _, _, _, ?_, digits_toString _, digits_padded 2 _, digits_padded 2 _,
    writtenFraction (Nat.mod_lt _ (by decide))⟩
  have hsign : Utf8.encode (if t.nanos < 0 then "-" else "") =
      signBytes (decide (t.nanos < 0)) := by
    by_cases h : t.nanos < 0
    · rw [if_pos h, decide_eq_true h]
      rfl
    · rw [if_neg h, decide_eq_false h]
      rfl
  rw [Time.text]
  simp only [Utf8.encode_append, hsign, show Utf8.encode ":" = [colon] from rfl, List.append_assoc,
    List.cons_append, List.nil_append]

/-- A written fraction is one of a text. -/
theorem WrittenFraction.exists_fraction {tail : Bytes} {nanos : Nat} (h : WrittenFraction tail nanos) :
    ∃ fraction : Option (UInt8 × Bytes), tail = fraction.elim [] (fun f => f.1 :: f.2) ∧
      (∀ f ∈ fraction, f.1 = period ∧ IsDigits f.2) ∧
      (fraction.elim 0 fun f => nanosOf f.2) = nanos := by
  cases h with
  | none => exact ⟨Option.none, rfl, fun f hf => absurd hf (Option.not_mem_none f), rfl⟩
  | digits h =>
    rename_i bs n _
    refine ⟨some (period, bs), rfl, fun f hf => ?_, (fractionNanos_eq h.isDigit).symm⟩
    obtain rfl := Option.some.inj hf
    exact ⟨rfl, h.isDigits.1⟩

/-- **What a time is written as is a text** that says it. -/
theorem exists_timeText (t : Time) : ∃ w : TimeText, Utf8.encode t.text = w.bytes ∧
    w.third ≠ none ∧ (w.Fits ↔ t.nanos.natAbs ≤ 2 ^ 63 - 1) ∧ w.value = t := by
  obtain ⟨h, m, sec, tail, htext, hh, hm, hs, htail⟩ := encode_timeText t
  obtain ⟨fraction, rfl, hfraction, hnanos⟩ := htail.exists_fraction
  obtain ⟨hm₁, hm₂⟩ := hm.isDigits
  obtain ⟨hs₁, hs₂⟩ := hs.isDigits
  have hh₂ : positional h = _ := (decimalValue_eq h).symm.trans hh.value
  obtain ⟨w, hw₁, hw₂, hw₃, hw₄, hw₅⟩ : ∃ w : TimeText, w.sign = signBytes (decide (t.nanos < 0)) ∧
      w.first = h ∧ w.second = m ∧ w.third = some sec ∧ w.fraction = fraction :=
    ⟨⟨_, h, m, some sec, fraction, isSign_signBytes (decide (t.nanos < 0)), hh.isDigit, hm₁,
      fun ds hds => Option.some.inj hds ▸ hs₁, fun f hf => .inl (hfraction f hf).1,
      fun f hf => (hfraction f hf).2⟩, rfl, rfl, rfl, rfl, rfl⟩
  have hthird : w.thirdValue = t.nanos.natAbs / Time.nanosPerSecond % 60 := by
    rw [TimeText.thirdValue, hw₄]
    exact hs₂
  have hmagnitude : w.magnitude = t.nanos.natAbs := by
    rw [TimeText.magnitude, if_neg fun hnone => Option.some_ne_none sec (hw₄.symm.trans hnone.1),
      hthird, TimeText.fractionValue, hw₂, hw₃, hw₅, hnanos, hh₂, hm₂]
    simp only [Time.nanosPerHour, Time.nanosPerMinute, Time.nanosPerSecond]
    omega
  have hvalue : w.value = t := by
    have hsign : w.sign = [minus] ↔ t.nanos < 0 := by
      rw [hw₁, signBytes_eq_minus, decide_eq_true_iff]
    have hturned : (if w.sign = [minus] then -(t.nanos.natAbs : Int) else t.nanos.natAbs) = t.nanos := by
      rw [if_congr hsign rfl rfl]
      split <;> omega
    rw [TimeText.value, hmagnitude, hturned]
  refine ⟨w, ?_, ?_, ?_, hvalue⟩
  · rw [htext, TimeText.bytes, TimeText.unsigned, TimeText.thirdBytes, TimeText.fractionBytes, hw₁, hw₂,
      hw₃, hw₄, hw₅]
    rfl
  · rw [hw₄]
    exact Option.some_ne_none sec
  · rw [w.fits_iff, hmagnitude, hthird, hw₃, hm₂]
    omega

/-- **A time is read back** from the front of a text, if it and its opposite fit 64 bits. -/
theorem timeFront?_text {t : Time} {rest : Bytes} (hfits : fitsInt64 t.nanos = true)
    (hmin : t.nanos ≠ -2 ^ 63) (hrest : endsClock (byteAt rest 0) = true) :
    timeFront? (Utf8.encode t.text ++ rest) = some (t, rest) := by
  obtain ⟨w, htext, hthird, hw, hvalue⟩ := exists_timeText t
  have habs : t.nanos.natAbs ≤ 2 ^ 63 - 1 := by
    simp only [fitsInt64, Bool.and_eq_true, decide_eq_true_eq] at hfits
    omega
  rw [htext, timeFront?_bytes hrest w fun hnone => absurd hnone hthird, if_pos (hw.2 habs), hvalue]

/-- A whole text is read back as a time if and only if that is so. -/
theorem time?_encode (t : Time) :
    time? (Utf8.encode t.text) = if t.nanos.natAbs ≤ 2 ^ 63 - 1 then some t else none := by
  obtain ⟨w, htext, -, hw, hvalue⟩ := exists_timeText t
  rw [htext, time?_bytes, hvalue]
  exact if_congr hw rfl rfl

theorem time?_text {t : Time} (hfits : fitsInt64 t.nanos = true) (hmin : t.nanos ≠ -2 ^ 63) :
    time? (Utf8.encode t.text) = some t := by
  simp only [fitsInt64, Bool.and_eq_true, decide_eq_true_eq] at hfits
  rw [time?_encode, if_pos (by omega)]

/-- Digits that no colon follows are no time. -/
theorem time?_eq_none {bs rest : Bytes} {n : Nat} (h : Digits bs n)
    (hdigit : Ascii.isDigit (byteAt rest 0) = false) (hcolon : byteAt rest 0 ≠ colon) :
    time? (bs ++ rest) = none := by
  have hsign : splitSign (bs ++ rest) = (false, bs ++ rest) :=
    splitSign_signBytes false (h.byteAt_zero rest)
  have hclock : clockText? (bs ++ rest) = none := by
    obtain ⟨-, hafter⟩ := h.append rest hdigit
    have hguard : (guard (byteAt rest 0 == colon) : Option Unit) = none :=
      if_neg (by simpa using hcolon)
    unfold clockText?
    dsimp only
    rw [hafter, hguard]
    rfl
  have hfront : timeFront? (bs ++ rest) = none := by
    rw [timeFront?, hsign]
    dsimp only
    rw [hclock]
    simp
  rw [time?, hfront]

/-- **Time literals are exact.** A text of a time is read for the nanoseconds that it says if minutes
and seconds are below sixty and 64 bits hold the whole, and refused otherwise; a register that checks
each of its steps tells the same; and every time whose opposite fits as well is read back from what it
is written as. -/
theorem times_exact (t : TimeText) (n : Int) :
    time? t.bytes = (if t.Fits then some t.value else none) ∧
    t.registerNanos? = (if t.Fits then some t.magnitude else none) ∧
    (-2 ^ 63 < n → n ≤ 2 ^ 63 - 1 → time? (Utf8.encode (Time.text ⟨n⟩)) = some ⟨n⟩) := by
  refine ⟨time?_bytes t, t.registerNanos?_eq, fun hleast hmost => ?_⟩
  have habs : n.natAbs ≤ 2 ^ 63 - 1 := by omega
  exact (time?_encode ⟨n⟩).trans (if_pos habs)

/-- `1:30.5`, a minute and a half and half a second. -/
def ninetySeconds : TimeText where
  sign := []
  first := [0x31]
  second := [0x33, 0x30]
  third := none
  fraction := some (period, [0x35])
  isSign := .none
  first_digits := List.all_eq_true.1 rfl
  second_digits := ⟨List.cons_ne_nil _ _, List.all_eq_true.1 rfl⟩
  third_digits _ h := absurd h (Option.not_mem_none _)
  radix _ h := Option.some.inj h ▸ .inl rfl
  fraction_digits _ h := Option.some.inj h ▸ ⟨List.cons_ne_nil _ _, List.all_eq_true.1 rfl⟩

theorem times_exact_ninetySeconds :
    time? [0x31, 0x3A, 0x33, 0x30, 0x2E, 0x35] = some ⟨90500000000⟩ ∧
    time? (Utf8.encode (Time.text ⟨-90500000000⟩)) = some ⟨-90500000000⟩ := by
  have hfits : ninetySeconds.Fits := ⟨by decide +kernel, by decide +kernel, by decide +kernel⟩
  have hvalue : ninetySeconds.value = ⟨90500000000⟩ := by decide +kernel
  obtain ⟨hread, -, hback⟩ := times_exact ninetySeconds (-90500000000)
  rw [if_pos hfits, hvalue] at hread
  exact ⟨hread, hback (by decide) (by decide)⟩

end RebolScan.Literal
