import Mathlib.Algebra.Ring.Int.Defs
import Mathlib.Algebra.Ring.Nat
import Mathlib.Data.List.Forall2
import Mathlib.Data.Option.Basic
import RebolScan.Literal.Clock
import RebolScan.Proofs.Text.Utf8

/-!
# Digits that were written

A number is written as its decimal digits, sometimes with zeros in front or without those at the
end. `Digits bs n` says that the bytes `bs` are digits of value `n`; **the readers of literals get
that value back** from the front of a text that goes on with no digit (`digits_append`).
-/

set_option autoImplicit false

namespace RebolScan

/-- What a reader asks of a text, where it holds. -/
theorem guard_of {p : Prop} [Decidable p] (h : p) : (guard p : Option Unit) = some () := if_pos h

/-- Items are read together when each of them is read. -/
theorem mapM_eq_some {α β : Type} {f : α → Option β} {as : List α} {bs : List β} :
    as.mapM f = some bs ↔ List.Forall₂ (fun a b => f a = some b) as bs := by
  induction as generalizing bs with
  | nil =>
    rw [List.forall₂_nil_left_iff, eq_comm]
    exact Option.some_inj
  | cons a as ih =>
    rw [List.mapM_cons, List.forall₂_cons_left_iff, Option.bind_eq_bind, Option.bind_eq_some_iff]
    simp only [Option.bind_eq_bind, Option.bind_eq_some_iff, ih]
    constructor
    · rintro ⟨b, hb, rest, hrest, h⟩
      exact ⟨b, rest, hb, hrest, (Option.some.inj h).symm⟩
    · rintro ⟨b, rest, hb, hrest, rfl⟩
      exact ⟨b, hb, rest, hrest, rfl⟩

theorem isSome_of_mapM {α β : Type} {f : α → Option β} {as : List α} {bs : List β}
    (h : as.mapM f = some bs) : ∀ a ∈ as, (f a).isSome = true := by
  have hread : List.Forall₂ (fun a b => (f a).isSome = true ∧ f a = some b) as bs :=
    (mapM_eq_some.1 h).imp fun _ _ hb => ⟨Option.isSome_of_eq_some hb, hb⟩
  exact ((List.forall₂_and_left as bs).1 hread).1

end RebolScan

namespace RebolScan.Literal

open Ascii

/-- One or more digits, of value `n` together. -/
structure Digits (bs : Bytes) (n : Nat) : Prop where
  ne_nil : bs ≠ []
  isDigit : ∀ b ∈ bs, isDigit b = true
  value : decimalValue bs = n

theorem Digits.byteAt_zero {bs : Bytes} {n : Nat} (h : Digits bs n) (rest : Bytes) :
    Ascii.isDigit (byteAt (bs ++ rest) 0) = true := by
  cases bs with
  | nil => exact absurd rfl h.ne_nil
  | cons b bs => exact h.isDigit b List.mem_cons_self

theorem Digits.not_mem {bs : Bytes} {n : Nat} (h : Digits bs n) {b : UInt8}
    (hb : Ascii.isDigit b = false) : b ∉ bs := by
  intro hm
  rw [h.isDigit b hm] at hb
  cases hb

/-! ## Writing -/

theorem toNat_of_isDigit {c : Char} (h : c.isDigit = true) : 48 ≤ c.toNat ∧ c.toNat ≤ 57 := by
  simpa [Char.isDigit, UInt32.le_iff_toNat_le] using h

theorem encode_digits {chars : List Char} (h : ∀ c ∈ chars, c.isDigit = true) :
    Utf8.encode (String.ofList chars) = chars.map fun c => UInt8.ofNat c.toNat := by
  apply Utf8.encode_ofList
  intro c hc
  have := toNat_of_isDigit (h c hc)
  omega

/-- Digit characters are digit bytes, and of the same value. -/
theorem digits_encode {chars : List Char} (hne : chars ≠ []) (h : ∀ c ∈ chars, c.isDigit = true) :
    Digits (Utf8.encode (String.ofList chars)) (Nat.ofDigitChars 10 chars 0) := by
  have hbyte (c : Char) (hc : c.isDigit = true) : (UInt8.ofNat c.toNat).toNat = c.toNat := by
    have := toNat_of_isDigit hc
    exact UInt8.toNat_ofNat_of_lt' (by show _ < 256; omega)
  rw [encode_digits h]
  refine ⟨by simpa using hne, ?_, ?_⟩
  · intro b hb
    obtain ⟨c, hc, rfl⟩ := List.mem_map.1 hb
    have := toNat_of_isDigit (h c hc)
    simp [isDigit, UInt8.le_iff_toNat_le, hbyte c (h c hc), this]
  · rw [decimalValue, Nat.ofDigitChars_eq_foldl]
    clear hne
    generalize 0 = start
    induction chars generalizing start with
    | nil => rfl
    | cons c chars ih =>
      have hc : digitValue (UInt8.ofNat c.toNat) = c.toNat - '0'.toNat :=
        congrArg (· - 48) (hbyte c (h c List.mem_cons_self))
      rw [List.map_cons, List.foldl_cons, List.foldl_cons, hc, Nat.mul_comm start 10]
      exact ih (fun d hd => h d (List.mem_cons_of_mem c hd)) _

theorem isDigit_toDigits (n : Nat) : ∀ c ∈ Nat.toDigits 10 n, c.isDigit = true :=
  fun _ => Nat.isDigit_of_mem_toDigits (by decide) (by decide)

/-- **A number is written in digits of its value.** -/
theorem digits_toString (n : Nat) : Digits (Utf8.encode (toString n)) n := by
  have h := digits_encode (Nat.toDigits_ne_nil) (isDigit_toDigits n)
  rw [Nat.ofDigitChars_ten_toDigits] at h
  rwa [Nat.toString_eq_ofList_toDigits]

theorem length_toString_le {n k : Nat} (hk : 0 < k) (h : n < 10 ^ k) :
    (toString n).length ≤ k := by
  rw [Nat.toString_eq_ofList_toDigits, String.length_ofList]
  exact (Nat.length_toDigits_le_iff (by decide) hk).2 h

theorem length_encode_toString (n : Nat) :
    (Utf8.encode (toString n)).length = (toString n).length := by
  rw [Nat.toString_eq_ofList_toDigits, encode_digits (isDigit_toDigits n), List.length_map,
    String.length_ofList]

/-- The characters of a number with zeros in front. -/
theorem padded_eq (width n : Nat) : Time.padded width n = String.ofList
    (List.replicate (width - (toString n).length) '0' ++ Nat.toDigits 10 n) := by
  rw [Time.padded, String.ofList_append, Nat.toString_eq_ofList_toDigits]

theorem isDigit_padded (width n : Nat) : ∀ c ∈ (Time.padded width n).toList, c.isDigit = true := by
  rw [padded_eq, String.toList_ofList]
  intro c hc
  rcases List.mem_append.1 hc with hc | hc
  · rw [(List.mem_replicate.1 hc).2]
    rfl
  · exact isDigit_toDigits n c hc

theorem ofDigitChars_padded (width n : Nat) :
    Nat.ofDigitChars 10 (Time.padded width n).toList 0 = n := by
  rw [padded_eq, String.toList_ofList, Nat.ofDigitChars_append, Nat.ofDigitChars_replicate_zero,
    Nat.mul_zero, Nat.ofDigitChars_ten_toDigits]

/-- Zeros in front do not change the value. -/
theorem digits_padded (width n : Nat) : Digits (Utf8.encode (Time.padded width n)) n := by
  have hne : (Time.padded width n).toList ≠ [] := by
    rw [padded_eq, String.toList_ofList]
    exact List.append_ne_nil_of_right_ne_nil _ Nat.toDigits_ne_nil
  have h := digits_encode hne (isDigit_padded width n)
  rwa [ofDigitChars_padded, String.ofList_toList] at h

theorem length_padded {width n : Nat} (hw : 0 < width) (h : n < 10 ^ width) :
    (Time.padded width n).toList.length = width := by
  have hle := length_toString_le hw h
  have hlength : (toString n).length = (Nat.toDigits 10 n).length := by
    rw [Nat.toString_eq_ofList_toDigits, String.length_ofList]
  rw [padded_eq, String.toList_ofList, List.length_append, List.length_replicate, ← hlength]
  omega

theorem length_encode_padded {width n : Nat} (hw : 0 < width) (h : n < 10 ^ width) :
    (Utf8.encode (Time.padded width n)).length = width := by
  have hdigits := encode_digits (isDigit_padded width n)
  rw [String.ofList_toList] at hdigits
  rw [hdigits, List.length_map, length_padded hw h]

/-- What is taken off the end of a list can be put back. -/
theorem append_replicate_of_dropWhile (chars : List Char) (c : Char) :
    chars = (chars.reverse.dropWhile (· == c)).reverse ++
      List.replicate (chars.reverse.takeWhile (· == c)).length c := by
  have htaken : chars.reverse.takeWhile (· == c) =
      List.replicate (chars.reverse.takeWhile (· == c)).length c := by
    rw [List.eq_replicate_iff]
    refine ⟨rfl, fun d hd => ?_⟩
    have hall : (chars.reverse.takeWhile (· == c)).all (· == c) = true := List.all_takeWhile
    exact eq_of_beq (List.all_eq_true.1 hall d hd)
  calc
    chars = (chars.reverse.takeWhile (· == c) ++ chars.reverse.dropWhile (· == c)).reverse := by
      rw [List.takeWhile_append_dropWhile, List.reverse_reverse]
    _ = _ := by
      rw [List.reverse_append]
      congr 1
      rw [htaken, List.reverse_replicate, List.length_replicate]

/-- What stands after the seconds of a written time: nothing for no fraction, or a point and up to
nine digits. -/
inductive WrittenFraction : Bytes → Nat → Prop
  | none : WrittenFraction [] 0
  | digits {bs : Bytes} {n : Nat} (h : Digits bs n) (hlength : bs.length ≤ 9) :
      WrittenFraction (period :: bs) (fractionNanos bs)

theorem WrittenFraction.length_le {tail : Bytes} {nanos : Nat} (h : WrittenFraction tail nanos) :
    tail.length ≤ 10 := by
  cases h with
  | none => simp
  | digits _ hlength =>
    rw [List.length_cons]
    omega

/-- **The digits after the point of a time spell its fraction**, the zeros at their end left out. -/
theorem writtenFraction {nanos : Nat} (hlt : nanos < 10 ^ 9) :
    WrittenFraction (Utf8.encode (Time.fractionText nanos)) nanos := by
  by_cases h : nanos = 0
  · subst h
    exact .none
  have hpadded := append_replicate_of_dropWhile (Time.padded 9 nanos).toList '0'
  have hlength := length_padded (by decide) hlt
  have hvalue := ofDigitChars_padded 9 nanos
  have hdigit := isDigit_padded 9 nanos
  have htext : Utf8.encode (Time.fractionText nanos) = period :: Utf8.encode (String.ofList
      ((Time.padded 9 nanos).toList.reverse.dropWhile (· == '0')).reverse) := by
    rw [Time.fractionText, if_neg (by simpa using h)]
    dsimp only
    rw [Utf8.encode_append, show Utf8.encode "." = [period] from rfl, List.singleton_append]
  generalize ((Time.padded 9 nanos).toList.reverse.dropWhile (· == '0')).reverse = kept
    at hpadded htext
  generalize ((Time.padded 9 nanos).toList.reverse.takeWhile (· == '0')).length = zeros at hpadded
  rw [hpadded] at hlength hvalue hdigit
  rw [List.length_append, List.length_replicate] at hlength
  rw [Nat.ofDigitChars_append, Nat.ofDigitChars_replicate_zero] at hvalue
  have hne : kept ≠ [] := by
    rintro rfl
    exact h (hvalue.symm.trans (Nat.mul_zero _))
  have hkept := digits_encode hne fun c hc => hdigit c (List.mem_append_left _ hc)
  have hkeptLength : (Utf8.encode (String.ofList kept)).length = kept.length := by
    rw [encode_digits fun c hc => hdigit c (List.mem_append_left _ hc), List.length_map]
  have hzeros : 9 - kept.length = zeros := by omega
  have hnanos : fractionNanos (Utf8.encode (String.ofList kept)) = nanos := by
    rw [fractionNanos, List.take_of_length_le (by omega), hkept.value, hkeptLength, hzeros,
      Nat.mul_comm]
    exact hvalue
  have hwritten := WrittenFraction.digits hkept (by omega)
  rwa [hnanos, ← htext] at hwritten

/-! ## Reading -/

/-- The digits at the front of a text end where no digit follows. -/
theorem digits_append {bs rest : Bytes} (h : ∀ b ∈ bs, Ascii.isDigit b = true)
    (hrest : Ascii.isDigit (byteAt rest 0) = false) :
    digits (bs ++ rest) = bs ∧ afterDigits (bs ++ rest) = rest := by
  have hnone : digits rest = [] ∧ afterDigits rest = rest := by
    cases rest with
    | nil => exact ⟨rfl, rfl⟩
    | cons b rest =>
      rw [byteAt_cons_zero] at hrest
      simp [digits, afterDigits, hrest]
  constructor
  · rw [digits, List.takeWhile_append_of_pos h]
    exact (congrArg (bs ++ ·) hnone.1).trans (List.append_nil bs)
  · rw [afterDigits, List.dropWhile_append_of_pos h]
    exact hnone.2

theorem Digits.append {bs : Bytes} {n : Nat} (h : Digits bs n) (rest : Bytes)
    (hrest : Ascii.isDigit (byteAt rest 0) = false) :
    digits (bs ++ rest) = bs ∧ afterDigits (bs ++ rest) = rest :=
  digits_append h.isDigit hrest

end RebolScan.Literal
