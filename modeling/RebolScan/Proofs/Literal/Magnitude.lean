import Mathlib.Data.Nat.Digits.Defs
import RebolScan.Proofs.Literal.Written
import RebolScan.Proofs.Token.Numeral

/-!
# What digits are worth

Digits spell a number in positional notation (`positional`), and the readers of literals take them for
that number, however many there are (`decimalValue_eq`).

A register of a machine that counts digit by digit, or adds up numbers, stops where it would overflow.
As it never goes down, **it overflows on the way if and only if the whole is too great for it**
(`countWithin_zero`, `sumWithin_eq`): to compare the whole once with the range, as the readers do, is as
good as a check at each step.
-/

set_option autoImplicit false

namespace RebolScan.Literal

open Ascii

/-- The number that digits spell: each is worth ten times as much as it would be one place further
on. -/
def positional (ds : Bytes) : Nat := Nat.ofDigits 10 (ds.map digitValue).reverse

/-- **Digits are read as the number that they spell.** -/
theorem decimalValue_eq (ds : Bytes) : decimalValue ds = positional ds := by
  rw [positional, Nat.ofDigits_eq_foldr, List.foldr_reverse, List.foldl_map, decimalValue]
  congr 1
  funext v b
  rw [Nat.add_comm, Nat.mul_comm]
  rfl

theorem positional_append (front back : Bytes) :
    positional (front ++ back) = positional front * 10 ^ back.length + positional back := by
  rw [positional, List.map_append, List.reverse_append, Nat.ofDigits_append, List.length_reverse,
    List.length_map, Nat.mul_comm, Nat.add_comm]
  rfl

theorem positional_lt {ds : Bytes} (h : ∀ b ∈ ds, isDigit b = true) :
    positional ds < 10 ^ ds.length := by
  have hlt : ∀ d ∈ (ds.map digitValue).reverse, d < 10 := by
    intro d hd
    obtain ⟨b, hb, rfl⟩ := List.mem_map.1 (List.mem_reverse.1 hd)
    have hdigit := h b hb
    simp only [isDigit, Bool.and_eq_true, decide_eq_true_eq, UInt8.le_iff_toNat_le] at hdigit
    have hmost : b.toNat ≤ 57 := hdigit.2
    rw [digitValue]
    omega
  have hbound := Nat.ofDigits_lt_base_pow_length (by decide) hlt
  rwa [List.length_reverse, List.length_map] at hbound

/-! ## Registers -/

/-- A number in a register that holds no more than `limit`. -/
def checked (limit n : Nat) : Option Nat := if n ≤ limit then some n else none

theorem checked_eq_some {limit n m : Nat} : checked limit n = some m ↔ n ≤ limit ∧ n = m := by
  rw [checked]
  split
  · rename_i h
    rw [Option.some_inj, and_iff_right h]
  · rename_i h
    exact ⟨fun hnone => absurd hnone.symm (Option.some_ne_none m), fun hle => absurd hle.1 h⟩

/-- Numbers added to `value` one by one in such a register. -/
def sumWithin (limit : Nat) (value : Nat) : List Nat → Option Nat
  | [] => some value
  | n :: ns => do
    let value ← checked limit (value + n)
    sumWithin limit value ns

theorem sumWithin_eq {limit value : Nat} (h : value ≤ limit) (ns : List Nat) :
    sumWithin limit value ns = checked limit (value + ns.sum) := by
  induction ns generalizing value with
  | nil => exact (if_pos h).symm
  | cons n ns ih =>
    rw [sumWithin, List.sum_cons, ← Nat.add_assoc]
    -- A sum that does not fit is exceeded by the whole.
    by_cases hstep : value + n ≤ limit
    · have hsum : checked limit (value + n) = some _ := if_pos hstep
      rw [hsum, Option.bind_eq_bind, Option.bind_some, ih hstep]
    · have hsum : checked limit (value + n) = none := if_neg hstep
      have hall : checked limit (value + n + ns.sum) = none := if_neg (by omega)
      rw [hsum, hall]
      rfl

/-- The number that digits make of `value`, counted on in such a register. -/
def countWithin (limit : Nat) (value : Nat) : Bytes → Option Nat
  | [] => some value
  | b :: ds => do
    let value ← checked limit (value * 10)
    let value ← checked limit (value + digitValue b)
    countWithin limit value ds

/-- The number that digits make of `value`. -/
def countOn (value : Nat) (ds : Bytes) : Nat := ds.foldl (fun v b => v * 10 + digitValue b) value

theorem le_countOn (value : Nat) (ds : Bytes) : value ≤ countOn value ds := by
  induction ds generalizing value with
  | nil => exact Nat.le_refl value
  | cons b ds ih =>
    have hrest : value * 10 + digitValue b ≤ countOn value (b :: ds) := ih _
    omega

theorem countWithin_eq {limit value : Nat} (h : value ≤ limit) (ds : Bytes) :
    countWithin limit value ds = checked limit (countOn value ds) := by
  induction ds generalizing value with
  | nil => exact (if_pos h).symm
  | cons b ds ih =>
    have hrest : value * 10 + digitValue b ≤ countOn value (b :: ds) := le_countOn _ ds
    -- A step that fits has one before it that does; one that does not is exceeded by the whole.
    by_cases hstep : value * 10 + digitValue b ≤ limit
    · have hten : checked limit (value * 10) = some (value * 10) := if_pos (by omega)
      have hdigit : checked limit (value * 10 + digitValue b) = some _ := if_pos hstep
      rw [countWithin, hten, Option.bind_eq_bind, Option.bind_some, hdigit, Option.bind_some]
      exact ih hstep
    · have hdigit : checked limit (value * 10 + digitValue b) = none := if_neg hstep
      have hall : checked limit (countOn value (b :: ds)) = none := if_neg (by omega)
      rw [countWithin, hall, checked]
      split
      · rw [Option.bind_eq_bind, Option.bind_some, hdigit]
        rfl
      · rfl

/-- **A register overflows on the way if and only if the whole is too great for it.** -/
theorem countWithin_zero (limit : Nat) (ds : Bytes) :
    countWithin limit 0 ds = checked limit (positional ds) := by
  rw [countWithin_eq (Nat.zero_le limit), ← decimalValue_eq]
  rfl

/-! ## Signs -/

/-- The sign of a text, whether it is a minus, and what follows it. -/
theorem exists_sign (text : Bytes) : ∃ sign, IsSign sign ∧ text = sign ++ (splitSign text).2 ∧
    (splitSign text).1 = decide (sign = [minus]) := by
  cases text with
  | nil => exact ⟨[], .none, rfl, rfl⟩
  | cons b rest =>
    rw [splitSign]
    split
    · rename_i hminus
      exact ⟨[minus], .minus, by rw [eq_of_beq hminus]; rfl, rfl⟩
    split
    · rename_i hplus
      exact ⟨[plus], .plus, by rw [eq_of_beq hplus]; rfl, rfl⟩
    · exact ⟨[], .none, rfl, rfl⟩

/-- A sign is split off what starts with no other. -/
theorem splitSign_append {sign w : Bytes} (hsign : IsSign sign) (hplus : byteAt w 0 ≠ plus)
    (hminus : byteAt w 0 ≠ minus) : splitSign (sign ++ w) = (decide (sign = [minus]), w) := by
  cases hsign with
  | plus | minus => rfl
  | none =>
    cases w with
    | nil => rfl
    | cons b w =>
      rw [byteAt_cons_zero] at hplus hminus
      rw [List.nil_append, splitSign, beq_false_of_ne hminus, beq_false_of_ne hplus]
      rfl

theorem isSign_signBytes (negative : Bool) : IsSign (signBytes negative) := by
  cases negative with
  | true => exact .minus
  | false => exact .none

theorem signBytes_eq_minus (negative : Bool) : signBytes negative = [minus] ↔ negative = true := by
  cases negative <;> simp [signBytes]

end RebolScan.Literal
