import RebolScan.Proofs.Token.Numeral

/-!
# Decimals with a mark behind them

A percent sign behind a decimal, or an `x` between two of them, makes something else of it. Both are
marks that a number is told by, but not the first that are looked for: **a point or a comma comes
before a percent sign and before a capital `X`**, and so does an exponent before the capital. A
number that has one of them is told to be what it would be without the mark
(`ofFront_decimalPercent`, `crossKind`); only a small `x` is looked for in every place.
-/

set_option autoImplicit false

namespace RebolScan

open Ascii Literal

/-- The texts that the reader of decimals is for: a whole number is a decimal as well. -/
def IsDecimal (text : Bytes) : Prop := Numeral .integer text ∨ Numeral .decimal text

/-- The parts of a decimal: digits behind a sign, and a fraction and an exponent or neither. -/
theorem IsDecimal.parts {text : Bytes} (h : IsDecimal text) : ∃ sign whole fraction exponent,
    IsSign sign ∧ Grouped whole ∧ Optionally (Fraction 0) fraction ∧ Optionally Exponent exponent ∧
      text = sign ++ (whole ++ (fraction ++ exponent)) := by
  rcases h with h | h
  · cases h with
    | integer hsign hwhole => exact ⟨_, _, [], [], hsign, hwhole, .inl rfl, .inl rfl, by simp⟩
  · cases h with
    | decimal hsign hwhole hfraction hexponent =>
      exact ⟨_, _, _, _, hsign, hwhole, hfraction, hexponent, rfl⟩

section

variable {sign whole fraction exponent : Bytes}

theorem digital_mantissa (hwhole : Grouped whole) (hfraction : Optionally (Fraction 0) fraction)
    (hexponent : Optionally Exponent exponent) :
    Digital [period, comma, letterE, capitalE, plus, minus] (whole ++ (fraction ++ exponent)) :=
  hwhole.digital.append (((hfraction.digital Fraction.digital).mono (by simp)).append
    ((hexponent.digital Exponent.digital).mono (by simp)))

theorem IsDecimal.digital {text : Bytes} (h : IsDecimal text) :
    Digital [period, comma, letterE, capitalE, plus, minus] text := by
  obtain ⟨sign, whole, fraction, exponent, hsign, hwhole, hfraction, hexponent, rfl⟩ := h.parts
  exact (hsign.digital.mono (by simp)).append (digital_mantissa hwhole hfraction hexponent)

/-- A fraction is behind a point or a comma. -/
theorem Fraction.radix {least : Nat} (h : Fraction least fraction) :
    period ∈ fraction ∨ comma ∈ fraction := by
  obtain ⟨rfl | rfl, -, -⟩ := h
  · exact .inl List.mem_cons_self
  · exact .inr List.mem_cons_self

/-- The letter of an exponent stands nowhere else. -/
theorem exponent_letter (hsign : IsSign sign) (hwhole : Grouped whole)
    (hexponent : Optionally Exponent exponent) :
    letterE ∈ sign ++ (whole ++ exponent) ∨ capitalE ∈ sign ++ (whole ++ exponent) ↔
      exponent ≠ [] := by
  have hplain : Digital [plus, minus] (sign ++ whole) :=
    (hsign.digital.mono (by simp)).append hwhole.digital
  have hsmall : letterE ∉ sign ++ whole := hplain.not_mem rfl (by decide)
  have hcapital : capitalE ∉ sign ++ whole := hplain.not_mem rfl (by decide)
  rw [← List.append_assoc, List.mem_append, or_iff_right hsmall, List.mem_append,
    or_iff_right hcapital]
  rcases hexponent with rfl | ⟨rfl | rfl, -, -⟩ <;> simp

end

/-- What is told of two decimals with the letter `cross` between them. A capital `X` is not looked
for where there is a point or a comma, nor behind an exponent. -/
def crossKind (a : Bytes) (cross : UInt8) (b : Bytes) : TokenKind :=
  if cross = letterX then .pair
  else if period ∈ a ++ b ∨ comma ∈ a ++ b then Lexeme.radixKind (a ++ b)
  else if letterE ∈ a ∨ capitalE ∈ a then .decimal
  else .pair

theorem crossKind_mem (a : Bytes) (cross : UInt8) (b : Bytes) :
    crossKind a cross b = .pair ∨ crossKind a cross b = .decimal ∨ crossKind a cross b = .tuple := by
  unfold crossKind Lexeme.radixKind
  split_ifs <;> simp

/-- The sign in front of two decimals and the letter between them are no points and no commas. -/
theorem count_crossed {sign u b : Bytes} {cross r : UInt8} (hsign : IsSign sign)
    (hcross : cross = letterX ∨ cross = capitalX) (hr : r = period ∨ r = comma) :
    (u ++ cross :: b).count r = (sign ++ u ++ b).count r := by
  have hnone : sign.count r = 0 := List.count_eq_zero_of_not_mem (hsign.digital.not_mem
    (by rcases hr with rfl | rfl <;> rfl) (by rcases hr with rfl | rfl <;> decide))
  have hne : cross ≠ r := by
    rcases hcross with rfl | rfl <;> rcases hr with rfl | rfl <;> decide
  rw [List.count_append, List.count_append, List.count_append, List.count_cons_of_ne hne, hnone,
    Nat.zero_add]

namespace Lexeme

section

variable {a b d rest : Bytes} {cross : UInt8} (hrest : isDelimiter (byteAt rest 0) = true)

include hrest

/-- **A percent sign behind a whole number** makes a percent. -/
theorem ofFront_integerPercent (h : Numeral .integer d) :
    ofFront (d ++ [percent] ++ rest) = good .percent (d ++ [percent]).length := by
  cases h with
  | integer hsign hwhole =>
    rename_i sign whole
    have hdigital : Digital [percent] (whole ++ [percent]) :=
      hwhole.digital.append (.cons (by simp) .nil)
    have hbehind := ofFront_behind hsign hrest (v := []) (hdigital.mono (by simp [numberBytes]))
      (hdigital.not_mem rfl (by decide)) (hdigital.not_mem rfl (by decide)) hwhole (by simp)
    rwa [← List.append_assoc] at hbehind

/-- **Behind a decimal it goes unseen.** -/
theorem ofFront_decimalPercent (h : Numeral .decimal d) :
    ofFront (d ++ [percent] ++ rest) = good .decimal (d ++ [percent]).length := by
  cases h with
  | decimal hsign hwhole hfraction hexponent hsome =>
    rename_i sign whole fraction exponent
    have htext : sign ++ (whole ++ (fraction ++ exponent)) ++ [percent] =
        sign ++ (whole ++ (fraction ++ (exponent ++ [percent]))) := by simp
    rw [htext]
    rcases hfraction with rfl | hfraction
    · obtain ⟨he, hexpSign, hdigits⟩ := hexponent.resolve_left (hsome.resolve_left fun h => h rfl)
      exact ofFront_exponent hsign hrest hwhole he (((hexpSign.digital.mono (by simp)).append
        (digital_of_isDigit hdigits.isDigit)).append (.cons (by simp) .nil))
    · exact ofFront_fraction hsign hrest hwhole hfraction
        (((hexponent.digital Exponent.digital).mono (by simp)).append (.cons (by simp) .nil))

/-- Where there is no point and no comma the letter is looked at behind the digits, and a small one
behind an exponent as well. -/
theorem ofFront_crossed {sign whole exponent : Bytes} (hsign : IsSign sign) (hwhole : Grouped whole)
    (hexponent : Optionally Exponent exponent) (hcross : cross = letterX ∨ cross = capitalX)
    (hnumber : Digital numberBytes (whole ++ (exponent ++ cross :: b)))
    (hperiod : period ∉ whole ++ (exponent ++ cross :: b))
    (hcomma : comma ∉ whole ++ (exponent ++ cross :: b)) :
    ofFront (sign ++ (whole ++ (exponent ++ cross :: b)) ++ rest) =
      good (if exponent = [] ∨ letterX ∈ whole ++ (exponent ++ cross :: b) then .pair else .decimal)
        (sign ++ (whole ++ (exponent ++ cross :: b))).length := by
  rcases hexponent with rfl | ⟨he, -, -⟩
  · have hbehind := ofFront_behind hsign hrest hnumber hperiod hcomma hwhole
      (by rcases hcross with rfl | rfl <;> simp)
    have hkind (crossed : Bool) : signKind cross crossed = .pair := by
      rcases hcross with rfl | rfl <;> rfl
    rw [hkind] at hbehind
    rw [if_pos (.inl rfl)]
    exact hbehind
  · rename_i e expSign ds n
    have hbehind := ofFront_behind hsign hrest (v := expSign ++ ds ++ cross :: b) hnumber hperiod
      hcomma hwhole (by rcases he with rfl | rfl <;> simp)
    rw [signKind_exponent he, List.contains_eq_mem] at hbehind
    simpa using hbehind

/-- **Two decimals with an `x` between them** are told by `crossKind`. -/
theorem ofFront_pair (ha : IsDecimal a) (hb : IsDecimal b) (hcross : cross = letterX ∨ cross = capitalX) :
    ofFront (a ++ cross :: b ++ rest) = good (crossKind a cross b) (a ++ cross :: b).length := by
  obtain ⟨sign, whole, fraction, exponent, hsign, hwhole, hfraction, hexponent, rfl⟩ := ha.parts
  have hmantissa := digital_mantissa hwhole hfraction hexponent
  have hnumber : Digital numberBytes (whole ++ (fraction ++ exponent) ++ cross :: b) :=
    (hmantissa.mono (by simp [numberBytes])).append
      (.cons (by rcases hcross with rfl | rfl <;> simp [numberBytes])
        (hb.digital.mono (by simp [numberBytes])))
  -- An `x` stands nowhere but between the two.
  have hx : letterX ∈ whole ++ (fraction ++ exponent) ++ cross :: b ↔ cross = letterX := by
    rw [List.mem_append, or_iff_right (hmantissa.not_mem rfl (by decide)), List.mem_cons,
      or_iff_left (hb.digital.not_mem rfl (by decide)), eq_comm]
  have hcount (r : UInt8) (hr : r = period ∨ r = comma) :
      (whole ++ (fraction ++ exponent) ++ cross :: b).count r =
        (sign ++ (whole ++ (fraction ++ exponent)) ++ b).count r := count_crossed hsign hcross hr
  have hmem (r : UInt8) (hr : r = period ∨ r = comma) :
      r ∈ whole ++ (fraction ++ exponent) ++ cross :: b ↔
        r ∈ sign ++ (whole ++ (fraction ++ exponent)) ++ b := by
    rw [← List.count_pos_iff, hcount r hr, List.count_pos_iff]
  rw [List.append_assoc sign, crossKind]
  by_cases hradix : period ∈ sign ++ (whole ++ (fraction ++ exponent)) ++ b ∨
      comma ∈ sign ++ (whole ++ (fraction ++ exponent)) ++ b
  · have hfirst : isDigit (byteAt (whole ++ (fraction ++ exponent) ++ cross :: b) 0) = true := by
      rw [List.append_assoc]
      exact isDigit_append hwhole.first _
    rw [if_pos hradix, ofFront_radix hsign hrest hfirst hnumber
      (hradix.imp (hmem period (.inl rfl)).2 (hmem comma (.inr rfl)).2)]
    simp only [radixKind, hx, hcount period (.inl rfl), hmem comma (.inr rfl)]
  · rw [if_neg hradix]
    rw [← hmem period (.inl rfl), ← hmem comma (.inr rfl), not_or] at hradix
    have hnone : fraction = [] := hfraction.resolve_right fun h => by
      rcases h.radix with h | h
      · exact hradix.1 (by simp [h])
      · exact hradix.2 (by simp [h])
    subst hnone
    have he := exponent_letter hsign hwhole hexponent
    rw [List.nil_append, List.append_assoc] at hnumber hx hradix
    have hcrossed := ofFront_crossed hrest hsign hwhole hexponent hcross hnumber hradix.1 hradix.2
    rw [List.nil_append, List.append_assoc whole, hcrossed]
    simp only [hx, he]
    by_cases hsmall : cross = letterX <;> by_cases hnone : exponent = [] <;> simp [hsmall, hnone]

end

end Lexeme

end RebolScan
