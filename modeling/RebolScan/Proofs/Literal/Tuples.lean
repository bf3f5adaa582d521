import RebolScan.Proofs.Literal.Magnitude

/-!
# Which texts are tuples

A text falls into parts at its points, one more than there are points, and each part is read by itself
(`tuplePart?_eq_some`); the reader takes all of them or none (`tupleParts_eq_some`). **A tuple is
read exactly where there are at most ten parts and each is up to three digits worth no more than
255**, and it is the numbers that they are worth, with zeros behind them where these are fewer than
three (`tuple?_exact`). A part without digits is worth 0, and zeros in front count for its length alone.
-/

set_option autoImplicit false

namespace RebolScan.Literal

open Ascii

/-- A part of a tuple: up to three digits, worth no more than 255. No digits are worth 0. -/
structure TuplePart (part : Bytes) : Prop where
  short : part.length ≤ 3
  digits : ∀ b ∈ part, isDigit b = true
  small : positional part ≤ 255

/-! ## Parts -/

/-- The parts of a text are what it is split into. -/
theorem parts_eq_splitOn (separator : UInt8) (text : Bytes) :
    parts separator text = text.splitOn separator := by
  induction text with
  | nil => exact (List.splitOn_nil separator).symm
  | cons b rest ih =>
    rw [parts, ih, List.splitOn_cons_eq_if_modifyHead]
    cases hrest : rest.splitOn separator with
    | nil => exact absurd hrest (List.splitOn_ne_nil separator rest)
    | cons p ps => rfl

/-- **A part is read as what its digits are worth**, or it is none. -/
theorem tuplePart?_eq_some {part : Bytes} {n : Nat} :
    tuplePart? part = some n ↔ TuplePart part ∧ positional part = n := by
  rw [tuplePart?, decimalValue_eq]
  split
  case isTrue h =>
    simp only [Bool.and_eq_true, decide_eq_true_eq, List.all_eq_true] at h
    obtain ⟨⟨hshort, hdigits⟩, hsmall⟩ := h
    have hpart : TuplePart part := ⟨hshort, hdigits, Nat.le_of_lt_succ hsmall⟩
    rw [Option.some_inj, and_iff_right hpart]
  case isFalse h =>
    refine ⟨fun hnone => absurd hnone.symm (Option.some_ne_none n), ?_⟩
    rintro ⟨hpart, -⟩
    refine absurd ?_ h
    simp only [Bool.and_eq_true, decide_eq_true_eq, List.all_eq_true]
    exact ⟨⟨hpart.short, hpart.digits⟩, Nat.lt_succ_of_le hpart.small⟩

/-- Parts are read together when each of them is one. -/
theorem tupleParts_eq_some {ps : List Bytes} {ns : List Nat} :
    ps.mapM tuplePart? = some ns ↔ (∀ part ∈ ps, TuplePart part) ∧ ps.map positional = ns := by
  simp only [mapM_eq_some, tuplePart?_eq_some]
  rw [List.forall₂_and_left, ← List.forall₂_map_left_iff (R := (· = ·)), List.forall₂_eq_eq_eq]

/-- **A register of 16 bits is wide enough for three digits**: it never overflows on the way. -/
theorem countWithin_short {part : Bytes} (hshort : part.length ≤ 3)
    (hdigits : ∀ b ∈ part, isDigit b = true) :
    countWithin 0xFFFF 0 part = some (decimalValue part) := by
  have hlt : positional part < 10 ^ 3 :=
    Nat.lt_of_lt_of_le (positional_lt hdigits) (Nat.pow_le_pow_right (by decide) hshort)
  rw [countWithin_zero, decimalValue_eq]
  exact if_pos (Nat.le_trans (Nat.le_of_lt hlt) (by decide))

/-! ## The whole text -/

theorem tuple?_eq_some {text : Bytes} {ns : List Nat} :
    tuple? text = some ns ↔
      (text.splitOn period).length ≤ 10 ∧ (∀ part ∈ text.splitOn period, TuplePart part) ∧
        ns = ((text.splitOn period).map positional).rightpad 3 0 := by
  rw [tuple?, parts_eq_splitOn]
  split
  case isTrue hmany =>
    refine ⟨fun hnone => absurd hnone.symm (Option.some_ne_none ns), ?_⟩
    rintro ⟨hfew, -⟩
    exact absurd hmany (Nat.not_lt.2 hfew)
  case isFalse hmany =>
    have hfew : (text.splitOn period).length ≤ 10 := Nat.not_lt.1 hmany
    rw [and_iff_right hfew, Option.map_eq_some_iff]
    simp only [tupleParts_eq_some]
    constructor
    · rintro ⟨ms, ⟨hparts, rfl⟩, rfl⟩
      exact ⟨hparts, rfl⟩
    · rintro ⟨hparts, rfl⟩
      exact ⟨_, ⟨hparts, rfl⟩, rfl⟩

/-- A tuple has three numbers to ten, and each fits a byte. -/
theorem tuple?_bounds {text : Bytes} {ns : List Nat} (h : tuple? text = some ns) :
    3 ≤ ns.length ∧ ns.length ≤ 10 ∧ ∀ n ∈ ns, n ≤ 255 := by
  obtain ⟨hfew, hparts, rfl⟩ := tuple?_eq_some.1 h
  rw [List.length_rightpad, List.length_map]
  refine ⟨Nat.le_max_left _ _, Nat.max_le.2 ⟨by decide, hfew⟩, fun n hn => ?_⟩
  obtain hn | hn := List.mem_append.1 hn
  · obtain ⟨part, hmem, rfl⟩ := List.mem_map.1 hn
    exact (hparts part hmem).small
  · rw [List.eq_of_mem_replicate hn]
    exact Nat.zero_le 255

/-- A text is a tuple when it has at most ten parts and each of them is up to three digits of a value
up to 255. The tuple is the values, with zeros behind them up to three, so it has three numbers to
ten; and on the way to the value of a part a register of 16 bits does not overflow, whether or not the
part is too great. -/
theorem tuple?_exact (text : Bytes) :
    (∀ ns, tuple? text = some ns ↔
      (text.splitOn period).length ≤ 10 ∧ (∀ part ∈ text.splitOn period, TuplePart part) ∧
        ns = ((text.splitOn period).map positional).rightpad 3 0) ∧
    (∀ ns, tuple? text = some ns → 3 ≤ ns.length ∧ ns.length ≤ 10 ∧ ∀ n ∈ ns, n ≤ 255) ∧
    ∀ part ∈ text.splitOn period, part.length ≤ 3 → (∀ b ∈ part, isDigit b = true) →
      countWithin 0xFFFF 0 part = some (decimalValue part) :=
  ⟨fun _ => tuple?_eq_some, fun _ => tuple?_bounds, fun _ _ => countWithin_short⟩

/-- Nine points behind `255`: nine parts without digits. -/
theorem tuple?_exact_ten :
    tuple? (0x32 :: 0x35 :: 0x35 :: List.replicate 9 period) = some (255 :: List.replicate 9 0) ∧
    3 ≤ (255 :: List.replicate 9 0).length ∧ (255 :: List.replicate 9 0).length ≤ 10 ∧
    countWithin 0xFFFF 0 [0x32, 0x35, 0x35] = some 255 := by
  have h := tuple?_exact (0x32 :: 0x35 :: 0x35 :: List.replicate 9 period)
  have hread : tuple? (0x32 :: 0x35 :: 0x35 :: List.replicate 9 period) =
      some (255 :: List.replicate 9 0) := by decide
  obtain ⟨hleast, hmost, -⟩ := h.2.1 _ hread
  have hfirst : [0x32, 0x35, 0x35] ∈
      (0x32 :: 0x35 :: 0x35 :: List.replicate 9 period).splitOn period := by
    rw [← parts_eq_splitOn]
    exact List.mem_cons_self
  exact ⟨hread, hleast, hmost, h.2.2 _ hfirst (by decide) (List.all_eq_true.1 (by decide))⟩

/-- Zeros in front are digits, and an eleventh part is one too many. -/
example : tuple? [0x30, 0x30, 0x37] = some [7, 0, 0] ∧
    tuple? [0x30, 0x30, 0x30, 0x37] = none ∧ tuple? (List.replicate 10 period) = none := by decide

end RebolScan.Literal
