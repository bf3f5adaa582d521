import RebolScan.Text.Lines

/-!
# Line breaks in text

A line break is a line feed, a carriage return, or the two in this order, which are one break. It
**ends** at its last byte (`endsBreak`), so the breaks of two stretches of text that lie side by side
add up wherever they are divided (`breaksBefore_add`), be it between the two bytes of one.

`breaksBefore` counts the breaks in front of a place and `lastBreak` finds the end of the last of
them. `Unbroken` says that there is none in between two places. `Tallies` is for whoever counts on
the way and may miss some: **who has missed none knows where the last line starts**.
-/

set_option autoImplicit false

namespace RebolScan

open Ascii

/-- A line break ends at the byte `i`: a carriage return with a line feed behind it does not end
one. -/
def endsBreak (text : Bytes) (i : Nat) : Bool :=
  byteAt text i == lineFeed || (byteAt text i == carriageReturn && byteAt text (i + 1) != lineFeed)

/-- How many line breaks end in front of the byte `pos`. -/
def breaksBefore (text : Bytes) : Nat → Nat
  | 0 => 0
  | pos + 1 => breaksBefore text pos + if endsBreak text pos then 1 else 0

/-- Where the text goes on behind the last line break in front of `pos`. -/
def lastBreak (text : Bytes) : Nat → Option Nat
  | 0 => none
  | pos + 1 => if endsBreak text pos then some (pos + 1) else lastBreak text pos

/-- No byte of a line break stands from `a` up to `b`. -/
def Unbroken (text : Bytes) (a b : Nat) : Prop :=
  ∀ i, a ≤ i → i < b → isLineBreak (byteAt text i) = false

/-- Of the line breaks in front of `n`, `lines` have been counted; if these are all, `lineStart` is
where the last of them ends. -/
structure Tallies (text : Bytes) (n lines : Nat) (lineStart : Option Nat) : Prop where
  le : lines ≤ breaksBefore text n
  last : lines = breaksBefore text n → lineStart = lastBreak text n

/-- What is taken from the front of a text meets the test. -/
theorem byteAt_takeWhile {p : UInt8 → Bool} {text : Bytes} {i : Nat}
    (h : i < (text.takeWhile p).length) : p (byteAt text i) = true := by
  induction text generalizing i with
  | nil => cases h
  | cons b rest ih =>
    by_cases hb : p b = true
    · rw [List.takeWhile_cons_of_pos hb, List.length_cons] at h
      cases i with
      | zero => exact hb
      | succ i => exact ih (Nat.lt_of_succ_lt_succ h)
    · rw [List.takeWhile_cons_of_neg hb] at h
      cases h

section

variable {text : Bytes}

theorem breaksBefore_succ (pos : Nat) :
    breaksBefore text (pos + 1) = breaksBefore text pos + if endsBreak text pos then 1 else 0 := rfl

theorem lastBreak_succ (pos : Nat) :
    lastBreak text (pos + 1) = if endsBreak text pos then some (pos + 1) else lastBreak text pos :=
  rfl

theorem isLineBreak_of_endsBreak {i : Nat} (h : endsBreak text i = true) :
    isLineBreak (byteAt text i) = true := by
  simp only [endsBreak, Bool.or_eq_true, Bool.and_eq_true] at h
  rw [isLineBreak, Bool.or_eq_true]
  rcases h with h | ⟨h, -⟩
  · exact .inl h
  · exact .inr h

theorem endsBreak_drop (n i : Nat) : endsBreak (text.drop n) i = endsBreak text (n + i) := by
  simp only [endsBreak, byteAt_drop, Nat.add_assoc]

/-! ## Counting over two stretches -/

theorem breaksBefore_add (p n : Nat) :
    breaksBefore text (p + n) = breaksBefore text p + breaksBefore (text.drop p) n := by
  induction n with
  | zero => rfl
  | succ n ih =>
    rw [← Nat.add_assoc, breaksBefore_succ, breaksBefore_succ, ih, endsBreak_drop, Nat.add_assoc]

theorem lastBreak_add (p n : Nat) :
    lastBreak text (p + n) = ((lastBreak (text.drop p) n).map (p + ·)).or (lastBreak text p) := by
  induction n with
  | zero => rfl
  | succ n ih =>
    rw [← Nat.add_assoc, lastBreak_succ, lastBreak_succ, ih, endsBreak_drop]
    split
    · rfl
    · rfl

/-- Without a break in front of a place there is no last one. -/
theorem lastBreak_of_breaksBefore {n : Nat} (h : breaksBefore text n = 0) :
    lastBreak text n = none := by
  induction n with
  | zero => rfl
  | succ n ih =>
    rw [breaksBefore_succ] at h
    rw [lastBreak_succ]
    split at h
    · cases h
    · rename_i he
      rw [if_neg he]
      exact ih h

/-- Where as many breaks are in front, the last of them is the same. -/
theorem lastBreak_eq {p n : Nat} (h : breaksBefore text (p + n) = breaksBefore text p) :
    lastBreak text (p + n) = lastBreak text p := by
  rw [breaksBefore_add] at h
  rw [lastBreak_add, lastBreak_of_breaksBefore (by omega)]
  rfl

/-! ## Stretches without a line break -/

theorem Unbroken.mono {a b a' b' : Nat} (h : Unbroken text a b) (ha : a ≤ a') (hb : b' ≤ b) :
    Unbroken text a' b' := by
  intro i hi hlt
  exact h i (Nat.le_trans ha hi) (Nat.lt_of_lt_of_le hlt hb)

theorem Unbroken.trans {a b c : Nat} (h₁ : Unbroken text a b) (h₂ : Unbroken text b c) :
    Unbroken text a c := by
  intro i hi hlt
  by_cases hb : i < b
  · exact h₁ i hi hb
  · exact h₂ i (Nat.le_of_not_lt hb) hlt

theorem unbroken_refl (a : Nat) : Unbroken text a a := by
  intro i hi hlt
  exact absurd hlt (Nat.not_lt.2 hi)

theorem unbroken_succ {a : Nat} (h : isLineBreak (byteAt text a) = false) :
    Unbroken text a (a + 1) := by
  intro i hi hlt
  obtain rfl : i = a := by omega
  exact h

theorem unbroken_drop {p n : Nat} :
    Unbroken (text.drop p) 0 n ↔ Unbroken text p (p + n) := by
  constructor
  · intro h i hi hlt
    have hb := h (i - p) (Nat.zero_le _) (by omega)
    rwa [byteAt_drop, Nat.add_sub_cancel' hi] at hb
  · intro h i _ hlt
    rw [byteAt_drop]
    exact h (p + i) (Nat.le_add_right _ _) (Nat.add_lt_add_left hlt p)

/-- The bytes at the front of a text that meet a test which no line break meets. -/
theorem unbroken_takeWhile {p : UInt8 → Bool} (hp : ∀ b, p b = true → isLineBreak b = false)
    (text : Bytes) : Unbroken text 0 (text.takeWhile p).length := by
  intro i _ hlt
  exact hp _ (byteAt_takeWhile hlt)

/-- No line breaks in a byte order mark. -/
theorem unbroken_byteOrderMark (source : Bytes) :
    Unbroken source 0 (byteOrderMarkLength source) := by
  unfold byteOrderMarkLength
  split
  · rename_i h
    obtain ⟨rest, rfl⟩ := List.isPrefixOf_iff_prefix.1 h
    intro i _ hi
    match i, hi with
    | 0, _ => rfl
    | 1, _ => rfl
    | 2, _ => rfl
  · exact unbroken_refl 0

theorem breaksBefore_of_unbroken {n : Nat} (h : Unbroken text 0 n) : breaksBefore text n = 0 := by
  induction n with
  | zero => rfl
  | succ n ih =>
    have he : endsBreak text n = false := by
      rw [← Bool.not_eq_true]
      intro he
      have hb := isLineBreak_of_endsBreak he
      rw [h n (Nat.zero_le _) (Nat.lt_succ_self n)] at hb
      cases hb
    rw [breaksBefore_succ, he, ih (h.mono (Nat.le_refl _) (Nat.le_succ _))]
    rfl

theorem breaksBefore_eq {p q : Nat} (hle : p ≤ q) (h : Unbroken text p q) :
    breaksBefore text q = breaksBefore text p := by
  obtain ⟨n, rfl⟩ := Nat.exists_eq_add_of_le hle
  rw [breaksBefore_add, breaksBefore_of_unbroken (unbroken_drop.2 h), Nat.add_zero]

/-! ## Counting on the way -/

/-- Who counts nothing has missed nothing, or has missed something. -/
theorem tallies_none (n : Nat) : Tallies text n 0 none := by
  refine ⟨Nat.zero_le _, ?_⟩
  intro h
  rw [lastBreak_of_breaksBefore h.symm]

/-- Two tallies of stretches side by side are one. -/
theorem Tallies.add {p n k m : Nat} {a b : Option Nat} (h₁ : Tallies text p k a)
    (h₂ : Tallies (text.drop p) n m b) :
    Tallies text (p + n) (k + m) ((b.map (p + ·)).or a) := by
  have h1 := h₁.le
  have h2 := h₂.le
  constructor
  · rw [breaksBefore_add]
    omega
  · intro h
    rw [breaksBefore_add] at h
    rw [lastBreak_add, h₁.last (by omega), h₂.last (by omega)]

/-- Over a stretch without a line break a tally stays what it is. -/
theorem tallies_unbroken {p q k : Nat} {a : Option Nat} (hle : p ≤ q) (h : Unbroken text p q) :
    Tallies text q k a ↔ Tallies text p k a := by
  obtain ⟨n, rfl⟩ := Nat.exists_eq_add_of_le hle
  have hb := breaksBefore_eq hle h
  constructor
  · rintro ⟨h1, h2⟩
    rw [hb] at h1 h2
    rw [lastBreak_eq hb] at h2
    exact ⟨h1, h2⟩
  · rintro ⟨h1, h2⟩
    rw [← hb] at h1 h2
    rw [← lastBreak_eq hb] at h2
    exact ⟨h1, h2⟩

/-- A line break at the front of a text is one, and ends where it says. -/
theorem tallies_lineBreak (h : isLineBreak (byteAt text 0) = true) :
    breaksBefore text (lineBreakLength text) = 1 ∧
      lastBreak text (lineBreakLength text) = some (lineBreakLength text) := by
  unfold lineBreakLength
  split
  · rename_i hc
    rw [Bool.and_eq_true, beq_iff_eq, beq_iff_eq] at hc
    have h0 : endsBreak text 0 = false := by
      rw [endsBreak, hc.1, hc.2]
      rfl
    have h1 : endsBreak text 1 = true := by
      rw [endsBreak, hc.2]
      rfl
    constructor
    · simp [breaksBefore, h0, h1]
    · simp [lastBreak, h1]
  · rename_i hc
    have h0 : endsBreak text 0 = true := by
      rw [isLineBreak, Bool.or_eq_true] at h
      rw [endsBreak, Bool.or_eq_true]
      rcases h with h | h
      · exact .inl h
      · right
        rw [h, Bool.true_and] at hc ⊢
        simpa using hc
    constructor
    · simp [breaksBefore, h0]
    · simp [lastBreak, h0]

end

end RebolScan
