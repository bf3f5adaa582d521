import Mathlib.Algebra.Ring.Nat
import RebolScan.Proofs.Text.Utf8

/-!
# Sequences that are no characters

The form of a sequence has room for more numbers than there are characters, and for the same number at
several lengths (`sequence`). **The decoder takes a sequence of this form exactly when its number is a
character and has no shorter one** (`decodeChar_sequence`). So overlong forms, surrogates and numbers
past the last character are refused, and with them bytes that continue nothing and sequences that are
broken off (`IllFormed`): **what is decoded at the front of a text is what is encoded there**, and so
it is for one character after another (`decoding_inverts_encoding`).
-/

set_option autoImplicit false

namespace RebolScan.Utf8

/-- The number `n` as a sequence of `w` bytes, be it a character or none: the first byte has its `w`
highest bits set and the next one clear, and each byte behind it carries six bits. It has room for a
number below `2 ^ (5 * w + 1)`. -/
def sequence (w n : Nat) : Bytes :=
  UInt8.ofNat (256 - 2 ^ (8 - w) + n / 64 ^ (w - 1)) ::
    (List.range (w - 1)).reverse.map fun i => continuation (n / 64 ^ i)

/-- The least number that needs a sequence of `w` bytes, two at least. -/
def leastIn (w : Nat) : Nat := if w = 2 then 0x80 else 2 ^ (5 * w - 4)

/-- What no character can be decoded from, though its first byte is there. -/
inductive IllFormed : Bytes → Prop
  | overlong {w n : Nat} (hw : 2 ≤ w ∧ w ≤ 6) (h : n < leastIn w) (rest : Bytes) :
      IllFormed (sequence w n ++ rest)
  | surrogate {n : Nat} (h : 0xD800 ≤ n ∧ n ≤ 0xDFFF) (rest : Bytes) :
      IllFormed (sequence 3 n ++ rest)
  | tooGreat {w n : Nat} (hw : 4 ≤ w ∧ w ≤ 6) (h : 0x10FFFF < n) (hroom : n < 2 ^ (5 * w + 1))
      (rest : Bytes) : IllFormed (sequence w n ++ rest)
  /-- a byte that continues a sequence, and there is none -/
  | stray {b : UInt8} (h : isContinuation b = true) (rest : Bytes) : IllFormed (b :: rest)
  /-- a sequence that ends, or goes on with a byte that does not continue it, before it is whole -/
  | truncated (c : Char) {k : Nat} (hpos : 0 < k) (hk : k < (String.utf8EncodeChar c).length)
      (rest : Bytes) (h : isContinuation (byteAt rest 0) = false) :
      IllFormed ((String.utf8EncodeChar c).take k ++ rest)

/-- Characters that are decoded from the front of a text one by one, and what is left of it. -/
inductive Decodes : Bytes → List Char → Bytes → Prop
  | done (s : Bytes) : Decodes s [] s
  | char {s rest : Bytes} {c : Char} {n : Nat} {chars : List Char}
      (h : decodeChar s = some (c, n)) (hrest : Decodes (s.drop n) chars rest) :
      Decodes s (c :: chars) rest

/-! ## The form of a sequence -/

section

variable {w n : Nat}

theorem sequence_two (n : Nat) : sequence 2 n = [UInt8.ofNat (192 + n / 64), continuation n] := by
  simp [sequence, List.range_succ]

theorem sequence_three (n : Nat) : sequence 3 n =
    [UInt8.ofNat (224 + n / 4096), continuation (n / 64), continuation n] := by
  simp [sequence, List.range_succ]

theorem sequence_four (n : Nat) : sequence 4 n = [UInt8.ofNat (240 + n / 262144),
    continuation (n / 4096), continuation (n / 64), continuation n] := by
  simp [sequence, List.range_succ]

/-- The first byte of a sequence says how many it has. -/
theorem byteAt_sequence_zero (w n : Nat) (rest : Bytes) : byteAt (sequence w n ++ rest) 0 =
    UInt8.ofNat (256 - 2 ^ (8 - w) + n / 64 ^ (w - 1)) := rfl

theorem byteAt_sequence_one (w n : Nat) (rest : Bytes) :
    byteAt (sequence (w + 2) n ++ rest) 1 = continuation (n / 64 ^ w) := by
  rw [sequence, List.cons_append, byteAt_cons_succ, Nat.add_sub_assoc (by decide), List.range_succ]
  simp

/-- No character needs more than four bytes. -/
theorem le_four_of_leastIn (hn : n.isValidChar) (hleast : leastIn w ≤ n) : w ≤ 4 := by
  refine Nat.not_lt.1 fun hmore => ?_
  have hpow : 2 ^ 21 ≤ 2 ^ (5 * w - 4) := Nat.pow_le_pow_right (by decide) (by omega)
  rw [leastIn, if_neg (by omega)] at hleast
  unfold Nat.isValidChar at hn
  omega

/-- **A character is encoded in the form of a sequence**, the shortest that has room for it. -/
theorem encodeChar_eq_sequence {c : Char} (hw : 2 ≤ w) (hleast : leastIn w ≤ c.val.toNat)
    (hroom : c.val.toNat < 2 ^ (5 * w + 1)) :
    String.utf8EncodeChar c = sequence w c.val.toNat := by
  have hfour := le_four_of_leastIn c.valid hleast
  have hvalid : c.val.toNat.isValidChar := c.valid
  unfold Nat.isValidChar at hvalid
  unfold String.utf8EncodeChar
  dsimp only
  generalize c.val.toNat = n at *
  obtain rfl | rfl | rfl : w = 2 ∨ w = 3 ∨ w = 4 := by omega
  · have hleast : 0x80 ≤ n := hleast
    have hroom : n < 0x800 := hroom
    rw [if_neg (by omega), if_pos (by omega), sequence_two,
      show n / 64 % 32 + 192 = 192 + n / 64 by omega]
    rfl
  · have hleast : 0x800 ≤ n := hleast
    have hroom : n < 0x10000 := hroom
    rw [if_neg (by omega), if_neg (by omega), if_pos (by omega), sequence_three,
      show n / 4096 % 16 + 224 = 224 + n / 4096 by omega]
    rfl
  · have hleast : 0x10000 ≤ n := hleast
    rw [if_neg (by omega), if_neg (by omega), if_neg (by omega), sequence_four,
      show n / 262144 % 8 + 240 = 240 + n / 262144 by omega]
    rfl

/-- A sequence of the right form whose number is too small for it, or no character, is refused. -/
theorem decodeChar_sequence_none (hw : 2 ≤ w ∧ w ≤ 6) (hroom : n < 2 ^ (5 * w + 1))
    (hn : n < leastIn w ∨ ¬ n.isValidChar) (rest : Bytes) :
    decodeChar (sequence w n ++ rest) = none := by
  rw [Option.eq_none_iff_forall_not_mem]
  rintro ⟨c, k⟩ hc
  obtain ⟨hlead, hsecond, -⟩ := sequenced_of_decodeChar hc
  obtain ⟨v, rfl⟩ := Nat.exists_eq_add_of_le' hw.1
  rw [byteAt_sequence_zero] at hlead hsecond
  rw [byteAt_sequence_one] at hsecond
  have hbounds := bounds_of_sequenceLength hlead
  have hfits (hk : 1 < k) := bounds_of_secondFits (hsecond hk)
  rw [toNat_continuation] at hfits
  unfold leastIn Nat.isValidChar at hn
  -- Each length has the bounds of its own that the first two bytes are held against.
  obtain rfl | rfl | rfl | rfl | rfl : v = 0 ∨ v = 1 ∨ v = 2 ∨ v = 3 ∨ v = 4 := by omega
  all_goals
    simp only [Nat.reduceAdd, Nat.reduceSub, Nat.reduceMul, Nat.reducePow, Nat.div_one,
      Nat.reduceEqDiff, if_true, if_false] at *
    rw [UInt8.toNat_ofNat_of_lt' (by show _ < 256; omega)] at hbounds hfits
    omega

/-- **A sequence is decoded exactly when its number is a character that has no shorter one.** -/
theorem decodeChar_sequence (hw : 2 ≤ w ∧ w ≤ 6) (hroom : n < 2 ^ (5 * w + 1)) (rest : Bytes) :
    decodeChar (sequence w n ++ rest) =
      if leastIn w ≤ n ∧ n.isValidChar then some (Char.ofNat n, w) else none := by
  split
  case isTrue h =>
    have hn : (Char.ofNat n).val.toNat = n := toNat_ofNat h.2
    have hencode : String.utf8EncodeChar (Char.ofNat n) = sequence w n := by
      have hform := encodeChar_eq_sequence (c := Char.ofNat n) hw.1 (by rw [hn]; exact h.1)
        (by rw [hn]; exact hroom)
      rwa [hn] at hform
    have hlength : (sequence w n).length = w := by
      rw [sequence, List.length_cons, List.length_map, List.length_reverse, List.length_range]
      omega
    have hdecode := decodeChar_encode (Char.ofNat n) rest
    rwa [hencode, hlength] at hdecode
  case isFalse h =>
    refine decodeChar_sequence_none hw hroom ?_ rest
    rwa [← Nat.not_le, ← Classical.not_and_iff_not_or_not]

end

/-! ## What is refused -/

theorem leastIn_le {w : Nat} (hw : 2 ≤ w) : leastIn w ≤ 2 ^ (5 * w + 1) := by
  unfold leastIn
  split
  case isTrue h => rw [h]; decide
  case isFalse => exact Nat.pow_le_pow_right (by decide) (by omega)

/-- **No character is decoded from what is ill-formed.** -/
theorem IllFormed.decodeChar {s : Bytes} (h : IllFormed s) : Utf8.decodeChar s = none := by
  cases h with
  | overlong hw h rest =>
    rw [decodeChar_sequence hw (Nat.lt_of_lt_of_le h (leastIn_le hw.1))]
    exact if_neg fun hn => Nat.not_le.2 h hn.1
  | surrogate h rest =>
    rw [decodeChar_sequence (by decide) (Nat.lt_of_le_of_lt h.2 (by decide))]
    refine if_neg fun hn => ?_
    have hvalid := hn.2
    unfold Nat.isValidChar at hvalid
    omega
  | tooGreat hw h hroom rest =>
    rw [decodeChar_sequence ⟨Nat.le_trans (by decide) hw.1, hw.2⟩ hroom]
    refine if_neg fun hn => ?_
    have hvalid := hn.2
    unfold Nat.isValidChar at hvalid
    omega
  | @stray b h rest =>
    rw [Option.eq_none_iff_forall_not_mem]
    rintro ⟨c, n⟩ hc
    have hlead := bounds_of_sequenceLength (sequenced_of_decodeChar hc).lead
    have hb := bounds_of_isContinuation h
    rw [byteAt_cons_zero] at hlead
    omega
  | @truncated c k hpos hk rest h =>
    rw [Option.eq_none_iff_forall_not_mem]
    rintro ⟨d, n⟩ hd
    obtain ⟨hlead, -, hcontinued⟩ := sequenced_of_decodeChar hd
    have hwhole := (sequenced_of_decodeChar (decodeChar_encode c [])).lead
    -- The first byte promises the whole of the character, and the byte at `k` is not of it.
    have hfirst : byteAt ((String.utf8EncodeChar c).take k ++ rest) 0 =
        byteAt (String.utf8EncodeChar c ++ []) 0 := by
      obtain ⟨j, rfl⟩ := Nat.exists_eq_succ_of_ne_zero (Nat.ne_of_gt hpos)
      match String.utf8EncodeChar c, hk with
      | b :: w, _ => rfl
    rw [hfirst, hwhole] at hlead
    cases hlead
    have hbyte : byteAt ((String.utf8EncodeChar c).take k ++ rest) k = byteAt rest 0 := by
      have hdrop := byteAt_drop ((String.utf8EncodeChar c).take k ++ rest) k 0
      rwa [List.drop_left' (List.length_take_of_le (Nat.le_of_lt hk)), eq_comm] at hdrop
    have hbad := hcontinued k hpos hk
    rw [hbyte, h] at hbad
    cases hbad

/-! ## What is decoded -/

/-- **What is decoded at the front of a text is what is encoded there.** -/
theorem decodeChar_eq_some {s : Bytes} {c : Char} {w : Nat} :
    decodeChar s = some (c, w) ↔ w ≤ s.length ∧ s.take w = String.utf8EncodeChar c := by
  constructor
  · intro h
    exact ⟨(decodeChar_width h).2, (encodeChar_of_decodeChar h).symm⟩
  · rintro ⟨hw, h⟩
    have hdecode := decodeChar_encode c (s.drop w)
    rwa [← h, List.take_append_drop, List.length_take_of_le hw] at hdecode

/-- Characters are decoded one by one exactly where their bytes stand in a row. -/
theorem decodes_iff {s rest : Bytes} {chars : List Char} :
    Decodes s chars rest ↔ s = chars.flatMap String.utf8EncodeChar ++ rest := by
  constructor
  · intro h
    induction h with
    | done => rfl
    | @char s rest c n chars h _ ih =>
      rw [List.flatMap_cons, List.append_assoc, ← ih, encodeChar_of_decodeChar h,
        List.take_append_drop]
  · intro h
    induction chars generalizing s with
    | nil => exact h ▸ .done s
    | cons c chars ih =>
      rw [List.flatMap_cons, List.append_assoc] at h
      subst h
      exact .char (decodeChar_encode c _) (ih List.drop_left)

/-- **Decoding is the inverse of encoding at the front of any text.** A character of `w` bytes is
decoded exactly where the first `w` bytes are its encoding, whatever follows. So nothing is decoded
from a sequence that is overlong, names a surrogate or a number past the last character, starts with
a byte that continues another, or is broken off; the characters that are decoded one by one encode to
the bytes that they were decoded from, and a whole text is read exactly when it is the encoding of
what is read. -/
theorem decoding_inverts_encoding :
    (∀ (s : Bytes) (c : Char) (w : Nat), decodeChar s = some (c, w) ↔
      w ≤ s.length ∧ s.take w = String.utf8EncodeChar c) ∧
    (∀ s, IllFormed s → decodeChar s = none) ∧
    (∀ (s rest : Bytes) (chars : List Char), Decodes s chars rest ↔
      s = chars.flatMap String.utf8EncodeChar ++ rest) ∧
    ∀ (s : Bytes) (text : String), decode? s = some text ↔ encode text = s :=
  ⟨fun _ _ _ => decodeChar_eq_some, fun _ => IllFormed.decodeChar,
    fun _ _ _ => decodes_iff, fun _ _ => decode?_eq_some⟩

/-- The lowest surrogate, two bytes of the euro sign with a letter behind them, and a solidus that
takes two bytes are no characters. -/
theorem decoding_inverts_encoding_refused :
    decodeChar [0xED, 0xA0, 0x80] = none ∧ decodeChar [0xE2, 0x82, 0x41] = none ∧
      decodeChar [0xC0, 0xAF] = none :=
  ⟨decoding_inverts_encoding.2.1 _ (.surrogate (n := 0xD800) (by decide) []),
    decoding_inverts_encoding.2.1 _
      (.truncated '€' (k := 2) (by decide) (by decide) [0x41] (by decide)),
    decoding_inverts_encoding.2.1 _ (.overlong (w := 2) (n := 0x2F) (by decide) (by decide) [])⟩

end RebolScan.Utf8
