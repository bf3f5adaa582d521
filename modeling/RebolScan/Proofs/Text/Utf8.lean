import RebolScan.Text.Utf8

/-!
# Decoding what was encoded

The decoder finds a character at the front of its encoding whatever bytes follow
(`decodeChar_encode`), so **text that is encoded and then decoded is the text again**
(`decode?_encode`). There is one lemma for each length of a sequence. In all of them the lead byte
carries the high bits and each byte behind it six more, and what is left is which numbers a lead
byte can have and which bytes may follow it. What the decoder takes is said once, by the length of the
sequence (`Decoded`): it is no other spelling of a character, so text that was decoded encodes to the
bytes that it came from (`encode_of_decode?`).
-/

set_option autoImplicit false

namespace RebolScan.Utf8

/-! ## Bytes by their numbers -/

/-- A byte behind the first one: six bits. -/
def continuation (n : Nat) : UInt8 := UInt8.ofNat (n % 64 + 128)

theorem toNat_continuation (n : Nat) : (continuation n).toNat = n % 64 + 128 :=
  UInt8.toNat_ofNat_of_lt' (by show _ < 256; omega)

theorem isContinuation_continuation (n : Nat) : isContinuation (continuation n) = true := by
  have := toNat_continuation n
  simp only [isContinuation, Bool.and_eq_true, decide_eq_true_eq, UInt8.le_iff_toNat_le, this]
  exact ⟨by simp, by simp; omega⟩

theorem low6_continuation (n : Nat) : low6 (continuation n) = n % 64 := by
  rw [low6, toNat_continuation]
  omega

/-- How many bytes a sequence has, by the number of its lead byte. -/
theorem sequenceLength_ofNat {n : Nat} (h : n < 256) : sequenceLength (UInt8.ofNat n) =
    if n < 0x80 then some 1
    else if 0xC2 ≤ n ∧ n ≤ 0xDF then some 2
    else if 0xE0 ≤ n ∧ n ≤ 0xEF then some 3
    else if 0xF0 ≤ n ∧ n ≤ 0xF4 then some 4
    else none := by
  simp [sequenceLength, UInt8.lt_iff_toNat_lt, UInt8.le_iff_toNat_le, UInt8.toNat_ofNat_of_lt' h]

/-- Which six bits may follow a lead byte, by its number. -/
theorem secondFits_ofNat {n : Nat} (h : n < 256) (m : Nat) :
    secondFits (UInt8.ofNat n) (continuation m) =
      if n = 0xE0 then decide (32 ≤ m % 64)
      else if n = 0xED then decide (m % 64 ≤ 31)
      else if n = 0xF0 then decide (16 ≤ m % 64)
      else if n = 0xF4 then decide (m % 64 ≤ 15)
      else decide (0xC2 ≤ n ∧ n ≤ 0xF4) := by
  have hm : m % 64 ≤ 63 := by omega
  simp [secondFits, ← UInt8.toNat_inj, UInt8.le_iff_toNat_le, UInt8.toNat_ofNat_of_lt' h,
    toNat_continuation, isContinuation_continuation, hm]

/-! ## One character -/

section

variable {c : Char} (rest : Bytes)

theorem decodeChar_one (h : c.val.toNat ≤ 0x7F) :
    decodeChar (UInt8.ofNat c.val.toNat :: rest) = some (c, 1) := by
  have hlead : c.val.toNat < 256 := by omega
  have hlength : sequenceLength (UInt8.ofNat c.val.toNat) = some 1 := by
    rw [sequenceLength_ofNat hlead, if_pos (by omega)]
  simp only [decodeChar, hlength, UInt8.toNat_ofNat_of_lt' hlead]
  exact congrArg (fun c => some (c, 1)) (Char.ofNat_toNat c)

theorem decodeChar_two (h₁ : 0x7F < c.val.toNat) (h₂ : c.val.toNat ≤ 0x7FF) :
    decodeChar (UInt8.ofNat (c.val.toNat / 64 % 32 + 192) :: continuation c.val.toNat :: rest) =
      some (c, 2) := by
  have hlead : c.val.toNat / 64 % 32 + 192 < 256 := by omega
  have hlength : sequenceLength (UInt8.ofNat (c.val.toNat / 64 % 32 + 192)) = some 2 := by
    rw [sequenceLength_ofNat hlead, if_neg (by omega), if_pos (by omega)]
  have hsecond : secondFits (UInt8.ofNat (c.val.toNat / 64 % 32 + 192))
      (continuation c.val.toNat) = true := by
    rw [secondFits_ofNat hlead]
    repeat' split
    all_goals rw [decide_eq_true_iff]; omega
  have hvalue : (c.val.toNat / 64 % 32 + 192) % 32 * 64 + c.val.toNat % 64 = c.toNat := by
    show _ = c.val.toNat
    omega
  simp only [decodeChar, hlength, hsecond, if_true, low6_continuation,
    UInt8.toNat_ofNat_of_lt' hlead, hvalue, Char.ofNat_toNat]

theorem decodeChar_three (h₁ : 0x7FF < c.val.toNat) (h₂ : c.val.toNat ≤ 0xFFFF) :
    decodeChar (UInt8.ofNat (c.val.toNat / 4096 % 16 + 224) :: continuation (c.val.toNat / 64) ::
      continuation c.val.toNat :: rest) = some (c, 3) := by
  have hvalid : c.val.toNat.isValidChar := c.valid
  have hlead : c.val.toNat / 4096 % 16 + 224 < 256 := by omega
  have hlength : sequenceLength (UInt8.ofNat (c.val.toNat / 4096 % 16 + 224)) = some 3 := by
    rw [sequenceLength_ofNat hlead, if_neg (by omega), if_neg (by omega), if_pos (by omega)]
  have hsecond : secondFits (UInt8.ofNat (c.val.toNat / 4096 % 16 + 224))
      (continuation (c.val.toNat / 64)) = true := by
    rw [secondFits_ofNat hlead]
    repeat' split
    all_goals rw [decide_eq_true_iff]; unfold Nat.isValidChar at hvalid; omega
  have hvalue : ((c.val.toNat / 4096 % 16 + 224) % 16 * 64 + c.val.toNat / 64 % 64) * 64 +
      c.val.toNat % 64 = c.toNat := by
    show _ = c.val.toNat
    omega
  simp only [decodeChar, hlength, hsecond, isContinuation_continuation, Bool.and_self, if_true,
    low6_continuation, UInt8.toNat_ofNat_of_lt' hlead, hvalue, Char.ofNat_toNat]

theorem decodeChar_four (h : 0xFFFF < c.val.toNat) :
    decodeChar (UInt8.ofNat (c.val.toNat / 262144 % 8 + 240) ::
      continuation (c.val.toNat / 4096) :: continuation (c.val.toNat / 64) ::
      continuation c.val.toNat :: rest) = some (c, 4) := by
  have hvalid : c.val.toNat.isValidChar := c.valid
  unfold Nat.isValidChar at hvalid
  have hlead : c.val.toNat / 262144 % 8 + 240 < 256 := by omega
  have hlength : sequenceLength (UInt8.ofNat (c.val.toNat / 262144 % 8 + 240)) = some 4 := by
    rw [sequenceLength_ofNat hlead, if_neg (by omega), if_neg (by omega), if_neg (by omega),
      if_pos (by omega)]
  have hsecond : secondFits (UInt8.ofNat (c.val.toNat / 262144 % 8 + 240))
      (continuation (c.val.toNat / 4096)) = true := by
    rw [secondFits_ofNat hlead]
    repeat' split
    all_goals rw [decide_eq_true_iff]; omega
  have hvalue : (((c.val.toNat / 262144 % 8 + 240) % 8 * 64 + c.val.toNat / 4096 % 64) * 64 +
      c.val.toNat / 64 % 64) * 64 + c.val.toNat % 64 = c.toNat := by
    show _ = c.val.toNat
    omega
  simp only [decodeChar, hlength, hsecond, isContinuation_continuation, Bool.and_self, if_true,
    low6_continuation, UInt8.toNat_ofNat_of_lt' hlead, hvalue, Char.ofNat_toNat]

/-- **A character is found at the front of its encoding, whatever follows.** -/
theorem decodeChar_encode (c : Char) (rest : Bytes) :
    decodeChar (String.utf8EncodeChar c ++ rest) =
      some (c, (String.utf8EncodeChar c).length) := by
  unfold String.utf8EncodeChar
  dsimp only
  split
  · rename_i h
    exact decodeChar_one rest h
  · rename_i h₁
    split
    · rename_i h₂
      exact decodeChar_two rest (by omega) h₂
    · rename_i h₂
      split
      · rename_i h₃
        exact decodeChar_three rest (by omega) h₃
      · rename_i h₃
        exact decodeChar_four rest (by omega)

end

/-! ## Text -/

theorem encode_append (a b : String) : encode (a ++ b) = encode a ++ encode b := by
  simp [encode]

/-- An ASCII character is one byte. -/
theorem encodeChar_ascii {c : Char} (h : c.toNat < 128) :
    String.utf8EncodeChar c = [UInt8.ofNat c.toNat] := by
  have hc : c.val.toNat ≤ 127 := Nat.le_of_lt_succ h
  unfold String.utf8EncodeChar
  exact if_pos hc

/-- Any other starts with a byte that is not ASCII. -/
theorem encodeChar_wide {c : Char} (h : 128 ≤ c.toNat) :
    ∃ b w, String.utf8EncodeChar c = b :: w ∧ 0x80 ≤ b := by
  have hc : ¬c.val.toNat ≤ 127 := Nat.not_le.2 h
  have hlead {n m : Nat} (hn : n < m) (hm : m + 128 ≤ 256) (hle : 0 < m) :
      (0x80 : UInt8) ≤ UInt8.ofNat (n + 128) := by
    rw [UInt8.le_iff_toNat_le, UInt8.toNat_ofNat_of_lt' (by show _ < 256; omega)]
    exact Nat.le_add_left _ _
  unfold String.utf8EncodeChar
  dsimp only
  rw [if_neg hc]
  split
  · exact ⟨_, _, rfl, hlead (m := 96) (n := c.val.toNat / 64 % 32 + 64) (by omega) (by omega)
      (by omega)⟩
  · split
    · exact ⟨_, _, rfl, hlead (m := 112) (n := c.val.toNat / 4096 % 16 + 96) (by omega) (by omega)
        (by omega)⟩
    · exact ⟨_, _, rfl, hlead (m := 120) (n := c.val.toNat / 262144 % 8 + 112) (by omega) (by omega)
        (by omega)⟩

theorem encode_ofList {chars : List Char} (h : ∀ c ∈ chars, c.toNat < 128) :
    encode (String.ofList chars) = chars.map fun c => UInt8.ofNat c.toNat := by
  rw [encode, String.toList_ofList]
  induction chars with
  | nil => rfl
  | cons c chars ih =>
    rw [List.flatMap_cons, encodeChar_ascii (h c List.mem_cons_self),
      ih fun d hd => h d (List.mem_cons_of_mem c hd)]
    rfl

/-- The first byte of a character is an ASCII byte only if that is the character. -/
theorem byteAt_encodeChar_ne {c d : Char} (hd : d.toNat < 128) (h : c ≠ d) (rest : Bytes) :
    byteAt (String.utf8EncodeChar c ++ rest) 0 ≠ UInt8.ofNat d.toNat := by
  by_cases hc : c.toNat < 128
  · rw [encodeChar_ascii hc, List.singleton_append, byteAt_cons_zero]
    intro he
    have hnat := congrArg UInt8.toNat he
    rw [UInt8.toNat_ofNat_of_lt' (by show _ < 256; omega),
      UInt8.toNat_ofNat_of_lt' (by show _ < 256; omega)] at hnat
    exact h (Char.toNat_inj.1 hnat)
  · obtain ⟨b, w, hw, hb⟩ := encodeChar_wide (Nat.not_lt.1 hc)
    rw [hw, List.cons_append, byteAt_cons_zero]
    rintro rfl
    rw [UInt8.le_iff_toNat_le, UInt8.toNat_ofNat_of_lt' (by show _ < 256; omega)] at hb
    exact absurd hb (Nat.not_le.2 hd)

theorem decodeOnto_encode (chars read : List Char) :
    decodeOnto (chars.flatMap String.utf8EncodeChar) read = some (read.reverse ++ chars) := by
  induction chars generalizing read with
  | nil =>
    rw [List.flatMap_nil, decodeOnto]
    split
    · rename_i h
      cases h
    · simp
  | cons c chars ih =>
    rw [List.flatMap_cons, decodeOnto]
    split
    · rename_i c' n h
      rw [decodeChar_encode] at h
      cases h
      rw [List.drop_left, ih]
      simp
    · rename_i h
      rw [decodeChar_encode] at h
      cases h

/-- **Text that is encoded and then decoded is the text again.** -/
theorem decode?_encode (s : String) : decode? (encode s) = some s := by
  rw [decode?, encode, decodeOnto_encode]
  simp

/-! ## Encoding what was decoded -/

theorem bounds_of_sequenceLength {b : UInt8} {k : Nat} (h : sequenceLength b = some k) :
    (k = 1 ∧ b.toNat < 0x80) ∨ (k = 2 ∧ 0xC2 ≤ b.toNat ∧ b.toNat ≤ 0xDF) ∨
      (k = 3 ∧ 0xE0 ≤ b.toNat ∧ b.toNat ≤ 0xEF) ∨ (k = 4 ∧ 0xF0 ≤ b.toNat ∧ b.toNat ≤ 0xF4) := by
  have hlength := sequenceLength_ofNat b.toNat_lt
  rw [UInt8.ofNat_toNat, h] at hlength
  repeat' split at hlength
  all_goals
    simp only [Option.some.injEq, reduceCtorEq] at hlength
  all_goals omega

/-- A byte that continues a sequence carries six bits; the narrowed rows say which. -/
theorem bounds_of_secondFits {b c : UInt8} (h : secondFits b c = true) :
    0x80 ≤ c.toNat ∧ c.toNat ≤ 0xBF ∧ (b.toNat = 0xE0 → 0xA0 ≤ c.toNat) ∧
      (b.toNat = 0xED → c.toNat ≤ 0x9F) ∧ (b.toNat = 0xF0 → 0x90 ≤ c.toNat) ∧
      (b.toNat = 0xF4 → c.toNat ≤ 0x8F) := by
  unfold secondFits isContinuation at h
  simp only [beq_iff_eq, ← UInt8.toNat_inj] at h
  repeat' split at h
  all_goals
    simp only [Bool.and_eq_true, decide_eq_true_eq, UInt8.le_iff_toNat_le, UInt8.reduceToNat] at *
  all_goals omega

theorem bounds_of_isContinuation {c : UInt8} (h : isContinuation c = true) :
    0x80 ≤ c.toNat ∧ c.toNat ≤ 0xBF := by
  simpa [isContinuation, UInt8.le_iff_toNat_le] using h

theorem isContinuation_of_secondFits {b d : UInt8} (h : secondFits b d = true) :
    isContinuation d = true := by
  have hbounds := bounds_of_secondFits h
  simp only [isContinuation, Bool.and_eq_true, decide_eq_true_eq, UInt8.le_iff_toNat_le]
  exact ⟨hbounds.1, hbounds.2.1⟩

/-- What is decoded: a sequence of each length, with the bytes that fit it, and the number that its bits
make. -/
inductive Decoded : Bytes → Char → Nat → Prop
  | one {b : UInt8} {rest : Bytes} (hb : sequenceLength b = some 1) :
      Decoded (b :: rest) (Char.ofNat b.toNat) 1
  | two {b c : UInt8} {rest : Bytes} (hb : sequenceLength b = some 2) (hc : secondFits b c = true) :
      Decoded (b :: c :: rest) (Char.ofNat (b.toNat % 32 * 64 + low6 c)) 2
  | three {b c d : UInt8} {rest : Bytes} (hb : sequenceLength b = some 3)
      (hc : secondFits b c = true) (hd : isContinuation d = true) :
      Decoded (b :: c :: d :: rest) (Char.ofNat ((b.toNat % 16 * 64 + low6 c) * 64 + low6 d)) 3
  | four {b c d e : UInt8} {rest : Bytes} (hb : sequenceLength b = some 4)
      (hc : secondFits b c = true) (hd : isContinuation d = true) (he : isContinuation e = true) :
      Decoded (b :: c :: d :: e :: rest)
        (Char.ofNat (((b.toNat % 8 * 64 + low6 c) * 64 + low6 d) * 64 + low6 e)) 4

theorem decoded {s : Bytes} {c : Char} {n : Nat} (h : decodeChar s = some (c, n)) :
    Decoded s c n := by
  unfold decodeChar at h
  split at h
  · cases h
  · split at h
    · rename_i hb
      cases h
      exact .one hb
    · rename_i hb
      split at h
      · rename_i hc
        cases h
        exact .two hb hc
      · cases h
    · rename_i hb
      split at h
      · rename_i hfits
        cases h
        rw [Bool.and_eq_true] at hfits
        exact .three hb hfits.1 hfits.2
      · cases h
    · rename_i hb
      split at h
      · rename_i hfits
        cases h
        rw [Bool.and_eq_true, Bool.and_eq_true] at hfits
        exact .four hb hfits.1.1 hfits.1.2 hfits.2
      · cases h
    · cases h

/-- The bytes at the front of `s` are those of a sequence of `n`: the first says how many there are,
the second fits it, and all but the first continue it. -/
structure Sequenced (s : Bytes) (n : Nat) : Prop where
  lead : sequenceLength (byteAt s 0) = some n
  second : 1 < n → secondFits (byteAt s 0) (byteAt s 1) = true
  continued : ∀ i, 0 < i → i < n → isContinuation (byteAt s i) = true

theorem sequenced_of_decodeChar {s : Bytes} {c : Char} {n : Nat} (h : decodeChar s = some (c, n)) :
    Sequenced s n := by
  cases decoded h with
  | one hb => exact ⟨hb, fun hn => absurd hn (by decide), fun i hpos hi => absurd hi (by omega)⟩
  | two hb hc =>
    refine ⟨hb, fun _ => hc, fun i hpos hi => ?_⟩
    obtain rfl : i = 1 := by omega
    exact isContinuation_of_secondFits hc
  | three hb hc hd =>
    refine ⟨hb, fun _ => hc, fun i hpos hi => ?_⟩
    obtain rfl | rfl : i = 1 ∨ i = 2 := by omega
    · exact isContinuation_of_secondFits hc
    · exact hd
  | four hb hc hd he =>
    refine ⟨hb, fun _ => hc, fun i hpos hi => ?_⟩
    obtain rfl | rfl | rfl : i = 1 ∨ i = 2 ∨ i = 3 := by omega
    · exact isContinuation_of_secondFits hc
    · exact hd
    · exact he

theorem toNat_ofNat {n : Nat} (h : n.isValidChar) : (Char.ofNat n).val.toNat = n := by
  rw [Char.ofNat, dif_pos h]
  rfl

theorem ofNat_eq {n : Nat} {b : UInt8} (h : n = b.toNat) : UInt8.ofNat n = b := by
  rw [h, UInt8.ofNat_toNat]

/-- **A character that was decoded is encoded as it was.** -/
theorem encodeChar_of_decodeChar {s : Bytes} {c : Char} {n : Nat} (h : decodeChar s = some (c, n)) :
    String.utf8EncodeChar c = s.take n := by
  cases decoded h with
  | @one b rest hb =>
    have hb := bounds_of_sequenceLength hb
    have hv : (Char.ofNat b.toNat).val.toNat = b.toNat := toNat_ofNat (.inl (by omega))
    rw [String.utf8EncodeChar, hv]
    rw [if_pos (by omega), UInt8.ofNat_toNat]
    rfl
  | @two b c rest hb hc =>
    have hb := bounds_of_sequenceLength hb
    have hc := bounds_of_secondFits hc
    have hv := toNat_ofNat (n := b.toNat % 32 * 64 + low6 c) (.inl (by unfold low6; omega))
    unfold low6 at hv ⊢
    rw [String.utf8EncodeChar, hv]
    rw [if_neg (by omega), if_pos (by omega), ofNat_eq (b := b) (by omega),
      ofNat_eq (b := c) (by omega)]
    rfl
  | @three b c d rest hb hc hd =>
    have hb := bounds_of_sequenceLength hb
    have hc := bounds_of_secondFits hc
    have hd := bounds_of_isContinuation hd
    have hv := toNat_ofNat (n := (b.toNat % 16 * 64 + low6 c) * 64 + low6 d)
      (by unfold low6 Nat.isValidChar; omega)
    unfold low6 at hv ⊢
    rw [String.utf8EncodeChar, hv]
    rw [if_neg (by omega), if_neg (by omega), if_pos (by omega), ofNat_eq (b := b) (by omega),
      ofNat_eq (b := c) (by omega), ofNat_eq (b := d) (by omega)]
    rfl
  | @four b c d e rest hb hc hd he =>
    have hb := bounds_of_sequenceLength hb
    have hc := bounds_of_secondFits hc
    have hd := bounds_of_isContinuation hd
    have he := bounds_of_isContinuation he
    have hv := toNat_ofNat (n := ((b.toNat % 8 * 64 + low6 c) * 64 + low6 d) * 64 + low6 e)
      (by unfold low6 Nat.isValidChar; omega)
    unfold low6 at hv ⊢
    rw [String.utf8EncodeChar, hv]
    rw [if_neg (by omega), if_neg (by omega), if_neg (by omega), ofNat_eq (b := b) (by omega),
      ofNat_eq (b := c) (by omega), ofNat_eq (b := d) (by omega), ofNat_eq (b := e) (by omega)]
    rfl

/-- A character is decoded from its own bytes. -/
theorem decodeChar_take {s : Bytes} {c : Char} {n : Nat} (h : decodeChar s = some (c, n))
    (rest : Bytes) : decodeChar (s.take n ++ rest) = some (c, n) := by
  have hdecode := decodeChar_encode c rest
  rwa [encodeChar_of_decodeChar h, List.length_take_of_le (decodeChar_width h).2] at hdecode

theorem encode_of_decodeOnto {s : Bytes} {read chars : List Char} (h : decodeOnto s read = some chars) :
    ∃ found, chars = read.reverse ++ found ∧ found.flatMap String.utf8EncodeChar = s := by
  fun_induction decodeOnto s read with
  | case1 s read c n hc ih =>
    obtain ⟨found, rfl, hfound⟩ := ih h
    refine ⟨c :: found, by simp, ?_⟩
    rw [List.flatMap_cons, encodeChar_of_decodeChar hc, hfound, List.take_append_drop]
  | case2 s read hc hs =>
    cases h
    exact ⟨[], by simp, (List.isEmpty_iff.1 hs).symm⟩
  | case3 => cases h

/-- **Text that was decoded encodes to the bytes that it was decoded from.** -/
theorem encode_of_decode? {s : Bytes} {text : String} (h : decode? s = some text) :
    encode text = s := by
  obtain ⟨chars, hchars, rfl⟩ := Option.map_eq_some_iff.1 h
  obtain ⟨found, rfl, hfound⟩ := encode_of_decodeOnto hchars
  rw [encode, String.toList_ofList]
  exact hfound

theorem decode?_eq_some {s : Bytes} {text : String} : decode? s = some text ↔ encode text = s :=
  ⟨encode_of_decode?, fun h => h ▸ decode?_encode text⟩

end RebolScan.Utf8
