import RebolScan.Proofs.Literal.Written

/-!
# Binary text reads back

Digits that were written for bytes spell those bytes again, in each base: eight digits give a byte,
two give a byte, four give three, and what fills up a last group of four says how many bytes of it
count. Line feeds may cut the digits anywhere, since **reading sees only what is left when the white
space is gone** (`decode_breakLines`); so breaking lines is a matter apart, and each base is read back
as it is written in one line.
-/

set_option autoImplicit false

namespace RebolScan.Radix

open Ascii

variable {bytes : Bytes}

/-! ## Lines -/

/-- What does not keep line feeds does not see where lines are broken. -/
theorem filter_breakLines (width : Nat) (digits : Bytes) {keep : UInt8 → Bool}
    (h : keep lineFeed = false) : (breakLines width digits).filter keep = digits.filter keep := by
  have hlines (start : Nat) : ((digits.zipIdx start).flatMap fun placed =>
      if 0 < placed.2 && placed.2 % width == 0 then [lineFeed, placed.1] else [placed.1]).filter keep =
        digits.filter keep := by
    induction digits generalizing start with
    | nil => rfl
    | cons d digits ih =>
      have hone : (if 0 < start && start % width == 0 then [lineFeed, d] else [d]).filter keep =
          [d].filter keep := by
        split
        · rw [List.filter_cons_of_neg (by simp [h])]
        · rfl
      rw [List.zipIdx_cons, List.flatMap_cons, List.filter_append, ih, hone, ← List.filter_append]
      rfl
  exact hlines 0

theorem mem_breakLines {width : Nat} {digits : Bytes} {b : UInt8} (h : b ∈ breakLines width digits) :
    b = lineFeed ∨ b ∈ digits := by
  by_cases hb : b = lineFeed
  · exact .inl hb
  · have hkept : b ∈ (breakLines width digits).filter (· != lineFeed) :=
      List.mem_filter.2 ⟨h, bne_iff_ne.2 hb⟩
    rw [filter_breakLines width digits rfl] at hkept
    exact .inr (List.mem_filter.1 hkept).1

/-- **Where lines are broken makes no difference to what is read.** -/
theorem decode_breakLines (base : Radix) (width : Nat) (digits : Bytes) :
    base.decode none (breakLines width digits) = base.decode none digits := by
  have hdigits : (breakLines width digits).filter (fun b => !isAnySpace b) =
      digits.filter fun b => !isAnySpace b := filter_breakLines width digits rfl
  simp only [decode, hdigits]

/-- Digits without a line feed are what is left when the line feeds are taken out. -/
theorem unbroken (width : Nat) {digits : Bytes} (h : lineFeed ∉ digits) :
    (breakLines width digits).filter (· != lineFeed) = digits := by
  rw [filter_breakLines width digits rfl, List.filter_eq_self]
  intro b hb
  exact bne_iff_ne.2 fun he => h (he ▸ hb)

/-! ## Groups of digits -/

/-- The digits of base 2, in one line. -/
def bits (bytes : Bytes) : Bytes := bytes.flatMap bitDigits

/-- The values of the digits of a byte in base 2. -/
def bitValues (b : UInt8) : List Nat := [128, 64, 32, 16, 8, 4, 2, 1].map fun w => b.toNat / w % 2

theorem bit?_bitDigits : ∀ b, (bitDigits b).mapM bit? = some (bitValues b) := by
  intro b
  have hdigit (w : Nat) : bit? (0x30 + b.toNat / w % 2).toUInt8 = some (b.toNat / w % 2) := by
    rcases Nat.mod_two_eq_zero_or_one (b.toNat / w) with h | h <;> rw [h] <;> rfl
  rw [bitDigits, List.mapM_map]
  exact (congrArg (List.mapM · _) (funext hdigit)).trans List.mapM_pure

/-- Eight bits are packed into the byte whose bits they are. -/
theorem packBits_bitValues (b : UInt8) (rest : List Nat) (packed : Bytes) :
    packBits (bitValues b ++ rest) packed = packBits rest (b :: packed) := by
  have hvalue : ∀ b : UInt8, ((((((b.toNat / 128 % 2 * 2 + b.toNat / 64 % 2) * 2 +
      b.toNat / 32 % 2) * 2 + b.toNat / 16 % 2) * 2 + b.toNat / 8 % 2) * 2 + b.toNat / 4 % 2) * 2 +
      b.toNat / 2 % 2) * 2 + b.toNat / 1 % 2 = b.toNat := forall_byte (by decide +kernel)
  show packBits rest (Nat.toUInt8 _ :: packed) = _
  rw [hvalue]
  exact congrArg (fun c => packBits rest (c :: packed)) UInt8.ofNat_toNat

/-- **Bits read back.** -/
theorem packBits_bits (bytes : Bytes) :
    ∃ values, (bits bytes).mapM bit? = some values ∧
      ∀ packed, packBits values packed = some (packed.reverse ++ bytes) := by
  induction bytes with
  | nil => exact ⟨[], rfl, fun packed => by rw [packBits, List.append_nil]⟩
  | cons b bytes ih =>
    obtain ⟨values, hvalues, hpack⟩ := ih
    refine ⟨bitValues b ++ values, ?_, fun packed => ?_⟩
    · rw [bits, List.flatMap_cons, List.mapM_append, bit?_bitDigits, ← bits, hvalues]
      rfl
    · rw [packBits_bitValues, hpack, List.reverse_cons, List.append_assoc]
      rfl

/-- The values of the first `n` digits in base 64 of a number of 24 bits. -/
def sextetValues (n value : Nat) : List Nat :=
  ([262144, 4096, 64, 1].take n).map fun w => value / w % 64

theorem sextet?_sextetDigit : ∀ n : Fin 64, sextet? (sextetDigit n) = some n.val := by decide

theorem sextet?_sextetDigits (n value : Nat) :
    (sextetDigits n value).mapM sextet? = some (sextetValues n value) := by
  have hdigit (w : Nat) : sextet? (sextetDigit (value / w % 64)) = some (value / w % 64) :=
    sextet?_sextetDigit ⟨_, Nat.mod_lt _ (by decide)⟩
  rw [sextetDigits, List.mapM_map]
  exact (congrArg (List.mapM · _) (funext hdigit)).trans List.mapM_pure

/-- No digit of base 64 is taken for what fills up the last group. -/
theorem sextetDigits_ne_equal {n value : Nat} {d : UInt8} (h : d ∈ sextetDigits n value) :
    d ≠ equal := by
  have hall : ∀ n : Fin 64, sextetDigit n ≠ equal := by decide
  obtain ⟨w, -, rfl⟩ := List.mem_map.1 h
  exact hall ⟨_, Nat.mod_lt _ (by decide)⟩

/-- The number of 24 bits that three bytes make falls into the three bytes again. -/
theorem threeBytes_of (a b c : UInt8) :
    threeBytes (a.toNat * 65536 + b.toNat * 256 + c.toNat) = [a, b, c] := by
  have ha := a.toNat_lt
  have hb := b.toNat_lt
  have hc := c.toNat_lt
  have hbyte (n : Nat) (d : UInt8) (h : n % 256 = d.toNat) : n.toUInt8 = d := by
    apply UInt8.toNat_inj.1
    rw [Nat.toUInt8, UInt8.toNat_ofNat', h]
  rw [threeBytes, hbyte _ a (by omega), hbyte _ b (by omega), hbyte _ c (by omega)]

/-- The text spells bytes in base 64: digits in groups of four and, for one or two bytes that are left
over, two or three digits filled up to four. -/
inductive SpellsSextets : Bytes → Bytes → Prop
  | mk {data fill bytes : Bytes} {values : List Nat} (hdata : ∀ d ∈ data, d ≠ equal)
      (hfill : ∀ d ∈ fill, d = equal) (hvalues : data.mapM sextet? = some values)
      (hgroup : fill = [] ∨ values.length % 4 + fill.length = 4)
      (hpack : ∀ packed, packSextets values packed = some (packed.reverse ++ bytes)) :
      SpellsSextets (data ++ fill) bytes

theorem spells_nil : SpellsSextets [] [] := by
  have hnone (P : UInt8 → Prop) : ∀ d ∈ ([] : Bytes), P d := fun _ h => absurd h List.not_mem_nil
  have hpack (packed : Bytes) : packSextets [] packed = some (packed.reverse ++ []) := by
    rw [packSextets, List.append_nil]
  exact .mk (hnone _) (hnone _) rfl (.inl rfl) hpack

theorem spells_one (a : UInt8) :
    SpellsSextets (sextetDigits 2 (a.toNat * 65536) ++ [equal, equal]) [a] := by
  refine .mk (fun d => sextetDigits_ne_equal) ?_ (sextet?_sextetDigits _ _) (.inr rfl)
    fun packed => ?_
  · intro d hd
    simpa using hd
  · have ha := a.toNat_lt
    have hvalue : (a.toNat * 65536 / 262144 % 64 * 64 + a.toNat * 65536 / 4096 % 64) * 4096 =
        a.toNat * 65536 + (0 : UInt8).toNat * 256 + (0 : UInt8).toNat := by
      show _ = a.toNat * 65536 + 0 * 256 + 0
      omega
    show some (packed.reverse ++ (threeBytes _).take 1) = _
    rw [hvalue, threeBytes_of]
    rfl

theorem spells_two (a b : UInt8) :
    SpellsSextets (sextetDigits 3 (a.toNat * 65536 + b.toNat * 256) ++ [equal]) [a, b] := by
  refine .mk (fun d => sextetDigits_ne_equal) ?_ (sextet?_sextetDigits _ _) (.inr rfl)
    fun packed => ?_
  · intro d hd
    simpa using hd
  · have ha := a.toNat_lt
    have hb := b.toNat_lt
    have hvalue : (((a.toNat * 65536 + b.toNat * 256) / 262144 % 64 * 64 +
        (a.toNat * 65536 + b.toNat * 256) / 4096 % 64) * 64 +
        (a.toNat * 65536 + b.toNat * 256) / 64 % 64) * 64 =
        a.toNat * 65536 + b.toNat * 256 + (0 : UInt8).toNat := by
      show _ = a.toNat * 65536 + b.toNat * 256 + 0
      omega
    show some (packed.reverse ++ (threeBytes _).take 2) = _
    rw [hvalue, threeBytes_of]
    rfl

theorem spells_three (a b c : UInt8) {text : Bytes} (h : SpellsSextets text bytes) :
    SpellsSextets (sextetDigits 4 (a.toNat * 65536 + b.toNat * 256 + c.toNat) ++ text)
      (a :: b :: c :: bytes) := by
  obtain ⟨hdata, hfill, hvalues, hgroup, hpack⟩ := h
  rename_i data fill values
  generalize hn : a.toNat * 65536 + b.toNat * 256 + c.toNat = n
  rw [← List.append_assoc]
  refine @SpellsSextets.mk _ _ _ (sextetValues 4 n ++ values) ?_ hfill ?_ ?_ fun packed => ?_
  · intro d hd
    rcases List.mem_append.1 hd with hd | hd
    · exact sextetDigits_ne_equal hd
    · exact hdata d hd
  · rw [List.mapM_append, sextet?_sextetDigits, hvalues]
    rfl
  · refine hgroup.imp id fun h => ?_
    rw [List.length_append, show (sextetValues 4 n).length = 4 from rfl]
    omega
  · have hvalue : ((n / 262144 % 64 * 64 + n / 4096 % 64) * 64 + n / 64 % 64) * 64 + n / 1 % 64 =
        a.toNat * 65536 + b.toNat * 256 + c.toNat := by
      have ha := a.toNat_lt
      have hb := b.toNat_lt
      have hc := c.toNat_lt
      omega
    show packSextets values ((threeBytes _).reverse ++ packed) = _
    rw [hvalue, threeBytes_of, hpack]
    simp

/-- The digits written so far stay in front. -/
theorem encodeSextets_written : ∀ bytes written : Bytes,
    encodeSextets bytes written = written.reverse ++ encodeSextets bytes []
  | [], written => by simp [encodeSextets]
  | [a], written => by simp [encodeSextets]
  | [a, b], written => by simp [encodeSextets]
  | a :: b :: c :: bytes, written => by
    have hgroup (w : Bytes) : encodeSextets (a :: b :: c :: bytes) w = encodeSextets bytes
        ((sextetDigits 4 (a.toNat * 65536 + b.toNat * 256 + c.toNat)).reverse ++ w) := rfl
    rw [hgroup, hgroup, encodeSextets_written bytes (_ ++ written), encodeSextets_written bytes (_ ++ [])]
    simp

/-- **Base 64 spells what it was written for.** -/
theorem spells_encodeSextets : ∀ bytes : Bytes, SpellsSextets (encodeSextets bytes []) bytes
  | [] => spells_nil
  | [a] => spells_one a
  | [a, b] => spells_two a b
  | a :: b :: c :: bytes => by
    rw [encodeSextets, encodeSextets_written, List.append_nil, List.reverse_reverse]
    exact spells_three a b c (spells_encodeSextets bytes)

theorem decodeSextets_of_spells {text : Bytes} (h : SpellsSextets text bytes) :
    decodeSextets text = some bytes := by
  obtain ⟨hdata, hfill, hvalues, hgroup, hpack⟩ := h
  rename_i data fill values
  have hpos : ∀ d ∈ data, (d != equal) = true := fun d hd => bne_iff_ne.2 (hdata d hd)
  have hnone : fill.takeWhile (· != equal) = [] ∧ fill.dropWhile (· != equal) = fill := by
    cases fill with
    | nil => exact ⟨rfl, rfl⟩
    | cons d fill =>
      obtain rfl := hfill d List.mem_cons_self
      exact ⟨rfl, rfl⟩
  have hall : fill.all (· == equal) = true := by
    rw [List.all_eq_true]
    exact fun d hd => beq_iff_eq.2 (hfill d hd)
  have hcomplete : (fill.isEmpty || values.length % 4 + fill.length == 4) = true := by
    rcases hgroup with rfl | h
    · rfl
    · rw [h, beq_self_eq_true, Bool.or_true]
  rw [decodeSextets, List.takeWhile_append_of_pos hpos, List.dropWhile_append_of_pos hpos, hnone.1,
    hnone.2, List.append_nil]
  rw [guard_of hall, Option.bind_eq_bind, Option.bind_some, hvalues, Option.bind_eq_bind,
    Option.bind_some, guard_of hcomplete, Option.bind_some, hpack,
    List.reverse_nil, List.nil_append]

/-! ## Each base -/

/-- The digits that spell bytes, in one line. -/
def digits : Radix → Bytes → Bytes
  | .two, bytes => bits bytes
  | .sixteen, bytes => nibbles bytes
  | .sixtyFour, bytes => encodeSextets bytes []

theorem encode_eq (base : Radix) (width : Nat) (bytes : Bytes) :
    base.encode width bytes = breakLines width (base.digits bytes) := by
  cases base <;> rfl

/-- What is written is digits and what fills up a group, with no space. -/
theorem mem_digits {base : Radix} {d : UInt8} (h : d ∈ base.digits bytes) :
    isAnySpace d = false ∧ isRadixByte d = true := by
  have hbit : ∀ d, (bit? d).isSome = true → isAnySpace d = false ∧ isRadixByte d = true := by
    intro d hd
    unfold bit? at hd
    split at hd
    case isTrue hzero => exact eq_of_beq hzero ▸ ⟨rfl, rfl⟩
    case isFalse =>
      split at hd
      case isTrue hone => exact eq_of_beq hone ▸ ⟨rfl, rfl⟩
      case isFalse => cases hd
  have hsextet : ∀ d, (sextet? d).isSome = true → isAnySpace d = false ∧ isRadixByte d = true := by
    intro d hd
    refine ⟨?_, by rw [isRadixByte, hd]; rfl⟩
    simp only [isSome_sextet?, Bool.or_eq_true, beq_iff_eq] at hd
    obtain ((h | h) | rfl) | rfl := hd
    · exact @not_anySpace_of_isSolid [] _ (isSolid_of_isLetter h)
    · exact @not_anySpace_of_isSolid [] _ (isSolid_of_isDigit h)
    · rfl
    · rfl
  cases base with
  | two =>
    obtain ⟨values, hvalues, -⟩ := packBits_bits bytes
    exact hbit d (isSome_of_mapM hvalues d h)
  | sixteen =>
    obtain ⟨b, -, hd⟩ := List.mem_flatMap.1 h
    exact ⟨(nibbleDigits_plain hd).1, (hexText_nibbles bytes).isRadixByte d h⟩
  | sixtyFour =>
    have hspells := spells_encodeSextets bytes
    have h : d ∈ encodeSextets bytes [] := h
    generalize encodeSextets bytes [] = text at hspells h
    obtain ⟨-, hfill, hvalues, -, -⟩ := hspells
    rcases List.mem_append.1 h with hd | hd
    · exact hsextet d (isSome_of_mapM hvalues d hd)
    · rw [hfill d hd]
      decide

/-- **Digits in one line read back**, in each base. -/
theorem decode_digits (base : Radix) (bytes : Bytes) :
    base.decode none (base.digits bytes) = some bytes := by
  have hdigits : (base.digits bytes).filter (fun b => !isAnySpace b) = base.digits bytes := by
    rw [List.filter_eq_self]
    intro d hd
    rw [(mem_digits hd).1]
    rfl
  cases base with
  | two =>
    obtain ⟨values, hvalues, hpack⟩ := packBits_bits bytes
    show (((bits bytes).filter _).mapM bit?).bind (packBits · []) = _
    rw [show (bits bytes).filter (fun b => !isAnySpace b) = bits bytes from hdigits, hvalues,
      Option.bind_some, hpack]
    rfl
  | sixteen => exact decode_hexText (hexText_nibbles bytes)
  | sixtyFour =>
    show decodeSextets ((encodeSextets bytes []).filter _) = _
    rw [show (encodeSextets bytes []).filter (fun b => !isAnySpace b) = encodeSextets bytes [] from
      hdigits]
    exact decodeSextets_of_spells (spells_encodeSextets bytes)

end RebolScan.Radix
