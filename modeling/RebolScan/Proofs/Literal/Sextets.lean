import RebolScan.Proofs.Literal.Radix

/-!
# Which text is read in base 64

Text in base 64 is digits, and behind them signs that fill up the last group of four. It is taken
apart here into the digits' values and the number of signs (`SextetText`), and **these two decide**:
the last group must not be a single digit, and if there are signs they have to fill it up
(`Filled`). Then each four digits make three bytes, of the same 24 bits, and two or three that are
left over make one or two bytes of their leading bits (`packSextets_spec`).

What `Filled` asks of the signs it asks of any group, one of no digits too: four signs are read
where no digit is left over for them to fill up (`fill_without_digits`).
-/

set_option autoImplicit false

namespace RebolScan.Radix

open Ascii

/-- The values of the six bits of a digit in base 64, the highest first. -/
def sextetBits (value : Nat) : List Nat := [32, 16, 8, 4, 2, 1].map fun w => value / w % 2

/-- `text` is digits of base 64, of these values, and behind them `fill` signs that fill up. -/
structure SextetText (values : List Nat) (fill : Nat) (text : Bytes) : Prop where
  range : ∀ v ∈ values, v < 64
  spelled : text = values.map sextetDigit ++ List.replicate fill equal

/-- In groups of four `count` digits leave more than one or none over, and `fill` signs, if there are
any, make the last group one of four. -/
def Filled (count fill : Nat) : Prop := count % 4 ≠ 1 ∧ (fill = 0 ∨ count % 4 + fill = 4)

/-- What is read of a text: no white space, and nothing from the first delimiter on. -/
def dense (delimiter : Option UInt8) (text : Bytes) : Bytes :=
  (match delimiter with
    | some d => text.takeWhile (· != d)
    | none => text).filter fun b => !isAnySpace b

theorem decode_sixtyFour (delimiter : Option UInt8) (text : Bytes) :
    sixtyFour.decode delimiter text = decodeSextets (dense delimiter text) := rfl

variable {values : List Nat} {fill : Nat} {text bytes : Bytes}

/-! ## Digits and signs -/

/-- A digit is what its value is written as. -/
theorem sextet?_eq_some {d : UInt8} {v : Nat} : sextet? d = some v ↔ v < 64 ∧ sextetDigit v = d := by
  have hall : ∀ d : UInt8, ∀ v ∈ sextet? d, v < 64 ∧ sextetDigit v = d :=
    forall_byte (by decide +kernel)
  constructor
  · exact hall d v
  · rintro ⟨hv, rfl⟩
    exact sextet?_sextetDigit ⟨v, hv⟩

/-- Digits that are all read are what their values are written as. -/
theorem mapM_sextet?_eq_some {data : Bytes} :
    data.mapM sextet? = some values ↔ (∀ v ∈ values, v < 64) ∧ values.map sextetDigit = data := by
  have hflip : List.Forall₂ (fun d v => v < 64 ∧ sextetDigit v = d) data values ↔
      List.Forall₂ (fun v d => v < 64 ∧ sextetDigit v = d) values data := ⟨.flip, .flip⟩
  simp only [mapM_eq_some, sextet?_eq_some]
  rw [hflip, List.forall₂_and_left, ← List.forall₂_map_left_iff (R := (· = ·)),
    List.forall₂_eq_eq_eq]

/-- The digits of such text are all of it up to the first sign. -/
theorem SextetText.data (h : SextetText values fill text) :
    text.takeWhile (· != equal) = values.map sextetDigit ∧
      text.dropWhile (· != equal) = List.replicate fill equal := by
  have hdigit : ∀ n : Fin 64, (sextetDigit n != equal) = true := by decide
  have hdata : ∀ d ∈ values.map sextetDigit, (d != equal) = true := by
    intro d hd
    obtain ⟨v, hv, rfl⟩ := List.mem_map.1 hd
    exact hdigit ⟨v, h.range v hv⟩
  have hfill : (List.replicate fill equal).takeWhile (· != equal) = [] ∧
      (List.replicate fill equal).dropWhile (· != equal) = List.replicate fill equal := by
    cases fill <;> exact ⟨rfl, rfl⟩
  rw [h.spelled, List.takeWhile_append_of_pos hdata, List.dropWhile_append_of_pos hdata, hfill.1,
    hfill.2, List.append_nil]
  exact ⟨rfl, rfl⟩

/-- Digits with signs behind them are packed if the signs fill up the last group. -/
theorem decodeSextets_of_text (h : SextetText values fill text) :
    decodeSextets text =
      if fill = 0 ∨ values.length % 4 + fill = 4 then packSextets values [] else none := by
  obtain ⟨hdata, hfill⟩ := h.data
  have hall : (List.replicate fill equal).all (· == equal) = true := by
    rw [List.all_eq_true]
    exact fun d hd => beq_iff_eq.2 (List.eq_of_mem_replicate hd)
  have htest : ((List.replicate fill equal).isEmpty ||
      values.length % 4 + (List.replicate fill equal).length == 4) = true ↔
        fill = 0 ∨ values.length % 4 + fill = 4 := by
    rw [Bool.or_eq_true, beq_iff_eq, List.length_replicate, List.isEmpty_iff,
      List.replicate_eq_nil_iff]
  rw [decodeSextets, hdata, hfill, guard_of hall, Option.bind_eq_bind, Option.bind_some,
    mapM_sextet?_eq_some.2 ⟨h.range, rfl⟩, Option.bind_eq_bind, Option.bind_some]
  split
  · rename_i hgroup
    rw [guard_of (htest.2 hgroup)]
    rfl
  · rename_i hgroup
    have hrefused : (guard (((List.replicate fill equal).isEmpty ||
        values.length % 4 + (List.replicate fill equal).length == 4) = true) : Option Unit) = none :=
      if_neg (mt htest.1 hgroup)
    rw [hrefused]
    rfl

/-- **Nothing else is read** but digits with signs behind them. -/
theorem sextetText_of_decodeSextets (h : decodeSextets text = some bytes) :
    ∃ values fill, SextetText values fill text := by
  unfold decodeSextets at h
  simp only [Option.bind_eq_bind, Option.bind_eq_some_iff, Option.guard_eq_some'] at h
  obtain ⟨-, hfill, values, hvalues, -⟩ := h
  obtain ⟨hrange, hdata⟩ := mapM_sextet?_eq_some.1 hvalues
  have hsigns : text.dropWhile (· != equal) =
      List.replicate (text.dropWhile (· != equal)).length equal := by
    rw [List.eq_replicate_iff]
    exact ⟨rfl, fun d hd => eq_of_beq (List.all_eq_true.1 hfill d hd)⟩
  refine ⟨values, (text.dropWhile (· != equal)).length, hrange, ?_⟩
  rw [hdata, ← hsigns, List.takeWhile_append_dropWhile]

/-! ## Bits -/

/-- The 24 bits of three bytes are those of the number that they are taken from. -/
theorem threeBytes_bits (n : Nat) :
    (threeBytes n).flatMap bitValues =
      [8388608, 4194304, 2097152, 1048576, 524288, 262144, 131072, 65536, 32768, 16384, 8192, 4096,
        2048, 1024, 512, 256, 128, 64, 32, 16, 8, 4, 2, 1].map fun w => n / w % 2 := by
  have hbits (m : Nat) : bitValues m.toUInt8 =
      [128, 64, 32, 16, 8, 4, 2, 1].map fun w => m % 256 / w % 2 := by
    rw [bitValues, Nat.toUInt8, UInt8.toNat_ofNat']
  simp only [threeBytes, List.flatMap_cons, List.flatMap_nil, hbits, List.map_cons, List.map_nil,
    List.cons_append, List.nil_append, List.cons.injEq, and_true]
  omega

/-- **Three bytes have the bits of the four digits that they are packed from.** -/
theorem threeBytes_sextets (a : Nat) {b c d : Nat} (hb : b < 64) (hc : c < 64) (hd : d < 64) :
    (threeBytes (((a * 64 + b) * 64 + c) * 64 + d)).flatMap bitValues =
      [a, b, c, d].flatMap sextetBits := by
  rw [threeBytes_bits]
  simp only [List.flatMap_cons, List.flatMap_nil, sextetBits, List.map_cons, List.map_nil,
    List.cons_append, List.nil_append, List.cons.injEq, and_true]
  omega

/-- **What digits are packed into**, unless one is left over: as many bytes as have all their bits in
the digits, and these are the leading bits. -/
theorem packSextets_spec : ∀ {values : List Nat}, (∀ v ∈ values, v < 64) → values.length % 4 ≠ 1 →
    ∃ bytes, (∀ packed, packSextets values packed = some (packed.reverse ++ bytes)) ∧
      bytes.length = 6 * values.length / 8 ∧
      bytes.flatMap bitValues <+: values.flatMap sextetBits
  | [], _, _ => by
    refine ⟨[], fun packed => ?_, rfl, List.prefix_rfl⟩
    rw [packSextets, List.append_nil]
  | [_], _, hone => absurd rfl hone
  | [a, b], hrange, _ => by
    simp only [List.forall_mem_cons] at hrange
    have hbits := threeBytes_sextets a hrange.2.1 (show 0 < 64 by decide) (show 0 < 64 by decide)
    have hvalue : ((a * 64 + b) * 64 + 0) * 64 + 0 = (a * 64 + b) * 4096 := by omega
    rw [hvalue] at hbits
    refine ⟨(threeBytes ((a * 64 + b) * 4096)).take 1, fun packed => rfl, by simp [threeBytes], ?_⟩
    have hlead : ((threeBytes ((a * 64 + b) * 4096)).take 1).flatMap bitValues =
        ([a, b].flatMap sextetBits).take 8 := congrArg (List.take 8) hbits
    rw [hlead]
    exact List.take_prefix _ _
  | [a, b, c], hrange, _ => by
    simp only [List.forall_mem_cons] at hrange
    have hbits := threeBytes_sextets a hrange.2.1 hrange.2.2.1 (show 0 < 64 by decide)
    have hvalue : ((a * 64 + b) * 64 + c) * 64 + 0 = ((a * 64 + b) * 64 + c) * 64 := by omega
    rw [hvalue] at hbits
    refine ⟨(threeBytes (((a * 64 + b) * 64 + c) * 64)).take 2, fun packed => rfl,
      by simp [threeBytes], ?_⟩
    have hlead : ((threeBytes (((a * 64 + b) * 64 + c) * 64)).take 2).flatMap bitValues =
        ([a, b, c].flatMap sextetBits).take 16 := congrArg (List.take 16) hbits
    rw [hlead]
    exact List.take_prefix _ _
  | a :: b :: c :: d :: values, hrange, hone => by
    simp only [List.forall_mem_cons] at hrange
    obtain ⟨-, hb, hc, hd, hrange⟩ := hrange
    have hlength : (a :: b :: c :: d :: values).length = values.length + 4 := rfl
    rw [hlength, Nat.add_mod_right] at hone
    obtain ⟨bytes, hpack, hcount, hbits⟩ := packSextets_spec hrange hone
    refine ⟨threeBytes (((a * 64 + b) * 64 + c) * 64 + d) ++ bytes, fun packed => ?_, ?_, ?_⟩
    · rw [packSextets, hpack, List.reverse_append, List.reverse_reverse, List.append_assoc]
    · rw [List.length_append, hcount, hlength]
      show 3 + _ = _
      omega
    · rw [List.flatMap_append, threeBytes_sextets a hb hc hd]
      exact (List.prefix_append_right_inj ([a, b, c, d].flatMap sextetBits)).2 hbits

/-- One digit that is left over is no group. -/
theorem packSextets_one : ∀ {values : List Nat} (packed : Bytes), values.length % 4 = 1 →
    packSextets values packed = none
  | [], _, h => absurd h (by decide)
  | [_], _, _ => rfl
  | [_, _], _, h => nomatch h
  | [_, _, _], _, h => nomatch h
  | _ :: _ :: _ :: _ :: values, _, h => by
    rw [packSextets]
    exact packSextets_one _ ((Nat.add_mod_right values.length 4).symm.trans h)

/-- **Which text is read in base 64, and as what.** Reading succeeds exactly where what is left of the
text without white space, up to the delimiter, is digits and signs that are `Filled`. Then the bytes
are as many as the digits have bits for, eight to a byte, and their bits are the leading bits of the
digits. -/
theorem decode_sixtyFour_iff (delimiter : Option UInt8) (text : Bytes) :
    ((sixtyFour.decode delimiter text).isSome = true ↔
      ∃ values fill, SextetText values fill (dense delimiter text) ∧ Filled values.length fill) ∧
    ∀ bytes, sixtyFour.decode delimiter text = some bytes →
      ∃ values fill, SextetText values fill (dense delimiter text) ∧ Filled values.length fill ∧
        bytes.length = 6 * values.length / 8 ∧
        bytes.flatMap bitValues <+: values.flatMap sextetBits := by
  rw [decode_sixtyFour]
  generalize dense delimiter text = t
  have hread (bytes : Bytes) (h : decodeSextets t = some bytes) :
      ∃ values fill, SextetText values fill t ∧ Filled values.length fill ∧
        bytes.length = 6 * values.length / 8 ∧
        bytes.flatMap bitValues <+: values.flatMap sextetBits := by
    obtain ⟨values, fill, ht⟩ := sextetText_of_decodeSextets h
    rw [decodeSextets_of_text ht] at h
    split at h
    · rename_i hfill
      have hone : values.length % 4 ≠ 1 := by
        intro hone
        rw [packSextets_one [] hone] at h
        cases h
      obtain ⟨read, hpack, hlength, hbits⟩ := packSextets_spec ht.range hone
      rw [hpack] at h
      cases h
      exact ⟨values, fill, ht, ⟨hone, hfill⟩, hlength, hbits⟩
    · cases h
  refine ⟨⟨fun h => ?_, ?_⟩, hread⟩
  · obtain ⟨bytes, hbytes⟩ := Option.isSome_iff_exists.1 h
    obtain ⟨values, fill, ht, hfilled, -⟩ := hread bytes hbytes
    exact ⟨values, fill, ht, hfilled⟩
  · rintro ⟨values, fill, ht, hone, hfill⟩
    obtain ⟨bytes, hpack, -⟩ := packSextets_spec ht.range hone
    rw [decodeSextets_of_text ht, if_pos hfill, hpack]
    rfl

/-- `SGVs bG8=` in front of a brace: seven digits, one sign, five bytes. -/
theorem decode_sixtyFour_hello :
    sixtyFour.decode (some braceClose) (Utf8.encode "SGVs bG8=\x7dx") = some (Utf8.encode "Hello") ∧
    ∃ values fill, SextetText values fill (Utf8.encode "SGVsbG8=") ∧ Filled values.length fill ∧
      (Utf8.encode "Hello").length = 6 * values.length / 8 ∧
      (Utf8.encode "Hello").flatMap bitValues <+: values.flatMap sextetBits := by
  have hread : sixtyFour.decode (some braceClose) (Utf8.encode "SGVs bG8=\x7dx") =
      some (Utf8.encode "Hello") := by decide +kernel
  have hdense : dense (some braceClose) (Utf8.encode "SGVs bG8=\x7dx") = Utf8.encode "SGVsbG8=" := by
    decide +kernel
  have h := (decode_sixtyFour_iff (some braceClose) (Utf8.encode "SGVs bG8=\x7dx")).2 _ hread
  rw [hdense] at h
  exact ⟨hread, h⟩

/-- **Four signs are read as no bytes**, though there is no group of two or three digits that they
would fill up. -/
theorem fill_without_digits :
    sixtyFour.decode none [equal, equal, equal, equal] = some [] ∧
    ¬∃ values fill, SextetText values fill (dense none [equal, equal, equal, equal]) ∧
      values.length % 4 ≠ 1 ∧
      (fill = 0 ∨ (values.length % 4 = 2 ∨ values.length % 4 = 3) ∧
        fill = 4 - values.length % 4) := by
  refine ⟨by decide, ?_⟩
  rintro ⟨values, fill, ht, -, hfill⟩
  obtain ⟨hdata, hsigns⟩ := ht.data
  have hnone : values = [] := List.map_eq_nil_iff.1 hdata.symm
  have hfour : fill = 4 := (List.length_replicate ▸ congrArg List.length hsigns).symm
  subst hnone hfour
  exact absurd hfill (by decide)

end RebolScan.Radix
