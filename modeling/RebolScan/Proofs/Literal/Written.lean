import RebolScan.Literal.Radix
import RebolScan.Proofs.Literal.Digits
import RebolScan.Proofs.Token.Solid
import RebolScan.Value.Render

/-!
# Literals that were written

Integers, tuples and binaries are read back from the text that they are written as. Each of the three
is taken apart in the order in which its reader takes it: a sign and digits, parts between points,
digits of base 16 between braces.
-/

set_option autoImplicit false

namespace RebolScan.Literal

open Ascii

/-! ## Signs -/

/-- What stands in front of the digits of a number. -/
def signBytes (negative : Bool) : Bytes := if negative then [minus] else []

theorem splitSign_signBytes (negative : Bool) {bs : Bytes}
    (h : Ascii.isDigit (byteAt bs 0) = true) :
    splitSign (signBytes negative ++ bs) = (negative, bs) := by
  cases negative with
  | true => rfl
  | false =>
    cases bs with
    | nil => rfl
    | cons b bs =>
      rw [byteAt_cons_zero] at h
      show splitSign (b :: bs) = _
      rw [splitSign, beq_false_of_class h (by decide), beq_false_of_class h (by decide)]
      rfl

/-! ## Integers -/

theorem encode_toString_int (n : Int) :
    Utf8.encode (toString n) = signBytes (decide (n < 0)) ++ Utf8.encode (toString n.natAbs) := by
  rw [Int.toString_eq_repr, Int.repr_eq_if]
  by_cases h : 0 ≤ n
  · have hnat : n.toNat = n.natAbs := by omega
    rw [if_pos h, decide_eq_false (by omega), hnat]
    rfl
  · have hnat : (-n).toNat = n.natAbs := by omega
    rw [if_neg h, decide_eq_true (by omega), hnat, Utf8.encode_append]
    rfl

theorem Digits.filter {bs : Bytes} {n : Nat} (h : Digits bs n) : bs.filter Ascii.isDigit = bs :=
  List.filter_eq_self.2 h.isDigit

/-- A sign and digits, as the integer that they are. -/
theorem integer?_signed {bs : Bytes} {m : Nat} {n : Int} (negative : Bool) (hm : Digits bs m)
    (hn : n = if negative then -(m : Int) else m) (hfits : fitsInt64 n = true) :
    integer? (signBytes negative ++ bs) = some n := by
  have hfirst := hm.byteAt_zero []
  rw [List.append_nil] at hfirst
  have hall : bs.all isDigitOrTick = true := by
    rw [List.all_eq_true]
    intro b hb
    rw [isDigitOrTick, hm.isDigit b hb]
    rfl
  rw [integer?, splitSign_signBytes negative hfirst]
  simp only [hfirst, hall, Bool.and_self, if_true, hm.filter, hm.value, ← hn, hfits]

/-! ## Tuples -/

section

variable {separator : UInt8} {w : Bytes} (h : separator ∉ w)

theorem parts_ne_nil (separator : UInt8) (text : Bytes) : parts separator text ≠ [] := by
  cases text with
  | nil => exact List.cons_ne_nil _ _
  | cons b text =>
    rw [parts]
    split
    · exact List.cons_ne_nil _ _
    · split <;> exact List.cons_ne_nil _ _

include h

theorem parts_of_not_mem : parts separator w = [w] := by
  induction w with
  | nil => rfl
  | cons b w ih =>
    rw [List.mem_cons, not_or] at h
    rw [parts, ih h.2]
    simp [Ne.symm h.1]

theorem parts_append (rest : Bytes) :
    parts separator (w ++ separator :: rest) = w :: parts separator rest := by
  induction w with
  | nil =>
    obtain ⟨p, ps, hr⟩ := List.exists_cons_of_ne_nil (parts_ne_nil separator rest)
    simp [parts, hr]
  | cons b w ih =>
    rw [List.mem_cons, not_or] at h
    rw [List.cons_append, parts, ih h.2]
    simp [Ne.symm h.1]

end

theorem encode_tuple_cons (n m : Nat) (ns : List Nat) :
    Utf8.encode (".".intercalate ((n :: m :: ns).map toString)) = Utf8.encode (toString n) ++
      period :: Utf8.encode (".".intercalate ((m :: ns).map toString)) := by
  rw [List.map_cons, List.map_cons, String.intercalate_cons_cons, Utf8.encode_append,
    Utf8.encode_append, List.append_assoc]
  rfl

/-- The text of a tuple is its numbers with points between them. -/
theorem encode_tuple (ns : List Nat) : Utf8.encode (".".intercalate (ns.map toString)) =
    [period].intercalate (ns.map fun n => Utf8.encode (toString n)) := by
  induction ns with
  | nil => rfl
  | cons n ns ih =>
    cases ns with
    | nil =>
      rw [List.map_singleton, String.intercalate_singleton]
      exact List.intercalate_singleton.symm
    | cons m ns =>
      rw [encode_tuple_cons, ih]
      simp [List.intercalate_cons_cons]

/-- The text of a tuple falls into its parts. -/
theorem parts_tuple {ns : List Nat} (hne : ns ≠ []) :
    parts period (Utf8.encode (".".intercalate (ns.map toString))) =
      ns.map fun n => Utf8.encode (toString n) := by
  induction ns with
  | nil => exact absurd rfl hne
  | cons n ns ih =>
    have hn : period ∉ Utf8.encode (toString n) := (digits_toString n).not_mem (by decide)
    cases ns with
    | nil =>
      rw [List.map_singleton, String.intercalate_singleton]
      exact parts_of_not_mem hn
    | cons m ns =>
      rw [encode_tuple_cons, parts_append hn, ih (List.cons_ne_nil m ns)]
      rfl

theorem tuplePart?_toString {n : Nat} (h : n < 256) :
    tuplePart? (Utf8.encode (toString n)) = some n := by
  have hn := digits_toString n
  have hlength : (Utf8.encode (toString n)).length ≤ 3 := by
    rw [length_encode_toString]
    exact length_toString_le (by decide) (by omega)
  have hall : (Utf8.encode (toString n)).all Ascii.isDigit = true :=
    List.all_eq_true.2 hn.isDigit
  rw [tuplePart?, hn.value]
  exact if_pos (by simp only [hlength, hall, h, decide_true, Bool.and_self])

/-- **A tuple is read back.** -/
theorem tuple?_text {ns : List Nat} (h₁ : minTuple ≤ ns.length) (h₂ : ns.length ≤ maxTuple)
    (h : ∀ n ∈ ns, n < 256) :
    tuple? (Utf8.encode (".".intercalate (ns.map toString))) = some ns := by
  have hne : ns ≠ [] := by
    rintro rfl
    exact absurd h₁ (by decide)
  have hparts : (ns.map fun n => Utf8.encode (toString n)).mapM tuplePart? = some ns := by
    rw [mapM_eq_some, List.forall₂_map_left_iff, List.forall₂_same]
    exact fun n hn => tuplePart?_toString (h n hn)
  rw [tuple?, parts_tuple hne, if_neg (by rw [List.length_map]; omega), hparts, Option.map_some,
    Nat.sub_eq_zero_of_le h₁, List.replicate_zero, List.append_nil]

end RebolScan.Literal

namespace RebolScan

open Ascii

/-! ## Binaries -/

/-- White space that may stand between the digits of a binary: any but NUL. -/
def isDigitGap (b : UInt8) : Bool := isAnySpace b && b != nul

/-- The text holds bytes as pairs of digits of base 16, of either case, with white space anywhere. -/
inductive HexText : Bytes → Bytes → Prop
  | nil : HexText [] []
  | gap {b : UInt8} {text bytes : Bytes} (hb : isDigitGap b = true) (h : HexText text bytes) :
      HexText (b :: text) bytes
  | byte {hi lo : UInt8} {n m : Nat} {between text bytes : Bytes} (hhi : hexDigit? hi = some n)
      (hbetween : ∀ b ∈ between, isDigitGap b = true) (hlo : hexDigit? lo = some m)
      (h : HexText text bytes) :
      HexText (hi :: between ++ lo :: text) ((n * 16 + m).toUInt8 :: bytes)

/-- A digit of base 16, or white space between two. -/
def isHexTextByte (b : UInt8) : Bool := (hexDigit? b).isSome || isDigitGap b

theorem HexText.mem {text bytes : Bytes} (h : HexText text bytes) {b : UInt8} (hb : b ∈ text) :
    isHexTextByte b = true := by
  have hdigit {d : UInt8} {n : Nat} (hd : hexDigit? d = some n) : isHexTextByte d = true := by
    rw [isHexTextByte, hd]
    rfl
  have hgap {d : UInt8} (hd : isDigitGap d = true) : isHexTextByte d = true := by
    rw [isHexTextByte, hd, Bool.or_true]
  induction h with
  | nil => cases hb
  | gap hb' _ ih =>
    rcases List.mem_cons.1 hb with rfl | hb
    · exact hgap hb'
    · exact ih hb
  | byte hhi hbetween hlo _ ih =>
    rcases List.mem_append.1 hb with hb | hb
    · rcases List.mem_cons.1 hb with rfl | hb
      · exact hdigit hhi
      · exact hgap (hbetween b hb)
    · rcases List.mem_cons.1 hb with rfl | hb
      · exact hdigit hlo
      · exact ih hb

/-- Digits between a pound sign with a brace and another brace. -/
def binaryLiteral (text : Bytes) : Bytes := pound :: braceOpen :: (text ++ [braceClose])

/-- A digit of any base, what fills up base 64, or white space between two. -/
def isRadixByte (b : UInt8) : Bool := (Radix.sextet? b).isSome || b == equal || isDigitGap b

theorem Radix.isSome_sextet? (b : UInt8) :
    (Radix.sextet? b).isSome = (isLetter b || isDigit b || b == plus || b == slash) := by
  rw [Radix.sextet?, isLetter]
  repeat' split
  all_goals simp [*]

/-- Digits and the space between them stand for themselves between braces. -/
theorem radixByte_plain : ∀ b, isRadixByte b = true →
    b ≠ nul ∧ b ≠ braceClose ∧ b ≠ braceOpen ∧ b ≠ caret ∧ b < 0x80 := by
  intro b h
  have hne {c : UInt8} (hc : isRadixByte c = false) : b ≠ c := by
    rintro rfl
    rw [hc] at h
    cases h
  refine ⟨hne rfl, hne rfl, hne rfl, hne rfl, ?_⟩
  simp only [isRadixByte, Radix.isSome_sextet?, Bool.or_eq_true, beq_iff_eq] at h
  obtain ((((h | h) | rfl) | rfl) | rfl) | h := h
  · exact ascii_of_isLetter h
  · exact ascii_of_isDigit h
  · decide
  · decide
  · decide
  · exact ascii_of_isAnySpace (Bool.and_eq_true_iff.1 h).1

theorem isRadixByte_of_hexTextByte : ∀ b, isHexTextByte b = true → isRadixByte b = true := by
  intro b h
  rw [isRadixByte, Radix.isSome_sextet?]
  rcases Bool.or_eq_true_iff.1 h with hdigit | hgap
  · rcases isDigit_or_isLetter_of_hexDigit? hdigit with h | h <;> simp [h]
  · rw [hgap, Bool.or_true]

theorem HexText.isRadixByte {text bytes : Bytes} (h : HexText text bytes) :
    ∀ b ∈ text, isRadixByte b = true :=
  fun b hb => isRadixByte_of_hexTextByte b (h.mem hb)

namespace Radix

/-- What may be written in front of the pound sign for a base. -/
def leads : Radix → List Bytes
  | .two => [[0x32]]
  | .sixteen => [[], [0x31, 0x36]]
  | .sixtyFour => [[0x36, 0x34]]

/-- A base and a binary. -/
def literal (lead text : Bytes) : Bytes := lead ++ binaryLiteral text

theorem not_anySpace_of_hexDigit : ∀ b : UInt8, (hexDigit? b).isSome = true → isAnySpace b = false :=
  fun _ h => @not_anySpace_of_isSolid [] _ (isSolid_of_hexDigit? h)

/-- The digits of such text are packed into the bytes that it holds. -/
theorem packNibbles_hexText {text bytes : Bytes} (h : HexText text bytes) :
    ∃ ns, (text.filter fun b => !isAnySpace b).mapM hexDigit? = some ns ∧
      ∀ packed, packNibbles ns packed = some (packed.reverse ++ bytes) := by
  have hgap {b : UInt8} (hb : isDigitGap b = true) : isAnySpace b = true := by
    rw [isDigitGap, Bool.and_eq_true] at hb
    exact hb.1
  induction h with
  | nil => exact ⟨[], rfl, fun packed => by rw [packNibbles, List.append_nil]⟩
  | gap hb _ ih =>
    rwa [List.filter_cons_of_neg (by simp [hgap hb])]
  | @byte hi lo n m between text bytes hhi hbetween hlo _ ih =>
    obtain ⟨ns, hns, hpack⟩ := ih
    have hkeep {d : UInt8} {k : Nat} (hd : hexDigit? d = some k) : isAnySpace d = false :=
      not_anySpace_of_hexDigit d (by rw [hd]; rfl)
    have hdrop : between.filter (fun b => !isAnySpace b) = [] := by
      rw [List.filter_eq_nil_iff]
      intro b hb
      simp [hgap (hbetween b hb)]
    refine ⟨n :: m :: ns, ?_, fun packed => ?_⟩
    · rw [List.filter_append, List.filter_cons_of_pos (by simp [hkeep hhi]), hdrop,
        List.filter_cons_of_pos (by simp [hkeep hlo]), List.singleton_append, List.mapM_cons,
        List.mapM_cons, hhi, hlo, hns]
      rfl
    · rw [packNibbles, hpack, List.reverse_cons, List.append_assoc]
      rfl

/-- Up to its brace a text is all digits. -/
theorem decode_closed (base : Radix) {text : Bytes} (h : ∀ b ∈ text, isRadixByte b = true) :
    base.decode (some braceClose) (text ++ [braceClose]) = base.decode none text := by
  have htake : (text ++ [braceClose]).takeWhile (· != braceClose) = text := by
    rw [List.takeWhile_append_of_pos fun b hb => bne_iff_ne.2 (radixByte_plain b (h b hb)).2.1]
    simp
  simp only [decode, htake]

theorem decode_hexText {text bytes : Bytes} (h : HexText text bytes) :
    Radix.sixteen.decode none text = some bytes := by
  obtain ⟨ns, hns, hpack⟩ := packNibbles_hexText h
  show ((text.filter fun b => !isAnySpace b).mapM hexDigit?).bind (packNibbles · []) = _
  rw [hns, Option.bind_some, hpack]
  rfl

theorem hexDigit?_nibbleDigit {n : Nat} (h : n < 16) : hexDigit? (nibbleDigit n) = some n := by
  have hall : ∀ n : Fin 16, hexDigit? (nibbleDigit n) = some n.val := by decide
  exact hall ⟨n, h⟩

/-- The digits of a byte stand for themselves between quotes. -/
theorem nibbleDigits_plain {b d : UInt8} (h : d ∈ nibbleDigits b) :
    isAnySpace d = false ∧ d ≠ braceClose ∧ d ≠ braceOpen ∧ d ≠ caret ∧ d < 0x80 := by
  have hall : ∀ n : Fin 16, isAnySpace (nibbleDigit n) = false ∧ nibbleDigit n ≠ braceClose ∧
      nibbleDigit n ≠ braceOpen ∧ nibbleDigit n ≠ caret ∧ nibbleDigit n < 0x80 := by decide
  have hb := b.toNat_lt
  rcases List.mem_cons.1 h with rfl | h
  · exact hall ⟨b.toNat / 16, by omega⟩
  · rcases List.mem_singleton.1 h with rfl
    exact hall ⟨b.toNat % 16, by omega⟩

/-- Without a width no line is broken. -/
theorem breakLines_zero (digits : Bytes) : breakLines 0 digits = digits := by
  have hlines (start : Nat) : ((digits.zipIdx start).flatMap fun placed =>
      if 0 < placed.2 && placed.2 % 0 == 0 then [lineFeed, placed.1] else [placed.1]) = digits := by
    induction digits generalizing start with
    | nil => rfl
    | cons d digits ih =>
      have hbreak : (0 < start && start % 0 == 0) = false := by
        cases start <;> simp
      rw [List.zipIdx_cons, List.flatMap_cons, ih]
      simp only [hbreak]
      rfl
  exact hlines 0

/-- The digits of bytes in base 16, in one line. -/
def nibbles (bytes : Bytes) : Bytes := bytes.flatMap nibbleDigits

theorem encode_sixteen (bytes : Bytes) : Radix.sixteen.encode 0 bytes = nibbles bytes :=
  breakLines_zero _

/-- Digits of base 16 in one line hold the bytes that they were written for. -/
theorem hexText_nibbles (bytes : Bytes) : HexText (nibbles bytes) bytes := by
  induction bytes with
  | nil => exact .nil
  | cons b bytes ih =>
    have hlt := b.toNat_lt
    have hb : (b.toNat / 16 * 16 + b.toNat % 16).toUInt8 = b := by
      rw [Nat.div_add_mod']
      exact UInt8.ofNat_toNat
    have h := HexText.byte (hexDigit?_nibbleDigit (n := b.toNat / 16) (by omega))
      (fun _ h => absurd h List.not_mem_nil) (hexDigit?_nibbleDigit (n := b.toNat % 16) (by omega)) ih
    rw [hb] at h
    exact h

end Radix

theorem Literal.writtenRadix?_of_leads {base : Radix} {lead : Bytes} (h : lead ∈ base.leads) :
    writtenRadix? lead = some base ∧ ∀ b ∈ lead, isDigit b = true := by
  cases base with
  | two =>
    obtain rfl := List.mem_singleton.1 h
    exact ⟨rfl, List.all_eq_true.1 rfl⟩
  | sixteen =>
    rcases List.mem_cons.1 h with rfl | h
    · exact ⟨rfl, List.all_eq_true.1 rfl⟩
    · obtain rfl := List.mem_singleton.1 h
      exact ⟨rfl, List.all_eq_true.1 rfl⟩
  | sixtyFour =>
    obtain rfl := List.mem_singleton.1 h
    exact ⟨rfl, List.all_eq_true.1 rfl⟩

/-- **A binary is read in the base that is written in front of it**, however its digits are set. -/
theorem Literal.binary?_literal {base : Radix} {lead text : Bytes} (hlead : lead ∈ base.leads)
    (h : ∀ b ∈ text, isRadixByte b = true) :
    binary? (Radix.literal lead text) = base.decode none text := by
  obtain ⟨hbase, hdigits⟩ := writtenRadix?_of_leads hlead
  have hnot : braceClose ∉ text := fun hb => (radixByte_plain _ (h _ hb)).2.1 rfl
  have hopen : (Radix.literal lead text).idxOf? braceOpen = some (lead.length + 1) := by
    have hnone : List.findIdx? (· == braceOpen) lead = none := by
      refine List.idxOf?_eq_none_iff.2 fun hb => ?_
      exact absurd (hdigits _ hb) (by decide)
    have hpound : (pound == braceOpen) = false := rfl
    rw [List.idxOf?, Radix.literal, List.findIdx?_append, hnone]
    simp [binaryLiteral, List.findIdx?_cons, hpound, Nat.add_comm]
  have hclose : (List.idxOf? braceClose (text ++ [braceClose]) ==
      some ((text ++ [braceClose]).length - 1)) = true := by
    have hnone : List.findIdx? (· == braceClose) text = none := List.idxOf?_eq_none_iff.2 hnot
    rw [List.idxOf?, List.findIdx?_append, hnone, List.length_append]
    simp
  have htake : (Radix.literal lead text).take (lead.length + 1) = lead ++ [pound] := by
    rw [Radix.literal, List.take_length_add_append]
    rfl
  have hdrop : (Radix.literal lead text).drop (lead.length + 1 + 1) = text ++ [braceClose] := by
    rw [Radix.literal, Nat.add_assoc, List.drop_length_add_append]
    rfl
  have hlast : dropLast? pound (lead ++ [pound]) = some lead := by
    simp [dropLast?]
  rw [binary?, hopen, Option.bind_eq_bind, Option.bind_some, htake, hlast, Option.bind_eq_bind,
    Option.bind_some, hbase, Option.bind_eq_bind, Option.bind_some, hdrop, ← Radix.decode_closed base h]
  dsimp only
  rw [guard_of hclose]
  rfl

theorem encode_binaryText (bytes : Bytes) :
    Utf8.encode (binaryText bytes) =
      pound :: braceOpen :: (Radix.nibbles bytes ++ [braceClose]) := by
  have htoNat (d : UInt8) : (Char.ofUInt8 d).toNat = d.toNat := rfl
  have hdigits : Utf8.encode (String.ofList ((Radix.nibbles bytes).map Char.ofUInt8)) =
      Radix.nibbles bytes := by
    rw [Utf8.encode_ofList, List.map_map]
    · simp [Function.comp_def, htoNat]
    · intro c hc
      obtain ⟨d, hd, rfl⟩ := List.mem_map.1 hc
      exact UInt8.lt_iff_toNat_lt.1 (radixByte_plain d ((Radix.hexText_nibbles bytes).isRadixByte d hd)).2.2.2.2
  rw [binaryText, Utf8.encode_append, Utf8.encode_append, Radix.encode_sixteen, hdigits]
  rfl

end RebolScan
