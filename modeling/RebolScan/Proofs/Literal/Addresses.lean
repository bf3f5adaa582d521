import RebolScan.Literal.Text
import RebolScan.Proofs.Text.Utf8

/-!
# Percent escapes

An address is text in UTF-8 some bytes of which are written by their number, so that one character
may be spelled half as it is and half by escapes. What may be written for a byte is an
`AddressByte`, and each of them carries that a percent sign is never written as it is: this alone
makes the text unambiguous, for no digit is a percent sign, and the decoder therefore meets every
percent sign that there is (`percentDecode?_append_percent`). **Reading undoes every way of writing,
and a percent sign that escapes nothing is refused in an e-mail address and kept in a URL**
(`addresses_read_back`).
-/

set_option autoImplicit false

namespace RebolScan

open Ascii

/-- A digit of base 16 in either case. -/
def hexDigitOf (capital : Bool) (n : Nat) : UInt8 :=
  (if n < 10 then 0x30 + n else (if capital then 0x41 else 0x61) + (n - 10)).toUInt8

/-- One byte as an address holds it: as it is, or after a percent sign as two digits, each of which
has a case of its own. -/
inductive AddressByte
  | bare (b : UInt8) (h : b ≠ percent)
  | escaped (b : UInt8) (high low : Bool)

namespace AddressByte

/-- The byte that is meant. -/
def byte : AddressByte → UInt8
  | bare b _ | escaped b _ _ => b

/-- What is written for it. -/
def text : AddressByte → Bytes
  | bare b _ => [b]
  | escaped b high low =>
    [percent, hexDigitOf high (b.toNat / 16), hexDigitOf low (b.toNat % 16)]

/-- An at sign that is written as it is. -/
def isAt : AddressByte → Bool
  | bare b _ => b == atSign
  | escaped _ _ _ => false

end AddressByte

/-- The bytes that an address means. -/
def addressBytes (ps : List AddressByte) : Bytes := ps.map AddressByte.byte

/-- The text of an address. -/
def addressText (ps : List AddressByte) : Bytes := ps.flatMap AddressByte.text

/-! ## Digits -/

/-- A digit has the value that it is written for, and is neither sign that an address knows. -/
theorem hexDigitOf_spec (capital : Bool) {n : Nat} (h : n < 16) :
    hexDigit? (hexDigitOf capital n) = some n ∧ hexDigitOf capital n ≠ atSign := by
  have hall : ∀ capital : Bool, ∀ n : Fin 16,
      hexDigit? (hexDigitOf capital n) = some n.val ∧ hexDigitOf capital n ≠ atSign := by decide
  exact hall capital ⟨n, h⟩

/-- Nothing else has a value. -/
theorem exists_hexDigitOf {d : UInt8} {n : Nat} (h : hexDigit? d = some n) :
    n < 16 ∧ ∃ capital, d = hexDigitOf capital n := by
  have hbyte {k : Nat} (hk : d.toNat = k) : d = k.toUInt8 := by
    rw [← hk]
    exact UInt8.ofNat_toNat.symm
  have hbounds {low high : UInt8} (hd : (low ≤ d && d ≤ high) = true) :
      low.toNat ≤ d.toNat ∧ d.toNat ≤ high.toNat := by
    simpa only [Bool.and_eq_true, decide_eq_true_eq, UInt8.le_iff_toNat_le] using hd
  -- A letter counts from ten on, in either case.
  have hletter {base : Nat} (capital : Bool) (hbase : base = if capital then 0x41 else 0x61)
      (hd : base ≤ d.toNat ∧ d.toNat ≤ base + 5)
      (hword : (ByteClass.word (d.toNat - base + 10)).hexDigit? = some n) :
      n < 16 ∧ ∃ capital, d = hexDigitOf capital n := by
    obtain rfl : d.toNat - base + 10 = n := Option.some.inj hword
    refine ⟨by omega, capital, hbyte ?_⟩
    rw [if_neg (by omega), ← hbase]
    omega
  unfold hexDigit? ByteClass.of at h
  split at h
  case isTrue hdigit =>
    obtain ⟨hlow, hhigh⟩ : 0x30 ≤ d.toNat ∧ d.toNat ≤ 0x39 := hbounds hdigit
    obtain rfl : d.toNat - 0x30 = n := Option.some.inj h
    refine ⟨by omega, true, hbyte ?_⟩
    rw [if_pos (by omega)]
    omega
  case isFalse =>
    split at h
    case isTrue hupper => exact hletter true rfl (hbounds hupper) h
    case isFalse =>
      split at h
      case isTrue hlower => exact hletter false rfl (hbounds hlower) h
      case isFalse =>
        repeat' split at h
        all_goals cases h

/-! ## Percent signs that escape nothing -/

/-- A percent sign in front of `rest` is not the start of an escape. -/
def Stray (rest : Bytes) : Prop :=
  ∀ b high low, ¬ (AddressByte.escaped b high low).text <+: percent :: rest

/-- It is one if two digits come next. -/
theorem not_stray {rest : Bytes} {hi lo : Nat} (hhi : hexDigit? (byteAt rest 0) = some hi)
    (hlo : hexDigit? (byteAt rest 1) = some lo) : ¬ Stray rest := by
  obtain ⟨hhi16, high, hhigh⟩ := exists_hexDigitOf hhi
  obtain ⟨hlo16, low, hlow⟩ := exists_hexDigitOf hlo
  have hnul : hexDigit? nul = none := by decide
  match rest with
  | [] => exact absurd (hnul.symm.trans hhi) (Option.some_ne_none hi).symm
  | [_] => exact absurd (hnul.symm.trans hlo) (Option.some_ne_none lo).symm
  | d :: e :: rest =>
    have hvalue : ((hi * 16 + lo).toUInt8).toNat = hi * 16 + lo := by
      rw [UInt8.toNat_ofNat', Nat.mod_eq_of_lt (by omega)]
    refine fun h => h (hi * 16 + lo).toUInt8 high low ⟨rest, ?_⟩
    rw [AddressByte.text, hvalue, show (hi * 16 + lo) / 16 = hi by omega,
      show (hi * 16 + lo) % 16 = lo by omega, ← hhigh, ← hlow]
    rfl

theorem stray_iff {rest : Bytes} :
    Stray rest ↔ hexDigit? (byteAt rest 0) = none ∨ hexDigit? (byteAt rest 1) = none := by
  constructor
  · intro h
    match hhi : hexDigit? (byteAt rest 0), hlo : hexDigit? (byteAt rest 1) with
    | none, _ => exact .inl rfl
    | some _, none => exact .inr rfl
    | some _, some _ => exact absurd h (not_stray hhi hlo)
  · rintro hnone b high low ⟨tail, htail⟩
    obtain rfl := (List.cons.inj htail).2
    have hb : b.toNat < 256 := b.toNat_lt
    have hhigh := (hexDigitOf_spec high (n := b.toNat / 16) (by omega)).1
    have hlow := (hexDigitOf_spec low (n := b.toNat % 16) (by omega)).1
    rcases hnone with hnone | hnone
    · exact absurd (hnone.symm.trans hhigh) (Option.some_ne_none _).symm
    · exact absurd (hnone.symm.trans hlow) (Option.some_ne_none _).symm

/-- Another percent sign further on does not change this, for it is no digit. -/
theorem Stray.append_percent {rest : Bytes} (h : Stray rest) (x : Bytes) :
    Stray (rest ++ percent :: x) := by
  have hpercent : hexDigit? percent = none := by decide
  rw [stray_iff] at h ⊢
  match rest with
  | [] => exact .inl hpercent
  | [_] => exact .inr hpercent
  | _ :: _ :: _ => exact h

/-- A text is empty, or it starts with a byte in one of its spellings, or with a percent sign that
escapes nothing. -/
@[elab_as_elim]
theorem address_induction {motive : Bytes → Prop} (text : Bytes) (nil : motive [])
    (byte : ∀ (p : AddressByte) rest, motive rest → motive (p.text ++ rest))
    (stray : ∀ rest, Stray rest → motive rest → motive (percent :: rest)) : motive text := by
  match text with
  | [] => exact nil
  | b :: rest =>
    by_cases hb : b = percent
    case neg => exact byte (.bare b hb) rest (address_induction rest nil byte stray)
    case pos =>
      subst hb
      by_cases hrest : Stray rest
      case pos => exact stray rest hrest (address_induction rest nil byte stray)
      case neg =>
        simp only [Stray, Classical.not_forall, Classical.not_not] at hrest
        obtain ⟨b, high, low, tail, htail⟩ := hrest
        have hshort : tail.length < rest.length := by
          have hlength := congrArg List.length htail
          simp only [AddressByte.text, List.length_append, List.length_cons] at hlength
          omega
        rw [← htail]
        exact byte (.escaped b high low) tail (address_induction tail nil byte stray)
termination_by text.length
decreasing_by all_goals simp only [List.length_cons]; omega

namespace Literal

variable {strict : Bool} {b : UInt8} {rest : Bytes}

/-! ## One step of the decoder -/

theorem percentDecode?_bare (hb : b ≠ percent) (strict : Bool) (rest : Bytes) :
    percentDecode? strict (b :: rest) = (percentDecode? strict rest).map (b :: ·) := by
  rw [percentDecode?, if_neg (by simpa using hb)]

theorem percentDecode?_escape {d e : UInt8} {hi lo : Nat} (hhi : hexDigit? d = some hi)
    (hlo : hexDigit? e = some lo) (strict : Bool) (rest : Bytes) :
    percentDecode? strict (percent :: d :: e :: rest) =
      (percentDecode? strict rest).map ((hi * 16 + lo).toUInt8 :: ·) := by
  rw [percentDecode?, if_pos (beq_self_eq_true percent)]
  simp only [byteAt_cons_zero, byteAt_cons_succ, hhi, hlo, List.drop_succ_cons, List.drop_zero]

theorem percentDecode?_stray (h : Stray rest) (strict : Bool) :
    percentDecode? strict (percent :: rest) =
      if strict then none else (percentDecode? strict rest).map (percent :: ·) := by
  rw [percentDecode?, if_pos (beq_self_eq_true percent)]
  split
  · rename_i hhi hlo
    exact absurd h (not_stray hhi hlo)
  · rfl

/-- What is written for a byte is read as this byte, whatever comes after it. -/
theorem percentDecode?_byte (p : AddressByte) (strict : Bool) (rest : Bytes) :
    percentDecode? strict (p.text ++ rest) = (percentDecode? strict rest).map (p.byte :: ·) := by
  cases p with
  | bare b hb => exact percentDecode?_bare hb strict rest
  | escaped b high low =>
    have hb : b.toNat < 256 := b.toNat_lt
    have hvalue : (b.toNat / 16 * 16 + b.toNat % 16).toUInt8 = b := by
      rw [Nat.div_add_mod' b.toNat 16]
      exact UInt8.ofNat_toNat
    have h := percentDecode?_escape (hexDigitOf_spec high (n := b.toNat / 16) (by omega)).1
      (hexDigitOf_spec low (n := b.toNat % 16) (by omega)).1 strict rest
    rwa [hvalue] at h

/-! ## The whole text -/

/-- Decoding undoes every choice of escapes, strict or not. -/
theorem percentDecode?_addressText (ps : List AddressByte) (strict : Bool) :
    percentDecode? strict (addressText ps) = some (addressBytes ps) := by
  induction ps with
  | nil => rw [addressText, List.flatMap_nil, percentDecode?]; rfl
  | cons p ps ih =>
    rw [addressText, List.flatMap_cons, percentDecode?_byte, ← addressText, ih]
    rfl

/-- Escapes hold no at sign, so that the text has those that are written as they are. -/
theorem count_addressText (ps : List AddressByte) :
    (addressText ps).count atSign = ps.countP AddressByte.isAt := by
  induction ps with
  | nil => rfl
  | cons p ps ih =>
    rw [addressText, List.flatMap_cons, List.count_append, ← addressText, ih, List.countP_cons,
      Nat.add_comm]
    congr 1
    cases p with
    | bare b _ => rw [AddressByte.text, List.count_singleton]; rfl
    | escaped b high low =>
      have hb : b.toNat < 256 := b.toNat_lt
      have hhigh := (hexDigitOf_spec high (n := b.toNat / 16) (by omega)).2
      have hlow := (hexDigitOf_spec low (n := b.toNat % 16) (by omega)).2
      rw [AddressByte.text, List.count_cons_of_ne (by decide), List.count_cons_of_ne hhigh,
        List.count_cons_of_ne hlow, List.count_nil]
      rfl

/-- The decoder meets every percent sign: the text before one is read as if it ended there. -/
theorem percentDecode?_append_percent (strict : Bool) (front rest : Bytes) :
    percentDecode? strict (front ++ percent :: rest) =
      (percentDecode? strict front).bind fun f =>
        (percentDecode? strict (percent :: rest)).map (f ++ ·) := by
  induction front using address_induction with
  | nil =>
    rw [List.nil_append, percentDecode?.eq_1, Option.bind_some]
    exact Option.map_id'.symm
  | byte p front ih =>
    rw [List.append_assoc, percentDecode?_byte, percentDecode?_byte, ih]
    cases percentDecode? strict front <;> simp [Function.comp_def]
  | stray front h ih =>
    rw [List.cons_append, percentDecode?_stray (h.append_percent rest), percentDecode?_stray h, ih]
    cases strict with
    | true => rfl
    | false => cases percentDecode? false front <;> simp [Function.comp_def]

/-- Without strictness everything can be decoded. -/
theorem percentDecode?_lenient (text : Bytes) : ∃ bytes, percentDecode? false text = some bytes := by
  induction text using address_induction with
  | nil => exact ⟨[], by rw [percentDecode?]⟩
  | byte p rest ih =>
    obtain ⟨bytes, hbytes⟩ := ih
    exact ⟨p.byte :: bytes, by rw [percentDecode?_byte, hbytes, Option.map_some]⟩
  | stray rest h ih =>
    obtain ⟨bytes, hbytes⟩ := ih
    exact ⟨percent :: bytes, by rw [percentDecode?_stray h, hbytes]; rfl⟩

/-! ## Reading addresses -/

theorem url?_addressText (ps : List AddressByte) :
    url? (addressText ps) = Utf8.decode? (addressBytes ps) := by
  rw [url?, percentDecode?_addressText]
  rfl

theorem email?_addressText (ps : List AddressByte) :
    email? (addressText ps) =
      if ps.countP AddressByte.isAt = 1 then Utf8.decode? (addressBytes ps) else none := by
  rw [email?, percentDecode?_addressText, count_addressText]
  by_cases hat : ps.countP AddressByte.isAt = 1
  case pos => rw [if_pos hat, hat]; rfl
  case neg => rw [if_neg hat, beq_false_of_ne hat]; rfl

/-- A URL is read as the text that its bytes spell in UTF-8, however they are written, and an e-mail
address is too when one at sign is not escaped. A percent sign that escapes nothing is kept in a URL,
with what stands before it and after it decoded as ever, and spoils an e-mail address. -/
theorem addresses_read_back :
    (∀ (ps : List AddressByte) (s : String),
      (url? (addressText ps) = some s ↔ Utf8.encode s = addressBytes ps) ∧
      (email? (addressText ps) = some s ↔
        Utf8.encode s = addressBytes ps ∧ ps.countP AddressByte.isAt = 1)) ∧
    ∀ front rest : Bytes, Stray rest →
      email? (front ++ percent :: rest) = none ∧
      ∃ before after, percentDecode? false front = some before ∧
        percentDecode? false rest = some after ∧
        url? (front ++ percent :: rest) = Utf8.decode? (before ++ percent :: after) := by
  refine ⟨fun ps s => ⟨?_, ?_⟩, fun front rest hstray => ⟨?_, ?_⟩⟩
  · rw [url?_addressText, Utf8.decode?_eq_some]
  · rw [email?_addressText]
    split
    case isTrue hat => rw [Utf8.decode?_eq_some, and_iff_left hat]
    case isFalse hat => exact ⟨fun h => absurd h.symm (Option.some_ne_none s), fun h => absurd h.2 hat⟩
  · rw [email?, percentDecode?_append_percent, percentDecode?_stray hstray]
    cases percentDecode? true front <;> rfl
  · obtain ⟨before, hbefore⟩ := percentDecode?_lenient front
    obtain ⟨after, hafter⟩ := percentDecode?_lenient rest
    refine ⟨before, after, hbefore, hafter, ?_⟩
    rw [url?, percentDecode?_append_percent, percentDecode?_stray hstray, hbefore, hafter]
    rfl

/-- An accented letter whose second byte alone is escaped, and `%z`, which is no escape. -/
theorem addresses_read_back_accent :
    url? (addressText [.bare 0xC3 (by decide), .escaped 0xA9 true false]) = some "é" ∧
    Stray [0x7A] ∧ email? ([0x61] ++ percent :: [0x7A]) = none := by
  have hstray : Stray [0x7A] := stray_iff.2 (.inl (by decide))
  exact ⟨((addresses_read_back.1 _ "é").1).2 (by decide), hstray,
    (addresses_read_back.2 [0x61] [0x7A] hstray).1⟩

end Literal

end RebolScan
