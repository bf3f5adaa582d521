import RebolScan.Proofs.Token.Names
import RebolScan.Proofs.Token.Written

/-!
# Names that are plain words

A name may come from behind a mark or from in front of a tag, where it is not looked at as a plain
word is. `isPlainName` says which names are words by themselves: those without angle brackets that do
not start like a number, and seven of the operators. **Of the names that words have, these and no
others are whole words again** (`isWholeWord_ofFront`).

By itself a name is a run, so its marks say exactly which specials stand in it.
-/

set_option autoImplicit false

namespace RebolScan

open Ascii

/-- The operators with an angle bracket that are words by themselves. -/
def plainOperators : List Bytes := angleOperators.erase [greater, lesser]

/-- A digit is in front, or a sign or a point or both and then a digit. -/
def startsNumber (w : Bytes) : Bool :=
  let digits := (Literal.splitSign w).2
  isDigit (byteAt digits 0) || (byteAt digits 0 == period && isDigit (byteAt digits 1))

/-- A tick stands behind a sign. -/
def startsSignTick (w : Bytes) : Bool :=
  (byteAt w 0 == plus || byteAt w 0 == minus) && byteAt w 1 == tick

section

variable {b : UInt8} {w : Bytes}

theorem Special.byte_beq (s t : Special) : (s.byte == t.byte) = decide (s = t) := by
  cases s <;> cases t <;> rfl

/-- Of all the classes only the first that is asked for is that of a number. -/
theorem isNumber_eq_isDigit (b : UInt8) : isNumber b = isDigit b := by
  unfold isNumber ByteClass.of
  cases isDigit b with
  | true => rfl
  | false =>
    simp only [Bool.false_eq_true, if_false]
    split
    case h_1 digit hof =>
      repeat' split at hof
      all_goals cases hof
    case h_2 => rfl

theorem startsNumber_sign (h : b = plus ∨ b = minus) : startsNumber (b :: w) =
    (isDigit (byteAt w 0) || (byteAt w 0 == period && isDigit (byteAt w 1))) := by
  rcases h with rfl | rfl <;> rfl

theorem startsSignTick_sign (h : b = plus ∨ b = minus) :
    startsSignTick (b :: w) = (byteAt w 0 == tick) := by
  rcases h with rfl | rfl <;> rfl

theorem startsNumber_of_ne (h1 : b ≠ plus) (h2 : b ≠ minus) : startsNumber (b :: w) =
    (isDigit b || (b == period && isDigit (byteAt w 0))) := by
  simp [startsNumber, Literal.splitSign, h1, h2, byteAt_cons_zero, byteAt_cons_succ]

theorem startsSignTick_of_ne (h1 : b ≠ plus) (h2 : b ≠ minus) : startsSignTick (b :: w) = false := by
  simp [startsSignTick, h1, h2, byteAt_cons_zero]

end

/-- The name is a word without anything in front of it or behind. -/
def isPlainName (w : Bytes) : Bool :=
  byteOrderMarkLength w == 0 && (plainOperators.contains w ||
    (!w.contains lesser && !w.contains greater && !startsNumber w && !startsSignTick w))

namespace Lexeme

/-- The lexeme is a word of `n` bytes. -/
def isWholeWord (l : Lexeme) (n : Nat) : Bool := !l.malformed && l.kind == .word && l.length == n

section

variable {l : Lexeme} {kind : TokenKind} {n : Nat}

theorem isWholeWord_good : isWholeWord (good .word n) n = true := by
  simp [isWholeWord, good]

theorem not_isWholeWord_bad {m : Nat} : isWholeWord (bad kind m) n = false := rfl

theorem not_isWholeWord_of_lt {m : Nat} (h : m < n) : isWholeWord (good .word m) n = false := by
  simp [isWholeWord, good, Nat.ne_of_lt h]

theorem not_isWholeWord_of_hasName (h : hasName l.kind = false) : isWholeWord l n = false := by
  have hkind : (l.kind == .word) = false := by
    cases hk : l.kind with
    | word =>
      rw [hk] at h
      cases h
    | _ => rfl
  rw [isWholeWord, hkind, Bool.and_false, Bool.false_and]

end

/-! ## Slashes and operators -/

theorem isWholeWord_slashes (n : Nat) :
    isWholeWord (ofFront (List.replicate (n + 1) slash)) (n + 1) = true := by
  have hall : (List.replicate (n + 1) slash).takeWhile (· == slash) = List.replicate (n + 1) slash := by
    simp
  have hnext : byteAt (List.replicate (n + 1) slash) (n + 1) = nul := by
    simp [byteAt, nul]
  show isWholeWord (slashes (List.replicate (n + 1) slash)) (n + 1) = true
  unfold slashes
  dsimp only
  rw [hall, List.length_replicate, hnext]
  exact isWholeWord_good

theorem isPlainName_slashes (n : Nat) : isPlainName (List.replicate (n + 1) slash) = true := by
  have hmark : byteOrderMarkLength (List.replicate (n + 1) slash) = 0 :=
    byteOrderMarkLength_of_ne (show slash ≠ 0xEF by decide)
  have hnot {b : UInt8} (hb : b ≠ slash) : (List.replicate (n + 1) slash).contains b = false := by
    simp [hb]
  have hnumber : startsNumber (List.replicate (n + 1) slash) = false := rfl
  have htick : startsSignTick (List.replicate (n + 1) slash) = false := rfl
  rw [isPlainName, hmark, hnot (b := lesser) (by decide), hnot (b := greater) (by decide), hnumber,
    htick]
  simp

/-- Each of the operators that start with an angle bracket is a word, or its second byte is wrong. -/
theorem isWholeWord_operator :
    ∀ w ∈ angleOperators, isWholeWord (ofFront w) w.length = isPlainName w := by decide

/-! ## Loose names -/

section

variable {b : UInt8} {w : Bytes} {f : Front} {start : Nat} (hb : isSolid firstSpecials b = true)
  (hw : Solid nameSpecials w)

include hb

/-- No angle bracket is in front of a loose name. -/
theorem not_angle : b ≠ lesser ∧ b ≠ greater := by
  constructor <;>
  · rintro rfl
    cases hb

include hw

/-- By itself a loose name is its run. -/
theorem front_loose : Front.of (b :: w) = ⟨b :: w, b :: w, Marks.ofRun (b :: w)⟩ := by
  have hsolid : Solid nameSpecials (b :: w) := by
    have hfirst : Solid firstSpecials [b] := Solid.cons hb fun _ h => absurd h List.not_mem_nil
    exact Solid.cons (hfirst.mono (by decide) b (List.mem_singleton_self b)) hw
  have hfront : Front.of (b :: w ++ []) = ⟨b :: w ++ [], b :: w, Marks.ofRun (b :: w)⟩ :=
    hsolid.front rfl
  rwa [List.append_nil] at hfront

/-- **What is taken for a word is one if no angle bracket stands in it.** One more point may be
marked. -/
theorem isWholeWord_wordTail (hrun : f.run = b :: w) (hstart : start ≤ 1)
    (hmarks : ∀ s, s ≠ .period → f.has s = (Marks.ofRun (b :: w)).has s) :
    isWholeWord (wordTail .word start f) (b :: w).length =
      (!(b :: w).contains lesser && !(b :: w).contains greater) := by
  have hstop : f.stop = (b :: w).length := congrArg List.length hrun
  have hnot {s : Special} (hs : s ∉ nameSpecials) : f.has s = false := by
    rw [hmarks s fun h => hs (by rw [h]; decide)]
    exact hw.has hs
  have hcontains {s : Special} (hs : s ≠ .period) (hne : b ≠ s.byte) :
      f.has s = (b :: w).contains s.byte := by
    rw [Bool.eq_iff_iff, hmarks s hs, Marks.has_ofRun_iff, List.contains_iff_mem, List.mem_cons,
      or_iff_right hne.symm]
  obtain ⟨hlesser, hgreater⟩ := not_angle hb
  have hl : f.has .lesser = (b :: w).contains lesser := hcontains Special.noConfusion hlesser
  have hg : f.has .greater = (b :: w).contains greater := hcontains Special.noConfusion hgreater
  have hlegal : f.marks.hasAny Marks.illegalInWord = false := by
    have hnone : ∀ s ∈ Marks.illegalInWord, s ∉ nameSpecials := by decide
    rw [Marks.hasAny, List.any_eq_false]
    exact fun s hs => Bool.eq_false_iff.1 (hnot (hnone s hs))
  have hat : f.has .atSign = false := hnot (by decide)
  have hdollar : f.has .dollar = false := hnot (by decide)
  rw [← hl, ← hg, wordTail, hnot (s := .colon) (by decide)]
  show isWholeWord (wordTail.marked .word start f f.marks) _ = _
  unfold wordTail.marked
  rw [Front.has] at hat hdollar
  rw [hat, hdollar, hlegal]
  show isWholeWord (if f.has .lesser then _ else if f.has .greater then _ else _) _ = _
  cases hless : f.has .lesser with
  | true =>
    have hmem : lesser ∈ f.run.drop start := by
      rw [hless, eq_comm, List.contains_iff_mem, List.mem_cons, or_iff_right hlesser.symm] at hl
      rw [hrun]
      rcases Nat.le_one_iff_eq_zero_or_eq_one.1 hstart with rfl | rfl
      · exact List.mem_cons_of_mem b hl
      · exact hl
    obtain ⟨i, hi⟩ := Option.isSome_iff_exists.1 (Front.isSome_find? hmem)
    rw [if_pos rfl, hi]
    split
    · rfl
    · rw [not_isWholeWord_of_lt]
      · rfl
      · rw [← hstop]
        exact (Front.find?_bounds hi).2
  | false =>
    cases f.has .greater with
    | true => rfl
    | false =>
      rw [← hstop]
      exact isWholeWord_good

theorem isWholeWord_wordTail_front (hstart : start ≤ 1) :
    isWholeWord (wordTail .word start ⟨b :: w, b :: w, Marks.ofRun (b :: w)⟩) (b :: w).length =
      (!(b :: w).contains lesser && !(b :: w).contains greater) :=
  isWholeWord_wordTail hb hw rfl hstart fun _ _ => rfl

/-- A point in front of a name is one more mark, and a digit behind it makes a number of it. -/
theorem isWholeWord_radixPoint (hstart : start ≤ 1) :
    isWholeWord (radixPoint .period start ⟨b :: w, b :: w, Marks.ofRun (b :: w)⟩) (b :: w).length =
      (!(b :: w).contains lesser && !(b :: w).contains greater &&
        !isDigit (byteAt (b :: w) (start + 1))) := by
  rw [← isNumber_eq_isDigit]
  unfold radixPoint
  dsimp only
  cases hnumber : isNumber (byteAt (b :: w) (start + 1)) with
  | true =>
    rw [Front.byte, if_pos hnumber, not_isWholeWord_of_hasName hasName_number]
    simp
  | false =>
    rw [Front.byte, if_neg (Bool.eq_false_iff.1 hnumber), Bool.not_false, Bool.and_true]
    refine isWholeWord_wordTail (f := ⟨b :: w, b :: w, (Marks.ofRun (b :: w)).insert .period⟩) hb hw
      rfl hstart fun s hs => ?_
    rw [Front.has, Marks.has_insert, decide_eq_false hs.symm, Bool.or_false]

theorem isWholeWord_signed (hsign : b = plus ∨ b = minus) :
    isWholeWord (signed ⟨b :: w, b :: w, Marks.ofRun (b :: w)⟩) (b :: w).length =
      (!(b :: w).contains lesser && !(b :: w).contains greater && !startsNumber (b :: w) &&
        !startsSignTick (b :: w)) := by
  have hnot {s : Special} (hs : s ∉ nameSpecials) :
      Front.has ⟨b :: w, b :: w, Marks.ofRun (b :: w)⟩ s = false := hw.has hs
  have hword := isWholeWord_wordTail_front hb hw (Nat.le_refl 1)
  have hmem {s : Special} (hc : ByteClass.of (byteAt w 0) = .special s) : s.byte ∈ w := by
    have hlen : 0 < w.length := lt_length_of_byteAt fun h => by rw [h] at hc; cases hc
    rw [← eq_byte_of_class hc]
    exact byteAt_mem hlen
  have hplain (h : ∀ s, ByteClass.of (byteAt w 0) ≠ .special s) :
      (byteAt w 0 == period) = false ∧ (byteAt w 0 == tick) = false :=
    ⟨beq_false_of_ne fun he => h .period (by rw [he]; rfl),
      beq_false_of_ne fun he => h .tick (by rw [he]; rfl)⟩
  rw [startsNumber_sign hsign, startsSignTick_sign hsign, ← isNumber_eq_isDigit (byteAt w 0), isNumber]
  have hbyte : Front.byte ⟨b :: w, b :: w, Marks.ofRun (b :: w)⟩ 1 = byteAt w 0 := rfl
  unfold signed
  rw [hnot (s := .dollar) (by decide), hnot (s := .colon) (by decide), if_neg Bool.false_ne_true,
    if_neg Bool.false_ne_true, hbyte]
  cases hc : ByteClass.of (byteAt w 0) with
  | number v =>
    dsimp only
    rw [not_isWholeWord_of_hasName hasName_number]
    simp
  | delimiter d =>
    obtain ⟨hperiod, htick⟩ := hplain (by rw [hc]; exact fun _ => ByteClass.noConfusion)
    rw [hperiod, htick]
    simpa using hword
  | word v =>
    obtain ⟨hperiod, htick⟩ := hplain (by rw [hc]; exact fun _ => ByteClass.noConfusion)
    rw [hperiod, htick]
    simpa using hword
  | special s =>
    have hallowed : s ∈ nameSpecials := by
      have hsolid := hw _ (hmem hc)
      rw [isSolid, class_byte] at hsolid
      simpa using hsolid
    have hmem := hmem hc
    have hperiod : (s.byte == period) = decide (s = .period) := Special.byte_beq s .period
    have htick : (s.byte == tick) = decide (s = .tick) := Special.byte_beq s .tick
    rw [eq_byte_of_class hc, hperiod, htick]
    have hangle (he : s = .lesser ∨ s = .greater) :
        (!(b :: w).contains lesser && !(b :: w).contains greater) = false := by
      have hcontains := List.contains_iff_mem.2 (List.mem_cons_of_mem b hmem)
      rcases he with rfl | rfl
      · rw [show (b :: w).contains lesser = true from hcontains, Bool.not_true, Bool.false_and]
      · rw [show (b :: w).contains greater = true from hcontains, Bool.not_true, Bool.and_false]
    cases s with
    | tick => simp [not_isWholeWord_bad]
    | lesser =>
      rw [hangle (.inl rfl)]
      rfl
    | greater =>
      rw [hangle (.inr rfl)]
      rfl
    | plus | minus => simpa using hword
    | period => simpa using isWholeWord_radixPoint hb hw (Nat.le_refl 1)
    | _ => simp [nameSpecials] at hallowed

/-- **A loose name is a whole word again** if it holds no angle bracket and starts neither like a
number nor with a sign and a tick. -/
theorem isWholeWord_loose :
    isWholeWord (ofFront (b :: w)) (b :: w).length =
      (!(b :: w).contains lesser && !(b :: w).contains greater && !startsNumber (b :: w) &&
        !startsSignTick (b :: w)) := by
  have hfront := front_loose hb hw
  have hword := isWholeWord_wordTail_front hb hw (Nat.zero_le 1)
  have hclass : ByteClass.of (byteAt (b :: w) 0) = ByteClass.of b := rfl
  unfold ofFront
  rw [hfront, hclass]
  cases hc : ByteClass.of b with
  | delimiter d =>
    rw [isSolid, hc] at hb
    cases hb
  | number v =>
    have hdigit : isDigit b = true := by rw [← isNumber_eq_isDigit, isNumber, hc]
    have hplus : b ≠ plus := fun h => by rw [h] at hc; cases hc
    have hminus : b ≠ minus := fun h => by rw [h] at hc; cases hc
    rw [startsNumber_of_ne hplus hminus, hdigit]
    simpa using not_isWholeWord_of_hasName hasName_number
  | word v =>
    have hdigit : isDigit b = false := by rw [← isNumber_eq_isDigit, isNumber, hc]
    have hplus : b ≠ plus := fun h => by rw [h] at hc; cases hc
    have hminus : b ≠ minus := fun h => by rw [h] at hc; cases hc
    have hperiod : (b == period) = false := beq_false_of_ne fun h => by rw [h] at hc; cases hc
    rw [startsNumber_of_ne hplus hminus, startsSignTick_of_ne hplus hminus, hdigit, hperiod]
    dsimp only
    split
    · rename_i honly
      have hsame : wordTail .word 0 ⟨b :: w, b :: w, Marks.ofRun (b :: w)⟩ = good .word _ :=
        wordTail_word fun s _ => Marks.has_of_isOnlyWord honly s
      rw [hsame] at hword
      simpa using hword
    · simpa using hword
  | special s =>
    obtain rfl := eq_byte_of_class hc
    have hat : (Marks.ofRun (s.byte :: w)).has .atSign = false := hw.has (by decide)
    dsimp only
    unfold special
    rw [Front.has, hat]
    cases s with
    | plus => exact isWholeWord_signed hb hw (.inl rfl)
    | minus => exact isWholeWord_signed hb hw (.inr rfl)
    | period =>
      rw [startsNumber_of_ne (by decide) (by decide), startsSignTick_of_ne (by decide) (by decide)]
      have hdigit : isDigit period = false := rfl
      simpa [Special.byte, hdigit] using isWholeWord_radixPoint hb hw (Nat.zero_le 1)
    | _ => cases hb

end

/-- **Of the names that words have, the plain ones are whole words again**, and no others are. -/
theorem isWholeWord_ofFront {name : Bytes} (h : IsWordName name) (hmark : byteOrderMarkLength name = 0) :
    isWholeWord (ofFront name) name.length = isPlainName name := by
  cases h with
  | slashes n =>
    rw [isPlainName_slashes, List.length_replicate]
    exact isWholeWord_slashes n
  | operator h => exact isWholeWord_operator _ h
  | loose hb hw =>
    rename_i b w
    have hoperator : plainOperators.contains (b :: w) = false := by
      obtain ⟨hlesser, hgreater⟩ := not_angle hb
      simp [plainOperators, angleOperators, hlesser, hgreater]
    rw [isWholeWord_loose hb hw, isPlainName, hmark, hoperator]
    simp

end Lexeme

end RebolScan
