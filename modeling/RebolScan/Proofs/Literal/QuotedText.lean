import RebolScan.Proofs.Literal.Digits
import RebolScan.Proofs.Token.QuotedText

/-!
# Reading quoted file names

The reader of quoted file names gives back what was written. A file name is read a second time here,
now with its escapes (`step_fileChar`): the tokenizer has only found out where it ends.
-/

set_option autoImplicit false

namespace RebolScan

open Ascii

/-! ## File names -/

theorem toNat_of_isFileEscaped {c : Char} (h : isFileEscaped c = true) : c.toNat < 128 := by
  simp only [isFileEscaped, Bool.or_eq_true, decide_eq_true_eq, beq_iff_eq] at h
  rcases h with (((((h | rfl) | rfl) | rfl) | rfl) | rfl) | rfl
  · omega
  all_goals decide

namespace Literal

/-- A byte that a quoted file name may hold as it is. -/
def isFilePlain (b : UInt8) : Bool :=
  0x20 ≤ b && b != quote && b != percent && b != caret && b != backslash && b != colon &&
    b != semicolon

/-- What is no escape and ends nothing is a character. -/
theorem step_plain {rest : Bytes} (h : isFilePlain (byteAt rest 0) = true) :
    quotedName.step rest =
      if 0x80 ≤ byteAt rest 0 then .ofChar? (Utf8.decodeChar rest)
      else .char (Char.ofNat (byteAt rest 0).toNat) 1 := by
  generalize hb : byteAt rest 0 = b at h
  simp only [isFilePlain, Bool.and_eq_true, decide_eq_true_eq, bne_iff_ne] at h
  obtain ⟨⟨⟨⟨⟨⟨hlow, hquote⟩, hpercent⟩, hcaret⟩, hbackslash⟩, hcolon⟩, hsemicolon⟩ := h
  have hnul : b ≠ nul := by
    rintro rfl
    exact absurd hlow (by decide)
  simp [NameRule.step, quotedName, hb, UInt8.not_lt.2 hlow, hnul, hquote, hpercent, hcaret,
    hbackslash, hcolon, hsemicolon]

/-- A character that is not escaped starts with such a byte. -/
theorem isFilePlain_encodeChar {c : Char} (h : isFileEscaped c = false) (rest : Bytes) :
    isFilePlain (byteAt (String.utf8EncodeChar c ++ rest) 0) = true := by
  by_cases hc : c.toNat < 128
  · have hall : ∀ n : Fin 128, isFileEscaped (Char.ofNat n) = false →
        isFilePlain (UInt8.ofNat n) = true := by decide
    have hplain := hall ⟨c.toNat, hc⟩
    rw [Char.ofNat_toNat] at hplain
    rw [Utf8.encodeChar_ascii hc, List.singleton_append, byteAt_cons_zero]
    exact hplain h
  · obtain ⟨b, w, hw, hb⟩ := Utf8.encodeChar_wide (Nat.not_lt.1 hc)
    have hall : ∀ b : UInt8, 0x80 ≤ b → isFilePlain b = true := forall_byte (by decide +kernel)
    rw [hw, List.cons_append, byteAt_cons_zero]
    exact hall b hb

/-- **Each character of a quoted file name is read back**, escaped or not. -/
theorem step_fileChar (c : Char) (rest : Bytes) :
    quotedName.step (fileChar c ++ rest) = .char c (fileChar c).length := by
  unfold fileChar
  split
  · rename_i h
    have hc := toNat_of_isFileEscaped h
    have hnat : (UInt8.ofNat c.toNat).toNat = c.toNat :=
      UInt8.toNat_ofNat_of_lt' (by show _ < 256; omega)
    show NameStep.ofChar? (percentChar? (percent :: (Radix.nibbleDigits (UInt8.ofNat c.toNat) ++
      rest))) = _
    rw [Radix.nibbleDigits, hnat]
    simp only [percentChar?, List.cons_append, List.nil_append, byteAt_cons_succ, byteAt_cons_zero]
    rw [Radix.hexDigit?_nibbleDigit (by omega), Radix.hexDigit?_nibbleDigit (by omega)]
    show NameStep.char (Char.ofNat (c.toNat / 16 * 16 + c.toNat % 16)) 3 = _
    rw [Nat.div_add_mod', Char.ofNat_toNat]
    rfl
  · rename_i h
    rw [step_plain (isFilePlain_encodeChar (Bool.eq_false_iff.2 h) rest)]
    split
    · rw [Utf8.decodeChar_encode]
      rfl
    · rename_i hwide
      by_cases hc : c.toNat < 128
      · have hnat : (UInt8.ofNat c.toNat).toNat = c.toNat :=
          UInt8.toNat_ofNat_of_lt' (by show _ < 256; omega)
        rw [Utf8.encodeChar_ascii hc, List.singleton_append, byteAt_cons_zero, hnat,
          Char.ofNat_toNat]
        rfl
      · obtain ⟨b, w, hw, hb⟩ := Utf8.encodeChar_wide (Nat.not_lt.1 hc)
        rw [hw, List.cons_append, byteAt_cons_zero] at hwide
        exact absurd hb hwide

theorem fileChar_ne_nil (c : Char) : fileChar c ≠ [] := by
  unfold fileChar
  split
  · exact List.cons_ne_nil _ _
  · exact List.ne_nil_of_length_pos (String.length_utf8EncodeChar c ▸ Char.utf8Size_pos c)

/-- Where there is text left, the next step says how reading goes on. -/
theorem readFrom_step {rule : NameRule} {fuel used : Nat} {rest : Bytes} {found : List Char}
    (hne : rest ≠ []) :
    rule.readFrom (fuel + 1) rest used found =
      match rule.step rest with
      | .char c n => rule.readFrom fuel (rest.drop n) (used + n) (c :: found)
      | .stop n => some (String.ofList found.reverse, used + n)
      | .refuse => none := by
  cases rest with
  | nil => exact absurd rfl hne
  | cons b rest => rfl

theorem readFrom_char {rule : NameRule} {fuel n used : Nat} {rest : Bytes} {c : Char}
    {found : List Char} (hne : rest ≠ []) (h : rule.step rest = .char c n) :
    rule.readFrom (fuel + 1) rest used found =
      rule.readFrom fuel (rest.drop n) (used + n) (c :: found) := by
  rw [readFrom_step hne, h]

/-- A quoted name is read back with the quote behind it. -/
theorem readFrom_fileChars (chars : List Char) {fuel : Nat} (used : Nat) (found : List Char)
    (hfuel : (chars.flatMap fileChar).length < fuel) :
    quotedName.readFrom fuel (chars.flatMap fileChar ++ [quote]) used found =
      some (String.ofList (found.reverse ++ chars), used + (chars.flatMap fileChar).length + 1) := by
  induction chars generalizing fuel used found with
  | nil =>
    obtain ⟨fuel, rfl⟩ := Nat.exists_eq_succ_of_ne_zero (Nat.ne_zero_of_lt hfuel)
    rw [List.append_nil]
    rfl
  | cons c chars ih =>
    obtain ⟨fuel, rfl⟩ := Nat.exists_eq_succ_of_ne_zero (Nat.ne_zero_of_lt hfuel)
    rw [List.flatMap_cons, List.length_append] at hfuel
    have hpos := List.length_pos_iff.2 (fileChar_ne_nil c)
    rw [List.flatMap_cons, List.append_assoc, readFrom_char ?_ (step_fileChar c _), List.drop_left,
      ih _ _ (by omega), List.reverse_cons, List.append_assoc, List.length_append]
    · rw [List.singleton_append, Nat.add_assoc used]
    · exact fun h => fileChar_ne_nil c (List.append_eq_nil_iff.1 h).1

/-- **A quoted file name is read back.** -/
theorem file?_fileLiteral (s : String) : file? (fileLiteral s) = some s := by
  have hread : quotedName.read (s.toList.flatMap fileChar ++ [quote]) =
      some (s, (s.toList.flatMap fileChar ++ [quote]).length) := by
    rw [NameRule.read, readFrom_fileChars s.toList 0 [] (by rw [List.length_append]; exact Nat.lt_succ_self _),
      List.length_append, Nat.zero_add]
    exact congrArg (fun s => some (s, _)) String.ofList_toList
  show (quotedName.read (s.toList.flatMap fileChar ++ [quote]) >>= fun found =>
    (guard ((found.2 == (s.toList.flatMap fileChar ++ [quote]).length) = true) : Option Unit) >>=
      fun _ => pure found.1) = _
  rw [hread, Option.bind_eq_bind, Option.bind_some, guard_of (beq_self_eq_true _)]
  rfl

end Literal

end RebolScan
