import Mathlib.Algebra.Group.Nat.Even
import Mathlib.Order.Bounds.Basic
import RebolScan.Token.Tag
import RebolScan.Proofs.Token.Extent

/-!
# Where a tag ends

Inside a tag a quote opens and the next one closes, so a `>` is inside quotes when the quotes in
front of it are odd in number. The reader keeps one bit and never looks back. What it knows after
some bytes is `Passed`: that no zero byte was among them, that its bit is the parity of their
quotes, and that none of them ends the tag. **The length of a tag is one more than the least place
of a `>` behind an even number of quotes and no zero byte, and it has none exactly when there is no
such place** (`length?_eq_least`).
-/

set_option autoImplicit false

namespace RebolScan.Tag

open Ascii

variable {text rest : Bytes} {pos : Nat} {quoted : Bool} {b : UInt8}

/-- At `i` stands a `>` that is not inside quotes, and `text` goes on so far: no zero byte is before
it. -/
structure Closes (text : Bytes) (i : Nat) : Prop where
  byte : byteAt text i = greater
  unquoted : Even ((text.take i).count quote)
  live : nul ∉ text.take i

/-- What is known of `text` when `pos` bytes of it are read and a quote is open or not. -/
structure Passed (text : Bytes) (pos : Nat) (quoted : Bool) : Prop where
  live : nul ∉ text.take pos
  parity : quoted = false ↔ Even ((text.take pos).count quote)
  missed : ∀ i < pos, ¬ Closes text i

/-- Where the tag at the front of `text` ends, as a length, or that it does not. -/
inductive Ended (text : Bytes) : Option Nat → Prop
  | closed {i : Nat} (h : IsLeast {i | Closes text i} i) : Ended text (some (i + 1))
  | endless (h : ∀ i, ¬ Closes text i) : Ended text none

/-! ## One byte -/

theorem byteAt_of_drop (h : text.drop pos = b :: rest) : byteAt text pos = b := by
  rw [← Nat.add_zero pos, ← byteAt_drop, h, byteAt_cons_zero]

theorem drop_succ_of_drop (h : text.drop pos = b :: rest) : text.drop (pos + 1) = rest := by
  rw [← List.drop_drop, h, List.drop_one, List.tail_cons]

theorem take_succ_of_drop (h : text.drop pos = b :: rest) :
    text.take (pos + 1) = text.take pos ++ [b] := by
  rw [List.take_add, h, List.take_succ_cons, List.take_zero]

/-- A byte that neither ends the text nor closes the tag is passed, and a quote turns the bit. -/
theorem Passed.next (h : Passed text pos quoted) (hrest : text.drop pos = b :: rest) (hb : b ≠ nul)
    (hopen : ¬ Closes text pos) : Passed text (pos + 1) (quoted ^^ (b == quote)) := by
  have htake := take_succ_of_drop hrest
  refine ⟨?_, ?_, fun i hi => ?_⟩
  · rw [htake, List.mem_append, List.mem_singleton]
    exact not_or.2 ⟨h.live, hb.symm⟩
  · rw [htake, List.count_append, List.count_singleton]
    cases hquote : b == quote with
    | true =>
      rw [Bool.xor_true, if_pos rfl, Nat.even_add_one, ← h.parity]
      cases quoted <;> decide
    | false =>
      rw [Bool.xor_false, if_neg Bool.false_ne_true, Nat.add_zero]
      exact h.parity
  · rcases Nat.lt_succ_iff_lt_or_eq.1 hi with hlt | rfl
    · exact h.missed i hlt
    · exact hopen

/-- A `>` outside quotes is the first to close the tag. -/
theorem Passed.closes (h : Passed text pos false) (hbyte : byteAt text pos = greater) :
    IsLeast {i | Closes text i} pos :=
  ⟨⟨hbyte, h.parity.1 rfl, h.live⟩, fun i hi => Nat.le_of_not_lt fun hlt => h.missed i hlt hi⟩

/-- Nothing closes the tag once the text has ended, by a zero byte or by its length. -/
theorem Passed.endless (h : Passed text pos quoted) (hbyte : byteAt text pos = nul) (i : Nat) :
    ¬ Closes text i := by
  intro hi
  rcases Nat.lt_trichotomy i pos with hlt | rfl | hgt
  · exact h.missed i hlt hi
  · exact absurd (hi.byte.symm.trans hbyte) (by decide)
  · -- the place in front of `i` that reads as zero is a byte of the text, for `i` is one
    have hlength : i < text.length := lt_length_of_byteAt (by rw [hi.byte]; decide)
    refine hi.live (List.mem_take_iff_getElem.2 ⟨pos, by omega, ?_⟩)
    rw [← hbyte, byteAt_eq_getElem (by omega)]

/-! ## The whole tag -/

/-- Reading on from what is passed finds the end of the tag. -/
theorem Passed.ended (h : Passed text pos quoted) (hrest : text.drop pos = rest) :
    Ended text (lengthFrom quoted pos rest) := by
  induction rest generalizing pos quoted with
  | nil =>
    refine .endless (h.endless ?_)
    rw [← Nat.add_zero pos, ← byteAt_drop, hrest, byteAt_nil]
  | cons b rest ih =>
    have hbyte := byteAt_of_drop hrest
    rw [lengthFrom]
    split
    case isTrue hnul =>
      exact .endless (h.endless (hbyte.trans (eq_of_beq hnul)))
    case isFalse hnul =>
      have hnext := h.next hrest (ne_of_beq_false (Bool.eq_false_iff.2 hnul))
      have htail := drop_succ_of_drop hrest
      split
      case isTrue hquote =>
        have hopen : ¬ Closes text pos := fun hc =>
          absurd (hc.byte.symm.trans (hbyte.trans (eq_of_beq hquote))) (by decide)
        have hpassed := hnext hopen
        rw [hquote, Bool.xor_true] at hpassed
        exact ih hpassed htail
      case isFalse hquote =>
        split
        case isTrue hend =>
          obtain ⟨hgreater, hquoted⟩ := Bool.and_eq_true_iff.1 hend
          obtain rfl : quoted = false := Bool.not_eq_true' quoted ▸ hquoted
          exact .closed (h.closes (hbyte.trans (eq_of_beq hgreater)))
        case isFalse hend =>
          have hopen : ¬ Closes text pos := fun hc => hend (Bool.and_eq_true_iff.2
            ⟨beq_iff_eq.2 (hbyte.symm.trans hc.byte), by simpa using h.parity.2 hc.unquoted⟩)
          have hpassed := hnext hopen
          rw [Bool.eq_false_iff.2 hquote, Bool.xor_false] at hpassed
          exact ih hpassed htail

/-- The `<` in front is no quote and closes nothing. -/
theorem length?_ended (text : Bytes) : Ended text (length? text) := by
  have hstart : Passed text 0 false := by
    refine ⟨?_, ?_, fun i hi => absurd hi (Nat.not_lt_zero i)⟩ <;> simp
  rw [length?]
  split
  case isFalse => exact hstart.ended (List.drop_zero)
  case isTrue hlesser =>
    have hfirst := eq_of_beq hlesser
    cases text with
    | nil => exact absurd hfirst (by decide)
    | cons b rest =>
      rw [byteAt_cons_zero] at hfirst
      subst hfirst
      have hopen : ¬ Closes (lesser :: rest) 0 := fun hc =>
        absurd ((byteAt_cons_zero lesser rest).symm.trans hc.byte) (by decide)
      exact (hstart.next rfl (by decide) hopen).ended rfl

/-- A tag is as long as it takes to reach its first `>` that an even number of quotes stand before;
without one in front of the first zero byte, or of the end, there is no tag. -/
theorem length?_eq_least (text : Bytes) :
    (∀ n, length? text = some n ↔ ∃ i, n = i + 1 ∧ IsLeast {i | Closes text i} i) ∧
      (length? text = none ↔ ∀ i, ¬ Closes text i) := by
  have hended := length?_ended text
  generalize length? text = found at hended
  cases hended with
  | @closed i h =>
    refine ⟨fun n => ⟨fun hn => ⟨i, (Option.some.inj hn).symm, h⟩, ?_⟩, ?_⟩
    · rintro ⟨j, rfl, hj⟩
      rw [h.unique hj]
    · exact ⟨fun hnone => absurd hnone (Option.some_ne_none _), fun hnone => absurd h.1 (hnone i)⟩
  | endless h =>
    refine ⟨fun n => ⟨fun hn => absurd hn.symm (Option.some_ne_none n), ?_⟩, fun _ => h, fun _ => rfl⟩
    rintro ⟨j, rfl, hj⟩
    exact absurd hj.1 (h j)

end RebolScan.Tag
