import RebolScan.Proofs.Scan.Single
import RebolScan.Proofs.Scan.Written
import RebolScan.Proofs.Token.Delimiters
import RebolScan.Proofs.Token.Stream

/-!
# Delimited tokens in a scan

A token that has delimiters of its own is all of the bytes from the first of them to the last, but
for a sign in front of a pound sign, which the token takes as well (`token_delimited`). The readers
of characters and binaries see the sign and refuse it. A construction has no reader: **its sign is
dropped**.
-/

set_option autoImplicit false

namespace RebolScan

open Ascii

/-! ## What is left of a sign -/

section

variable {sign : UInt8} (hsign : sign = plus ∨ sign = minus) {w : Bytes}

include hsign

theorem Literal.char?_signed : char? (sign :: w) = none := by
  rcases hsign with rfl | rfl <;> rfl

/-- A sign is no base. -/
theorem Literal.binary?_signed : binary? (sign :: pound :: braceOpen :: w) = none := by
  have hopening : (sign :: pound :: braceOpen :: w).idxOf? braceOpen = some 2 := by
    rcases hsign with rfl | rfl <;> rfl
  have hbase : writtenRadix? [sign] = none := by
    rcases hsign with rfl | rfl <;> rfl
  have hlead : dropLast? pound ((sign :: pound :: braceOpen :: w).take 2) = some [sign] := rfl
  rw [binary?, hopening, Option.bind_eq_bind, Option.bind_some, hlead, Option.bind_eq_bind,
    Option.bind_some, hbase]
  rfl

/-- **Behind a sign** a construction is opened as it is without one, and nothing else is read. -/
theorem Element.of_signed {level : Level} {text : Bytes} {l : Lexeme} (hgood : l.malformed = false)
    (htext : text.take l.length = sign :: w) (hpound : byteAt w 0 = pound)
    (hw : Delimited l.kind w) :
    of level text l = if l.kind = .construct then ⟨.construct, l.length⟩ else bad l.kind l.length := by
  have hpos : 0 < l.length := by
    rw [Nat.pos_iff_ne_zero]
    intro hzero
    rw [hzero] at htext
    cases htext
  have hfirst : byteAt text 0 ≠ slash := by
    rw [← byteAt_take hpos, htext, byteAt_cons_zero]
    rcases hsign with rfl | rfl <;> decide
  have hhead : startsPath l.kind = false := by
    generalize l.kind = kind at hw
    cases hw <;> rfl
  rw [of_lexeme hgood (.inr (.inl hhead)) (.inr hfirst), ofLexeme]
  dsimp only
  rw [htext]
  generalize l.kind = kind at hw
  cases hw with
  | construct => rfl
  | char body =>
    dsimp only
    rw [Literal.char?_signed hsign]
    rfl
  | binary hbase body =>
    -- A base would start with a digit.
    simp only [List.mem_cons, List.not_mem_nil, or_false] at hbase
    rcases hbase with rfl | rfl | rfl | rfl
    · dsimp only
      rw [List.nil_append, Literal.binary?_signed hsign]
      rfl
    · exact absurd (show (0x32 : UInt8) = pound from hpound) (by decide)
    · exact absurd (show (0x31 : UInt8) = pound from hpound) (by decide)
    · exact absurd (show (0x36 : UInt8) = pound from hpound) (by decide)
  | quoted body => exact absurd (show quote = pound from hpound) (by decide)
  | braced body => exact absurd (show braceOpen = pound from hpound) (by decide)
  | tag body => exact absurd (show lesser = pound from hpound) (by decide)

end

/-- **Delimited tokens take their delimiters and what is between them, or a sign as well.** At every
place of a source a well-formed token of a kind that has delimiters is `Delimited`, unless a sign is
in front; then what is behind the sign is, and starts with a pound sign. A level opens a construction
there as if there were no sign, and refuses a character and a binary. -/
theorem token_delimited {source text : Bytes} {t : Tokenizer} (hin : t.cursor.In source)
    (hgood : t.scan.1.malformed = false) (hkind : t.scan.1.kind.isDelimited = true)
    (htext : between source t.scan.1.start t.scan.1.stop = text) :
    (byteAt text 0 ≠ plus ∧ byteAt text 0 ≠ minus → Delimited t.scan.1.kind text) ∧
    (byteAt text 0 = plus ∨ byteAt text 0 = minus →
      byteAt text 1 = pound ∧ Delimited t.scan.1.kind (text.drop 1) ∧
      ∀ level, Element.of level t.scan.2.cursor.rest (Lexeme.ofFront t.scan.2.cursor.rest) =
        if t.scan.1.kind = .construct then ⟨.construct, text.length⟩
        else Element.bad t.scan.1.kind text.length) := by
  have hstart : t.scan.1.start = t.cursor.skipSpace.start := rfl
  have hstop : t.scan.1.stop = t.cursor.skipSpace.start +
      (Lexeme.ofFront t.cursor.skipSpace.rest).length := rfl
  have hkind' : t.scan.1.kind = (Lexeme.ofFront t.cursor.skipSpace.rest).kind := rfl
  have hgood' : (Lexeme.ofFront t.cursor.skipSpace.rest).malformed = false := hgood
  have hrest : t.scan.2.cursor.rest = t.cursor.skipSpace.rest := rfl
  rw [hstart, hstop, between, ← hin.skipSpace.rest, Nat.add_sub_cancel_left] at htext
  rw [hkind'] at hkind
  rw [hrest, hkind', ← htext]
  generalize t.cursor.skipSpace.rest = rest at hgood' hkind ⊢
  have hne : rest ≠ [] := by
    rintro rfl
    cases hkind
  obtain ⟨hpos, hle⟩ := Lexeme.ofFront_bounds hne
  rw [byteAt_take hpos, List.length_take, Nat.min_eq_left hle]
  constructor
  · rintro ⟨hplus, hminus⟩
    exact Lexeme.take_delimited hgood' hkind hplus hminus
  · intro hsign
    obtain ⟨w, htake, hpound, hdelimited⟩ := Lexeme.take_signed hgood' hkind hsign
    refine ⟨?_, ?_, fun level => Element.of_signed hsign hgood' htake hpound hdelimited⟩
    · rw [htake]
      exact hpound
    · rw [htake]
      exact hdelimited

/-- `<a ">">` is all of a tag. Of `-#"a"` what is behind the sign is all of a character, which no level
reads. -/
theorem token_delimited_tag :
    Delimited .tag [0x3C, 0x61, 0x20, 0x22, 0x3E, 0x22, 0x3E] ∧
    Delimited .char ([0x2D, 0x23, 0x22, 0x61, 0x22].drop 1) ∧
    Element.of .top [0x2D, 0x23, 0x22, 0x61, 0x22] (Lexeme.ofFront [0x2D, 0x23, 0x22, 0x61, 0x22]) =
      Element.bad .char 5 := by
  have hin (source : Bytes) (h : byteOrderMarkLength source ≤ source.length) :
      (Tokenizer.ofSource source).cursor.In source := ⟨rfl, rfl, h⟩
  have htag := token_delimited (t := Tokenizer.ofSource [0x3C, 0x61, 0x20, 0x22, 0x3E, 0x22, 0x3E])
    (hin _ (by decide)) (by decide) (by decide) rfl
  have hchar := token_delimited (t := Tokenizer.ofSource [0x2D, 0x23, 0x22, 0x61, 0x22])
    (hin _ (by decide)) (by decide) (by decide) rfl
  obtain ⟨-, hdelimited, hread⟩ := hchar.2 (.inr rfl)
  exact ⟨htag.1 ⟨by decide, by decide⟩, hdelimited, hread .top⟩

/-- `+#[none]` is read as `#[none]` is: the token that opens it has the sign, and nothing is made of
it. -/
theorem construct_drops_sign :
    (Tokenizer.ofSource [0x2B, 0x23, 0x5B, 0x6E, 0x6F, 0x6E, 0x65, 0x5D]).scan.1 =
      ⟨.construct, false, 0, 3⟩ ∧
    ¬Delimited .construct [0x2B, 0x23, 0x5B] ∧
    (scanSource [0x2B, 0x23, 0x5B, 0x6E, 0x6F, 0x6E, 0x65, 0x5D] .initial).1.toOption.map
      (·.items.map (·.value.typeName)) = some ["none"] := by
  refine ⟨by decide, ?_, by decide +kernel⟩
  intro h
  exact absurd h.of_construct (by decide)

end RebolScan
