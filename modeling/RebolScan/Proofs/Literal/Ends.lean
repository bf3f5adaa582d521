import RebolScan.Proofs.Literal.QuotedText
import RebolScan.Proofs.Token.Delimiters
import RebolScan.Proofs.Token.Pieces
import RebolScan.Proofs.Token.Stream

/-!
# The reader of a literal ends where its token does

Characters and quoted file names are read twice: to find out where the token ends, on all that is left
of the source, and again as a literal, on the token alone and by another reader. **Both end at the same
byte** (`literal_ends`). A character is cut out with all that it was read from, so it is read again as
the same one (`Caret.read_front`). What is between the quotes of a file name is a row of pieces, and
**each step of the reader of names goes over whole pieces** (`step_spelled`), three of them where a
percent sign spells a character. So it can stop at no quote but the last, and has nothing left there.
-/

set_option autoImplicit false

namespace RebolScan

open Ascii

/-! ## Characters -/

namespace Caret

variable {text : Bytes} {c : Char} {n : Nat}

/-- **What a character was read from** is read as the same one, if no NUL stands behind it. -/
theorem read_front (h : read text = some (c, n)) (hnext : byteAt text n ≠ nul) :
    read (text.take n) = some (c, n) := by
  by_cases hfirst : byteAt text 0 = nul
  · have hread := h
    rw [read, hfirst] at hread
    cases hread
    cases text with
    | nil => exact absurd rfl hnext
    | cons b text =>
      obtain rfl : b = nul := hfirst
      rfl
  · obtain ⟨p, hp, hlength⟩ := Quoted.piece_of_read h hfirst (by rwa [byteAt_drop, Nat.add_zero])
    have hread := p.read_bytes (text.drop n)
    rw [← hp, h] at hread
    obtain ⟨rfl, rfl⟩ := Prod.mk.inj (Option.some.inj hread)
    have hagain := p.read_bytes []
    rw [List.append_nil] at hagain
    rwa [hp, List.take_left]

end Caret

namespace Literal

variable {body : Bytes} {c : Char}

/-- A character between its quotes is what all between them is read as. -/
theorem char?_quoted (h : Caret.read body = some (c, body.length)) :
    char? (pound :: quote :: (body ++ [quote])) = some c := by
  have hpos := Caret.read_width h
  have hlead : dropLead? [pound, quote] (pound :: quote :: (body ++ [quote])) =
      some (body ++ [quote]) := rfl
  have hlast : dropLast? quote (body ++ [quote]) = some body := by simp [dropLast?]
  have hsome : (!body.isEmpty) = true := by
    cases body with
    | nil => cases hpos
    | cons => rfl
  rw [char?, hlead, Option.bind_eq_bind, Option.bind_some, hlast, Option.bind_eq_bind,
    Option.bind_some, guard_of hsome, h]
  show ((guard ((body.length == body.length) = true) : Option Unit) >>= fun _ => pure c) = some c
  rw [guard_of (beq_self_eq_true _)]
  rfl

end Literal

/-! ## Quoted file names -/

namespace Quoted

variable {p : Piece} {ps qs : List Piece}

theorem spelled_append (qs ps : List Piece) : spelled (qs ++ ps) = spelled qs ++ spelled ps :=
  List.flatMap_append

/-- What is behind pieces between quotes may stand there too. -/
theorem Inside.of_append (h : Inside false 0 (qs ++ ps)) : Inside false 0 ps := by
  induction qs with
  | nil => exact h
  | cons q qs ih => exact ih (inside_cons.1 h).2.2

/-- No piece between quotes is a quote. -/
theorem Inside.stands_quote (h : Inside false 0 (p :: ps)) : p.stands '"' = false := by
  rw [← Bool.not_eq_true]
  exact fun hquote => (inside_cons.1 h).1 ⟨hquote, rfl⟩

/-- A hexadecimal digit is a piece of its own. -/
theorem length_of_hexDigit {rest : Bytes} {v : Nat}
    (hdigit : hexDigit? (byteAt (p.bytes ++ rest) 0) = some v) : p.bytes.length = 1 := by
  have hwide : ∀ b : UInt8, 0x80 ≤ b → hexDigit? b = none := fun b hb =>
    Option.eq_none_iff_forall_ne_some.2 fun v hv =>
      UInt8.not_lt.2 hb (ascii_of_hexDigit? (by rw [hv]; rfl))
  cases p with
  | escape bytes c h =>
    rw [Piece.bytes, h.byteAt_append] at hdigit
    cases hdigit
  | plain c h =>
    rw [Piece.bytes] at hdigit ⊢
    by_cases hc : c.toNat < 128
    · rw [Utf8.encodeChar_ascii hc]
      rfl
    · obtain ⟨b, w, hw, hb⟩ := Utf8.encodeChar_wide (Nat.not_lt.1 hc)
      rw [hw, List.cons_append, byteAt_cons_zero, hwide b hb] at hdigit
      cases hdigit

/-- One that stands in front of the last quote is there with its piece. -/
theorem exists_of_hexDigit {v : Nat}
    (hdigit : hexDigit? (byteAt (spelled ps ++ [quote]) 0) = some v) :
    ∃ q qs d, ps = q :: qs ∧ q.bytes = [d] := by
  cases ps with
  | nil => cases hdigit
  | cons q qs =>
    rw [spelled_cons, List.append_assoc] at hdigit
    obtain ⟨d, hd⟩ := List.length_eq_one_iff.1 (length_of_hexDigit hdigit)
    exact ⟨q, qs, d, rfl, hd⟩

end Quoted

namespace Literal

open Quoted

variable {rule : NameRule} {p : Quoted.Piece} {ps : List Quoted.Piece} {n : Nat}

/-- What the reader of names does next in front of pieces and the last quote: it takes a character and
whole pieces with it, and it stops only behind the quote. -/
def GoesOver (ps : List Quoted.Piece) : NameStep → Prop
  | .char _ n => ∃ q qs rest, ps = q :: (qs ++ rest) ∧ n = (spelled (q :: qs)).length
  | .stop n => ps = [] ∧ n = 1
  | .refuse => True

theorem goesOver_piece (c : Char) (h : n = p.bytes.length) : GoesOver (p :: ps) (.char c n) :=
  ⟨p, [], ps, rfl, by rw [spelled_cons, h]; exact (congrArg List.length (List.append_nil _)).symm⟩

/-- A percent sign is a piece, and so is each of the digits behind it. -/
theorem goesOver_percent (h : p.stands '%' = true) :
    GoesOver (p :: ps) (.ofChar? (percentChar? (p.bytes ++ (spelled ps ++ [quote])))) := by
  have hbytes : p.bytes = [percent] := Quoted.Piece.bytes_of_stands h (by decide)
  rw [hbytes, percentChar?]
  split
  · rename_i hi lo hhi hlo
    obtain ⟨q, qs, d, rfl, hd⟩ := exists_of_hexDigit hhi
    rw [spelled_cons, hd] at hlo
    obtain ⟨q', qs', d', rfl, hd'⟩ := exists_of_hexDigit hlo
    refine ⟨p, [q, q'], qs', rfl, ?_⟩
    simp [spelled, hbytes, hd, hd']
  · trivial

/-- What is no escape to either reader is the same character to both, if it is not forbidden. -/
theorem goesOver_plain {text : Bytes} {c : Char}
    (hread : Caret.read text = some (c, p.bytes.length)) (hcaret : ¬(byteAt text 0 == caret) = true)
    (forbidden : Bytes) :
    GoesOver (p :: ps)
      (if 0x80 ≤ byteAt text 0 then .ofChar? (Utf8.decodeChar text)
      else if forbidden.contains (byteAt text 0) then .refuse
      else .char (Char.ofNat (byteAt text 0).toNat) 1) := by
  rw [Caret.read] at hread
  dsimp only at hread
  split
  · rename_i hwide
    rw [if_pos hwide] at hread
    rw [hread]
    exact goesOver_piece c rfl
  · rename_i hascii
    rw [if_neg hascii, if_neg hcaret] at hread
    obtain ⟨-, hlength⟩ := Prod.mk.inj (Option.some.inj hread)
    split
    · trivial
    · exact goesOver_piece _ hlength

/-- **One step goes over whole pieces.** -/
theorem step_spelled (hrule : rule.terminator = some quote) (h : Inside false 0 ps) :
    GoesOver ps (rule.step (spelled ps ++ [quote])) := by
  cases ps with
  | nil =>
    have hstop : rule.step [quote] = .stop 1 := by
      unfold NameRule.step
      dsimp only
      rw [hrule]
      rfl
    exact hstop ▸ ⟨rfl, rfl⟩
  | cons p ps =>
    rw [spelled_cons, List.append_assoc]
    have hread := p.read_bytes (spelled ps ++ [quote])
    have hstands {c : Char} (hc : c.toNat < 128) (hcaret : c ≠ '^')
        (hb : (byteAt (p.bytes ++ (spelled ps ++ [quote])) 0 == UInt8.ofNat c.toNat) = true) :
        p.stands c = true := by
      rwa [p.byteAt_beq _ hc hcaret] at hb
    have hquote : (some (byteAt (p.bytes ++ (spelled ps ++ [quote])) 0) == some quote) = false :=
      (p.byteAt_beq _ (c := '"') (by decide) (by decide)).trans h.stands_quote
    have hnul := beq_false_of_ne (p.byteAt_ne_nul (spelled ps ++ [quote]))
    unfold NameRule.step
    dsimp only
    rw [hrule, hquote, hnul, if_neg Bool.noConfusion]
    split
    · cases ‹(false || _) = true›
    · split
      · trivial
      · split
        · rename_i hbackslash
          have hslash := hstands (c := '\\') (by decide) (by decide) hbackslash
          have hbytes := Quoted.Piece.bytes_of_stands hslash (by decide)
          exact goesOver_piece '/' (by rw [hbytes]; rfl)
        · split
          · rename_i hpercent
            exact goesOver_percent (hstands (c := '%') (by decide) (by decide) hpercent)
          · split
            · split
              · trivial
              · rw [hread]
                exact goesOver_piece p.char rfl
            · rename_i hcaret
              exact goesOver_plain hread hcaret rule.forbidden

/-- **The reader of names stops at the last quote**, or refuses the text. -/
theorem readFrom_spelled {fuel used stop : Nat} {found : List Char} {name : String}
    (hrule : rule.terminator = some quote) (h : Inside false 0 ps)
    (hfuel : (spelled ps ++ [quote]).length ≤ fuel)
    (hread : rule.readFrom fuel (spelled ps ++ [quote]) used found = some (name, stop)) :
    stop = used + (spelled ps ++ [quote]).length := by
  induction fuel generalizing ps used found with
  | zero => simp at hfuel
  | succ fuel ih =>
    have hne : spelled ps ++ [quote] ≠ [] :=
      List.append_ne_nil_of_right_ne_nil _ (List.cons_ne_nil _ _)
    have hstep := step_spelled hrule h
    rw [readFrom_step hne] at hread
    cases hs : rule.step (spelled ps ++ [quote]) with
    | char c n =>
      rw [hs] at hstep hread
      obtain ⟨q, qs, rest, rfl, rfl⟩ := hstep
      have hsplit : spelled (q :: (qs ++ rest)) ++ [quote] =
          spelled (q :: qs) ++ (spelled rest ++ [quote]) := by
        rw [← List.cons_append, spelled_append, List.append_assoc]
      have hpos : 0 < (spelled (q :: qs)).length := by
        rw [spelled_cons, List.length_append]
        exact Nat.add_pos_left (List.length_pos_iff.2 q.bytes_ne_nil) _
      have hin : Inside false 0 rest :=
        Inside.of_append (show Inside false 0 ((q :: qs) ++ rest) from h)
      rw [hsplit, List.length_append] at hfuel
      dsimp only at hread
      rw [hsplit, List.drop_left] at hread
      rw [hsplit, List.length_append, ← Nat.add_assoc]
      exact ih hin (by omega) hread
    | stop n =>
      rw [hs] at hstep hread
      obtain ⟨rfl, rfl⟩ := hstep
      cases hread
      rfl
    | refuse =>
      rw [hs] at hread
      cases hread

/-- **A text between quotes is read as a name to its end**, if it is read. -/
theorem read_spelled {stop : Nat} {name : String} (hrule : rule.terminator = some quote)
    (h : Inside false 0 ps) (hread : rule.read (spelled ps ++ [quote]) = some (name, stop)) :
    stop = (spelled ps ++ [quote]).length := by
  have hstop := readFrom_spelled hrule h (Nat.le_refl _) hread
  rwa [Nat.zero_add] at hstop

/-- So nothing is left of it, and it is read as a file name exactly if it is read as a name. -/
theorem file?_spelled (h : Inside false 0 ps) :
    file? (percent :: quote :: (spelled ps ++ [quote])) =
      (quotedName.read (spelled ps ++ [quote])).map Prod.fst := by
  show (quotedName.read (spelled ps ++ [quote]) >>= fun found =>
    (guard ((found.2 == (spelled ps ++ [quote]).length) = true) : Option Unit) >>=
      fun _ => pure found.1) = _
  cases hread : quotedName.read (spelled ps ++ [quote]) with
  | none => rfl
  | some found =>
    have hstop : found.2 = (spelled ps ++ [quote]).length := read_spelled rfl h hread
    rw [Option.bind_eq_bind, Option.bind_some, guard_of (beq_iff_eq.2 hstop)]
    rfl

end Literal

/-! ## Tokens -/

namespace Lexeme

variable {text : Bytes}

/-- Of what a pound sign starts only a character is of its kind. -/
theorem ofFront_character (hpound : byteAt text 0 = pound) (hkind : (ofFront text).kind = .char) :
    byteAt text 1 = quote ∧ ofFront text = character text 0 := by
  have hof : ofFront text = special .pound (Front.of text) := by
    rw [ofFront, hpound]
    rfl
  rw [hof] at hkind ⊢
  unfold special at hkind ⊢
  split at hkind
  · cases hkind
  · rename_i hat
    rw [if_neg hat]
    unfold poundForm at hkind ⊢
    dsimp only at hkind ⊢
    split at hkind
    · cases hkind
    · rename_i hbracket
      rw [if_neg hbracket]
      split at hkind
      · rename_i hquote
        rw [if_pos hquote]
        exact ⟨eq_of_beq hquote, rfl⟩
      · split at hkind
        · rw [quoted_kind] at hkind
          cases hkind
        · cases hkind

/-- A byte that stands in the front of a text. -/
theorem byteAt_of_take {n i : Nat} {b : UInt8} (h : byteAt (text.take n) i = b) (hb : b ≠ nul) :
    byteAt text i = b := by
  have hlt := lt_length_of_byteAt (show byteAt (text.take n) i ≠ nul by rwa [h])
  rw [← h, byteAt_take (Nat.lt_of_lt_of_le hlt (List.length_take_le _ _))]

/-- A text that starts with two bytes. -/
theorem exists_of_byteAt {b c : UInt8} (hb : byteAt text 0 = b) (hc : byteAt text 1 = c)
    (hne : c ≠ nul) : ∃ rest, text = b :: c :: rest := by
  cases text with
  | nil => exact absurd hc.symm hne
  | cons b' text =>
    cases text with
    | nil => exact absurd hc.symm hne
    | cons c' rest =>
      obtain rfl : b' = b := hb
      obtain rfl : c' = c := hc
      exact ⟨rest, rfl⟩

/-- **A character is cut out with all that it was read from**, and with its quotes. -/
theorem take_character (hpound : byteAt text 0 = pound) (hkind : (ofFront text).kind = .char)
    (hgood : (ofFront text).malformed = false) :
    ∃ c body, Caret.read (text.drop 2) = some (c, body.length) ∧
      Caret.read body = some (c, body.length) ∧
      (ofFront text).length = 2 + body.length + 1 ∧
      text.take (ofFront text).length = pound :: quote :: (body ++ [quote]) := by
  obtain ⟨hquote, hof⟩ := ofFront_character hpound hkind
  rw [hof] at hgood ⊢
  obtain ⟨rest, rfl⟩ := exists_of_byteAt hpound hquote (by decide)
  unfold character at hgood ⊢
  rw [show (pound :: quote :: rest).drop (0 + 2) = rest from rfl] at hgood ⊢
  cases hread : Caret.read rest with
  | none =>
    rw [hread] at hgood
    cases hgood
  | some read =>
    obtain ⟨c, n⟩ := read
    rw [hread] at hgood
    dsimp only at hgood ⊢
    split at hgood
    · rename_i hlast
      rw [if_pos hlast]
      have hclose : byteAt rest n = quote := by
        rw [← eq_of_beq hlast, Nat.zero_add, Nat.add_comm 2 n]
        rfl
      have hlt := lt_length_of_byteAt_eq (beq_iff_eq.2 hclose) (by decide)
      have hlength : (rest.take n).length = n := List.length_take_of_le (Nat.le_of_lt hlt)
      have hfront := Caret.read_front hread (by rw [hclose]; decide)
      refine ⟨c, rest.take n, ?_, ?_, ?_, ?_⟩
      · rw [hlength]
      · rwa [hlength]
      · rw [hlength, Nat.zero_add]
        rfl
      · have hlast : between rest 0 (n + 1) = between rest 0 n ++ [quote] :=
          between_last hclose (Nat.succ_pos n) hlt
        have hlast : rest.take (n + 1) = rest.take n ++ [quote] := hlast
        show List.take (0 + 2 + n + 1) _ = _
        rw [Nat.zero_add, Nat.add_assoc, Nat.add_comm 2, List.take_succ_cons, List.take_succ_cons,
          hlast]
    · cases hgood

/-- **A quoted file name** is pieces that may stand between quotes. -/
theorem take_quotedFile (hpercent : byteAt text 0 = percent) (hquote : byteAt text 1 = quote)
    (hgood : (ofFront text).malformed = false) :
    ∃ ps, Quoted.Inside false 0 ps ∧
      text.take (ofFront text).length = percent :: quote :: (Quoted.spelled ps ++ [quote]) := by
  obtain ⟨rest, rfl⟩ := exists_of_byteAt hpercent hquote (by decide)
  rw [ofFront_percent] at hgood ⊢
  cases hread : (Quoted.read (quote :: rest)).extent with
  | none =>
    have hbad := file_unclosed (m := Marks.ofRun [percent]) (byteAt_cons_zero quote rest) hread
    rw [hgood] at hbad
    cases hbad
  | some e =>
    obtain ⟨ps, hin, htake⟩ := Quoted.inside_of_read hread
    have hextent : Quoted.read (quote :: rest) = ⟨(Quoted.read (quote :: rest)).text, some e⟩ := by
      rw [← hread]
    have hlength : (file ⟨percent :: quote :: rest, [percent], Marks.ofRun [percent]⟩).length =
        1 + e.length := (file_quoted rfl hextent).2.2
    refine ⟨ps, hin, ?_⟩
    rw [hlength, Nat.add_comm 1, List.take_succ_cons, htake]
    rfl

end Lexeme

/-- **The reader of a literal ends where its token does.** The character in a well-formed token that
starts with a pound sign is the one that was read to find the end of the token. And where a well-formed
token starts with a percent sign and a quote, reading a name up to a quote, if it takes what is behind
them, takes all of it, whatever bytes are forbidden in the name. So the token is read as a file name
exactly if it is read as a name, and as the same one. -/
theorem literal_ends {source token : Bytes} {t : Tokenizer} (hin : t.cursor.In source)
    (hgood : t.scan.1.malformed = false)
    (htoken : between source t.scan.1.start t.scan.1.stop = token) :
    (t.scan.1.kind = .char → byteAt token 0 = pound →
      ∃ c n, Caret.read (source.drop (t.scan.1.start + 2)) = some (c, n) ∧
        t.scan.1.stop = t.scan.1.start + 2 + n + 1 ∧ Literal.char? token = some c) ∧
    ∀ body, token = percent :: quote :: body →
      (∀ forbidden name used,
        (Literal.NameRule.mk (some quote) forbidden).read body = some (name, used) →
          used = body.length) ∧
      Literal.file? token = (Literal.quotedName.read body).map Prod.fst := by
  have hstop : t.scan.1.stop = t.scan.1.start + (Lexeme.ofFront t.cursor.skipSpace.rest).length := rfl
  have hrest : source.drop (t.scan.1.start + 2) = t.cursor.skipSpace.rest.drop 2 := by
    rw [hin.skipSpace.rest, List.drop_drop]
    rfl
  have hgood : (Lexeme.ofFront t.cursor.skipSpace.rest).malformed = false := hgood
  rw [Tokenizer.between_scan hin] at htoken
  constructor
  · intro hkind hpound
    rw [← htoken] at hpound
    obtain ⟨c, body, hread, hagain, hlength, htake⟩ :=
      Lexeme.take_character (Lexeme.byteAt_of_take hpound (by decide)) hkind hgood
    refine ⟨c, body.length, hrest ▸ hread, ?_, ?_⟩
    · rw [hstop, hlength]
      omega
    · rw [← htoken, htake]
      exact Literal.char?_quoted hagain
  · rintro body rfl
    have hpercent : byteAt t.cursor.skipSpace.rest 0 = percent :=
      Lexeme.byteAt_of_take (by rw [htoken]; rfl) (by decide)
    have hquote : byteAt t.cursor.skipSpace.rest 1 = quote :=
      Lexeme.byteAt_of_take (by rw [htoken]; rfl) (by decide)
    obtain ⟨ps, hinside, htake⟩ := Lexeme.take_quotedFile hpercent hquote hgood
    obtain rfl : body = Quoted.spelled ps ++ [quote] :=
      (List.cons.inj (List.cons.inj (htoken.symm.trans htake)).2).2
    exact ⟨fun forbidden name used h => Literal.read_spelled rfl hinside h,
      Literal.file?_spelled hinside⟩

/-- A name in parentheses is one character, and a quote in a file name may be spelled with a percent
sign or with a caret. -/
theorem literal_ends_escaped :
    (∃ c n, Caret.read (Utf8.encode "^(line)\" 1") = some (c, n) ∧ 10 = 2 + n + 1 ∧
      Literal.char? (Utf8.encode "#\"^(line)\"") = some c) ∧
    Literal.quotedName.read (Utf8.encode "a%22^\"b\"") = some ("a\"\"b", 8) ∧
      (Utf8.encode "a%22^\"b\"").length = 8 ∧
      Literal.file? (Utf8.encode "%\"a%22^\"b\"") = some "a\"\"b" := by
  have hin (source : Bytes) (h : byteOrderMarkLength source ≤ source.length) :
      (Tokenizer.ofSource source).cursor.In source := ⟨rfl, rfl, h⟩
  have hchar : (Tokenizer.ofSource (Utf8.encode "#\"^(line)\" 1")).scan.1 =
      ⟨.char, false, 0, 10⟩ := by decide +kernel
  have hfile : (Tokenizer.ofSource (Utf8.encode "%\"a%22^\"b\" c")).scan.1 =
      ⟨.file, false, 0, 10⟩ := by decide +kernel
  have hline := literal_ends (hin (Utf8.encode "#\"^(line)\" 1") (by decide +kernel))
    (by rw [hchar]) rfl
  have hname := literal_ends (hin (Utf8.encode "%\"a%22^\"b\" c") (by decide +kernel))
    (by rw [hfile]) rfl
  rw [hchar] at hline
  rw [hfile] at hname
  have hread : Literal.quotedName.read (Utf8.encode "a%22^\"b\"") = some ("a\"\"b", 8) := by
    decide +kernel
  obtain ⟨hstop, hsame⟩ := hname.2 (Utf8.encode "a%22^\"b\"") (by decide +kernel)
  rw [hread] at hsame
  exact ⟨hline.1 (by decide +kernel) (by decide +kernel), hread, (hstop _ _ _ hread).symm, hsame⟩

end RebolScan
