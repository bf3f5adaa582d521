import RebolScan.Proofs.Scan.Element
import RebolScan.Proofs.Token.Written

/-!
# Elements of written words and literals

What a level reads where a written word or literal stands: the value or the name that was written,
and as many bytes as were written for it. What follows has to end it. Outside a path that is any
delimiter but a slash, which would make a path of a word and a date of an integer; a segment of a
path may be ended by a slash, and also by the colon that makes the path a set-path, which is then
left alone (`Follows`).
-/

set_option autoImplicit false

namespace RebolScan

open Ascii

/-- The text ends a value in front of it: a delimiter is next, and no slash. -/
def Terminates (rest : Bytes) : Prop :=
  isDelimiter (byteAt rest 0) = true ∧ byteAt rest 0 ≠ slash

theorem terminates_space (rest : Bytes) : Terminates (space :: rest) := by
  rw [Terminates, byteAt_cons_zero]
  decide

theorem Bracket.terminates_close (b : Bracket) (rest : Bytes) : Terminates (b.closeByte :: rest) := by
  rw [Terminates, byteAt_cons_zero]
  cases b <;> decide

theorem Bracket.not_space_close (b : Bracket) (rest : Bytes) :
    isSpace (byteAt (b.closeByte :: rest) 0) = false := by
  rw [byteAt_cons_zero]
  cases b <;> decide

/-- The text ends a segment of a path in front of it: a delimiter is next, or the colon of a
set-path. -/
inductive EndsSegment : Bytes → Prop
  | delimiter {rest : Bytes} (h : isDelimiter (byteAt rest 0) = true) : EndsSegment rest
  | colon {rest : Bytes} (h : Terminates rest) : EndsSegment (Ascii.colon :: rest)

/-- What may follow an item of a level. -/
def Follows : Level → Bytes → Prop
  | .path, rest => EndsSegment rest
  | _, rest => Terminates rest

theorem Follows.terminates {level : Level} {rest : Bytes} (h : Follows level rest)
    (hl : level ≠ .path) : Terminates rest := by
  cases level with
  | path => exact absurd rfl hl
  | top | inside b => exact h

theorem Terminates.follows {level : Level} {rest : Bytes} (h : Terminates rest)
    (hl : level ≠ .path) : Follows level rest := by
  cases level with
  | path => exact absurd rfl hl
  | top | inside b => exact h

namespace Element

section

variable {level : Level} {text : Bytes} {l : Lexeme}

/-- The head of a path. -/
theorem of_head (hw : l.malformed = false) (hl : level ≠ .path) (hk : startsPath l.kind = true)
    (hs : byteAt text l.length = slash) : of level text l = ⟨.pathHead l.kind, 0⟩ := by
  have hhead : (level != .path && startsPath l.kind && byteAt text l.length == slash) = true := by
    rw [bne_iff_ne.2 hl, hk, hs]
    rfl
  rw [of, hw, if_neg Bool.noConfusion, if_pos hhead]

/-- A lexeme that starts no path. -/
theorem of_lexeme (hw : l.malformed = false)
    (hhead : level = .path ∨ startsPath l.kind = false ∨ byteAt text l.length ≠ slash)
    (hslot : level ≠ .path ∨ byteAt text 0 ≠ slash) : of level text l = ofLexeme level text l := by
  have hhead : ¬(level != .path && startsPath l.kind && byteAt text l.length == slash) = true := by
    simp only [Bool.and_eq_true, bne_iff_ne, beq_iff_eq, not_and]
    rcases hhead with h | h | h
    · exact fun hl => absurd h hl.1
    · intro hk
      rw [h] at hk
      cases hk.2
    · exact fun _ => h
  have hslot : ¬(level == .path && byteAt text 0 == slash) = true := by
    simp only [Bool.and_eq_true, beq_iff_eq, not_and]
    rcases hslot with h | h
    · exact fun hl => absurd hl h
    · exact fun _ => h
  rw [of, hw, if_neg Bool.noConfusion, if_neg hhead, if_neg hslot]

end

/-! ## Words -/

section

variable {name : String} (hn : isName (Utf8.encode name) = true) {rest : Bytes} {level : Level}

theorem length_pos_of_isName {w : Bytes} (h : isName w = true) : 0 < w.length := by
  cases w with
  | nil => cases h
  | cons b w => exact Nat.succ_pos _

/-- A name that stands between two places in a token is read from there. -/
theorem wordFrom_name (wordKind : WordKind) (kind : TokenKind) (taken : Nat) {text : Bytes}
    {start : Nat} (hpos : 0 < (Utf8.encode name).length)
    (htext : text.drop start = Utf8.encode name ++ rest) :
    wordFrom wordKind kind text start (start + (Utf8.encode name).length) taken =
      ⟨.word wordKind name, taken⟩ := by
  have hbetween : between text start (start + (Utf8.encode name).length) = Utf8.encode name := by
    rw [between, htext, Nat.add_sub_cancel_left, List.take_left]
  rw [wordFrom, if_neg (by omega), hbetween, Utf8.decode?_encode]

/-- A byte of a name is in front of what follows it. -/
theorem byteAt_append_mem (rest : Bytes) {w : Bytes} {i : Nat} (hi : i < w.length) :
    byteAt (w ++ rest) i ∈ w := by
  rw [byteAt_append_left hi]
  exact byteAt_mem hi

theorem not_mem_of_isName {w : Bytes} {b : UInt8} (h : isName w = true)
    (hb : isSolid [.minus] b = false) : b ∉ w := by
  obtain ⟨c, v, rfl, -, hs⟩ := Lexeme.exists_of_isName h
  intro hm
  rw [hs b hm] at hb
  cases hb

include hn

theorem byteAt_name_ne_slash : byteAt (Utf8.encode name ++ rest) 0 ≠ slash := by
  intro h
  have hmem := byteAt_append_mem rest (length_pos_of_isName hn)
  rw [h] at hmem
  exact not_mem_of_isName hn (by decide) hmem

/-- **A word** is read as its name, if no path starts with it. -/
theorem of_word (hf : Follows level rest) :
    of level (Utf8.encode name ++ rest) (Lexeme.ofFront (Utf8.encode name ++ rest)) =
      ⟨.word .word name, (Utf8.encode name).length⟩ := by
  have hword {rest : Bytes} := wordFrom_name .word .word (Utf8.encode name).length
    (length_pos_of_isName hn)
    (show (Utf8.encode name ++ rest).drop 0 = Utf8.encode name ++ rest from rfl)
  have hplain (hd : isDelimiter (byteAt rest 0) = true)
      (hhead : level = .path ∨ byteAt rest 0 ≠ slash) :
      of level (Utf8.encode name ++ rest) (Lexeme.ofFront (Utf8.encode name ++ rest)) =
        ⟨.word .word name, (Utf8.encode name).length⟩ := by
    rw [Lexeme.ofFront_name hn hd, of_lexeme rfl ?_ (.inr (byteAt_name_ne_slash hn))]
    · rw [Nat.zero_add] at hword
      exact hword
    · rcases hhead with h | h
      · exact .inl h
      · refine .inr (.inr ?_)
        show byteAt (Utf8.encode name ++ rest) (Utf8.encode name).length ≠ slash
        rwa [byteAt_append_zero]
  cases level with
  | top | inside b => exact hplain hf.1 (.inr hf.2)
  | path =>
    cases hf with
    | delimiter h => exact hplain h (.inl rfl)
    | colon h =>
      -- The colon is a part of the lexeme, and is left to the path.
      rw [Lexeme.ofFront_setWord hn h.1 h.2,
        of_lexeme rfl (.inl rfl) (.inr (byteAt_name_ne_slash hn))]
      rw [Nat.zero_add] at hword
      exact hword

/-- **A set-word** is read as the name before its colon. -/
theorem of_setWord (hl : level ≠ .path) (hf : Terminates rest) :
    of level (Utf8.encode name ++ colon :: rest) (Lexeme.ofFront (Utf8.encode name ++ colon :: rest)) =
      ⟨.word .setWord name, (Utf8.encode name).length + 1⟩ := by
  have hword := wordFrom_name .setWord .setWord ((Utf8.encode name).length + 1)
    (length_pos_of_isName hn)
    (show (Utf8.encode name ++ colon :: rest).drop 0 = Utf8.encode name ++ colon :: rest from rfl)
  rw [Nat.zero_add] at hword
  rw [Lexeme.ofFront_setWord hn hf.1 hf.2, of_lexeme rfl (.inr (.inl rfl)) (.inl hl), ofLexeme]
  show (if level == .path then _ else _) = _
  rw [if_neg (by simpa using hl)]
  exact hword

/-- A name behind the mark of a get-word or lit-word. -/
theorem markedWord_name (wordKind : WordKind) (kind : TokenKind) (mark : UInt8) :
    markedWord wordKind kind level (mark :: (Utf8.encode name ++ rest))
      ((Utf8.encode name).length + 1) = ⟨.word wordKind name, (Utf8.encode name).length + 1⟩ := by
  have hpos := length_pos_of_isName hn
  have hcolon : (byteAt (mark :: (Utf8.encode name ++ rest)) ((Utf8.encode name).length + 1 - 1) ==
      colon) = false := by
    apply beq_false_of_ne
    intro h
    obtain ⟨i, hi⟩ := Nat.exists_eq_succ_of_ne_zero (Nat.ne_of_gt hpos)
    rw [Nat.add_sub_cancel, hi, byteAt_cons_succ] at h
    have hmem := byteAt_append_mem rest (w := Utf8.encode name) (i := i) (by omega)
    rw [h] at hmem
    exact not_mem_of_isName hn (by decide) hmem
  have hword := wordFrom_name wordKind kind ((Utf8.encode name).length + 1) hpos
    (show (mark :: (Utf8.encode name ++ rest)).drop 1 = Utf8.encode name ++ rest from rfl)
  rw [Nat.add_comm 1] at hword
  rw [markedWord, hcolon]
  exact hword

/-- **A get-word** is read as the name behind its colon. -/
theorem of_getWord (hd : isDelimiter (byteAt rest 0) = true)
    (hhead : level = .path ∨ byteAt rest 0 ≠ slash) :
    of level (colon :: (Utf8.encode name ++ rest))
      (Lexeme.ofFront (colon :: (Utf8.encode name ++ rest))) =
      ⟨.word .getWord name, (Utf8.encode name).length + 1⟩ := by
  rw [Lexeme.ofFront_getWord hn hd, of_lexeme rfl ?_ (.inr (by rw [byteAt_cons_zero]; decide))]
  · exact markedWord_name hn .getWord .getWord colon
  · refine hhead.imp_right fun h => .inr ?_
    show byteAt (colon :: (Utf8.encode name ++ rest)) ((Utf8.encode name).length + 1) ≠ slash
    rwa [byteAt_cons_succ, byteAt_append_zero]

/-- **A lit-word** is read as the name behind its tick. -/
theorem of_litWord (hd : isDelimiter (byteAt rest 0) = true)
    (hhead : level = .path ∨ byteAt rest 0 ≠ slash) :
    of level (tick :: (Utf8.encode name ++ rest))
      (Lexeme.ofFront (tick :: (Utf8.encode name ++ rest))) =
      ⟨.word .litWord name, (Utf8.encode name).length + 1⟩ := by
  rw [Lexeme.ofFront_litWord hn hd, of_lexeme rfl ?_ (.inr (by rw [byteAt_cons_zero]; decide))]
  · exact markedWord_name hn .litWord .litWord tick
  · refine hhead.imp_right fun h => .inr ?_
    show byteAt (tick :: (Utf8.encode name ++ rest)) ((Utf8.encode name).length + 1) ≠ slash
    rwa [byteAt_cons_succ, byteAt_append_zero]

/-- **A refinement** is read as the name behind its slash. -/
theorem of_refinement (hl : level ≠ .path) (hf : Terminates rest) :
    of level (slash :: (Utf8.encode name ++ rest))
      (Lexeme.ofFront (slash :: (Utf8.encode name ++ rest))) =
      ⟨.word .refinement name, (Utf8.encode name).length + 1⟩ := by
  have hword := wordFrom_name .refinement .refinement ((Utf8.encode name).length + 1)
    (length_pos_of_isName hn)
    (show (slash :: (Utf8.encode name ++ rest)).drop 1 = Utf8.encode name ++ rest from rfl)
  rw [Nat.add_comm 1] at hword
  rw [Lexeme.ofFront_refinement hn hf.1, of_lexeme rfl (.inr (.inr ?_)) (.inl hl)]
  · exact hword
  · show byteAt (slash :: (Utf8.encode name ++ rest)) ((Utf8.encode name).length + 1) ≠ slash
    rw [byteAt_cons_succ, byteAt_append_zero]
    exact hf.2

/-- **The empty first segment** of a path that starts with a slash. -/
theorem of_slot (hd : isDelimiter (byteAt rest 0) = true) :
    of .path (slash :: (Utf8.encode name ++ rest))
      (Lexeme.ofFront (slash :: (Utf8.encode name ++ rest))) = ⟨.slot, 1⟩ := by
  rw [Lexeme.ofFront_refinement hn hd]
  rfl

/-! A word with a slash behind it starts a path. -/

omit hn in
theorem isDelimiter_of_slash (hs : byteAt rest 0 = slash) : isDelimiter (byteAt rest 0) = true := by
  rw [hs]
  rfl

section

variable (hl : level ≠ .path) (hs : byteAt rest 0 = slash)

include hl hs

theorem of_head_word :
    of level (Utf8.encode name ++ rest) (Lexeme.ofFront (Utf8.encode name ++ rest)) =
      ⟨.pathHead .word, 0⟩ := by
  rw [Lexeme.ofFront_name hn (isDelimiter_of_slash hs)]
  apply of_head rfl hl rfl
  show byteAt (Utf8.encode name ++ rest) (Utf8.encode name).length = slash
  rwa [byteAt_append_zero]

theorem of_head_getWord : of level (colon :: (Utf8.encode name ++ rest))
    (Lexeme.ofFront (colon :: (Utf8.encode name ++ rest))) = ⟨.pathHead .getWord, 0⟩ := by
  rw [Lexeme.ofFront_getWord hn (isDelimiter_of_slash hs)]
  apply of_head rfl hl rfl
  show byteAt (colon :: (Utf8.encode name ++ rest)) ((Utf8.encode name).length + 1) = slash
  rwa [byteAt_cons_succ, byteAt_append_zero]

theorem of_head_litWord : of level (tick :: (Utf8.encode name ++ rest))
    (Lexeme.ofFront (tick :: (Utf8.encode name ++ rest))) = ⟨.pathHead .litWord, 0⟩ := by
  rw [Lexeme.ofFront_litWord hn (isDelimiter_of_slash hs)]
  apply of_head rfl hl rfl
  show byteAt (tick :: (Utf8.encode name ++ rest)) ((Utf8.encode name).length + 1) = slash
  rwa [byteAt_cons_succ, byteAt_append_zero]

theorem of_head_refinement : of level (slash :: (Utf8.encode name ++ rest))
    (Lexeme.ofFront (slash :: (Utf8.encode name ++ rest))) = ⟨.pathHead .refinement, 0⟩ := by
  rw [Lexeme.ofFront_refinement hn (isDelimiter_of_slash hs)]
  apply of_head rfl hl rfl
  show byteAt (slash :: (Utf8.encode name ++ rest)) ((Utf8.encode name).length + 1) = slash
  rwa [byteAt_cons_succ, byteAt_append_zero]

end

end

/-! ## Numbers -/

section

variable {rest : Bytes} {level : Level}

theorem byteAt_digits_ne_slash {w : Bytes} {m : Nat} (negative : Bool) (hd : Literal.Digits w m) :
    byteAt (Literal.signBytes negative ++ (w ++ rest)) 0 ≠ slash := by
  cases negative with
  | true =>
    rw [Literal.signBytes, if_pos rfl, List.singleton_append, byteAt_cons_zero]
    decide
  | false =>
    intro h
    have hdigit := hd.byteAt_zero rest
    rw [show byteAt (w ++ rest) 0 = slash from h] at hdigit
    cases hdigit

/-- **An integer** is read as its digits say. -/
theorem of_integer {w : Bytes} {m : Nat} {n : Int} (negative : Bool) (hd : Literal.Digits w m)
    (hn : n = if negative then -(m : Int) else m) (hfits : Literal.fitsInt64 n = true)
    (hdelim : isDelimiter (byteAt rest 0) = true) (hhead : level = .path ∨ byteAt rest 0 ≠ slash) :
    of level (Literal.signBytes negative ++ w ++ rest)
      (Lexeme.ofFront (Literal.signBytes negative ++ w ++ rest)) =
      ⟨.value (.integer n), (Literal.signBytes negative ++ w).length⟩ := by
  have hslash : byteAt (Literal.signBytes negative ++ w ++ rest) 0 ≠ slash := by
    rw [List.append_assoc]
    exact byteAt_digits_ne_slash negative hd
  have hdate : ¬(byteAt (Literal.signBytes negative ++ w ++ rest)
      (Literal.signBytes negative ++ w).length == slash && level != .path) = true := by
    rw [byteAt_append_zero]
    rcases hhead with rfl | h
    · simp
    · simp [h]
  rw [Lexeme.ofFront_integer (Literal.isSign_signBytes negative) hdelim (Lexeme.grouped_of_digits hd), of_lexeme rfl (.inr (.inl rfl)) (.inr hslash)]
  show integerFrom level _ (Literal.signBytes negative ++ w).length = _
  rw [integerFrom, if_neg hdate, List.take_left, Literal.integer?_signed negative hd hn hfits]
  rfl

/-- In a path, digits and the colon that ends it are an integer. -/
theorem of_integer_colon {w : Bytes} {m : Nat} (hd : Literal.Digits w m)
    (hfits : Literal.fitsInt64 m = true) (hdelim : isDelimiter (byteAt rest 0) = true) :
    of .path (w ++ colon :: rest) (Lexeme.ofFront (w ++ colon :: rest)) =
      ⟨.value (.integer m), w.length⟩ := by
  have hcolon : (byteAt (w ++ colon :: rest) (w.length + 1 - 1) == colon) = true := by
    rw [Nat.add_sub_cancel, byteAt_append_zero]
    rfl
  have hvalue : Literal.integer? w = some (m : Int) := Literal.integer?_signed false hd rfl hfits
  have hslash : byteAt (w ++ colon :: rest) 0 ≠ slash := byteAt_digits_ne_slash false hd
  rw [Lexeme.ofFront_digitsColon hd hdelim, of_lexeme rfl (.inl rfl) (.inr hslash)]
  show timeFrom .path _ (w.length + 1) = _
  rw [timeFrom, hcolon, Nat.add_sub_cancel, List.take_left, hvalue]
  rfl

section

variable (hl : level ≠ .path)

include hl

/-- **A tuple** is read as its parts. -/
theorem of_tuple {ns : List Nat} (h₁ : Literal.minTuple ≤ ns.length)
    (h₂ : ns.length ≤ Literal.maxTuple) (h : ∀ n ∈ ns, n < 256)
    (hdelim : isDelimiter (byteAt rest 0) = true) :
    of level (Utf8.encode (".".intercalate (ns.map toString)) ++ rest)
      (Lexeme.ofFront (Utf8.encode (".".intercalate (ns.map toString)) ++ rest)) =
      ⟨.value (.tuple ns), (Utf8.encode (".".intercalate (ns.map toString))).length⟩ := by
  have hvalue := Literal.tuple?_text h₁ h₂ h
  rw [Lexeme.ofFront_numeral (Lexeme.numeral_tuple h₁) hdelim, of_lexeme rfl (.inr (.inl rfl)) (.inl hl)]
  generalize Utf8.encode (".".intercalate (ns.map toString)) = w at hvalue
  show valueOr .tuple w.length ((Literal.tuple? ((w ++ rest).take w.length)).map .tuple) = _
  rw [List.take_left, hvalue]
  rfl

/-- **A time** is read as what it was written for. -/
theorem of_time {t : Time} (hfits : Literal.fitsInt64 t.nanos = true) (hmin : t.nanos ≠ -2 ^ 63)
    (hdelim : isDelimiter (byteAt rest 0) = true) :
    of level (Utf8.encode t.text ++ rest) (Lexeme.ofFront (Utf8.encode t.text ++ rest)) =
      ⟨.value (.time t), (Utf8.encode t.text).length⟩ := by
  have hvalue := Literal.time?_text hfits hmin
  rw [Lexeme.ofFront_numeral (Lexeme.numeral_timeText t) hdelim, of_lexeme rfl (.inr (.inl rfl)) (.inl hl)]
  generalize Utf8.encode t.text = w at hvalue
  have hlast : ¬(byteAt (w ++ rest) (w.length - 1) == colon && level == .path) = true := by
    simp [hl]
  show timeFrom level (w ++ rest) w.length = _
  rw [timeFrom, if_neg hlast, List.take_left, hvalue]
  rfl

/-! ## Binaries and issues -/

/-- **A binary** is read as the bytes that its digits spell in its base. -/
theorem of_radixLiteral {base : Radix} {lead text bytes : Bytes} (hlead : lead ∈ base.leads)
    (h : ∀ b ∈ text, isRadixByte b = true) (hbytes : base.decode none text = some bytes) :
    of level (Radix.literal lead text ++ rest) (Lexeme.ofFront (Radix.literal lead text ++ rest)) =
      ⟨.value (.binary bytes), (Radix.literal lead text).length⟩ := by
  obtain ⟨hkind, hwell, hlen⟩ := Lexeme.ofFront_radixLiteral hlead h rest
  rw [of_lexeme hwell (.inr (.inl (by rw [hkind]; rfl))) (.inl hl), ofLexeme, hkind, hlen]
  dsimp only
  rw [List.take_left, Literal.binary?_literal hlead h, hbytes]
  rfl

theorem of_binaryLiteral {text bytes : Bytes} (h : HexText text bytes) :
    of level (binaryLiteral text ++ rest) (Lexeme.ofFront (binaryLiteral text ++ rest)) =
      ⟨.value (.binary bytes), (binaryLiteral text).length⟩ :=
  have hlead : [] ∈ Radix.sixteen.leads := List.mem_cons_self
  of_radixLiteral hl hlead h.isRadixByte (Radix.decode_hexText h)

theorem of_binary (bytes : Bytes) :
    of level (Utf8.encode (binaryText bytes) ++ rest)
      (Lexeme.ofFront (Utf8.encode (binaryText bytes) ++ rest)) =
      ⟨.value (.binary bytes), (Utf8.encode (binaryText bytes)).length⟩ := by
  rw [encode_binaryText]
  exact of_binaryLiteral hl (Radix.hexText_nibbles bytes)

/-- **An issue** is read as its name. -/
theorem of_issue {name : String} (hn : Literal.isIssueText (Utf8.encode name) = true)
    (hdelim : isDelimiter (byteAt rest 0) = true) :
    of level (pound :: (Utf8.encode name ++ rest))
      (Lexeme.ofFront (pound :: (Utf8.encode name ++ rest))) =
      ⟨.issue name, (Utf8.encode name).length + 1⟩ := by
  have hpos : 0 < (Utf8.encode name).length := by
    cases h : Utf8.encode name with
    | nil =>
      rw [h] at hn
      cases hn
    | cons b w => exact Nat.succ_pos _
  have hone : ((Utf8.encode name).length + 1 == 1) = false := by
    apply beq_false_of_ne
    omega
  have hbetween : between (pound :: (Utf8.encode name ++ rest)) 1 ((Utf8.encode name).length + 1) =
      Utf8.encode name := by
    rw [between, List.drop_one, List.tail_cons, Nat.add_sub_cancel, List.take_left]
  rw [Lexeme.ofFront_issue hn hdelim, of_lexeme rfl (.inr (.inl rfl)) (.inl hl)]
  show issueFrom _ ((Utf8.encode name).length + 1) = _
  simp only [issueFrom, hone, hbetween, hn, Utf8.decode?_encode]
  rfl

end

end

/-! ## Brackets -/

theorem of_openBracket (b : Bracket) (level : Level) (rest : Bytes) :
    of level (b.openByte :: rest) (Lexeme.ofFront (b.openByte :: rest)) = ⟨.opener b, 1⟩ := by
  cases b <;> cases level <;> rfl

theorem of_construct (level : Level) (rest : Bytes) :
    of level (pound :: bracketOpen :: rest) (Lexeme.ofFront (pound :: bracketOpen :: rest)) =
      ⟨.construct, 2⟩ := by
  have hrun : Solid [.pound] [pound] := Solid.cons rfl fun _ h => absurd h List.not_mem_nil
  have hdelim : isDelimiter (byteAt (bracketOpen :: rest) 0) = true := rfl
  have hof : Front.of (pound :: bracketOpen :: rest) = _ := hrun.front hdelim
  have hat : (Marks.ofRun [pound]).has .atSign = false := hrun.has_run (by decide)
  have hfront : Lexeme.ofFront (pound :: bracketOpen :: rest) = Lexeme.good .construct 2 := by
    show Lexeme.special .pound (Front.of (pound :: bracketOpen :: rest)) = _
    rw [hof, Lexeme.special, Front.has, hat]
    rfl
  rw [hfront]
  cases level <;> rfl

theorem of_end (level : Level) : of level [] (Lexeme.ofFront []) = ⟨.endOfInput, 0⟩ := by
  cases level <;> rfl

end Element

end RebolScan
