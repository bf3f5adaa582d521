import RebolScan.Literal.Text
import RebolScan.Proofs.Literal.Times
import RebolScan.Proofs.Token.Numeral

/-!
# Lexemes of written words and literals

What lexeme stands at the front of a text that starts with a name, in one of the five forms of a
word, or with a literal that was written. A name is letters, digits and four signs, of which only
the minus is a special, so its marks rule out everything but a word (`Solid.wordTail`); what ends it
has to be a delimiter. A colon behind a name is a part of the lexeme, and so is a colon behind
digits, which then look like a time: it is for the level to decide what they are.
-/

set_option autoImplicit false

namespace RebolScan

open Ascii

/-- A byte of a name, behind the first. -/
def isNameByte (b : UInt8) : Bool :=
  isLetter b || isDigit b || b == minus || b == question || b == exclamation || b == asterisk

/-- A letter, and then letters, digits and the four signs. -/
def isName : Bytes → Bool
  | [] => false
  | b :: w => isLetter b && w.all isNameByte

namespace Lexeme

section

variable {w rest : Bytes}

/-! ## Names -/

theorem isSolid_of_isNameByte (b : UInt8) (h : isNameByte b = true) : isSolid [.minus] b = true := by
  simp only [isNameByte, Bool.or_eq_true, beq_iff_eq] at h
  rcases h with ((((h | h) | rfl) | rfl) | rfl) | rfl
  · exact isSolid_of_isLetter h
  · exact isSolid_of_isDigit h
  all_goals rfl

/-- A name is a letter and what follows it. -/
theorem exists_of_isName (h : isName w = true) :
    ∃ b v, w = b :: v ∧ isLetter b = true ∧ Solid [.minus] w := by
  cases w with
  | nil => cases h
  | cons b v =>
    rw [isName, Bool.and_eq_true, List.all_eq_true] at h
    have hb : isNameByte b = true := by
      rw [isNameByte, h.1]
      rfl
    refine ⟨b, v, rfl, h.1, ?_⟩
    exact Solid.cons (isSolid_of_isNameByte b hb) fun c hc => isSolid_of_isNameByte c (h.2 c hc)

theorem not_number_of_isLetter {b : UInt8} (h : isLetter b = true) : isNumber b = false := by
  obtain ⟨v, hv⟩ := class_of_isLetter h
  rw [isNumber, hv]

section

variable {kind : TokenKind} {start : Nat} {f : Front} {m : Marks}

/-- A mark that is not a minus keeps a word from being one. -/
theorem marked_word (h : ∀ s, s ≠ .minus → m.has s = false) :
    wordTail.marked kind start f m = good kind f.stop := by
  have hillegal : m.hasAny Marks.illegalInWord = false := by
    simp [Marks.hasAny, Marks.illegalInWord, h]
  simp only [wordTail.marked, hillegal, h .atSign Special.noConfusion, h .dollar Special.noConfusion,
    h .lesser Special.noConfusion, h .greater Special.noConfusion]
  rfl

theorem wordTail_word (h : ∀ s, s ≠ .minus → f.marks.has s = false) :
    wordTail kind start f = good kind f.stop := by
  have hcolon : f.has .colon = false := h .colon Special.noConfusion
  rw [wordTail, hcolon]
  exact marked_word h

/-- A colon with a delimiter behind it makes a set-word. -/
theorem wordTail_setWord {colonAt : Nat} (hcolon : f.has .colon = true)
    (hfind : f.find? 0 colon = some colonAt) (hafter : isDelimiter (f.byte (colonAt + 1)) = true)
    (hslash : f.byte (colonAt + 1) ≠ slash)
    (h : ∀ s, s ≠ .minus → s ≠ .colon → f.marks.has s = false) :
    wordTail .word 0 f = good .setWord f.stop := by
  have hillegal : (f.marks.erase .colon).hasAny Marks.illegalInWord = false := by
    simp [Marks.hasAny, Marks.illegalInWord, Marks.has_erase, h]
  have hends : (f.byte (colonAt + 1) != slash && isDelimiter (f.byte (colonAt + 1))) = true := by
    rw [bne_iff_ne.2 hslash, hafter]
    rfl
  simp only [wordTail, hcolon, beq_self_eq_true, if_true, hfind, Option.getD_some, hends, hillegal]
  rfl

end

/-- **A plain word** is its name. -/
theorem ofFront_name (hw : isName w = true) (hrest : isDelimiter (byteAt rest 0) = true) :
    ofFront (w ++ rest) = good .word w.length := by
  obtain ⟨b, v, rfl, hb, hs⟩ := exists_of_isName hw
  obtain ⟨n, hn⟩ := class_of_isLetter hb
  have hfirst : ByteClass.of (byteAt (b :: v ++ rest) 0) = .word n := hn
  rw [ofFront, hfirst]
  dsimp only
  rw [hs.front hrest]
  split
  · rfl
  · apply wordTail_word
    intro s h
    exact hs.tail.has (by simpa using h)

/-- **A set-word** takes the colon behind its name, which must end it. -/
theorem ofFront_setWord (hw : isName w = true) (hrest : isDelimiter (byteAt rest 0) = true)
    (hslash : byteAt rest 0 ≠ slash) :
    ofFront (w ++ colon :: rest) = good .setWord (w.length + 1) := by
  obtain ⟨b, v, rfl, hb, hs⟩ := exists_of_isName hw
  obtain ⟨n, hn⟩ := class_of_isLetter hb
  have htext : b :: v ++ colon :: rest = b :: (v ++ [colon]) ++ rest := by simp
  have hfirst : ByteClass.of (byteAt (b :: (v ++ [colon]) ++ rest) 0) = .word n := hn
  have hrun : Solid [.minus, .colon] (b :: (v ++ [colon])) := by
    refine Solid.append (w := b :: v) (hs.mono (by simp)) ?_
    exact Solid.cons rfl fun _ h => absurd h List.not_mem_nil
  have hnot : colon ∉ b :: v := fun h => absurd (hs colon h) (by decide)
  have hcolon : (Marks.ofRun (b :: (v ++ [colon]))).has .colon = true := by
    rw [Marks.has_ofRun, List.any_append, Bool.or_eq_true]
    exact .inr rfl
  have hafter : byteAt (b :: (v ++ [colon]) ++ rest) ((b :: v).length + 1) = byteAt rest 0 := by
    rw [← htext]
    exact byteAt_append_length (b :: v) (colon :: rest) 1
  rw [htext, ofFront, hfirst]
  dsimp only
  rw [hrun.front hrest]
  split
  · rename_i honly
    rw [Marks.has_of_isOnlyWord honly] at hcolon
    cases hcolon
  · have hlength : (b :: (v ++ [colon])).length = (b :: v).length + 1 := by simp
    have hsetWord := wordTail_setWord (f := ⟨b :: (v ++ [colon]) ++ rest, b :: (v ++ [colon]),
      Marks.ofRun (b :: (v ++ [colon]))⟩) hcolon (Front.find?_append hnot)
    refine (hsetWord ?_ ?_ ?_).trans (congrArg (good .setWord) hlength)
    · rw [Front.byte, hafter]
      exact hrest
    · rw [Front.byte, hafter]
      exact hslash
    · intro s h₁ h₂
      exact hrun.tail.has (by simp [h₁, h₂])

/-- Behind a special, a name has a letter in front and no mark but a minus. -/
theorem front_marked (mark : UInt8) {s : Special} (hmark : ByteClass.of mark = .special s)
    (hw : isName w = true) (hrest : isDelimiter (byteAt rest 0) = true) :
    ∃ f, Front.of (mark :: (w ++ rest)) = f ∧ f.stop = w.length + 1 ∧ isLetter (f.byte 1) = true ∧
      ∀ s, s ≠ .minus → f.marks.has s = false := by
  obtain ⟨b, v, rfl, hb, hs⟩ := exists_of_isName hw
  have hrun : Solid [.minus, s] (mark :: b :: v) :=
    Solid.cons (isSolid_of_mem hmark (by simp)) (hs.mono (by simp))
  exact ⟨_, hrun.front hrest, rfl, hb, fun s h => hs.has (by simpa using h)⟩

/-- **A get-word** is a colon and a name. -/
theorem ofFront_getWord (hw : isName w = true) (hrest : isDelimiter (byteAt rest 0) = true) :
    ofFront (colon :: (w ++ rest)) = good .getWord (w.length + 1) := by
  obtain ⟨f, hf, hstop, hb, hmarks⟩ := front_marked colon rfl hw hrest
  have hat : f.has .atSign = false := hmarks .atSign Special.noConfusion
  show special .colon (Front.of (colon :: (w ++ rest))) = _
  rw [hf, special, hat, ← hstop]
  show colonForm f = _
  simp only [colonForm, not_number_of_isLetter hb,
    beq_false_of_class hb (show isLetter tick = false from rfl),
    beq_false_of_class hb (show isLetter lesser = false from rfl),
    beq_false_of_class hb (show isLetter greater = false from rfl), Bool.or_self, Bool.false_eq_true,
    if_false]
  split
  · rfl
  · exact wordTail_word hmarks

/-- **A lit-word** is a tick and a name. -/
theorem ofFront_litWord (hw : isName w = true) (hrest : isDelimiter (byteAt rest 0) = true) :
    ofFront (tick :: (w ++ rest)) = good .litWord (w.length + 1) := by
  obtain ⟨f, hf, hstop, hb, hmarks⟩ := front_marked tick rfl hw hrest
  have hat : f.has .atSign = false := hmarks .atSign Special.noConfusion
  show special .tick (Front.of (tick :: (w ++ rest))) = _
  rw [hf, special, hat, ← hstop]
  show tickForm f = _
  simp only [tickForm, not_number_of_isLetter hb,
    beq_false_of_class hb (show isLetter colon = false from rfl),
    beq_false_of_class hb (show isLetter tick = false from rfl),
    beq_false_of_class hb (show isLetter lesser = false from rfl),
    beq_false_of_class hb (show isLetter greater = false from rfl), Bool.or_self, Bool.false_eq_true,
    if_false]
  split
  · rfl
  · exact wordTail_word hmarks

/-- **A refinement** is a slash and a name. -/
theorem ofFront_refinement (hw : isName w = true) (hrest : isDelimiter (byteAt rest 0) = true) :
    ofFront (slash :: (w ++ rest)) = good .refinement (w.length + 1) := by
  obtain ⟨b, v, rfl, hb, hs⟩ := exists_of_isName hw
  obtain ⟨n, hn⟩ := class_of_isLetter hb
  have hmarks (s : Special) (h : s ≠ .minus) : (Marks.ofRun (b :: v)).has s = false :=
    hs.tail.has (by simpa using h)
  have hone : (List.takeWhile (· == slash) (slash :: (b :: v ++ rest))).length = 1 := by
    rw [List.takeWhile_cons_of_pos (by rfl), List.cons_append, List.takeWhile_cons_of_neg]
    · rfl
    · rw [beq_false_of_class hb rfl]
      exact Bool.noConfusion
  have hword : isWordOrNumber (byteAt (slash :: (b :: v ++ rest)) 1) = true := by
    show (isWord b || isNumber b) = true
    rw [isWord, hn]
    rfl
  have hfront : Front.of ((slash :: (b :: v ++ rest)).drop 1) = _ := hs.front hrest
  show slashes (slash :: (b :: v ++ rest)) = _
  simp only [slashes, hone, hword, Bool.true_or, if_true, beq_self_eq_true, hfront]
  split
  · exact congrArg (good .refinement) (Nat.add_comm 1 _)
  · exact wordTail_word hmarks

/-! ## Numbers -/

theorem grouped_of_digits {n : Nat} (hd : Literal.Digits w n) : Grouped w where
  first := by
    have hfirst := hd.byteAt_zero []
    rwa [List.append_nil] at hfirst
  all b hb := by
    rw [Literal.isDigitOrTick, hd.isDigit b hb]
    rfl

/-- **A tuple** of three numbers or more is written as one. -/
theorem numeral_tuple {ns : List Nat} (h : Literal.minTuple ≤ ns.length) :
    Numeral .tuple (Utf8.encode (".".intercalate (ns.map toString))) := by
  rw [Literal.encode_tuple]
  refine .tuple (by rwa [List.length_map]) fun run hrun => ?_
  obtain ⟨n, -, rfl⟩ := List.mem_map.1 hrun
  exact ⟨n, Literal.digits_toString n⟩

/-- **A time** is written as one. -/
theorem numeral_timeText (t : Time) : Numeral .time (Utf8.encode t.text) := by
  obtain ⟨h, m, sec, tail, htext, hh, hm, hs, htail⟩ := Literal.encode_timeText t
  have hfraction : Optionally (Fraction 1) tail := by
    generalize t.nanos.natAbs % Time.nanosPerSecond = nanos at htail
    cases htail with
    | none => exact .inl rfl
    | digits hds => exact .inr (.mk (.inl rfl) hds.isDigit (List.length_pos_iff.2 hds.ne_nil))
  rw [htext]
  exact .time (Literal.isSign_signBytes _) hh.isDigit hm (.inr (.mk hs)) hfraction

/-- **Digits and a colon** somewhere behind them look like a time. -/
theorem ofFront_clocked {allowed : List Special} {n : Nat} {v : Bytes} (hd : Literal.Digits w n)
    (hv : Solid allowed v) (hat : .atSign ∉ allowed) (hpound : .pound ∉ allowed) (hcolon : colon ∈ v)
    (hrest : isDelimiter (byteAt rest 0) = true) :
    ofFront (w ++ v ++ rest) = good .time (w ++ v).length := by
  have hs : Solid allowed (w ++ v) := (solid_of_isDigit hd.isDigit).append hv
  obtain ⟨before, behind, rfl⟩ := List.append_of_mem hcolon
  have hmark : (Marks.ofRun (w ++ (before ++ colon :: behind))).has .colon = true := by
    rw [← List.append_assoc]
    exact has_colon (fun h => hd.ne_nil (List.append_eq_nil_iff.1 h).1)
  rw [ofFront_number hs (hd.byteAt_zero _) hrest]
  exact number_time (hs.has_run hat) (hs.has_run hpound) hmark

theorem ofFront_digitsColon {n : Nat} (hd : Literal.Digits w n)
    (hrest : isDelimiter (byteAt rest 0) = true) :
    ofFront (w ++ colon :: rest) = good .time (w.length + 1) := by
  have hcolon : Solid [.colon] [colon] := Solid.cons rfl fun _ h => absurd h List.not_mem_nil
  have hlexeme := ofFront_clocked hd hcolon (by simp) (by simp) (List.mem_singleton_self _) hrest
  rwa [List.append_assoc, List.length_append] at hlexeme

/-- **Digits and a minus** make a date of what follows, in which there is no other special. -/
theorem ofFront_digitsMinus {n : Nat} {v : Bytes} (hd : Literal.Digits w n) (hv : Solid [.minus] v)
    (hrest : isDelimiter (byteAt rest 0) = true) :
    ofFront (w ++ minus :: v ++ rest) = good .date (w ++ minus :: v).length := by
  have hs : Solid [.minus] (w ++ minus :: v) :=
    (solid_of_isDigit hd.isDigit).append (Solid.cons rfl hv)
  have hfirst := hd.byteAt_zero (minus :: v)
  have hmarks : (Marks.ofRun (w ++ minus :: v)).has .minus = true := by
    rw [show w ++ minus :: v = [] ++ (w ++ minus :: v) from rfl, has_signed_iff .none hfirst]
    simp [Special.byte]
  have hnot {s : Special} (h : s ∉ [Special.minus]) : Front.has ⟨w ++ minus :: v ++ rest,
      w ++ minus :: v, Marks.ofRun (w ++ minus :: v)⟩ s = false := hs.has_run h
  rw [ofFront_number hs hfirst hrest, number_bySign (hnot (by simp)) (hnot (by simp))
    (hnot (by simp)) (hnot (by simp)) (hnot (by simp)) (not_isEmpty_of_has hmarks)]
  have hrun : (Front.run ⟨w ++ minus :: v ++ rest, w ++ minus :: v,
    Marks.ofRun (w ++ minus :: v)⟩).drop 0 = w ++ minus :: v := rfl
  refine numberBySign_behind hrun (fun b hb => ?_) (by simp)
  rw [Literal.isDigitOrTick, hd.isDigit b hb]
  rfl

/-! ## Issues and binaries -/

theorem isSolid_of_isIssueByte (b : UInt8) (h : Literal.isIssueByte b = true) :
    isSolid [.tick, .comma, .period, .plus, .minus] b = true := by
  simp only [Literal.isIssueByte, Bool.or_eq_true, beq_iff_eq] at h
  rcases h with (((((h | rfl) | rfl) | rfl) | rfl) | rfl) | rfl
  · exact isSolid_of_isWordOrNumber h
  all_goals rfl

/-- **An issue** is a pound sign and a name of its own. -/
theorem ofFront_issue (hw : Literal.isIssueText w = true)
    (hrest : isDelimiter (byteAt rest 0) = true) :
    ofFront (pound :: (w ++ rest)) = good .issue (w.length + 1) := by
  cases w with
  | nil => cases hw
  | cons b v =>
    have hall : ∀ c ∈ b :: v, Literal.isIssueByte c = true := List.all_eq_true.1 hw
    have hb := hall b List.mem_cons_self
    have hs : Solid [.tick, .comma, .period, .plus, .minus] (b :: v) :=
      fun c hc => isSolid_of_isIssueByte c (hall c hc)
    have hrun : Solid [.pound, .tick, .comma, .period, .plus, .minus] (pound :: b :: v) :=
      Solid.cons rfl (hs.mono fun s h => List.mem_cons_of_mem _ h)
    have hfront : Front.of (pound :: (b :: v ++ rest)) = _ := hrun.front hrest
    show special .pound (Front.of (pound :: (b :: v ++ rest))) = _
    rw [hfront, special, Front.has, hs.has (by decide)]
    show poundForm 0 _ = _
    have hnext : Front.byte ⟨pound :: b :: v ++ rest, pound :: b :: v,
      Marks.ofRun (pound :: b :: v)⟩ (0 + 1) = b := rfl
    have hbracket : (b == bracketOpen) = false := beq_false_of_class hb (by decide)
    have hquote : (b == quote) = false := beq_false_of_class hb (by decide)
    have hbrace : (b == braceOpen) = false := beq_false_of_class hb (by decide)
    simp only [poundForm, hnext, hbracket, hquote, hbrace]
    rfl

end

end Lexeme

/-! ## Binaries -/

namespace Quoted

/-- The next character of such text takes a byte, or two that are a line break. -/
theorem next?_radixText {b : UInt8} {w : Bytes} (hb : isRadixByte b = true) (rest : Bytes) :
    ∃ c, next? true (b :: (w ++ braceClose :: rest)) = some (c, 1) ∨
      (∃ v, w = lineFeed :: v ∧ next? true (b :: (w ++ braceClose :: rest)) = some (c, 2)) := by
  obtain ⟨hnul, -, -, hcaret, hascii⟩ := radixByte_plain b hb
  by_cases hline : isLineBreak b = true
  · refine ⟨'\n', ?_⟩
    by_cases hpair : (b == carriageReturn && byteAt (w ++ braceClose :: rest) 0 == lineFeed) = true
    · right
      rw [Bool.and_eq_true, beq_iff_eq, beq_iff_eq] at hpair
      cases w with
      | nil => cases hpair.2
      | cons d v =>
        obtain ⟨rfl, hfeed⟩ := hpair
        obtain rfl : d = lineFeed := hfeed
        exact ⟨v, rfl, rfl⟩
    · left
      simp only [next?, byteAt_cons_zero, byteAt_cons_succ, beq_false_of_ne hnul, hline, hpair]
      rfl
  · refine ⟨Char.ofNat b.toNat, .inl ?_⟩
    have hread : Caret.read (b :: (w ++ braceClose :: rest)) = some (Char.ofNat b.toNat, 1) := by
      simp [Caret.read, hcaret, UInt8.not_le.2 hascii]
    simp [next?, hnul, hline, hread]

/-- Digits with white space neither nest nor escape nor end a braced text. -/
theorem readFrom_radixText {u : Bytes} (hu : ∀ b ∈ u, isRadixByte b = true) (rest : Bytes)
    (pos lines lineStart : Nat) (found : List Char) :
    ∃ lines' lineStart', (readFrom true (u ++ braceClose :: rest) pos 0 lines lineStart found).2 =
      some ⟨pos + u.length + 1, lines', lineStart'⟩ := by
  -- A line break of two bytes is one character, so this goes by the length and not byte by byte.
  induction hn : u.length using Nat.strongRecOn generalizing u pos lines lineStart found with
  | ind n ih =>
    cases u with
    | nil =>
      refine ⟨lines, lineStart, ?_⟩
      rw [← hn, List.nil_append, readFrom]
      rfl
    | cons b w =>
      obtain ⟨hb, hw⟩ := List.forall_mem_cons.1 hu
      obtain ⟨-, hclose, hopen, -, -⟩ := radixByte_plain b hb
      have hcontinue : ¬(b == closing true && (0 : Nat) == 0) = true := by
        simpa [closing] using hclose
      have hnest : nestAfter true b 0 = 0 := by
        simp [nestAfter, hopen, hclose]
      rw [List.length_cons] at hn
      rw [List.cons_append, readFrom, byteAt_cons_zero, if_neg hcontinue]
      obtain ⟨c, hone | ⟨v, rfl, htwo⟩⟩ := next?_radixText (w := w) hb rest
      · split
        · rename_i h
          rw [hone] at h
          cases h
        · rename_i d m h
          rw [hone] at h
          cases h
          simp only [hnest, List.drop_one, List.tail_cons]
          obtain ⟨lines', lineStart', h⟩ := ih w.length (by omega) hw (pos + 1) _ _ _ rfl
          refine ⟨lines', lineStart', h.trans ?_⟩
          congr 2
          omega
      · split
        · rename_i h
          rw [htwo] at h
          cases h
        · rename_i d m h
          rw [htwo] at h
          cases h
          rw [List.length_cons] at hn
          simp only [hnest, List.cons_append, List.drop_succ_cons, List.drop_zero]
          obtain ⟨lines', lineStart', h⟩ := ih v.length (by omega)
            (fun d hd => hw d (List.mem_cons_of_mem _ hd)) (pos + 2) _ _ _ rfl
          refine ⟨lines', lineStart', h.trans ?_⟩
          congr 2
          omega

end Quoted

/-- **A binary** is a pound sign and digits between braces, with the base in front or not. -/
theorem Lexeme.ofFront_radixLiteral {base : Radix} {lead text : Bytes} (hlead : lead ∈ base.leads)
    (h : ∀ b ∈ text, isRadixByte b = true) (rest : Bytes) :
    (ofFront (Radix.literal lead text ++ rest)).kind = .binary ∧
    (ofFront (Radix.literal lead text ++ rest)).malformed = false ∧
    (ofFront (Radix.literal lead text ++ rest)).length = (Radix.literal lead text).length := by
  have htext : Radix.literal lead text ++ rest =
      (lead ++ [pound]) ++ braceOpen :: (text ++ braceClose :: rest) := by
    simp [Radix.literal, binaryLiteral]
  have hlength : (Radix.literal lead text).length = lead.length + 1 + (1 + text.length + 1) := by
    simp only [Radix.literal, binaryLiteral, List.length_cons, List.length_append, List.length_nil]
    omega
  obtain ⟨-, hdigits⟩ := Literal.writtenRadix?_of_leads hlead
  have hrun : Solid [.pound] (lead ++ [pound]) :=
    (solid_of_isDigit hdigits).append (Solid.cons rfl fun _ h => absurd h List.not_mem_nil)
  have hof : Front.of ((lead ++ [pound]) ++ braceOpen :: (text ++ braceClose :: rest)) =
      ⟨(lead ++ [pound]) ++ braceOpen :: (text ++ braceClose :: rest), lead ++ [pound],
        Marks.ofRun (lead ++ [pound])⟩ := hrun.front rfl
  have hat : (Marks.ofRun (lead ++ [pound])).has .atSign = false := hrun.has_run (by decide)
  have hquoted : ofFront ((lead ++ [pound]) ++ braceOpen :: (text ++ braceClose :: rest)) =
      quoted .binary ((lead ++ [pound]) ++ braceOpen :: (text ++ braceClose :: rest))
        (lead.length + 1) := by
    -- The base in front is the only one that leads a number on to the braces.
    have hnumber (hpound : (Marks.ofRun (lead ++ [pound])).has .pound = true)
        (hbase : basePound? ⟨(lead ++ [pound]) ++ braceOpen :: (text ++ braceClose :: rest),
          lead ++ [pound], Marks.ofRun (lead ++ [pound])⟩ = some lead.length) :
        number 0 (Front.of ((lead ++ [pound]) ++ braceOpen :: (text ++ braceClose :: rest))) =
          poundForm lead.length ⟨(lead ++ [pound]) ++ braceOpen :: (text ++ braceClose :: rest),
            lead ++ [pound], Marks.ofRun (lead ++ [pound])⟩ := by
      rw [hof, number]
      simp only [Front.has, not_isEmpty_of_has hpound, hat, hpound, hbase]
      rfl
    cases base with
    | two =>
      obtain rfl := List.mem_singleton.1 hlead
      exact hnumber (by decide) rfl
    | sixteen =>
      rcases List.mem_cons.1 hlead with rfl | hlead
      · show special .pound (Front.of _) = _
        rw [hof, special, Front.has, hat]
        rfl
      · obtain rfl := List.mem_singleton.1 hlead
        exact hnumber (by decide) rfl
    | sixtyFour =>
      obtain rfl := List.mem_singleton.1 hlead
      exact hnumber (by decide) rfl
  obtain ⟨lines, lineStart, hread⟩ := Quoted.readFrom_radixText h rest 1 0 0 []
  have hextent : (Quoted.read (((lead ++ [pound]) ++ braceOpen :: (text ++ braceClose :: rest)).drop
      (lead.length + 1))).extent = some ⟨1 + text.length + 1, lines, lineStart⟩ := by
    rw [show lead.length + 1 = (lead ++ [pound]).length by simp, List.drop_left]
    exact hread
  rw [htext, hquoted, hlength, quoted]
  simp only [hextent]
  exact ⟨trivial, trivial, trivial⟩

end RebolScan
