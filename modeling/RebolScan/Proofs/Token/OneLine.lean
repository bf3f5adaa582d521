import RebolScan.Proofs.Text.LineBreaks
import RebolScan.Proofs.Token.Extent

/-!
# Lexemes and lines

**A malformed lexeme stays on the line on which it starts**, and so does every well-formed one but
line breaks themselves, quoted forms, characters and tags. So what is wrong in one line costs at
most the rest of that line. And **no lexeme counts a line that it does not cross**: one that has
counted all of them says where the last starts. `ofFront_lined` is both.

Most lexemes are a run of bytes or a part of one, and a run ends at every line break. The bodies of
quoted forms, characters and tags are not runs; where such a form is malformed, what it takes is
measured up to the end of its line. Where it is well formed, a quoted text counts the line breaks
that it holds but those that a caret escapes, and a tag, a character or a file counts none.
-/

set_option autoImplicit false

namespace RebolScan

open Ascii

/-- The kinds of lexeme that a line break may be a part of. -/
def TokenKind.mayCross : TokenKind → Bool
  | .line | .string | .binary | .char | .file | .tag => true
  | _ => false

theorem isDelimiter_of_isLineBreak {b : UInt8} (h : isLineBreak b = true) :
    isDelimiter b = true := by
  simp only [isLineBreak, Bool.or_eq_true, beq_iff_eq] at h
  rcases h with rfl | rfl
  · decide
  · decide

theorem not_lineBreak_of_not_delimiter {b : UInt8} (h : isDelimiter b = false) :
    isLineBreak b = false := by
  rw [← Bool.not_eq_true]
  intro hb
  rw [isDelimiter_of_isLineBreak hb] at h
  cases h

theorem unbroken_runOf (text : Bytes) : Unbroken text 0 (runOf text).length := by
  apply unbroken_takeWhile
  intro b hb
  apply not_lineBreak_of_not_delimiter
  simpa using hb

/-- The bytes of a run are those of the text. -/
theorem Front.unbroken_of (text : Bytes) : Unbroken (of text).text 0 (of text).stop :=
  unbroken_runOf text

namespace Quoted

/-- Where the last line starts that a quoted text has counted. -/
def Extent.lastLine (e : Extent) : Option Nat := if 0 < e.lines then some e.lineStart else none

/-- At a line break a quoted text takes all of it. -/
theorem next?_lineBreak {braced : Bool} {rest : Bytes} {c : Char} {n : Nat}
    (h : next? braced rest = some (c, n)) (hb : isLineBreak (byteAt rest 0) = true) :
    n = lineBreakLength rest := by
  unfold next? at h
  dsimp only at h
  split at h
  · cases h
  · split at h
    · cases h
      rfl
    · cases h

/-- What has been counted up to `pos` is counted on from there. -/
theorem readFrom_tallies {text : Bytes} {braced : Bool} {rest : Bytes}
    {pos nest lines lineStart : Nat} {found : List Char} {e : Extent}
    (h : (readFrom braced rest pos nest lines lineStart found).2 = some e)
    (hrest : rest = text.drop pos)
    (ht : Tallies text pos lines (Extent.lastLine ⟨pos, lines, lineStart⟩)) :
    Tallies text e.length e.lines e.lastLine := by
  fun_induction readFrom braced rest pos nest lines lineStart found with
  | case1 rest pos nest lines lineStart found hc =>
    cases h
    rw [Bool.and_eq_true, beq_iff_eq] at hc
    apply (tallies_unbroken (Nat.le_succ pos) (unbroken_succ _)).2 ht
    rw [← Nat.add_zero pos, ← byteAt_drop, ← hrest, hc.1]
    cases braced <;> decide
  | case2 => cases h
  | case3 rest pos nest lines lineStart found hc c n hn b crosses ih =>
    apply ih h
    · rw [hrest, List.drop_drop]
    · rw [hrest] at hn
      by_cases hb : crosses = true
      · have hbreak : isLineBreak (byteAt (text.drop pos) 0) = true := by
          rw [← hrest]
          exact hb
        have hlen := next?_lineBreak hn hbreak
        obtain ⟨hcount, hlast⟩ := tallies_lineBreak hbreak
        rw [← hlen] at hcount hlast
        rw [dif_pos hb, dif_pos hb]
        have hone : Tallies (text.drop pos) n 1 (some n) := ⟨by omega, fun _ => hlast.symm⟩
        exact ht.add hone
      · rw [dif_neg hb, dif_neg hb]
        exact ht.add (tallies_none n)

theorem read_tallies {text : Bytes} {e : Extent} (h : (read text).extent = some e) :
    Tallies text e.length e.lines e.lastLine :=
  readFrom_tallies (show (readFrom _ (text.drop 1) 1 0 0 0 []).2 = some e from h) rfl
    (tallies_none 1)

end Quoted

namespace Lexeme

/-- Where the last line starts that a lexeme has counted: behind a line break, and inside a quoted
form. -/
def lastLine (l : Lexeme) : Option Nat :=
  if l.kind = .line ∧ 0 < l.lines then some l.length else l.lineStart

/-- What a lexeme says of lines holds of the text. -/
structure Lined (text : Bytes) (l : Lexeme) : Prop where
  oneLine : l.malformed = true ∨ l.kind.mayCross = false →
    l.lines = 0 ∧ l.lineStart = none ∧ Unbroken text 0 l.length
  tallied : Tallies text l.length l.lines l.lastLine

theorem lastLine_of_kind {l : Lexeme} (h : l.kind ≠ .line) : l.lastLine = l.lineStart :=
  if_neg fun hl => h hl.1

/-- Who counts no lines has not counted too many. -/
theorem tallies_of_none {text : Bytes} {l : Lexeme} (hl : l.lines = 0) (hs : l.lineStart = none) :
    Tallies text l.length l.lines l.lastLine := by
  have hlast : l.lastLine = none := by
    rw [lastLine, hl, hs]
    exact if_neg fun h => Nat.lt_irrefl 0 h.2
  rw [hl, hlast]
  exact tallies_none _

theorem lined_of_unbroken {text : Bytes} {l : Lexeme} (hl : l.lines = 0)
    (hs : l.lineStart = none) (h : Unbroken text 0 l.length) : Lined text l :=
  ⟨fun _ => ⟨hl, hs, h⟩, tallies_of_none hl hs⟩

/-- A well-formed quoted form, character or tag may be on more lines than one. -/
theorem lined_of_mayCross {text : Bytes} {l : Lexeme} (hw : l.malformed = false)
    (hk : l.kind.mayCross = true) (ht : Tallies text l.length l.lines l.lastLine) :
    Lined text l := by
  refine ⟨?_, ht⟩
  intro h
  rw [hw, hk] at h
  rcases h with h | h
  · cases h
  · cases h

theorem unbroken_lineLength (text : Bytes) : Unbroken text 0 (lineLength text) := by
  apply unbroken_takeWhile
  intro b hb
  rw [Bool.not_eq_true', isLineEnd, Bool.or_eq_false_iff] at hb
  exact hb.1

/-- What a malformed form takes of its line, the first byte not looked at. -/
theorem unbroken_line {text : Bytes} (h : isLineBreak (byteAt text 0) = false) :
    Unbroken text 0 (1 + lineLength (text.drop 1)) := by
  apply (unbroken_succ h).trans
  rw [← unbroken_drop]
  exact unbroken_lineLength _

theorem lined_badLine {text : Bytes} {kind : TokenKind}
    (h : isLineBreak (byteAt text 0) = false) : Lined text (badLine kind text) :=
  lined_of_unbroken rfl rfl (unbroken_line h)

/-- A line break, with what stands before it in its line. -/
theorem lined_lineBreak {text : Bytes} {skip : Nat} (h : isLineBreak (byteAt text skip) = true) :
    Lined text (lineBreak text skip) := by
  apply lined_of_mayCross rfl rfl
  have hdrop : isLineBreak (byteAt (text.drop skip) 0) = true := by
    rwa [byteAt_drop]
  obtain ⟨hcount, hlast⟩ := tallies_lineBreak hdrop
  show Tallies text (skip + lineBreakLength (text.drop skip)) 1
    (some (skip + lineBreakLength (text.drop skip)))
  constructor
  · rw [breaksBefore_add, hcount]
    omega
  · intro _
    rw [lastBreak_add, hlast]
    rfl

theorem lined_quoted {text : Bytes} {kind : TokenKind} {skip : Nat}
    (h : isLineBreak (byteAt text 0) = false) (hk : kind.mayCross = true) (hline : kind ≠ .line) :
    Lined text (quoted kind text skip) := by
  unfold quoted
  dsimp only
  split
  · rename_i e he
    apply lined_of_mayCross rfl hk
    rw [lastLine_of_kind hline]
    have ht := (tallies_none skip).add (Quoted.read_tallies he)
    rw [Option.or_none, Nat.zero_add, Quoted.Extent.lastLine] at ht
    dsimp only
    split at ht
    · rename_i hlines
      rw [if_pos hlines]
      exact ht
    · rename_i hlines
      rw [if_neg hlines]
      exact ht
  · exact lined_of_unbroken rfl rfl (unbroken_line h)

theorem lined_character {text : Bytes} {skip : Nat}
    (h : isLineBreak (byteAt text 0) = false) : Lined text (character text skip) := by
  unfold character
  split
  · split
    · exact lined_of_mayCross rfl rfl (tallies_of_none rfl rfl)
    · exact lined_badLine h
  · exact lined_badLine h

/-- Slashes and the names between them. -/
theorem unbroken_pathEnd {text : Bytes} {start : Nat} (h : Unbroken text 0 start) :
    Unbroken text 0 (pathEnd text start) := by
  apply h.trans
  rw [pathEnd, ← unbroken_drop]
  apply unbroken_takeWhile
  intro b hb
  rw [Bool.or_eq_true] at hb
  rcases hb with hb | hb
  · rw [eq_of_beq hb]
    decide
  · apply not_lineBreak_of_not_delimiter
    simpa using hb

variable {f : Front} (hf : Unbroken f.text 0 f.stop)

include hf

/-- A lexeme that takes no more than the run. -/
theorem lined_of_le {l : Lexeme} (hl : l.lines = 0) (hs : l.lineStart = none)
    (hn : l.length ≤ f.stop) : Lined f.text l :=
  lined_of_unbroken hl hs (hf.mono (Nat.le_refl _) hn)

theorem lined_run (kind : TokenKind) (malformed : Bool) :
    Lined f.text ⟨kind, malformed, f.stop, 0, none, none⟩ :=
  lined_of_le hf rfl rfl (Nat.le_refl _)

theorem lined_file : Lined f.text (file f) := by
  unfold file
  dsimp only
  split
  · split
    · exact lined_of_mayCross rfl rfl (tallies_of_none rfl rfl)
    · exact lined_of_le hf rfl rfl (Nat.le_refl _)
  · exact lined_of_mayCross rfl rfl (tallies_of_none rfl rfl)

/-! ## Words -/

theorem lined_marked {kind : TokenKind} {start : Nat} {m : Marks} :
    Lined f.text (wordTail.marked kind start f m) := by
  unfold wordTail.marked
  split
  · exact lined_run hf _ _
  · split
    · exact lined_run hf _ _
    · split
      · exact lined_run hf _ _
      · split
        · dsimp only
          split
          · exact lined_run hf _ _
          · -- The word ends at the `<` of the tag behind it.
            cases hi : f.find? start lesser with
            | none => exact lined_run hf _ _
            | some i => exact lined_of_le hf rfl rfl (Nat.le_of_lt (Front.find?_bounds hi).2)
        · split
          · exact lined_run hf _ _
          · exact lined_run hf _ _

theorem lined_wordTail {kind : TokenKind} {start : Nat} :
    Lined f.text (wordTail kind start f) := by
  unfold wordTail
  split
  · split
    · dsimp only
      split
      · split
        · exact lined_run hf _ _
        · exact lined_run hf _ _
      · exact lined_of_unbroken rfl rfl (unbroken_pathEnd hf)
    · split
      · exact lined_run hf _ _
      · exact lined_marked hf
  · exact lined_marked hf

/-- The mark in front of an operator and the operator's own signs are no line breaks. -/
theorem lined_operatorWord {kind : TokenKind} (h0 : isLineBreak (f.byte 0) = false)
    (h1 : f.byte 1 = lesser ∨ f.byte 1 = greater) : Lined f.text (operatorWord kind f) := by
  have hfirst : Unbroken f.text 0 2 := by
    apply (unbroken_succ h0).trans
    apply unbroken_succ
    show isLineBreak (f.byte 1) = false
    rcases h1 with h1 | h1
    · rw [h1]
      decide
    · rw [h1]
      decide
  unfold operatorWord
  dsimp only
  split
  · rename_i h2
    have h2 : isLineBreak (f.byte 2) = false := by
      simp only [Bool.or_eq_true] at h2
      rcases h2 with (h2 | h2) | h2 <;> rw [eq_of_beq h2] <;> decide
    split
    · exact lined_of_unbroken rfl rfl (hfirst.trans (unbroken_succ h2))
    · exact lined_run hf _ _
  · split
    · exact lined_of_unbroken rfl rfl hfirst
    · exact lined_run hf _ _

theorem lined_angle {s : Special} : Lined f.text (angle s f) := by
  have hop : Lined f.text
      (if isDelimiter (f.byte 2) then good .word f.stop else bad .word f.stop) := by
    split
    · exact lined_run hf _ _
    · exact lined_run hf _ _
  unfold angle
  dsimp only
  split
  · exact lined_run hf _ _
  · split
    · exact hop
    · split
      · exact lined_run hf _ _
      · split
        · exact hop
        · split
          · exact lined_run hf _ _
          · split
            · exact lined_of_mayCross rfl rfl (tallies_of_none rfl rfl)
            · exact lined_run hf _ _

/-! ## Numbers and what starts with a pound sign -/

theorem lined_poundForm {start : Nat} (hs : Unbroken f.text 0 (start + 1)) :
    Lined f.text (poundForm start f) := by
  have h0 : isLineBreak (byteAt f.text 0) = false := hs 0 (Nat.le_refl _) (Nat.succ_pos _)
  unfold poundForm
  dsimp only
  split
  · rename_i hb
    have hb : isLineBreak (f.byte (start + 1)) = false := by
      rw [eq_of_beq hb]
      decide
    exact lined_of_unbroken rfl rfl (hs.trans (unbroken_succ hb))
  · split
    · exact lined_character h0
    · split
      · exact lined_quoted h0 rfl TokenKind.noConfusion
      · split
        · exact lined_run hf _ _
        · exact lined_run hf _ _

theorem lined_numberBySign {start : Nat} : Lined f.text (numberBySign start f) := by
  unfold numberBySign
  dsimp only
  split
  · repeat' split
    all_goals exact lined_run hf _ _
  · split
    · exact lined_run hf _ _
    · exact lined_run hf _ _

omit hf in
/-- The base written in front of a binary is digits. -/
theorem unbroken_basePound {p : Nat} (h : basePound? f = some p) : Unbroken f.text 0 (p + 1) := by
  have digit {i : Nat} {b : UInt8} (hb : (f.byte i == b) = true)
      (hl : isLineBreak b = false) : isLineBreak (byteAt f.text i) = false := by
    rw [← eq_of_beq hb] at hl
    exact hl
  unfold basePound? at h
  split at h
  · rename_i hb
    simp only [Bool.and_eq_true] at hb
    obtain ⟨⟨h0, h1⟩, -⟩ := hb
    cases h
    exact (unbroken_succ (digit h0 rfl)).trans (unbroken_succ (digit h1 rfl))
  · split at h
    · rename_i hb
      simp only [Bool.and_eq_true, Bool.or_eq_true] at hb
      obtain ⟨⟨h01, h2⟩, -⟩ := hb
      cases h
      have hlead : Unbroken f.text 0 2 := by
        rcases h01 with ⟨h0, h1⟩ | ⟨h0, h1⟩
        · exact (unbroken_succ (digit h0 rfl)).trans (unbroken_succ (digit h1 rfl))
        · exact (unbroken_succ (digit h0 rfl)).trans (unbroken_succ (digit h1 rfl))
      exact hlead.trans (unbroken_succ (digit h2 rfl))
    · cases h

theorem lined_number {start : Nat} : Lined f.text (number start f) := by
  unfold number
  split
  · exact lined_run hf _ _
  · split
    · exact lined_run hf _ _
    · split
      · split
        · rename_i p hp
          apply lined_poundForm hf
          apply unbroken_basePound
          split at hp
          · exact hp
          · cases hp
        · exact lined_run hf _ _
      · split
        · exact lined_run hf _ _
        · split
          · dsimp only
            repeat' split
            all_goals exact lined_run hf _ _
          · split
            · repeat' split
              all_goals exact lined_run hf _ _
            · exact lined_numberBySign hf

theorem lined_radixPoint {s : Special} {start : Nat} :
    Lined f.text (radixPoint s start f) := by
  unfold radixPoint
  dsimp only
  split
  · exact lined_number (f := { f with marks := f.marks.insert s }) hf
  · split
    · exact lined_run hf _ _
    · exact lined_wordTail (f := { f with marks := f.marks.insert s }) hf

/-! ## The first byte -/

theorem lined_signed (h0 : isLineBreak (f.byte 0) = false) : Lined f.text (signed f) := by
  unfold signed
  dsimp only
  split
  · exact lined_run hf _ _
  · split
    · split
      · exact lined_run hf _ _
      · split
        · exact lined_wordTail hf
        · exact lined_run hf _ _
    · split
      · exact lined_number hf
      · exact lined_radixPoint hf
      · exact lined_radixPoint hf
      · rename_i hpound
        apply lined_poundForm hf
        apply (unbroken_succ h0).trans
        apply unbroken_succ
        apply not_lineBreak_of_not_delimiter
        show isDelimiter (f.byte 1) = false
        rw [isDelimiter, hpound]
      · exact lined_wordTail hf
      · exact lined_wordTail hf
      · exact lined_run hf _ _
      · exact lined_wordTail hf

theorem lined_colonForm (h0 : isLineBreak (f.byte 0) = false) :
    Lined f.text (colonForm f) := by
  unfold colonForm
  dsimp only
  split
  · exact lined_run hf _ _
  · split
    · exact lined_run hf _ _
    · split
      · exact lined_run hf _ _
      · split
        · rename_i h1
          apply lined_operatorWord hf h0
          simpa using h1
        · exact lined_wordTail hf

theorem lined_tickForm (h0 : isLineBreak (f.byte 0) = false) :
    Lined f.text (tickForm f) := by
  unfold tickForm
  dsimp only
  split
  · exact lined_run hf _ _
  · split
    · exact lined_run hf _ _
    · split
      · exact lined_run hf _ _
      · split
        · rename_i h1
          apply lined_operatorWord hf h0
          simpa using h1
        · exact lined_wordTail hf

theorem lined_special {s : Special} (h0 : isLineBreak (f.byte 0) = false) :
    Lined f.text (special s f) := by
  unfold special
  split
  · exact lined_run hf _ _
  · cases s with
    | percent => exact lined_file hf
    | colon => exact lined_colonForm hf h0
    | tick => exact lined_tickForm hf h0
    | comma => exact lined_radixPoint hf
    | period => exact lined_radixPoint hf
    | greater => exact lined_angle hf
    | lesser => exact lined_angle hf
    | plus => exact lined_signed hf h0
    | minus => exact lined_signed hf h0
    | pound => exact lined_poundForm hf (unbroken_succ h0)
    | atSign => exact lined_run hf _ _
    | dollar => exact lined_run hf _ _
    | backslash => exact lined_run hf _ _

omit hf in
theorem lined_slashes {text : Bytes} (h0 : byteAt text 0 = slash) :
    Lined text (slashes text) := by
  have hslash : ∀ b, (b == slash) = true → isLineBreak b = false := by
    intro b hb
    rw [eq_of_beq hb]
    decide
  have hn := unbroken_takeWhile hslash text
  have hone : isLineBreak (byteAt text 0) = false := by
    rw [h0]
    decide
  unfold slashes
  dsimp only
  split
  · split
    · -- One slash: what stands behind it is a run of its own.
      have hrun : Unbroken text 0 (1 + (runOf (text.drop 1)).length) := by
        apply (unbroken_succ hone).trans
        rw [← unbroken_drop]
        exact unbroken_runOf _
      split
      · exact lined_of_unbroken rfl rfl hrun
      · rw [Nat.add_comm] at hrun
        exact lined_wordTail (show Unbroken (Front.mk text (slash :: runOf (text.drop 1)) _).text 0
          (Front.mk text (slash :: runOf (text.drop 1)) _).stop from hrun)
    · exact lined_of_unbroken rfl rfl hn
  · split
    · rename_i hnext
      apply lined_of_unbroken rfl rfl
      apply hn.trans
      apply unbroken_succ
      simp only [Bool.or_eq_true] at hnext
      rcases hnext with hnext | hnext
      · rw [eq_of_beq hnext]
        decide
      · rw [eq_of_beq hnext]
        decide
    · exact lined_of_unbroken rfl rfl hn

omit hf in
theorem not_lineBreak_of_delimiter {b : UInt8} {d : Delimiter} (hd : ByteClass.of b = .delimiter d)
    (hlf : d ≠ .lineFeed) (hcr : d ≠ .carriageReturn) : isLineBreak b = false := by
  rw [isLineBreak, Bool.or_eq_false_iff]
  constructor
  · apply beq_false_of_ne
    rintro rfl
    exact hlf (ByteClass.delimiter.inj hd).symm
  · apply beq_false_of_ne
    rintro rfl
    exact hcr (ByteClass.delimiter.inj hd).symm

omit hf in
theorem lined_delimited {text : Bytes} {d : Delimiter}
    (hd : ByteClass.of (byteAt text 0) = .delimiter d) : Lined text (delimited d text) := by
  have one {l : Lexeme} (hlf : d ≠ .lineFeed) (hcr : d ≠ .carriageReturn) (hl : l.lines = 0)
      (hs : l.lineStart = none) (hn : l.length ≤ 1) : Lined text l :=
    lined_of_unbroken hl hs
      ((unbroken_succ (not_lineBreak_of_delimiter hd hlf hcr)).mono (Nat.le_refl _) hn)
  have hcomment : Lined text (comment text) := by
    unfold comment
    dsimp only
    split
    · exact lined_of_mayCross rfl rfl (tallies_of_none rfl rfl)
    · rename_i hnul
      apply lined_lineBreak
      have he := isLineEnd_byteAt_lineLength text
      simpa [isLineEnd, hnul] using he
  cases d with
  | space => exact hcomment
  | semicolon => exact hcomment
  | lineFeed =>
    have hb : byteAt text 0 = lineFeed := by
      simpa [delimiterTable] using mem_delimiterTable hd Delimiter.noConfusion
    apply lined_lineBreak
    rw [hb]
    rfl
  | carriageReturn =>
    have hb : byteAt text 0 = carriageReturn := by
      simpa [delimiterTable] using mem_delimiterTable hd Delimiter.noConfusion
    apply lined_lineBreak
    rw [hb]
    rfl
  | quote =>
    exact lined_quoted (not_lineBreak_of_delimiter hd Delimiter.noConfusion
      Delimiter.noConfusion) rfl TokenKind.noConfusion
  | leftBrace =>
    exact lined_quoted (not_lineBreak_of_delimiter hd Delimiter.noConfusion
      Delimiter.noConfusion) rfl TokenKind.noConfusion
  | slash =>
    apply lined_slashes
    simpa [delimiterTable] using mem_delimiterTable hd Delimiter.noConfusion
  | endOfInput =>
    show Lined text (if text.isEmpty then good .endOfScript 0 else bad .word 1)
    split
    · exact one Delimiter.noConfusion Delimiter.noConfusion rfl rfl (Nat.zero_le _)
    · exact one Delimiter.noConfusion Delimiter.noConfusion rfl rfl (Nat.le_refl _)
  | leftBracket => exact one Delimiter.noConfusion Delimiter.noConfusion rfl rfl (Nat.le_refl _)
  | rightBracket => exact one Delimiter.noConfusion Delimiter.noConfusion rfl rfl (Nat.le_refl _)
  | leftParen => exact one Delimiter.noConfusion Delimiter.noConfusion rfl rfl (Nat.le_refl _)
  | rightParen => exact one Delimiter.noConfusion Delimiter.noConfusion rfl rfl (Nat.le_refl _)
  | rightBrace => exact one Delimiter.noConfusion Delimiter.noConfusion rfl rfl (Nat.le_refl _)
  | utf8Error => exact one Delimiter.noConfusion Delimiter.noConfusion rfl rfl (Nat.le_refl _)

omit hf in
/-- **A lexeme keeps to its line**, unless it is well formed and may hold line breaks. -/
theorem ofFront_lined (text : Bytes) : Lined text (ofFront text) := by
  have hf := Front.unbroken_of text
  have first (h : isDelimiter (byteAt text 0) = false) : isLineBreak (byteAt text 0) = false :=
    not_lineBreak_of_not_delimiter h
  unfold ofFront
  split
  · rename_i d hd
    exact lined_delimited hd
  · rename_i s hs
    apply lined_special hf
    apply first
    rw [isDelimiter, hs]
  · dsimp only
    split
    · exact lined_run hf _ _
    · exact lined_wordTail hf
  · exact lined_number hf

end Lexeme

end RebolScan
