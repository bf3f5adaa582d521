import RebolScan.Proofs.Token.LineCount
import RebolScan.Proofs.Token.Pieces

/-!
# Text between quotes and its line

Where quotes stand around it, the reader of quoted text stops at a line break. But it reads an escape
as a whole, and behind a caret **any** byte is a character, a line break too. So text between quotes
holds no line break but such as a caret escapes, it counts none, and **it is on one line exactly if no
line break stands right behind a caret** (`quoted_lines`). The same goes for the tokens that are cut
there, strings and file names, and nothing else lets a line break into one: a file name without quotes
is a run and slashes.

The claim that a quoted text is on one line fails where a caret stands at the end of a line
(`escaped_break_quoted`).
-/

set_option autoImplicit false

namespace RebolScan

open Ascii

/-- No byte of the text breaks a line. -/
def OnOneLine (w : Bytes) : Prop := ∀ b ∈ w, isLineBreak b = false

/-- A line break stands right behind a caret. -/
def EscapesBreak (w : Bytes) : Prop := ∃ b, isLineBreak b = true ∧ [caret, b] <:+: w

instance (w : Bytes) : Decidable (OnOneLine w) :=
  inferInstanceAs (Decidable (∀ b ∈ w, isLineBreak b = false))

variable {w rest : Bytes}

/-- Where each line break is escaped, a text is on one line if no caret stands at the end of a line. -/
theorem onOneLine_iff (h : unescapedBreaks w = 0) : OnOneLine w ↔ ¬EscapesBreak w := by
  constructor
  · rintro hline ⟨b, hb, hinfix⟩
    rw [hline b (List.IsInfix.subset hinfix (by simp))] at hb
    cases hb
  · intro hescape
    fun_induction unescapedBreaks w with
    | case1 => exact fun b hb => absurd hb List.not_mem_nil
    | case2 b hb => cases h
    | case3 b hb =>
      intro c hc
      rw [List.mem_singleton.1 hc]
      exact (Bool.not_eq_true _).mp hb
    | case4 b c rest hcaret ih =>
      obtain rfl : b = caret := eq_of_beq hcaret
      have hc : isLineBreak c = false := by
        rw [← Bool.not_eq_true]
        exact fun hc => hescape ⟨c, hc, (List.prefix_append [caret, c] rest).isInfix⟩
      have hrest : OnOneLine rest := by
        apply ih h
        rintro ⟨d, hd, hinfix⟩
        exact hescape ⟨d, hd, hinfix.trans (List.suffix_append [caret, c] rest).isInfix⟩
      exact List.forall_mem_cons.2 ⟨rfl, List.forall_mem_cons.2 ⟨hc, hrest⟩⟩
    | case5 => omega
    | case6 b c rest hcaret hcrlf ih =>
      obtain ⟨hb, hrest⟩ := Nat.add_eq_zero_iff.1 h
      have hb : isLineBreak b = false := by simpa using hb
      have hrest : OnOneLine (c :: rest) := by
        apply ih hrest
        rintro ⟨d, hd, hinfix⟩
        exact hescape ⟨d, hd, hinfix.trans (List.suffix_cons b _).isInfix⟩
      exact List.forall_mem_cons.2 ⟨hb, hrest⟩

/-! ## What is between quotes -/

namespace Quoted

variable {ps : List Piece}

/-- Pieces that may stand between quotes count nothing. -/
theorem unescapedBreaks_spelled {nest : Nat} (h : Inside false nest ps) (rest : Bytes) :
    unescapedBreaks (spelled ps ++ rest) = unescapedBreaks rest := by
  induction h with
  | done => rfl
  | @piece nest p ps hclose hline h ih =>
    have hbreak : p.isBreak = false := by
      rw [← Bool.not_eq_true]
      exact fun hbreak => Bool.noConfusion (hline hbreak)
    have hread := Caret.unescapedBreaks_read (p.read_bytes (spelled ps ++ rest))
      (by rw [p.isLineBreak_byteAt, hbreak]) (spelled ps ++ rest).length
    rw [← List.length_append, List.take_length, List.drop_left, List.take_length, ih] at hread
    rwa [spelled_cons, List.append_assoc]

/-- So does a text between quotes. -/
theorem unescapedBreaks_of_read {text : Bytes} {e : Extent} (hquote : byteAt text 0 = quote)
    (h : (read text).extent = some e) : unescapedBreaks (text.take e.length) = 0 := by
  obtain ⟨ps, hin, htake⟩ := inside_of_read h
  rw [hquote] at hin htake
  rw [htake, unescapedBreaks_cons rfl, unescapedBreaks_spelled hin]
  rfl

end Quoted

/-! ## Strings and file names -/

/-- What stands in front of a quote counts nothing if no line breaks in it, and the quote counts
nothing, be it escaped or not. -/
theorem unescapedBreaks_append (h : OnOneLine w) (rest : Bytes) :
    unescapedBreaks (w ++ quote :: rest) = unescapedBreaks rest := by
  have hquote : unescapedBreaks (quote :: rest) = unescapedBreaks rest := unescapedBreaks_cons rfl rest
  fun_induction unescapedBreaks w with
  | case1 => exact hquote
  | case2 b hb =>
    rw [h b List.mem_cons_self] at hb
    cases hb
  | case3 b hb =>
    rw [List.singleton_append]
    by_cases hcaret : b = caret
    · rw [hcaret]
      rfl
    · have hinert : isInert b = true := by simp [isInert, hcaret, hb]
      rw [unescapedBreaks_cons hinert, hquote]
  | case4 b c front hcaret ih =>
    obtain rfl : b = caret := eq_of_beq hcaret
    exact ih fun d hd => h d (List.mem_cons_of_mem _ (List.mem_cons_of_mem _ hd))
  | case5 b c front hcaret hcrlf ih =>
    have hb := h b List.mem_cons_self
    rw [Bool.and_eq_true] at hcrlf
    rw [eq_of_beq hcrlf.1] at hb
    cases hb
  | case6 b c front hcaret hcrlf ih =>
    have hinert : isInert b = true := by
      simp [isInert, (by simpa using hcaret : b ≠ caret), h b List.mem_cons_self]
    rw [List.cons_append, unescapedBreaks_cons hinert]
    exact ih fun d hd => h d (List.mem_cons_of_mem _ hd)

namespace Lexeme

variable {f : Front} {text : Bytes}

/-- A file name is a run and slashes, or a run and a text between quotes. -/
theorem unescapedBreaks_file (hf : f.Covers 0) (hgood : (file f).malformed = false) :
    unescapedBreaks (f.text.take (file f).length) = 0 := by
  have hrun : Unbroken f.text 0 f.stop := fun i hi hlt =>
    not_lineBreak_of_not_delimiter (hf.inside i hi hlt)
  unfold file at hgood ⊢
  dsimp only at hgood ⊢
  split
  · rename_i hquote
    rw [if_pos hquote] at hgood
    have hfirst : byteAt (f.text.drop f.stop) 0 = quote := by
      rw [byteAt_drop, Nat.add_zero]
      exact eq_of_beq hquote
    cases he : (Quoted.read (f.text.drop f.stop)).extent with
    | none =>
      rw [he] at hgood
      cases hgood
    | some e =>
      obtain ⟨ps, hin, htake⟩ := Quoted.inside_of_read he
      rw [hfirst] at hin htake
      show unescapedBreaks (f.text.take (f.stop + e.length)) = 0
      rw [List.take_add, htake, unescapedBreaks_append fun _ => hrun.of_mem_take,
        Quoted.unescapedBreaks_spelled hin]
      rfl
  · exact unescapedBreaks_of_unbroken (unbroken_pathEnd hrun)

/-- **Strings between quotes and file names** hold no line break but such as a caret escapes. -/
theorem unescapedBreaks_ofFront (hgood : (ofFront text).malformed = false)
    (hkind : (ofFront text).kind = .string ∧ byteAt text 0 = quote ∨ (ofFront text).kind = .file) :
    unescapedBreaks (text.take (ofFront text).length) = 0 := by
  have hcut := ofFront_cut text
  generalize ofFront text = l at hgood hkind hcut
  cases hcut with
  | line h =>
    rw [h] at hkind
    rcases hkind with ⟨hkind, -⟩ | hkind <;> cases hkind
  | setWord | issue => rcases hkind with ⟨hkind, -⟩ | hkind <;> cases hkind
  | string =>
    rcases hkind with ⟨-, hquote⟩ | hkind
    · rcases quoted_read .string text 0 with ⟨hbad, -⟩ | ⟨e, he, -, hlen, -⟩
      · rw [hgood] at hbad
        cases hbad
      · rw [hlen, Nat.zero_add]
        exact Quoted.unescapedBreaks_of_read hquote he
    · rw [quoted_kind] at hkind
      cases hkind
  | binary =>
    rw [quoted_kind] at hkind
    rcases hkind with ⟨hkind, -⟩ | hkind <;> cases hkind
  | file htext hf =>
    rw [← htext]
    exact unescapedBreaks_file hf hgood
  | other hl htold =>
    have htold := htold hgood
    rcases hkind with ⟨hkind, -⟩ | hkind <;> rw [hkind] at htold <;> cases htold

end Lexeme

/-- **Quoted text is on one line but for line breaks that it escapes.** A text between quotes counts no
lines, each line break in it is escaped by a caret, and so it is on one line exactly if no line break
stands right behind a caret. The same goes for the bytes of every well-formed string between quotes and
every well-formed file name, wherever it is cut from a source. -/
theorem quoted_lines (source : Bytes) :
    (∀ e, byteAt source 0 = quote → (Quoted.read source).extent = some e →
      e.lines = 0 ∧ unescapedBreaks (source.take e.length) = 0 ∧
        (OnOneLine (source.take e.length) ↔ ¬EscapesBreak (source.take e.length))) ∧
    ∀ (t : Tokenizer) (token : Bytes), t.cursor.In source → t.scan.1.malformed = false →
      between source t.scan.1.start t.scan.1.stop = token →
      t.scan.1.kind = .string ∧ byteAt source t.scan.1.start = quote ∨ t.scan.1.kind = .file →
      t.scan.2.cursor.line = t.cursor.line ∧ unescapedBreaks token = 0 ∧
        (OnOneLine token ↔ ¬EscapesBreak token) := by
  constructor
  · intro e hquote h
    have hlines := Quoted.read_lines h
    rw [hquote] at hlines
    have hnone := Quoted.unescapedBreaks_of_read hquote h
    exact ⟨hlines, hnone, onOneLine_iff hnone⟩
  · rintro t token hin hgood rfl hkind
    have hline := Tokenizer.scan_line hin
    have hown : Token.ownBreaks source t.scan.1 = 0 := by
      unfold Token.ownBreaks
      rcases hkind with ⟨hkind, hquote⟩ | hkind
      · rw [hkind, hquote, hgood]
        rfl
      · rw [hkind]
    have hnone : unescapedBreaks (between source t.scan.1.start t.scan.1.stop) = 0 := by
      rw [Tokenizer.between_scan hin]
      apply Lexeme.unescapedBreaks_ofFront hgood
      rwa [hin.skipSpace.byte 0]
    rw [hown] at hline
    exact ⟨hline, hnone, onOneLine_iff hnone⟩

/-- An escape that spells a line feed breaks no line. -/
theorem quoted_lines_spelled :
    (Quoted.read (Utf8.encode "\"a^/\"\n")).extent = some ⟨5, 0, 0⟩ ∧
      ¬EscapesBreak (Utf8.encode "\"a^/\"") ∧
      (Tokenizer.ofSource (Utf8.encode "%\"a\"\n")).scan.1 = ⟨.file, false, 0, 4⟩ ∧
      unescapedBreaks (Utf8.encode "%\"a\"") = 0 := by
  have hread : (Quoted.read (Utf8.encode "\"a^/\"\n")).extent = some ⟨5, 0, 0⟩ := by decide +kernel
  have htoken : (Tokenizer.ofSource (Utf8.encode "%\"a\"\n")).scan.1 = ⟨.file, false, 0, 4⟩ := by
    decide +kernel
  have hstring := (quoted_lines _).1 _ (by decide +kernel) hread
  have hfile := (quoted_lines (Utf8.encode "%\"a\"\n")).2
    (Tokenizer.ofSource (Utf8.encode "%\"a\"\n")) (Utf8.encode "%\"a\"")
    ⟨rfl, rfl, by decide +kernel⟩ (by rw [htoken]) (by decide +kernel) (.inr (by rw [htoken]))
  exact ⟨hread, hstring.2.2.1 (by decide +kernel), htoken, hfile.2.1⟩

/-- **Behind a caret a line feed is read between quotes**, and a carriage return in a file name. -/
theorem escaped_break_quoted :
    (Quoted.read [quote, caret, lineFeed, quote]).extent = some ⟨4, 0, 0⟩ ∧
      ¬OnOneLine ([quote, caret, lineFeed, quote].take 4) ∧
      (Tokenizer.ofSource [percent, quote, caret, carriageReturn, quote]).scan.1 =
        ⟨.file, false, 0, 5⟩ ∧
      ¬OnOneLine (between [percent, quote, caret, carriageReturn, quote] 0 5) := by
  decide +kernel

end RebolScan
