import Mathlib.Algebra.GroupWithZero.Nat
import RebolScan.Proofs.Token.Cut
import RebolScan.Proofs.Token.Stream

/-!
# The line breaks that a token owns

A line break token owns one line break, and a text between braces those that no caret escapes
(`Token.ownBreaks`). **A lexeme counts the line breaks that its token owns, and no other**
(`ofFront_lines`), so taking tokens one by one moves the line on by as much, however often the end
is looked at (`nexts_line`).
-/

set_option autoImplicit false

namespace RebolScan

open Ascii

/-- The line breaks of `source` that a token counts for. -/
def Token.ownBreaks (source : Bytes) (t : Token) : Nat :=
  match t.kind with
  | .line => if isLineBreak (byteAt source (t.stop - 1)) then 1 else 0
  | .string =>
    if !t.malformed && byteAt source t.start == braceOpen then
      unescapedBreaks (between source t.start t.stop)
    else 0
  | .binary => if !t.malformed then unescapedBreaks (between source t.start t.stop) else 0
  | _ => 0

/-- What holds no line break owns none. -/
theorem Token.ownBreaks_of_unbroken {source : Bytes} {t : Token} (hpos : t.start < t.stop)
    (h : Unbroken source t.start t.stop) : t.ownBreaks source = 0 := by
  have hlast : isLineBreak (byteAt source (t.stop - 1)) = false := h _ (by omega) (by omega)
  have hcount : unescapedBreaks (between source t.start t.stop) = 0 := by
    apply unescapedBreaks_of_unbroken
    rwa [unbroken_drop, Nat.add_sub_cancel' (Nat.le_of_lt hpos)]
  unfold ownBreaks
  split
  · rw [hlast]
    rfl
  · rw [hcount, ite_self]
  · rw [hcount, ite_self]
  · rfl

namespace Lexeme

variable {text : Bytes}

/-- A line break counts as one, and a comment that ends without one as none. -/
theorem lines_of_line (h : (ofFront text).kind = .line) :
    (ofFront text).lines =
      if isLineBreak (byteAt text ((ofFront text).length - 1)) then 1 else 0 := by
  rcases ofFront_cases text with hst | hpl
  · generalize ofFront text = l at hst h
    cases hst with
    | endOfScript => cases h
    | opening b => cases b <;> cases h
    | closing b => cases b <;> cases h
    | lineBreak hb =>
      have hlen : (lineBreak text 0).length = lineBreakLength text := Nat.zero_add _
      rw [hlen, if_pos (isLineBreak_last hb)]
      rfl
    | comment hc =>
      unfold comment
      dsimp only
      split
      · -- A byte of the comment is in front of the end of the line.
        have hlast : isLineBreak (byteAt text (lineLength text - 1)) = false := by
          rcases Nat.eq_zero_or_pos (lineLength text) with hzero | hpos
          · have hnul : byteAt text (lineLength text) = nul := by
              rename_i hnul
              exact eq_of_beq hnul
            rw [hzero] at hnul ⊢
            rw [hnul]
            rfl
          · have he := not_lineEnd_of_lt (Nat.sub_lt hpos Nat.one_pos)
            rw [isLineEnd, Bool.or_eq_false_iff] at he
            exact he.1
        show 0 = if isLineBreak (byteAt text (lineLength text - 1)) then 1 else 0
        rw [hlast]
        rfl
      · rename_i hnul
        have hb : isLineBreak (byteAt (text.drop (lineLength text)) 0) = true := by
          have he := isLineEnd_byteAt_lineLength text
          rw [byteAt_drop]
          simpa [isLineEnd, hnul] using he
        have hbounds := lineBreakLength_bounds fun h0 => absurd (h0 ▸ hb) (by decide)
        have hl := isLineBreak_last hb
        rw [byteAt_drop, ← Nat.add_sub_assoc hbounds.1] at hl
        show 1 = if isLineBreak (byteAt text
          (lineLength text + lineBreakLength (text.drop (lineLength text)) - 1)) then 1 else 0
        rw [if_pos hl]
  · have hk := hpl.kind
    rw [h] at hk
    cases hk

/-- A quoted form counts what the reader of quoted text has counted, or it is malformed. -/
theorem quoted_read (kind : TokenKind) (text : Bytes) (skip : Nat) :
    ((quoted kind text skip).malformed = true ∧ (quoted kind text skip).lines = 0) ∨
      ∃ e, (Quoted.read (text.drop skip)).extent = some e ∧
        (quoted kind text skip).malformed = false ∧
        (quoted kind text skip).length = skip + e.length ∧
        (quoted kind text skip).lines = e.lines := by
  unfold quoted
  dsimp only
  split
  · rename_i e he
    exact .inr ⟨e, he, rfl, rfl, rfl⟩
  · exact .inl ⟨rfl, rfl⟩

/-- **A lexeme counts what its token owns.** -/
theorem ofFront_lines (source : Bytes) (start : Nat) {l : Lexeme}
    (hl : l = ofFront (source.drop start)) :
    l.lines = Token.ownBreaks source ⟨l.kind, l.malformed, start, start + l.length⟩ := by
  have hbetween (n : Nat) : between source start (start + n) = (source.drop start).take n := by
    rw [between, Nat.add_sub_cancel_left]
  by_cases hline : l.kind = .line
  · subst hl
    have hne : source.drop start ≠ [] := by
      intro hnil
      rw [hnil] at hline
      cases hline
    have hpos := (ofFront_bounds hne).1
    rw [lines_of_line hline, byteAt_drop, ← Nat.add_sub_assoc hpos, Token.ownBreaks, hline]
  · have hcut := ofFront_cut (source.drop start)
    rw [← hl] at hcut
    clear hl
    cases hcut with
    | line h => exact absurd h hline
    | setWord | issue => rfl
    | file htext hf => rw [file_lines, Token.ownBreaks, file_kind]
    | string =>
      rw [Token.ownBreaks, quoted_kind]
      rcases quoted_read .string (source.drop start) 0 with
        ⟨hbad, hlines⟩ | ⟨e, he, hgood, hlen, hlines⟩
      · rw [hbad, hlines]
        rfl
      · have hread := Quoted.read_lines he
        rw [List.drop_zero, byteAt_drop, Nat.add_zero] at hread
        rw [hgood, hlen, hlines, hread, Nat.zero_add, hbetween]
        rfl
    | binary hlead hbrace =>
      rw [Token.ownBreaks, quoted_kind]
      rcases quoted_read .binary (source.drop start) _ with
        ⟨hbad, hlines⟩ | ⟨e, he, hgood, hlen, hlines⟩
      · rw [hbad, hlines]
        rfl
      · have hread := Quoted.read_lines he
        rw [byteAt_drop, Nat.add_zero, hbrace, if_pos (beq_self_eq_true _)] at hread
        rw [hgood, hlen, hlines, hread, hbetween, unescapedBreaks_take hlead]
        rfl
    | other hzero htold =>
      rw [hzero, Token.ownBreaks]
      cases hm : l.malformed with
      | true => cases hk : l.kind <;> simp_all
      | false =>
        have htold := htold hm
        cases hk : l.kind <;> simp_all [TokenKind.isTold]

end Lexeme

namespace Tokenizer

/-- The tokens that `n` calls take, and the tokenizer after them. A call at the end of the input
takes none. -/
def nexts : Nat → Tokenizer → List Token × Tokenizer
  | 0, t => ([], t)
  | n + 1, t => (t.next?.1.toList ++ (nexts n t.next?.2).1, (nexts n t.next?.2).2)

variable {source : Bytes} {t : Tokenizer}

/-- Cutting a token counts what it owns. -/
theorem scan_line (h : t.cursor.In source) :
    t.scan.2.cursor.line = t.cursor.line + Token.ownBreaks source t.scan.1 :=
  congrArg (t.cursor.line + ·) (Lexeme.ofFront_lines source t.cursor.skipSpace.start
    (congrArg Lexeme.ofFront h.skipSpace.rest))

/-- One call counts what the token that it takes owns. -/
theorem next?_line (h : t.cursor.In source) :
    t.next?.2.cursor.In source ∧
      t.next?.2.cursor.line =
        t.cursor.line + (t.next?.1.toList.map (Token.ownBreaks source)).sum := by
  have hskip := h.skipSpace
  have hline := scan_line h
  cases seen h with
  | atEnd hkind =>
    have hown : Token.ownBreaks source t.scan.1 = 0 := by rw [Token.ownBreaks, hkind]
    rw [next?_of_end hkind]
    rw [hown] at hline
    exact ⟨⟨hskip.sourced, hskip.coherent, hskip.le⟩, hline⟩
  | token hkind hblank hpos hlen hin =>
    have haccept : t.scan.2.accept.cursor.line = t.scan.2.cursor.line := by
      show (Cursor.accept t.scan.2.cursor).line = _
      unfold Cursor.accept
      split <;> rfl
    rw [next?_of_token hkind hpos]
    refine ⟨hin, ?_⟩
    rw [haccept, hline]
    rfl

/-- **Behind any number of calls the line is past the line breaks that the tokens own.** -/
theorem nexts_line (n : Nat) (h : t.cursor.In source) :
    (nexts n t).2.cursor.line =
      t.cursor.line + ((nexts n t).1.map (Token.ownBreaks source)).sum := by
  induction n generalizing t with
  | zero => rfl
  | succ n ih =>
    obtain ⟨hin, hline⟩ := next?_line h
    rw [nexts, List.map_append, List.sum_append, ← Nat.add_assoc, ← hline]
    exact ih hin

end Tokenizer

end RebolScan
