import RebolScan.Proofs.Token.LineCount

/-!
# Looking at a token twice

A token that was looked at and not accepted is there to be looked at again: the space in front of it
is passed over once, and what is cut from the front of what is left is the same lexeme (`scan_scan`).
**All that a second look can change is the number of the line**, and only when the token owns line
breaks, for these are counted at each look. This is said of every tokenizer that looking and accepting
lead to (`Reached`), each of which has its token inside the source (`Pending`).
-/

set_option autoImplicit false

namespace RebolScan

open Ascii

/-! ## The same lexeme -/

namespace Cursor

/-- **The lexeme that was looked at is looked at again.** A quoted form starts its last line where it
did, but counts its line breaks once more. -/
theorem scan_scan (c : Cursor) : c.scan.2.scan =
    (c.scan.1, { c.scan.2 with line := c.scan.2.line + c.scan.1.lines }) := by
  have hstart : (c.scan.1.lineStart.map (c.scan.2.start + ·)).getD c.scan.2.lineStart =
      c.scan.2.lineStart := by
    have hset : c.scan.2.lineStart =
        (c.scan.1.lineStart.map (c.scan.2.start + ·)).getD c.lineStart := rfl
    rw [hset]
    cases c.scan.1.lineStart <;> rfl
  rw [scan, skipSpace_scan]
  show (c.scan.1, { c.scan.2 with
    line := c.scan.2.line + c.scan.1.lines
    lineStart := (c.scan.1.lineStart.map (c.scan.2.start + ·)).getD c.scan.2.lineStart }) = _
  rw [hstart]

end Cursor

/-! ## The lines that are counted again -/

namespace Token

variable {source : Bytes} {t : Token}

/-- A line break, or a string or binary with a line break in it. -/
def Crosses (source : Bytes) (t : Token) : Prop :=
  t.kind = .line ∨ (t.kind = .string ∨ t.kind = .binary) ∧
    ∃ i, t.start ≤ i ∧ i < t.stop ∧ isLineBreak (byteAt source i) = true

/-- Any other token owns no line break. -/
theorem ownBreaks_of_not_crosses (hpos : t.start < t.stop) (h : ¬ t.Crosses source) :
    t.ownBreaks source = 0 := by
  by_cases hquoted : t.kind = .string ∨ t.kind = .binary
  · apply ownBreaks_of_unbroken hpos
    intro i hi hstop
    rw [← Bool.not_eq_true]
    exact fun hbreak => h (.inr ⟨hquoted, i, hi, hstop, hbreak⟩)
  · unfold ownBreaks
    split
    case h_1 hline => exact absurd (.inl hline) h
    case h_2 hstring => exact absurd (.inl hstring) hquoted
    case h_3 hbinary => exact absurd (.inr hbinary) hquoted
    case h_4 => rfl

end Token

/-! ## Every tokenizer that is reached -/

namespace Tokenizer

/-- Looking and accepting, in any order, lead from the front of `source` to `t`. -/
inductive Reached (source : Bytes) : Tokenizer → Prop
  | start : Reached source (ofSource source)
  | scan {t : Tokenizer} (h : Reached source t) : Reached source t.scan.2
  | accept {t : Tokenizer} (h : Reached source t) : Reached source t.accept

/-- The pending token is inside `source`. -/
structure Pending (source : Bytes) (t : Tokenizer) : Prop where
  inside : t.cursor.In source
  ordered : t.cursor.start ≤ t.cursor.stop
  le : t.cursor.stop ≤ source.length

variable {source : Bytes} {t : Tokenizer}

theorem Pending.scan (h : Pending source t) : Pending source t.scan.2 := by
  have hskip := h.inside.skipSpace
  refine ⟨⟨hskip.sourced, hskip.coherent, hskip.le⟩, Nat.le_add_right _ _, ?_⟩
  show t.scan.1.stop ≤ source.length
  cases seen h.inside with
  | atEnd hkind hblank hempty hstart =>
    rw [hempty]
    exact hskip.le
  | token hkind hblank hpos hlen => exact hlen

theorem Pending.accept (h : Pending source t) : Pending source t.accept := by
  have hlength := h.inside.length
  have hle := h.le
  have hordered := h.ordered
  have hadvance : t.accept.cursor = t.cursor.advance (t.cursor.stop - t.cursor.start) :=
    if_pos h.ordered
  have hin : (t.cursor.advance (t.cursor.stop - t.cursor.start)).In source :=
    h.inside.advance (by omega)
  rw [← hadvance] at hin
  refine ⟨hin, ?_, ?_⟩
  · rw [hadvance]
    exact Nat.le_refl _
  · rw [hadvance]
    show t.cursor.start + (t.cursor.stop - t.cursor.start) ≤ source.length
    omega

/-- **Every tokenizer that is reached has its token inside the source.** -/
theorem Reached.pending (h : Reached source t) : Pending source t := by
  induction h with
  | start => exact ⟨Cursor.in_afterMark source, Nat.le_refl _, byteOrderMarkLength_le source⟩
  | scan _ ih => exact ih.scan
  | accept _ ih => exact ih.accept

/-- **Looking again finds the token that was found** and moves the line on by what it owns; the rest
is as it was. -/
theorem scan_scan (h : t.cursor.In source) : t.scan.2.scan =
    (t.scan.1, { t.scan.2 with cursor := { t.scan.2.cursor with
      line := t.scan.2.cursor.line + t.scan.1.ownBreaks source } }) := by
  have hlines : t.cursor.scan.1.lines = t.scan.1.ownBreaks source :=
    Lexeme.ofFront_lines source t.cursor.skipSpace.start
      (congrArg Lexeme.ofFront h.skipSpace.rest)
  have htext : t.cursor.scan.1.text.getD t.scan.2.scratch = t.scan.2.scratch := by
    have hset : t.scan.2.scratch = t.cursor.scan.1.text.getD t.scratch := rfl
    rw [hset]
    cases t.cursor.scan.1.text <;> rfl
  have hcursor : t.scan.2.cursor.scan = (t.cursor.scan.1, { t.scan.2.cursor with
      line := t.scan.2.cursor.line + t.scan.1.ownBreaks source }) := by
    rw [← hlines]
    exact Cursor.scan_scan t.cursor
  rw [scan, hcursor]
  show (_, Tokenizer.mk _ (t.cursor.scan.1.text.getD t.scan.2.scratch)) = _
  rw [htext]
  rfl

/-- Looking again, with nothing accepted, at whatever tokenizer looking and accepting lead to: the token
is the same, with its kind, its ends and whether it is malformed, and the place and the text that was
read are as they were. So is the line, unless the token is a line break or a string or binary with a
line break in it; where the line starts never changes. -/
theorem scan_again (h : Reached source t) :
    t.scan.2.scan.1 = t.scan.1 ∧
    t.scan.2.scan.2.cursor.start = t.scan.2.cursor.start ∧
    t.scan.2.scan.2.cursor.stop = t.scan.2.cursor.stop ∧
    t.scan.2.scan.2.scratch = t.scan.2.scratch ∧
    t.scan.2.scan.2.cursor.lineStart = t.scan.2.cursor.lineStart ∧
    (t.scan.2.scan.2 = t.scan.2 ∨ t.scan.1.Crosses source) := by
  have hin := h.pending.inside
  rw [scan_scan hin]
  refine ⟨rfl, rfl, rfl, rfl, rfl, ?_⟩
  by_cases hcrosses : t.scan.1.Crosses source
  case pos => exact .inr hcrosses
  case neg =>
    have hown : t.scan.1.ownBreaks source = 0 := by
      cases seen hin with
      | atEnd hkind => rw [Token.ownBreaks, hkind]
      | token hkind hblank hpos => exact Token.ownBreaks_of_not_crosses hpos hcrosses
    rw [hown]
    exact .inl rfl

/-- A string on two lines behind a word: the third line is of the second look. -/
theorem scan_again_string :
    ∃ t, Reached (Utf8.encode "a \x7b\n\x7d") t ∧ t.scan.1 = ⟨.string, false, 2, 5⟩ ∧
      t.scan.2.scan.1 = ⟨.string, false, 2, 5⟩ ∧ t.scan.2.scan.2.scratch = "\n" ∧
      t.scan.2.cursor.line = 2 ∧ t.scan.2.scan.2.cursor.line = 3 := by
  have hreached : Reached _ (ofSource (Utf8.encode "a \x7b\n\x7d")).scan.2.accept :=
    .accept (.scan .start)
  obtain ⟨htoken, -, -, htext, -⟩ := scan_again hreached
  have hfirst : (ofSource (Utf8.encode "a \x7b\n\x7d")).scan.2.accept.scan.1 =
      ⟨.string, false, 2, 5⟩ := by decide +kernel
  have hread : (ofSource (Utf8.encode "a \x7b\n\x7d")).scan.2.accept.scan.2.scratch = "\n" := by
    decide +kernel
  exact ⟨_, hreached, hfirst, htoken.trans hfirst, htext.trans hread, by decide +kernel,
    by decide +kernel⟩

end Tokenizer

end RebolScan
