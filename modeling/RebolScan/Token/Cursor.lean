import RebolScan.Token.Lexeme

/-!
# Cursors

A cursor is a place in source text while it is being scanned: a pending token from `start` to
`stop`, the number of the line, and where that line starts. Looking at a token does not consume it:
`scan` moves `stop`, and only `accept` makes `start` follow. So a token can be looked at, left
alone, and looked at again.

The cursor keeps what is left of the source, from `start` on, beside the position: scanning reads
`rest` alone, and `Coherent` says that the two agree.
-/

set_option autoImplicit false

namespace RebolScan

open Ascii

/-- A place in source text that is being scanned. -/
structure Cursor where
  source : Bytes
  /-- what is left of the source, from `start` on -/
  rest : Bytes
  start : Nat
  stop : Nat
  line : Nat
  lineStart : Nat
deriving DecidableEq, Repr

/-- The token that a lexeme makes of the pending range. -/
def Lexeme.token (l : Lexeme) (c : Cursor) : Token := ⟨l.kind, l.malformed, c.start, c.stop⟩

namespace Cursor

/-- The first byte of `source`, on line 1. -/
def atStart (source : Bytes) : Cursor := ⟨source, source, 0, 0, 1, 0⟩

/-- The first byte after a byte order mark. -/
def afterMark (source : Bytes) : Cursor :=
  let n := byteOrderMarkLength source
  ⟨source, source.drop n, n, n, 1, n⟩

/-- What is left of the source is what `start` says. -/
def Coherent (c : Cursor) : Prop := c.rest = c.source.drop c.start

/-- The bytes of the pending token. -/
def bytes (c : Cursor) : Bytes := between c.source c.start c.stop

/-- The end-of-input byte is next. -/
def atEnd (c : Cursor) : Bool := byteAt c.source c.start == nul

/-- Makes `pos` the start of the pending token. -/
def setStart (c : Cursor) (pos : Nat) : Cursor := { c with start := pos, rest := c.source.drop pos }

def setStop (c : Cursor) (pos : Nat) : Cursor := { c with stop := pos }

/-- Consumes the next `n` bytes. -/
def advance (c : Cursor) (n : Nat) : Cursor :=
  { c with start := c.start + n, rest := c.rest.drop n, stop := c.start + n }

/-- Consumes the pending token. -/
def accept (c : Cursor) : Cursor :=
  if c.start ≤ c.stop then c.advance (c.stop - c.start) else c.setStart c.stop

/-- Moves `start` over skippable space. -/
def skipSpace (c : Cursor) : Cursor :=
  let n := (c.rest.takeWhile isSpace).length
  { c with start := c.start + n, rest := c.rest.drop n }

/-- Makes the run after skippable space the pending token and says what marks it has. A delimiter is
a run of one byte, and so is the end of input. -/
def scanRun (c : Cursor) : Marks × Cursor :=
  let c := c.skipSpace
  let (marks, n) := Marks.pass c.rest 0 .none
  (marks, { c with stop := c.start + if n = 0 then 1 else n })

/-- Makes the lexeme after skippable space the pending token. The lines that it crosses count from
here on, whether it is accepted or not. -/
def scan (c : Cursor) : Lexeme × Cursor :=
  let c := c.skipSpace
  let l := Lexeme.ofFront c.rest
  (l, { c with
    stop := c.start + l.length
    line := c.line + l.lines
    lineStart := (l.lineStart.map (c.start + ·)).getD c.lineStart })

/-! ## Space is skipped once -/

theorem not_space_skipSpace (c : Cursor) : isSpace (byteAt c.skipSpace.rest 0) = false := by
  show isSpace (byteAt (c.rest.drop (c.rest.takeWhile isSpace).length) 0) = false
  induction c.rest with
  | nil => rfl
  | cons b rest ih =>
    cases hb : isSpace b with
    | true => rwa [List.takeWhile_cons_of_pos hb, List.length_cons, List.drop_succ_cons]
    | false => rwa [List.takeWhile_cons_of_neg (by rw [hb]; decide)]

/-- Where no space is next, none is skipped. -/
theorem skipSpace_of_not_space {c : Cursor} (h : isSpace (byteAt c.rest 0) = false) :
    c.skipSpace = c := by
  have hnone : c.rest.takeWhile isSpace = [] := by
    cases hr : c.rest with
    | nil => rfl
    | cons b rest =>
      rw [hr, byteAt_cons_zero] at h
      exact List.takeWhile_cons_of_neg (by simp [h])
  rw [skipSpace, hnone]
  rfl

/-- Where a lexeme was looked at, there is no space to skip. -/
theorem skipSpace_scan (c : Cursor) : c.scan.2.skipSpace = c.scan.2 :=
  skipSpace_of_not_space c.not_space_skipSpace

/-! ## What is left agrees with the position -/

theorem coherent_atStart (source : Bytes) : (atStart source).Coherent := by
  simp [Coherent, atStart]

theorem coherent_afterMark (source : Bytes) : (afterMark source).Coherent := rfl

theorem Coherent.advance {c : Cursor} (h : c.Coherent) (n : Nat) : (c.advance n).Coherent := by
  simp only [Coherent, Cursor.advance] at *
  rw [h, List.drop_drop]

theorem Coherent.accept {c : Cursor} (h : c.Coherent) : c.accept.Coherent := by
  unfold Cursor.accept
  split
  · exact h.advance _
  · rfl

theorem Coherent.skipSpace {c : Cursor} (h : c.Coherent) : c.skipSpace.Coherent := by
  simp only [Coherent, Cursor.skipSpace] at *
  rw [h, List.drop_drop]

theorem Coherent.scan {c : Cursor} (h : c.Coherent) : c.scan.2.Coherent := h.skipSpace

end Cursor

end RebolScan
