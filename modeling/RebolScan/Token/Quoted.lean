import RebolScan.Token.Caret

/-!
# Quoted text

A string stands between quotes or between braces. Quoted text keeps to one line. Braced text may
hold line breaks, each read as one line feed however it is spelled, and balanced braces; it ends at
the brace that matches the first. Both hold caret escapes, and an escaped quote or brace neither
ends nor nests.

Reading works off the text character by character (`next?`), and the braces and line breaks crossed
are counted from the first byte of each. When it fails, the characters up to the failure are still
reported, for whoever shows how far a string was read.
-/

set_option autoImplicit false

namespace RebolScan.Quoted

open Ascii

/-- How far a quoted text reaches, counted from its opening quote or brace. -/
structure Extent where
  /-- one past the closing quote or brace -/
  length : Nat
  /-- line breaks crossed -/
  lines : Nat
  /-- just after the last line break crossed, 0 if there was none -/
  lineStart : Nat
deriving DecidableEq, Repr

/-- A quoted text as far as it could be read; without an extent it was not closed. -/
structure Reading where
  text : String
  extent : Option Extent
deriving DecidableEq, Repr

/-- The next character of quoted text, and the number of bytes it takes. None at the end of input,
at a malformed escape or sequence, and at a line break outside braces. -/
def next? (braced : Bool) (rest : Bytes) : Option (Char × Nat) :=
  let b := byteAt rest 0
  if b == nul then none
  else if isLineBreak b then
    if braced then some ('\n', if b == carriageReturn && byteAt rest 1 == lineFeed then 2 else 1)
    else none
  else Caret.read rest

theorem next?_width {braced : Bool} {rest : Bytes} {c : Char} {n : Nat}
    (h : next? braced rest = some (c, n)) : 1 ≤ n ∧ rest ≠ [] := by
  unfold next? at h
  dsimp only at h
  split at h
  · simp at h
  · rename_i hb
    refine ⟨?_, fun hr => hb (by simp [hr])⟩
    split at h
    · split at h
      · simp only [Option.some.injEq, Prod.mk.injEq] at h
        obtain ⟨-, rfl⟩ := h
        split <;> decide
      · simp at h
    · exact Caret.read_width h

/-- The byte that closes what `opening` opens. -/
def closing (braced : Bool) : UInt8 := if braced then braceClose else quote

/-- The open inner braces after the byte `b`. -/
def nestAfter (braced : Bool) (b : UInt8) (nest : Nat) : Nat :=
  if !braced then nest
  else if b == braceOpen then nest + 1
  else if b == braceClose then nest - 1
  else nest

/-- Reads on from `rest`, which lies `pos` bytes after the opening, with `nest` inner braces open
and the lines and characters found so far, characters newest first. -/
def readFrom (braced : Bool) (rest : Bytes) (pos nest lines lineStart : Nat) (found : List Char) :
    List Char × Option Extent :=
  if byteAt rest 0 == closing braced && nest == 0 then
    (found.reverse, some ⟨pos + 1, lines, lineStart⟩)
  else
    match _h : next? braced rest with
    | none => (found.reverse, none)
    | some (c, n) =>
      let b := byteAt rest 0
      let crosses := isLineBreak b
      readFrom braced (rest.drop n) (pos + n) (nestAfter braced b nest)
        (if crosses then lines + 1 else lines) (if crosses then pos + n else lineStart) (c :: found)
termination_by rest.length
decreasing_by
  have ⟨h1, h2⟩ := next?_width _h
  have := List.length_pos_iff.2 h2
  simp only [List.length_drop]; omega

/-- The quoted text that opens at the front of `text`: braced if a brace stands there. -/
def read (text : Bytes) : Reading :=
  let (chars, extent) := readFrom (byteAt text 0 == braceOpen) (text.drop 1) 1 0 0 0 []
  ⟨String.ofList chars, extent⟩

end RebolScan.Quoted
