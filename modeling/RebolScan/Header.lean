import RebolScan.Text.Lines

/-!
# Script headers

A script starts with the word `REBOL`, in any case, and a block, with white space, line breaks and
comments between them. Any text may come before it, but the word has to be the first thing on its
line, or to follow a `[` that is: that bracket then embeds the whole script in a block.
-/

set_option autoImplicit false

namespace RebolScan

open Ascii

/-- How a header is introduced. -/
inductive HeaderKind
  /-- `REBOL [` -/
  | header
  /-- `[REBOL [` -/
  | embedded
deriving DecidableEq, Repr

def HeaderKind.name : HeaderKind → String
  | .header => "Header"
  | .embedded => "Embedded"

/-- A header that has been found. -/
structure Header where
  kind : HeaderKind
  /-- where the script starts: at `REBOL`, or at the bracket that embeds it -/
  offset : Nat
  /-- the position of the `[` of the header block -/
  block : Nat
  /-- the line of that bracket -/
  line : Nat
deriving DecidableEq, Repr

namespace Header

/-- The word that introduces a header. -/
def keyword : Bytes := [0x52, 0x45, 0x42, 0x4F, 0x4C]

/-- What a search has come across: the last `REBOL` and the last bracket that nothing but gaps
separate from here. -/
structure Candidates where
  word : Option Nat
  bracket : Option Nat
deriving DecidableEq, Repr

def Candidates.none : Candidates := ⟨.none, .none⟩

/-- The header whose block opens at `pos`, if a `REBOL` comes before it. -/
def Candidates.header? (c : Candidates) (pos line : Nat) : Option Header :=
  match c.word, c.bracket with
  | some _, some bracket => some ⟨.embedded, bracket, pos, line⟩
  | some word, .none => some ⟨.header, word, pos, line⟩
  | .none, _ => .none

/-- The length of what is left of the line at the front of `rest` with the line break that ends it;
at NUL or the end of the text there is none. -/
def lineWithBreak (rest : Bytes) : Nat :=
  let n := lineLength rest
  if byteAt rest n == nul then n else n + lineBreakLength (rest.drop n)

/-- Searches on from `rest`, which starts at `pos`, on line `line`. Each step takes at least one
byte, so `fuel` need be no more than the number of bytes and one. -/
def findFrom (fuel : Nat) (rest : Bytes) (pos line : Nat) (c : Candidates) : Option Header :=
  match fuel with
  | 0 => .none
  | fuel + 1 =>
    let gap := (rest.takeWhile isSpace).length
    let rest := rest.drop gap
    let pos := pos + gap
    let b := byteAt rest 0
    let skipLine := fun c : Candidates =>
      let n := lineWithBreak rest
      findFrom fuel (rest.drop n) (pos + n) (line + 1) c
    if b == nul then .none
    else if b == bracketOpen then
      match c.header? pos line with
      | some h => some h
      | .none => findFrom fuel (rest.drop 1) (pos + 1) line { c with bracket := some pos }
    else if sameIgnoringCase (rest.take keyword.length) keyword then
      findFrom fuel (rest.drop keyword.length) (pos + keyword.length) line
        { c with word := some pos }
    -- A comment or an empty line keeps what has been found; other text starts the search afresh.
    else if b == semicolon || isLineBreak b then skipLine c
    else skipLine .none

end Header

/-- The header of a script. A byte order mark in front is no part of its text. -/
def findHeader (source : Bytes) : Option Header :=
  let mark := byteOrderMarkLength source
  Header.findFrom (source.length + 1) (source.drop mark) mark 1 .none

end RebolScan
