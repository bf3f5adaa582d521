import RebolScan.Text.Alphabet

/-!
# Lines of source text

A message about source text shows the line it is about. A line starts at a position that the scanner
remembers and ends before the next line feed, carriage return or NUL.
-/

set_option autoImplicit false

namespace RebolScan

/-- The position of the first line end at or after `pos`; the end of `source` when there is none. -/
def lineEnd (source : Bytes) (pos : Nat) : Nat :=
  pos + ((source.drop pos).takeWhile fun b => !isLineEnd b).length

/-- The line that starts at `start`, without white space in front. -/
def lineText (source : Bytes) (start : Nat) : Bytes :=
  ((source.drop start).dropWhile isSpace).takeWhile fun b => !isLineEnd b

/-- How many bytes at the front of `text` lie before its first line end. -/
def lineLength (text : Bytes) : Nat := (text.takeWhile fun b => !isLineEnd b).length

/-- The length of the line break at the front of `text`: a carriage return with a line feed after it
is one break of two bytes. -/
def lineBreakLength (text : Bytes) : Nat :=
  if byteAt text 0 == Ascii.carriageReturn && byteAt text 1 == Ascii.lineFeed then 2 else 1

end RebolScan
