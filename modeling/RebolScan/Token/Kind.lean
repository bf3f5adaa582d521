/-!
# Token kinds

The kinds of token that source text is cut into, and the names that messages give them.
-/

set_option autoImplicit false

namespace RebolScan

inductive TokenKind
  | endOfScript
  /-- a line break, with a comment before it or without -/
  | line
  | blockBegin
  | blockEnd
  | parenBegin
  | parenEnd
  | word
  | setWord
  | getWord
  | litWord
  | refinement
  | issue
  | string
  | binary
  | char
  | integer
  | decimal
  | percent
  | money
  | time
  | date
  | pair
  | tuple
  | file
  | email
  | url
  | tag
  /-- never cut from text: messages about a whole path use it -/
  | path
  /-- the `#[` that opens a construction -/
  | construct
deriving DecidableEq, Repr

/-- The name of a kind in messages. -/
def TokenKind.name : TokenKind → String
  | .endOfScript => "end-of-script"
  | .line => "line"
  | .blockBegin => "block-begin"
  | .blockEnd => "block-end"
  | .parenBegin => "paren-begin"
  | .parenEnd => "paren-end"
  | .word => "word"
  | .setWord => "word-set"
  | .getWord => "word-get"
  | .litWord => "word-lit"
  | .refinement => "refinement"
  | .issue => "issue"
  | .string => "string"
  | .binary => "binary"
  | .char => "char"
  | .integer => "integer"
  | .decimal => "decimal"
  | .percent => "percent"
  | .money => "money"
  | .time => "time"
  | .date => "date"
  | .pair => "pair"
  | .tuple => "tuple"
  | .file => "file"
  | .email => "email"
  | .url => "url"
  | .tag => "tag"
  | .path => "path"
  | .construct => "construct"

/-- A token: a kind and the range of source bytes it covers. A malformed token breaks the grammar of
its kind, which then says what was being read. -/
structure Token where
  kind : TokenKind
  malformed : Bool
  start : Nat
  stop : Nat
deriving DecidableEq, Repr

/-- The number of bytes a token covers. -/
def Token.length (t : Token) : Nat := t.stop - t.start

end RebolScan
