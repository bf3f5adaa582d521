import RebolScan.Literal.Clock
import RebolScan.Literal.Number
import RebolScan.Literal.Radix
import RebolScan.Literal.Text
import RebolScan.Token.Lexeme
import RebolScan.Value.Basic

/-!
# Elements

An element is what the lexeme at the front of some text means inside a block, a paren or a path: a
value, a name still to be interned, a bracket, the head of a path, or a fault. It depends on the
text from the lexeme on, on the kind of level that is being read, and on nothing else; what to do
with it is the scanner's business.

A lexeme is not always taken as it was cut. A colon at the end of a path belongs to the path, a
whole number before a slash may be a date, and a time after a date is a part of it. So an element
says how many bytes it takes, which may be fewer or more than the lexeme has, and none for the head
of a path, which is read again as the path's first segment.
-/

set_option autoImplicit false

namespace RebolScan

open Ascii

/-- What a level of nesting collects. -/
inductive Level
  /-- the whole text -/
  | top
  /-- between brackets; the body of a construction is a block -/
  | inside (b : Bracket)
  /-- the segments of a path -/
  | path
deriving DecidableEq, Repr

inductive Element
  | endOfInput
  | closer (b : Bracket)
  | lineBreak
  /-- a comment that runs into the end of the input, or into NUL -/
  | comment
  /-- the empty first segment of a path that starts with a slash -/
  | slot
  | value (v : Value)
  | word (kind : WordKind) (name : String)
  | issue (name : String)
  | opener (b : Bracket)
  /-- `#[` -/
  | construct
  /-- the first segment of a path, as a token of `kind` -/
  | pathHead (kind : TokenKind)
  /-- text that is wrong for a token of `kind`, over `length` bytes -/
  | invalid (kind : TokenKind) (length : Nat)

/-- An element with the number of bytes it takes. -/
structure Element.Reading where
  element : Element
  taken : Nat

namespace Element

/-- The longest text of a date with a time that slashes hold together. -/
def maxDateLength : Nat := 50

/-- Where a date that ends at `stop` ends if what follows a slash belongs to it. -/
def dateEnd (text : Bytes) (stop : Nat) : Nat :=
  if byteAt text stop == slash then
    let next := stop + 1 + (runOf (text.drop (stop + 1))).length
    if _h : maxDateLength < next then stop else dateEnd text next
  else stop
termination_by maxDateLength + 1 - stop
decreasing_by
  simp only [maxDateLength] at *
  omega

/-- An element that takes `taken` bytes and is invalid over all of them. -/
def bad (kind : TokenKind) (taken : Nat) : Reading := ⟨.invalid kind taken, taken⟩

/-- A value of `taken` bytes if its reader accepted them. -/
def valueOr (kind : TokenKind) (taken : Nat) (v : Option Value) : Reading :=
  match v with
  | some v => ⟨.value v, taken⟩
  | none => bad kind taken

/-- A word whose name lies from `start` to `stop` in a token of `taken` bytes. A name must be there
and be UTF-8. -/
def wordFrom (wordKind : WordKind) (kind : TokenKind) (text : Bytes) (start stop taken : Nat) :
    Reading :=
  -- No name at all: the fault still covers a byte.
  if stop ≤ start then ⟨.invalid kind (max stop 1), taken⟩
  else
    match Utf8.decode? (between text start stop) with
    | some name => ⟨.word wordKind name, taken⟩
    | none => ⟨.invalid kind stop, taken⟩

/-- A get-word or a lit-word of `n` bytes. In a path a colon at its end is the path's. -/
def markedWord (wordKind : WordKind) (kind : TokenKind) (level : Level) (text : Bytes) (n : Nat) :
    Reading :=
  if byteAt text (n - 1) == colon then
    if n == 1 || level != .path then bad kind n
    else wordFrom wordKind kind text 1 (n - 1) (n - 1)
  else wordFrom wordKind kind text 1 n n

/-- An issue of `n` bytes. A pound sign alone is the none value, but not before a paren. -/
def issueFrom (text : Bytes) (n : Nat) : Reading :=
  if n == 1 then
    if byteAt text 1 == parenOpen then ⟨.invalid .construct 2, 1⟩ else ⟨.value .none, 1⟩
  else
    let name := between text 1 n
    if !Literal.isIssueText name then bad .issue n
    else match Utf8.decode? name with
      | some name => ⟨.issue name, n⟩
      | none => bad .issue n

/-- A date that ends at `n` or, outside a path, goes on after slashes. -/
def dateFrom (level : Level) (text : Bytes) (n : Nat) : Reading :=
  let stop := if level == .path then n else dateEnd text n
  valueOr .date stop ((Literal.date? (text.take stop)).map .date)

/-- A whole number of `n` bytes; before a slash, outside a path, a date. -/
def integerFrom (level : Level) (text : Bytes) (n : Nat) : Reading :=
  if byteAt text n == slash && level != .path then
    -- `1/2/2021`: all that slashes hold together is read as a date or refused as one.
    dateFrom level text (Lexeme.pathEnd text n)
  else valueOr .integer n ((Literal.integer? (text.take n)).map .integer)

/-- A number of `n` bytes that no slash may follow. -/
def numberFrom (kind : TokenKind) (text : Bytes) (n : Nat) (v : Option Value) : Reading :=
  if byteAt text n == slash then bad kind (n + 1) else valueOr kind n v

/-- A time of `n` bytes. In a path a whole number before the colon that ends the path looks like
one. -/
def timeFrom (level : Level) (text : Bytes) (n : Nat) : Reading :=
  if byteAt text (n - 1) == colon && level == .path then
    valueOr .integer (n - 1) ((Literal.integer? (text.take (n - 1))).map .integer)
  else valueOr .time n ((Literal.time? (text.take n)).map .time)

/-- A line break, or a comment that ends without one. -/
def lineFrom (text : Bytes) (n : Nat) : Reading :=
  ⟨if isLineBreak (byteAt text (n - 1)) then .lineBreak else .comment, n⟩

/-- The kinds of lexeme that start a path when a slash follows. -/
def startsPath (kind : TokenKind) : Bool :=
  kind == .word || kind == .litWord || kind == .getWord || kind == .refinement

/-- The element that a well-formed lexeme makes, path heads and slots apart. -/
def ofLexeme (level : Level) (text : Bytes) (l : Lexeme) : Reading :=
  let n := l.length
  let all := text.take n
  match l.kind with
  | .endOfScript => ⟨.endOfInput, n⟩
  | .blockEnd => ⟨.closer .block, n⟩
  | .parenEnd => ⟨.closer .paren, n⟩
  | .line => lineFrom text n
  | .word => wordFrom .word .word text 0 n n
  | .setWord =>
    -- In `a/b:` the colon is the path's.
    if level == .path then wordFrom .word .word text 0 (n - 1) (n - 1)
    else wordFrom .setWord .setWord text 0 (n - 1) n
  | .getWord => markedWord .getWord .getWord level text n
  | .litWord => markedWord .litWord .litWord level text n
  | .refinement => wordFrom .refinement .refinement text 1 n n
  | .issue => issueFrom text n
  | .blockBegin => ⟨.opener .block, n⟩
  | .parenBegin => ⟨.opener .paren, n⟩
  | .construct => ⟨.construct, n⟩
  | .integer => integerFrom level text n
  | .date => dateFrom level text n
  | .decimal => numberFrom .decimal text n ((Literal.decimal? all).map .decimal)
  | .percent => numberFrom .percent text n ((Literal.percent? all).map .percent)
  | .money => numberFrom .money text n ((Literal.money? all).map .money)
  | .time => timeFrom level text n
  | .pair => valueOr .pair n ((Literal.pair? all).map fun (x, y) => .pair x y)
  | .tuple => valueOr .tuple n ((Literal.tuple? all).map .tuple)
  | .string => ⟨.value (.string (l.text.getD "")), n⟩
  | .binary => valueOr .binary n ((Literal.binary? all).map .binary)
  | .char => valueOr .char n ((Literal.char? all).map .char)
  | .file => valueOr .file n ((Literal.file? all).map .file)
  | .email => valueOr .email n ((Literal.email? all).map .email)
  | .url => valueOr .url n ((Literal.url? all).map .url)
  | .tag => valueOr .tag n ((Literal.tag? all).map .tag)
  | .path => bad .path n

/-- The element that the lexeme `l` at the front of `text` makes at a level. -/
def of (level : Level) (text : Bytes) (l : Lexeme) : Reading :=
  if l.malformed then bad l.kind (max l.length 1)
  else if level != .path && startsPath l.kind && byteAt text l.length == slash then
    ⟨.pathHead l.kind, 0⟩
  else if level == .path && byteAt text 0 == slash then ⟨.slot, 1⟩
  else ofLexeme level text l

end Element

end RebolScan
