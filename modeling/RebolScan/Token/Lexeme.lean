import RebolScan.Text.Lines
import RebolScan.Token.Kind
import RebolScan.Token.Marks
import RebolScan.Token.Quoted
import RebolScan.Token.Tag

/-!
# The lexeme at the front of text

`Lexeme.ofFront` says what stands at the front of some text: its kind, whether it is malformed, how
many bytes it takes, and, for quoted forms, the text they spell and the lines they cross. It sees
the text from the lexeme's first byte on and nothing before it, so what a token is never depends on
what was read earlier.

The first byte and the marks of the run decide. Quoted forms, tags and characters are read to their
end; numbers and dates are only told apart, and the literal readers refuse what is wrong in them.

In the functions below, `at` positions are counted from the lexeme's first byte, and a function
named for a class of lexemes takes the `Front`, the text with its run and marks.
-/

set_option autoImplicit false

namespace RebolScan

open Ascii

/-- What stands at the front of some text. -/
structure Lexeme where
  kind : TokenKind
  malformed : Bool
  /-- bytes covered -/
  length : Nat
  /-- line breaks that the lexeme counts for -/
  lines : Nat
  /-- where its last line starts, when a quoted form crosses a line break -/
  lineStart : Option Nat
  /-- what a quoted form spells, up to the failure if it is malformed -/
  text : Option String
deriving DecidableEq, Repr

/-- Text with its run and the marks of the run. -/
structure Front where
  text : Bytes
  run : Bytes
  marks : Marks

namespace Front

/-- The front of `text`. -/
def of (text : Bytes) : Front := ⟨text, runOf text, Marks.ofRun (runOf text)⟩

/-- One past the run. -/
def stop (f : Front) : Nat := f.run.length

/-- The byte `i` places into the text, be it in the run or after it. -/
def byte (f : Front) (i : Nat) : UInt8 := byteAt f.text i

/-- The first place of `b` in the run, at or after `start`. -/
def find? (f : Front) (start : Nat) (b : UInt8) : Option Nat :=
  ((f.run.drop start).idxOf? b).map (· + start)

def has (f : Front) (s : Special) : Bool := f.marks.has s

end Front

namespace Lexeme

/-- A well-formed lexeme of one line. -/
def good (kind : TokenKind) (length : Nat) : Lexeme := ⟨kind, false, length, 0, none, none⟩

/-- A malformed lexeme. -/
def bad (kind : TokenKind) (length : Nat) : Lexeme := ⟨kind, true, length, 0, none, none⟩

/-- A malformed lexeme that takes what is left of its line: reading goes on where that ends. -/
def badLine (kind : TokenKind) (text : Bytes) : Lexeme := bad kind (1 + lineLength (text.drop 1))

/-! ## Quoted forms, characters and files -/

/-- A quoted form of `kind` whose opening quote or brace is `skip` bytes into `text`. -/
def quoted (kind : TokenKind) (text : Bytes) (skip : Nat) : Lexeme :=
  let q := Quoted.read (text.drop skip)
  match q.extent with
  | some e =>
    { kind, malformed := false, length := skip + e.length, lines := e.lines,
      lineStart := if 0 < e.lines then some (skip + e.lineStart) else none, text := some q.text }
  | none => { badLine kind text with text := some q.text }

/-- A character literal whose pound sign is `skip` bytes into `text`. -/
def character (text : Bytes) (skip : Nat) : Lexeme :=
  match Caret.read (text.drop (skip + 2)) with
  | some (_, n) =>
    if byteAt text (skip + 2 + n) == quote then good .char (skip + 2 + n + 1)
    else badLine .char text
  | none => badLine .char text

/-- How far slashes and the names between them carry on from `start`. -/
def pathEnd (text : Bytes) (start : Nat) : Nat :=
  start + ((text.drop start).takeWhile fun b => b == slash || !isDelimiter b).length

/-- A file name, with its directories, or a quoted file name. -/
def file (f : Front) : Lexeme :=
  if f.byte f.stop == quote then
    let q := Quoted.read (f.text.drop f.stop)
    match q.extent with
    | some e => { good .file (f.stop + e.length) with text := some q.text }
    | none => { bad .file f.stop with text := some q.text }
  else good .file (pathEnd f.text f.stop)

/-! ## Words -/

/-- A word-like lexeme, once its first bytes have made `kind` of it; its name starts at `start`.
Here it may still turn out to be a set-word, a URL, an e-mail address, an amount of money, or a word
with a tag behind it. -/
def wordTail (kind : TokenKind) (start : Nat) (f : Front) : Lexeme :=
  if f.has .colon then
    if kind == .word then
      let colonAt := (f.find? start colon).getD f.stop
      let after := f.byte (colonAt + 1)
      -- `a:` ends with its colon; `a:b` and `a:/b` go on behind it and are addresses.
      if after != slash && isDelimiter after then
        if (f.marks.erase .colon).hasAny Marks.illegalInWord then bad .word f.stop
        else good .setWord f.stop
      else good .url (pathEnd f.text f.stop)
    -- `:a:` and `'a:`: one colon, at the end, may belong to a path that ends here.
    else if kind == .refinement || f.find? start colon != some (f.stop - 1) then bad kind f.stop
    else marked (f.marks.erase .colon)
  else marked f.marks
where
  /-- The rest of the decision, with a colon that belongs to a path struck from the marks. -/
  marked (m : Marks) : Lexeme :=
    if m.has .atSign then good .email f.stop
    else if m.has .dollar then good .money f.stop
    else if m.hasAny Marks.illegalInWord then bad kind f.stop
    else if m.has .lesser then
      let lesserAt := (f.find? start lesser).getD f.stop
      let after := f.byte (lesserAt + 1)
      -- A tag may stand right behind a word, `a<b>` or `a</b>`; an operator may not.
      if after == lesser || after == greater || after == equal || isAnySpace after
          || (after != slash && isDelimiter after) then
        bad kind f.stop
      else good kind lesserAt
    else if m.has .greater then bad kind f.stop
    else good kind f.stop

/-- A word such as `:<` or `'>=`: an operator after the mark of a get-word or lit-word. -/
def operatorWord (kind : TokenKind) (f : Front) : Lexeme :=
  let second := f.byte 2
  let last := if second == lesser || second == greater || second == equal then 2 else 1
  if isDelimiter (f.byte (last + 1)) then good kind (last + 1) else bad kind f.stop

/-- A refinement, or a word of slashes only. -/
def slashes (text : Bytes) : Lexeme :=
  let n := (text.takeWhile (· == slash)).length
  let next := byteAt text n
  if isWordOrNumber next || next == plus || next == minus || next == period then
    if n == 1 then
      -- The slash is a delimiter, so the marks are those of the run behind it.
      let inner := Front.of (text.drop 1)
      if inner.marks.isOnlyWord then good .refinement (1 + inner.stop)
      else wordTail .refinement 1 ⟨text, slash :: inner.run, inner.marks⟩
    else bad .refinement n
  else if next == lesser || next == greater then bad .refinement (n + 1)
  else good .word n

/-- An operator word that starts with `<` or `>`, or a tag. -/
def angle (s : Special) (f : Front) : Lexeme :=
  let next := f.byte 1
  let operator := if isDelimiter (f.byte 2) then good .word f.stop else bad .word f.stop
  if s == .greater && isDelimiter next then good .word f.stop
  else if s == .greater && next == greater then operator
  else if isAnySpace next || next == bracketClose then good .word f.stop
  else if (s == .lesser && next == lesser) || next == equal || next == greater then operator
  else if s == .greater then bad .word f.stop
  else match Tag.length? f.text with
    | some n => good .tag n
    | none => bad .tag f.stop

/-! ## Numbers and what starts with a pound sign -/

/-- A construction, a character, a binary or an issue, with the pound sign at `start`. Only an issue
has to have it in front. -/
def poundForm (start : Nat) (f : Front) : Lexeme :=
  let next := f.byte (start + 1)
  if next == bracketOpen then good .construct (start + 2)
  else if next == quote then character f.text start
  else if next == braceOpen then quoted .binary f.text (start + 1)
  else if start == 0 then good .issue f.stop
  else bad .integer f.stop

/-- Where the pound sign of a binary is whose base, `2`, `16` or `64`, is written in front of it. -/
def basePound? (f : Front) : Option Nat :=
  if f.byte 0 == 0x32 && f.byte 1 == pound && f.byte 2 == braceOpen then some 1
  else if ((f.byte 0 == 0x36 && f.byte 1 == 0x34) || (f.byte 0 == 0x31 && f.byte 1 == 0x36))
      && f.byte 2 == pound && f.byte 3 == braceOpen then some 2
  else none

/-- What the first sign in the digits makes of a number without colon, point or comma. -/
def numberBySign (start : Nat) (f : Front) : Lexeme :=
  let digits := f.run.drop start
  let decides := fun b : UInt8 =>
    b == minus || b == letterX || b == capitalX || b == letterE || b == capitalE || b == percent
  match digits.find? decides with
  | some b =>
    if b == minus then good .date f.stop
    else if b == letterX || b == capitalX then good .pair f.stop
    else if b == percent then good .percent f.stop
    -- An exponent: `1e5x2` is still a pair.
    else if digits.contains letterX then good .pair f.stop
    else good .decimal f.stop
  | none => if f.has .tick then good .integer f.stop else bad .integer f.stop

/-- A lexeme that starts like a number: `start` is the place of its first digit, or of the point or
comma in front of that. -/
def number (start : Nat) (f : Front) : Lexeme :=
  if f.marks.isEmpty then good .integer f.stop
  else if f.has .atSign then good .email f.stop
  else if f.has .pound then
    match if start == 0 then basePound? f else none with
    | some p => poundForm p f
    | none => bad .integer f.stop
  else if f.has .colon then good .time f.stop
  else if f.has .period then
    -- `1.5x2` is a pair, a second point makes a tuple, and a comma beside the point rules that out.
    let firstPoint := (f.find? start period).getD start
    if (f.find? start letterX).isSome then good .pair f.stop
    else if !f.has .comma && (f.find? (firstPoint + 1) period).isSome then good .tuple f.stop
    else good .decimal f.stop
  else if f.has .comma then
    if (f.find? start letterX).isSome then good .pair f.stop else good .decimal f.stop
  else numberBySign start f

/-- A point or comma at `start`: a number if a digit follows, and else a word, which a comma may not
start. -/
def radixPoint (s : Special) (start : Nat) (f : Front) : Lexeme :=
  let f := { f with marks := f.marks.insert s }
  if isNumber (f.byte (start + 1)) then number start f
  else if s == .comma then bad .word f.stop
  else wordTail .word start f

/-! ## The first byte decides -/

/-- A lexeme with a sign in front. -/
def signed (f : Front) : Lexeme :=
  let next := f.byte 1
  if f.has .dollar then good .money f.stop
  else if f.has .colon then
    -- A colon that does not end the run makes a time, as in `-1:30`; `+:` is a set-word.
    if (f.find? 0 colon).any (· + 1 != f.stop) then good .time f.stop
    else if next == colon then wordTail .word 0 f
    else bad .time f.stop
  else match ByteClass.of next with
    | .number _ => number 1 f
    | .special .period => radixPoint .period 1 f
    | .special .comma => radixPoint .comma 1 f
    | .special .pound => poundForm 1 f
    | .special .plus | .special .minus => wordTail .word 1 f
    | .special _ => bad .word f.stop
    | _ => wordTail .word 1 f

/-- A get-word, or a time without hours. -/
def colonForm (f : Front) : Lexeme :=
  let next := f.byte 1
  if isNumber next then good .time f.stop
  else if f.marks.isOnlyWord then good .getWord f.stop
  else if next == tick then bad .word f.stop
  else if next == lesser || next == greater then operatorWord .getWord f
  else wordTail .getWord 1 f

/-- A lit-word. -/
def tickForm (f : Front) : Lexeme :=
  let next := f.byte 1
  if isNumber next || next == colon then bad .litWord f.stop
  else if f.marks.isOnlyWord then good .litWord f.stop
  else if next == tick then bad .word f.stop
  else if next == lesser || next == greater then operatorWord .litWord f
  else wordTail .litWord 0 f

/-- A lexeme that starts with a special. An `@` inside makes it an e-mail address, unless it starts
like a tag. -/
def special (s : Special) (f : Front) : Lexeme :=
  if f.has .atSign && s != .lesser then good .email f.stop
  else match s with
    | .atSign => bad .email f.stop
    | .percent => file f
    | .colon => colonForm f
    | .tick => tickForm f
    | .comma | .period => radixPoint s 0 f
    | .greater | .lesser => angle s f
    | .plus | .minus => signed f
    | .pound => poundForm 0 f
    | .dollar => good .money f.stop
    | .backslash => bad .word f.stop

/-- The line break at the front of `text`, `skip` bytes of comment being before it. -/
def lineBreak (text : Bytes) (skip : Nat) : Lexeme :=
  { good .line (skip + lineBreakLength (text.drop skip)) with lines := 1 }

/-- A comment with the line break that ends it. One that runs into NUL or the end of input has no
line break to count. -/
def comment (text : Bytes) : Lexeme :=
  let n := lineLength text
  -- Past the end reads as NUL too.
  if byteAt text n == nul then good .line n else lineBreak text n

/-- A lexeme that starts with a delimiter, or the end of the text. -/
def delimited (d : Delimiter) (text : Bytes) : Lexeme :=
  match d with
  | .space | .semicolon => comment text
  | .lineFeed | .carriageReturn => lineBreak text 0
  | .leftBracket => good .blockBegin 1
  | .rightBracket => good .blockEnd 1
  | .leftParen => good .parenBegin 1
  | .rightParen => good .parenEnd 1
  | .quote | .leftBrace => quoted .string text 0
  | .rightBrace => bad .string 1
  | .slash => slashes text
  -- NUL ends the input only where the input ends.
  | .endOfInput => if text.isEmpty then good .endOfScript 0 else bad .word 1
  | .utf8Error => bad .word 1

/-- The lexeme at the front of `text`, which no skippable space starts. -/
def ofFront (text : Bytes) : Lexeme :=
  match ByteClass.of (byteAt text 0) with
  | .delimiter d => delimited d text
  | .special s => special s (Front.of text)
  | .word _ =>
    let f := Front.of text
    if f.marks.isOnlyWord then good .word f.stop else wordTail .word 0 f
  | .number _ => number 0 (Front.of text)

end Lexeme

end RebolScan
