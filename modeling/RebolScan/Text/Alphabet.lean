import RebolScan.Text.Bytes

/-!
# The lexical alphabet

Every byte belongs to one of four classes, and the class decides what it does to a token:

* a **delimiter** ends any token;
* a **special** may stand inside a token and changes what the token is;
* a **word** byte and a **number** byte extend a token and change little.

Words and numbers carry a value beside their class, the value as a hexadecimal digit, so that one
look-up serves the scanner and the readers of hexadecimal text. All bytes from `0x80` up are word
bytes (parts of UTF-8 characters) but two, which no valid UTF-8 text can hold.
-/

set_option autoImplicit false

namespace RebolScan

open Ascii

/-- What a delimiting byte delimits. -/
inductive Delimiter
  | space
  | endOfInput
  | lineFeed
  | carriageReturn
  | leftParen
  | rightParen
  | leftBracket
  | rightBracket
  | leftBrace
  | rightBrace
  | quote
  | slash
  | semicolon
  | utf8Error
deriving DecidableEq, Repr

/-- The place of a delimiter in the order of delimiters; plain space comes first. -/
def Delimiter.rank : Delimiter → Nat
  | .space => 0
  | .endOfInput => 1
  | .lineFeed => 2
  | .carriageReturn => 3
  | .leftParen => 4
  | .rightParen => 5
  | .leftBracket => 6
  | .rightBracket => 7
  | .leftBrace => 8
  | .rightBrace => 9
  | .quote => 10
  | .slash => 11
  | .semicolon => 12
  | .utf8Error => 13

/-- The characters whose presence inside a token decides what the token is. -/
inductive Special
  | atSign
  | percent
  | backslash
  | colon
  | tick
  | lesser
  | greater
  | plus
  | minus
  | period
  | comma
  | pound
  | dollar
deriving DecidableEq, Repr

/-- The place of a special in the order of specials. Place 9 is free: it is kept for `~`, which is a
word byte. -/
def Special.rank : Special → Nat
  | .atSign => 0
  | .percent => 1
  | .backslash => 2
  | .colon => 3
  | .tick => 4
  | .lesser => 5
  | .greater => 6
  | .plus => 7
  | .minus => 8
  | .period => 10
  | .comma => 11
  | .pound => 12
  | .dollar => 13

/-- The class of a byte. A word byte's value is 10 to 15 for the letters `A` to `F` of either case
and 0 for every other; a number byte's value is its digit. -/
inductive ByteClass
  | delimiter (d : Delimiter)
  | special (s : Special)
  | word (value : Nat)
  | number (digit : Nat)
deriving DecidableEq, Repr

/-- The bytes that delimit, the two that no UTF-8 text holds among them. Plain space is every
control byte that is left over, so it has no row. -/
def delimiterTable : List (UInt8 × Delimiter) :=
  [(nul, .endOfInput), (lineFeed, .lineFeed), (carriageReturn, .carriageReturn),
   (parenOpen, .leftParen), (parenClose, .rightParen),
   (bracketOpen, .leftBracket), (bracketClose, .rightBracket),
   (braceOpen, .leftBrace), (braceClose, .rightBrace),
   (quote, .quote), (slash, .slash), (semicolon, .semicolon),
   (0xC0, .utf8Error), (0xC1, .utf8Error)]

/-- The special characters. -/
def specialTable : List (UInt8 × Special) :=
  [(atSign, .atSign), (percent, .percent), (backslash, .backslash), (colon, .colon), (tick, .tick),
   (lesser, .lesser), (greater, .greater), (plus, .plus), (minus, .minus), (period, .period),
   (comma, .comma), (pound, .pound), (dollar, .dollar)]

/-- The signs that are ordinary word bytes. -/
def wordSigns : Bytes :=
  [exclamation, ampersand, asterisk, equal, question, caret, underscore, grave, bar, tilde]

namespace ByteClass

/-- The class of each byte. Control bytes other than NUL, line feed and carriage return are plain
space, and so is `0x7F`. -/
def of (b : UInt8) : ByteClass :=
  if isDigit b then .number (digitValue b)
  else if 0x41 ≤ b && b ≤ 0x46 then .word (b.toNat - 0x41 + 10)
  else if 0x61 ≤ b && b ≤ 0x66 then .word (b.toNat - 0x61 + 10)
  else if isLetter b || wordSigns.contains b then .word 0
  else match delimiterTable.lookup b, specialTable.lookup b with
    | some d, _ => .delimiter d
    | none, some s => .special s
    | none, none => if 0x80 ≤ b then .word 0 else .delimiter .space

/-- The place of the class in the order delimiter, special, word, number. -/
def rank : ByteClass → Nat
  | .delimiter _ => 0
  | .special _ => 1
  | .word _ => 2
  | .number _ => 3

/-- What the class says beside its name: the sub-code or the digit value. -/
def value : ByteClass → Nat
  | .delimiter d => d.rank
  | .special s => s.rank
  | .word v => v
  | .number v => v

/-- Class and value packed into one number below 128: the value takes the low five bits. -/
def code (c : ByteClass) : Nat := c.rank * 32 + c.value

/-- The value as a hexadecimal digit of either case. -/
def hexDigit? : ByteClass → Option Nat
  | .number v => some v
  | .word v => if v == 0 then none else some v
  | _ => none

end ByteClass

/-- The value of `b` as a hexadecimal digit of either case. -/
def hexDigit? (b : UInt8) : Option Nat := (ByteClass.of b).hexDigit?

/-- Skippable white space: space, tab and the other control bytes, but neither a line break nor
NUL. -/
def isSpace (b : UInt8) : Bool := ByteClass.of b == .delimiter .space

/-- White space with line breaks and the end-of-input byte. -/
def isAnySpace (b : UInt8) : Bool :=
  match ByteClass.of b with
  | .delimiter .space | .delimiter .endOfInput | .delimiter .lineFeed
  | .delimiter .carriageReturn => true
  | _ => false

def isDelimiter (b : UInt8) : Bool :=
  match ByteClass.of b with
  | .delimiter _ => true
  | _ => false

def isSpecial (b : UInt8) : Bool :=
  match ByteClass.of b with
  | .special _ => true
  | _ => false

def isWord (b : UInt8) : Bool :=
  match ByteClass.of b with
  | .word _ => true
  | _ => false

def isNumber (b : UInt8) : Bool :=
  match ByteClass.of b with
  | .number _ => true
  | _ => false

def isWordOrNumber (b : UInt8) : Bool := isWord b || isNumber b

/-- A line feed or a carriage return. -/
def isLineBreak (b : UInt8) : Bool := b == lineFeed || b == carriageReturn

/-- A line break or NUL: where a line of source text ends. -/
def isLineEnd (b : UInt8) : Bool := isLineBreak b || b == nul

end RebolScan
