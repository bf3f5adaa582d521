import RebolScan.Literal.Number
import RebolScan.Token.Caret

/-!
# Character, file, e-mail, URL, tag and issue literals

The literals that stand for text. Each reader takes the whole text of a token and converts all of it
or refuses.

File names have a spelling of their own (`scanName`): a backslash is written for a slash, `%xx` for
the code point `xx`, and caret escapes may occur. E-mail addresses and URLs know `%xx` only, as a
byte, so that several of them can spell one character; a URL may hold a percent sign that escapes
nothing, and an address may not.
-/

set_option autoImplicit false

namespace RebolScan.Literal

open Ascii

/-- One possibly escaped character between `#"` and a quote. -/
def char? (text : Bytes) : Option Char := do
  let body ← dropLead? [pound, quote] text
  let body ← dropLast? quote body
  guard (!body.isEmpty)
  let (c, n) ← Caret.read body
  guard (n == body.length)
  return c

/-! ## File names -/

/-- How a name ends and which bytes it may not hold as they are. Without a terminator white space
ends it. -/
structure NameRule where
  terminator : Option UInt8
  forbidden : Bytes

/-- The five characters that end a name by an escape, where white space ends it. -/
def isBlankChar (c : Char) : Bool :=
  c == ' ' || c == '\t' || c == '\n' || c == '\x0C' || c == '\r'

/-- What stands next in a name. -/
inductive NameStep
  /-- a character and the bytes that it takes -/
  | char (c : Char) (length : Nat)
  /-- the name ends, `length` bytes of terminator included -/
  | stop (length : Nat)
  | refuse
deriving DecidableEq, Repr

/-- An optional character, refused when there is none. -/
def NameStep.ofChar? : Option (Char × Nat) → NameStep
  | some (c, n) => .char c n
  | none => .refuse

/-- Two hexadecimal digits after a percent sign, as a code point. -/
def percentChar? (rest : Bytes) : Option (Char × Nat) :=
  match hexDigit? (byteAt rest 1), hexDigit? (byteAt rest 2) with
  | some hi, some lo => some (Char.ofNat (hi * 16 + lo), 3)
  | _, _ => none

/-- Reads the front of `rest`, which is not empty, as a part of a name. -/
def NameRule.step (rule : NameRule) (rest : Bytes) : NameStep :=
  let b := byteAt rest 0
  if some b == rule.terminator then .stop 1
  else if b == nul || (rule.terminator.isNone && isAnySpace b) then .stop 0
  else if b < 0x20 then .refuse
  else if b == backslash then .char '/' 1
  else if b == percent then .ofChar? (percentChar? rest)
  else if b == caret then
    if (rest.drop 1).isEmpty then .refuse
    else match Caret.read rest with
      | some (c, n) => if rule.terminator.isNone && isBlankChar c then .stop 0 else .char c n
      | none => .refuse
  else if 0x80 ≤ b then .ofChar? (Utf8.decodeChar rest)
  else if rule.forbidden.contains b then .refuse
  else .char (Char.ofNat b.toNat) 1

/-- Reads on from `rest`, `used` bytes into the name, with the characters found so far, newest
first. Gives back the name and the number of bytes used. Each character takes at least one byte, so
`fuel` need be no more than the number of bytes. -/
def NameRule.readFrom (rule : NameRule) (fuel : Nat) (rest : Bytes) (used : Nat)
    (found : List Char) : Option (String × Nat) :=
  match fuel, rest with
  | 0, _ | _, [] => some (String.ofList found.reverse, used)
  | fuel + 1, rest =>
    match rule.step rest with
    | .char c n => readFrom rule fuel (rest.drop n) (used + n) (c :: found)
    | .stop n => some (String.ofList found.reverse, used + n)
    | .refuse => none

/-- The name at the front of `text` and the number of bytes that it takes. -/
def NameRule.read (rule : NameRule) (text : Bytes) : Option (String × Nat) :=
  rule.readFrom text.length text 0 []

/-- A file name as it stands. -/
def bareName : NameRule := ⟨none, [colon, semicolon, quote]⟩

/-- A file name between quotes, which may hold white space. -/
def quotedName : NameRule := ⟨some quote, [colon, semicolon]⟩

/-- A percent sign and a file name, in quotes or not. -/
def file? (text : Bytes) : Option String := do
  let body ← dropLead? [percent] text
  let (rule, body) := match dropLead? [quote] body with
    | some inner => (quotedName, inner)
    | none => (bareName, body)
  let (name, used) ← rule.read body
  guard (used == body.length)
  return name

/-! ## Addresses -/

/-- The bytes that `text` spells with `%xx` for a byte. A percent sign without two digits after it
stands for itself, or, when `strict`, for nothing allowed. -/
def percentDecode? (strict : Bool) (text : Bytes) : Option Bytes :=
  match text with
  | [] => some []
  | b :: rest =>
    if b == percent then
      match hexDigit? (byteAt rest 0), hexDigit? (byteAt rest 1) with
      | some hi, some lo =>
        (percentDecode? strict (rest.drop 2)).map ((hi * 16 + lo).toUInt8 :: ·)
      | _, _ => if strict then none else (percentDecode? strict rest).map (b :: ·)
    else (percentDecode? strict rest).map (b :: ·)
termination_by text.length
decreasing_by all_goals simp only [List.length_cons, List.length_drop]; omega

/-- User and host, with one `@` written as it is. -/
def email? (text : Bytes) : Option String := do
  let decoded ← percentDecode? true text
  guard (text.count atSign == 1)
  Utf8.decode? decoded

/-- A scheme, a colon and the rest. -/
def url? (text : Bytes) : Option String := do
  Utf8.decode? (← percentDecode? false text)

/-! ## Tags and issues -/

/-- What stands between `<` and `>`. -/
def tag? (text : Bytes) : Option String := do
  let body ← dropLead? [lesser] text
  Utf8.decode? (← dropLast? greater body)

/-- A byte that the name of an issue may hold. -/
def isIssueByte (b : UInt8) : Bool :=
  isWordOrNumber b || b == tick || b == comma || b == period || b == plus || b == minus
    || b == tilde

/-- Whether `text` may name an issue. -/
def isIssueText (text : Bytes) : Bool := !text.isEmpty && text.all isIssueByte

end RebolScan.Literal
