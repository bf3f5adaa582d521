import RebolScan.Scan.Element
import RebolScan.Scan.Options
import RebolScan.Text.Lines
import RebolScan.Token.Cursor

/-!
# The scanner

The scanner turns elements into values. It goes over the source level by level: a level collects
items until its end, and a block, paren, path or construction inside it is a level of its own, read
by `nested`.

`turn` is one round of a level: it looks at one lexeme, does what its element asks for, and says
whether the level goes on. A level is rounds until one says no. Nothing in a round recurses: the
levels inside it come in as the function `nested`, and `level` ties the knot by recursion on the
room that the nesting limit leaves.

A fault ends the scan unless faults are relaxed. Then it is kept twice, in the list of faults and as
an error value where it was met, and the level goes on. Too much nesting ends any scan. Faults are
counted when they arise, so the count and the list differ by the one fault that ended a scan.
-/

set_option autoImplicit false

namespace RebolScan

open Ascii

/-- Where a fault is reported: a line, and where it starts. -/
structure Site where
  line : Nat
  lineStart : Nat
deriving DecidableEq, Repr

/-- What changes during a scan. -/
structure Session where
  cursor : Cursor
  symbols : SymbolTable
  /-- the faults that were passed over, newest first -/
  faults : List Fault
  /-- how many faults have arisen -/
  faultCount : Nat

/-- What does not change during a scan. -/
structure Setup where
  options : Options
  construct : Constructor

/-- A step of a scan, which a fault can end. -/
abbrev Scan := EStateM Fault Session

/-- The items of a level so far, newest first, and whether a line break came after the last. -/
structure Collected where
  items : List Item
  newLine : Bool

namespace Collected

def empty : Collected := ⟨[], false⟩

/-- Adds an item, which takes up the line break before it. -/
def push (c : Collected) (value : Value) (span : Span) : Collected :=
  ⟨⟨value, c.newLine, span⟩ :: c.items, false⟩

/-- The finished level. -/
def toBlock (c : Collected) : Block := ⟨c.items.reverse, c.newLine⟩

end Collected

namespace Scan

/-! ## Looking at the source and moving on -/

def cursor : Scan Cursor := do return (← get).cursor

def site : Scan Site := do
  let c ← cursor
  return ⟨c.line, c.lineStart⟩

/-- Consumes the next `n` bytes. -/
def advance (n : Nat) : Scan Unit := modify fun s => { s with cursor := s.cursor.advance n }

/-- Consumes everything up to `pos`. -/
def advanceTo (pos : Nat) : Scan Unit := do advance (pos - (← cursor).start)

/-- The byte at `pos`, which is not before the next byte. -/
def byteFrom (pos : Nat) : Scan UInt8 := do
  let c ← cursor
  return byteAt c.rest (pos - c.start)

/-- Looks at the next lexeme without consuming it. -/
def look : Scan (Lexeme × Cursor) := do
  let (l, c) := (← cursor).scan
  modify fun s => { s with cursor := c }
  return (l, c)

/-- The symbol of a name. -/
def intern (name : String) : Scan Symbol := do
  let (symbol, symbols) := (← get).symbols.intern name
  modify fun s => { s with symbols }
  return symbol

/-! ## Faults -/

/-- A new fault over `span`, reported at `site`. It counts from now on. -/
def faultAt (kind : FaultKind) (token : TokenKind) (span : Span) (site : Site) : Scan Fault := do
  let source := (← cursor).source
  modify fun s => { s with faultCount := s.faultCount + 1 }
  return {
    kind, token, span
    bytes := Utf8.lossy (span.slice source)
    line := site.line
    near := Utf8.lossy (lineText source site.lineStart) }

/-- Ends the step with a new fault, reported where the scan is. -/
def fail {α : Type} (kind : FaultKind) (token : TokenKind) (span : Span) : Scan α := do
  throw (← faultAt kind token span (← site))

/-- Ends the step because text is wrong for a token of kind `token`. -/
def invalid {α : Type} (token : TokenKind) (span : Span) : Scan α :=
  fail (.invalid token) token span

/-- Keeps a fault as an error value if faults are relaxed, and ends the scan with it if not, or if
it cannot be passed over. -/
def record (setup : Setup) (f : Fault) (c : Collected) : Scan Collected :=
  if !setup.options.relaxed || f.isFatal then throw f
  else do
    modify fun s => { s with faults := f :: s.faults }
    return c.push (.error f) f.span

/-- The result of a step, or the fault that ended it; what the step changed stays changed. -/
def attempt {α : Type} (step : Scan α) : Scan (Except Fault α) :=
  tryCatch (do return .ok (← step)) fun f => return .error f

/-- Too many levels: the fault is about the token that would have opened one more. -/
def tooDeep {α : Type} (start : Nat) : Scan α := do
  fail .tooDeep .blockBegin ⟨start, (← cursor).stop⟩

/-! ## One round of a level -/

/-- Reads the levels inside a level: what they collect, and the place of the token that opens them.
-/
abbrev Nested := Level → Nat → Scan Block

/-- What one element came to. -/
inductive Outcome
  | value (v : Value)
  | slot
  | lineBreak
  | comment

/-- The word kind of a value becomes a plain word's. -/
def plainWord : Value → Value
  | .word _ s => .word .word s
  | v => v

/-- Changes the value of the first item. -/
def mapFirst (f : Value → Value) : List Item → List Item
  | [] => []
  | item :: items => { item with value := f item.value } :: items

/-- The path that `segments` make, whose first stood at `start` and was a token of kind `head`. The
mark of a get-word or lit-word in front is the path's, and so is a colon behind; a get-path may not
have one. -/
def joinPath (head : TokenKind) (start : Nat) (segments : Block) : Scan Value := do
  let stop := (← cursor).stop
  let colonBehind := (← byteFrom stop) == colon
  let plain := { segments with items := mapFirst plainWord segments.items }
  if head == .litWord then return .block .litPath plain
  match segments.items.head?.bind fun item => item.value.word? with
  | some (.getWord, _) =>
    -- `:a/b:` would be a get-path and a set-path at once.
    if colonBehind then
      advanceTo (stop + 1)
      invalid .path ⟨start, stop + 1⟩
    else return .block .getPath plain
  | _ =>
    if colonBehind then
      advanceTo (stop + 1)
      return .block .setPath segments
    else return .block .path segments

/-- The path whose first segment is next, a token of kind `head` at `start`. -/
def path (nested : Nested) (head : TokenKind) (start : Nat) : Scan Value := do
  joinPath head start (← nested .path start)

/-- What the items of a construction at `start` make. -/
def construct (setup : Setup) (start : Nat) (spec : Block) : Scan Value := do
  let (value?, symbols) := setup.construct.make spec.items (← get).symbols
  modify fun s => { s with symbols }
  match value? with
  | some v => return v
  | none => fail .malformedConstruct .construct ⟨start, (← cursor).start⟩

/-- The construction whose `#[` at `start` has just been consumed. -/
def construction (setup : Setup) (nested : Nested) (start : Nat) : Scan Value := do
  construct setup start (← nested (.inside .block) start)

/-- What an element at `start` comes to once it is consumed. -/
def carryOut (setup : Setup) (nested : Nested) (r : Element.Reading) (start : Nat) :
    Scan Outcome := do
  match r.element with
  | .lineBreak =>
    modify fun s => { s with cursor := { s.cursor with lineStart := s.cursor.start } }
    return .lineBreak
  | .slot => return .slot
  | .value v => return .value v
  | .word kind name => return .value (.word kind (← intern name))
  | .issue name => return .value (.issue (← intern name))
  | .opener b =>
    -- The bracket is consumed all the same, so a relaxed scan goes on behind it.
    if setup.options.only then fail (.notAllowed b) b.openKind ⟨start, start + r.taken⟩
    else return .value (.block b.blockKind (← nested (.inside b) start))
  | .construct => return .value (← construction setup nested start)
  | .invalid kind length => invalid kind ⟨start, start + length⟩
  | _ => return .comment

/-- Consumes an element at `start` and finds out what it comes to. The head of a path is not
consumed: the path reads it again. -/
def perform (setup : Setup) (nested : Nested) (r : Element.Reading) (start : Nat) :
    Scan Outcome :=
  match r.element with
  | .pathHead kind => do return .value (← path nested kind start)
  | _ => do
    advance r.taken
    carryOut setup nested r start

/-- After a segment of a path that starts at `start`: consumes a slash and says whether a segment
follows. What follows a slash must be a paren, or start no delimiter. -/
def separator (setup : Setup) (start : Nat) (c : Collected) : Scan (Collected × Bool) := do
  -- What ends a path is whatever was looked at last, which an inner level may have left pending.
  let stop := (← cursor).stop
  if (← byteFrom stop) != slash then return (c, false)
  else
    advanceTo (stop + 1)
    let next ← byteFrom (stop + 1)
    if next != parenOpen && isDelimiter next then
      let f ← faultAt (.invalid .path) .path ⟨start, stop + 1⟩ (← site)
      return (← record setup f c, false)
    else return (c, true)

/-- After an item of a level: whether the level goes on. -/
def afterItem (setup : Setup) (level : Level) (start : Nat) (c : Collected) :
    Scan (Collected × Bool) :=
  match level with
  | .path => separator setup start c
  | .top => return (c, !setup.options.stopsAfterValue)
  | .inside _ => return (c, true)

/-- Ends a level inside brackets that the token `token` does not close. The fault is reported where
the level was opened. -/
def unclosed (setup : Setup) (b : Bracket) (token : Token) (opened : Site) (c : Collected) :
    Scan (Collected × Bool) := do
  let f ← faultAt (.missing b) token.kind ⟨token.start, token.stop⟩ opened
  return (← record setup f c, false)

/-- A closing bracket. It ends its own level and is left alone by every other; at the top it closes
nothing. -/
def closer (setup : Setup) (level : Level) (b : Bracket) (token : Token) (opened : Site)
    (c : Collected) : Scan (Collected × Bool) := do
  match level with
  | .path => return (c, false)
  | .top =>
    advanceTo token.stop
    let f ← faultAt (.extra b) token.kind ⟨token.start, token.stop⟩ (← site)
    return (← record setup f c, !setup.options.stopsAfterValue)
  | .inside open? =>
    if open? == b then
      advanceTo token.stop
      return (c, false)
    else unclosed setup open? token opened c

/-- What a level makes of the outcome of an element at `start`, or of the fault that it met. -/
def settle (setup : Setup) (level : Level) (start : Nat) (c : Collected) :
    Except Fault Outcome → Scan (Collected × Bool)
  | .ok .lineBreak => return ({ c with newLine := true }, true)
  | .ok .comment => return (c, true)
  | .ok .slot => do return (c.push .none ⟨start, (← cursor).start⟩, true)
  | .ok (.value v) => do afterItem setup level start (c.push v ⟨start, (← cursor).start⟩)
  | .error f => do
    let c ← record setup f c
    -- A path ends at its first fault; any other level goes on after it.
    if level == .path then return (c, false) else afterItem setup level start c

/-- An element that neither closes a level nor ends the input. -/
def item (setup : Setup) (nested : Nested) (level : Level) (r : Element.Reading) (start : Nat)
    (c : Collected) : Scan (Collected × Bool) := do
  settle setup level start c (← attempt (perform setup nested r start))

/-- One round of a level that was opened at `opened`: what it has collected after it, and whether it
goes on. -/
def turn (setup : Setup) (nested : Nested) (level : Level) (opened : Site) (c : Collected) :
    Scan (Collected × Bool) := do
  let (l, cursor) ← look
  let token := l.token cursor
  let r := Element.of level cursor.rest l
  match r.element with
  | .endOfInput =>
    match level with
    | .inside b => unclosed setup b token opened c
    | _ => return (c, false)
  | .closer b => closer setup level b token opened c
  | _ => item setup nested level r cursor.start c

/-! ## Levels -/

/-- The rounds of a level, `fuel` of them at most. Every round that goes on consumes a byte, so the
length of the source is fuel enough. -/
def rounds (setup : Setup) (nested : Nested) (level : Level) (opened : Site) :
    Nat → Collected → Scan Collected
  | 0, c => return c
  | fuel + 1, c => do
    let (c, goesOn) ← turn setup nested level opened c
    if goesOn then rounds setup nested level opened fuel c else return c

/-- One level, with the levels inside it given. -/
def levelWith (setup : Setup) (nested : Nested) (fuel : Nat) (level : Level) : Scan Block := do
  let opened ← site
  let c ← rounds setup nested level opened fuel .empty
  return c.toBlock

/-- One level, with room for `room` levels inside it. -/
def level (setup : Setup) (fuel : Nat) : Nat → Level → Scan Block
  | 0, l => levelWith setup (fun _ start => tooDeep start) fuel l
  | room + 1, l => levelWith setup (fun inner _ => level setup fuel room inner) fuel l

end Scan

end RebolScan
