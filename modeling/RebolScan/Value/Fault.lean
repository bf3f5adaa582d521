import RebolScan.Text.Bytes
import RebolScan.Token.Kind

/-!
# Faults

What can be wrong with source text, and where: the kind of fault, the token it is about, the
offending bytes, and the line it was met on. `text` is the one place that words a fault.
-/

set_option autoImplicit false

namespace RebolScan

/-- A range of source bytes, half open. -/
structure Span where
  start : Nat
  stop : Nat
deriving DecidableEq, Repr

namespace Span

def length (s : Span) : Nat := s.stop - s.start

def isEmpty (s : Span) : Bool := s.stop ≤ s.start

/-- The spanned part of `source`, cut to what there is of it. -/
def slice (s : Span) (source : Bytes) : Bytes := between source s.start s.stop

def text (s : Span) : String := toString s.start ++ ".." ++ toString s.stop

end Span

/-- The two pairs of brackets that hold values. -/
inductive Bracket
  | block
  | paren
deriving DecidableEq, Repr

namespace Bracket

/-- The character that closes the pair. -/
def close : Bracket → String
  | .block => "]"
  | .paren => ")"

/-- The kind of the token that opens the pair. -/
def openKind : Bracket → TokenKind
  | .block => .blockBegin
  | .paren => .parenBegin

/-- The kind of the token that closes the pair. -/
def closeKind : Bracket → TokenKind
  | .block => .blockEnd
  | .paren => .parenEnd

end Bracket

inductive FaultKind
  /-- a token's text breaks the grammar of its kind -/
  | invalid (token : TokenKind)
  /-- the input ended, or another bracket closed, with this pair open -/
  | missing (b : Bracket)
  /-- a closing bracket with nothing open -/
  | extra (b : Bracket)
  /-- the body of a `#[...]` that constructs nothing -/
  | malformedConstruct
  /-- more nesting than the limit allows -/
  | tooDeep
  /-- a block or paren where only a single value may stand -/
  | notAllowed (b : Bracket)
deriving DecidableEq, Repr

/-- The wording of a kind of fault. -/
def FaultKind.text : FaultKind → String
  | .invalid token => "invalid " ++ token.name
  | .missing b => "missing " ++ b.close
  | .extra b => "extra " ++ b.close
  | .malformedConstruct => "invalid construct"
  | .tooDeep => "nesting too deep"
  | .notAllowed b => b.openKind.name ++ " not allowed"

/-- One fault with what a report of it needs. -/
structure Fault where
  kind : FaultKind
  /-- the kind of the offending token -/
  token : TokenKind
  /-- the offending text -/
  bytes : String
  span : Span
  /-- counted from 1 -/
  line : Nat
  /-- the line on which the fault was met -/
  near : String
deriving DecidableEq, Repr

namespace Fault

/-- Too much nesting cannot be passed over, so it ends any scan. -/
def isFatal (f : Fault) : Bool := f.kind == .tooDeep

def text (f : Fault) : String :=
  f.kind.text ++ " -- " ++ f.bytes ++ " (line " ++ toString f.line ++ ") near: " ++ f.near

end Fault

end RebolScan
