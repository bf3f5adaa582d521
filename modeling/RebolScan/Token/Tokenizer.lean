import RebolScan.Token.Cursor

/-!
# Tokenizers

A tokenizer is a cursor with the text of the last quoted form that was looked at. `next?` takes the
tokens one by one, and `tokens` takes all of them.
-/

set_option autoImplicit false

namespace RebolScan

structure Tokenizer where
  cursor : Cursor
  /-- what the last quoted form spells, as far as it could be read -/
  scratch : String
deriving DecidableEq, Repr

namespace Tokenizer

/-- A tokenizer at the first byte of `source` after any byte order mark. -/
def ofSource (source : Bytes) : Tokenizer := ⟨Cursor.afterMark source, ""⟩

/-- Looks at the next token. -/
def scan (t : Tokenizer) : Token × Tokenizer :=
  let (l, c) := t.cursor.scan
  (l.token c, ⟨c, l.text.getD t.scratch⟩)

/-- Consumes the pending token. -/
def accept (t : Tokenizer) : Tokenizer := { t with cursor := t.cursor.accept }

/-- Looks at the next token and consumes it; none at the end of input. A token takes at least one
byte. -/
def next? (t : Tokenizer) : Option Token × Tokenizer :=
  let (token, t) := t.scan
  if token.kind == .endOfScript then (none, t)
  else
    let stop := max token.stop (token.start + 1)
    (some { token with stop }, { t with cursor := (t.cursor.setStop stop).accept })

/-- Takes the scratch text and leaves none. -/
def takeScratch (t : Tokenizer) : String × Tokenizer := (t.scratch, { t with scratch := "" })

/-- Up to `fuel` tokens from here on, each with the tokenizer that has just accepted it, and the
tokenizer after the last. -/
def tokensFrom (t : Tokenizer) (fuel : Nat) (found : List (Token × Tokenizer)) :
    List (Token × Tokenizer) × Tokenizer :=
  match fuel with
  | 0 => (found.reverse, t)
  | fuel + 1 =>
    match t.next? with
    | (none, t) => (found.reverse, t)
    | (some token, t) => tokensFrom t fuel ((token, t) :: found)

/-- All tokens of `source`. Each takes a byte, so there are no more of them than bytes. -/
def tokens (source : Bytes) : List (Token × Tokenizer) × Tokenizer :=
  (ofSource source).tokensFrom (source.length + 1) []

end Tokenizer

end RebolScan
