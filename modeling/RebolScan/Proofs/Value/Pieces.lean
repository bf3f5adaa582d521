import RebolScan.Token.Kind
import RebolScan.Value.Basic

/-!
# The pieces of a text

A text can be taken apart in two ways. A tokenizer cuts it into tokens, which know nothing of
nesting. A tree of values has it in its nodes: an opener, the contents and a closer for every block
and paren, and one leaf for every other value. A piece is what the two have in common, a mark with
its range of the source.

`Token.piece?` reads a token as a piece, and `piecesOfItems` writes a tree down as pieces.
-/

set_option autoImplicit false

namespace RebolScan

/-- What stands at one place of a text. -/
inductive Mark
  | opens (b : Bracket)
  | closes (b : Bracket)
  /-- a value of the named type, with no bracket of its own -/
  | leaf (typeName : String)
deriving DecidableEq, Repr

/-- A mark with its place. -/
structure Piece where
  mark : Mark
  span : Span
deriving DecidableEq, Repr

/-! ## Tokens -/

/-- The mark that a token of `length` bytes makes. Line breaks and the end of the script make none;
a path and a construction are not marks but take several tokens. -/
def TokenKind.mark? (length : Nat) : TokenKind → Option Mark
  | .endOfScript | .line | .path | .construct => none
  | .blockBegin => some (.opens .block)
  | .blockEnd => some (.closes .block)
  | .parenBegin => some (.opens .paren)
  | .parenEnd => some (.closes .paren)
  | .word => some (.leaf "word")
  | .setWord => some (.leaf "set-word")
  | .getWord => some (.leaf "get-word")
  | .litWord => some (.leaf "lit-word")
  | .refinement => some (.leaf "refinement")
  -- A pound sign alone is the none value.
  | .issue => some (.leaf (if length = 1 then "none" else "issue"))
  | .string => some (.leaf "string")
  | .binary => some (.leaf "binary")
  | .char => some (.leaf "char")
  | .integer => some (.leaf "integer")
  | .decimal => some (.leaf "decimal")
  | .percent => some (.leaf "percent")
  | .money => some (.leaf "money")
  | .time => some (.leaf "time")
  | .date => some (.leaf "date")
  | .pair => some (.leaf "pair")
  | .tuple => some (.leaf "tuple")
  | .file => some (.leaf "file")
  | .email => some (.leaf "email")
  | .url => some (.leaf "url")
  | .tag => some (.leaf "tag")

/-- The piece that a token is. -/
def Token.piece? (t : Token) : Option Piece :=
  (t.kind.mark? t.length).map fun mark => ⟨mark, ⟨t.start, t.stop⟩⟩

/-! ## Values -/

/-- What a pair of brackets around `span` makes of the pieces between them: the brackets are its first
and its last byte. -/
def enclosed (b : Bracket) (span : Span) (inner : List Piece) : List Piece :=
  ⟨.opens b, ⟨span.start, span.start + 1⟩⟩ ::
    (inner ++ [⟨.closes b, ⟨span.stop - 1, span.stop⟩⟩])

mutual

/-- The pieces of a value that was read from `span`. -/
def Value.pieces (span : Span) : Value → List Piece
  | .block .block ⟨items, _⟩ => enclosed .block span (piecesOfItems items)
  | .block .paren ⟨items, _⟩ => enclosed .paren span (piecesOfItems items)
  | v => [⟨.leaf v.typeName, span⟩]

/-- The pieces of items one behind the other. -/
def piecesOfItems : List (Placed Value) → List Piece
  | [] => []
  | ⟨v, _, span⟩ :: items => v.pieces span ++ piecesOfItems items

end

theorem Value.pieces_block (b : Bracket) (body : Block) (span : Span) :
    (Value.block b.blockKind body).pieces span = enclosed b span (piecesOfItems body.items) := by
  cases b <;> rw [Bracket.blockKind, Value.pieces]

theorem Value.pieces_of_isScalar {v : Value} (h : v.isScalar = true) (span : Span) :
    v.pieces span = [⟨.leaf v.typeName, span⟩] := by
  cases v with
  | block kind body => cases h
  | _ => rfl

theorem piecesOfItems_append (front back : List Item) :
    piecesOfItems (front ++ back) = piecesOfItems front ++ piecesOfItems back := by
  induction front with
  | nil => rfl
  | cons item front ih =>
    obtain ⟨v, line, span⟩ := item
    rw [List.cons_append, piecesOfItems, piecesOfItems, ih, List.append_assoc]

theorem piecesOfItems_snoc (items : List Item) (item : Item) :
    piecesOfItems (items ++ [item]) = piecesOfItems items ++ item.value.pieces item.span := by
  rw [piecesOfItems_append]
  obtain ⟨v, line, span⟩ := item
  rw [piecesOfItems, piecesOfItems, List.append_nil]

end RebolScan
