import RebolScan.Calendar.Date
import RebolScan.Symbol
import RebolScan.Text.Bytes
import RebolScan.Value.Fault

/-!
# Values

What source text stands for. A value is a tree: blocks, parens and paths hold items, and an item is
a value with the range of source it was read from and whether a line break came before it.
-/

set_option autoImplicit false

namespace RebolScan

/-- The five forms of a word: `w`, `w:`, `:w`, `'w` and `/w`. -/
inductive WordKind
  | word
  | setWord
  | getWord
  | litWord
  | refinement
deriving DecidableEq, Repr

/-- The six forms of a sequence of values: `[...]`, `(...)`, `a/b`, `a/b:`, `:a/b` and `'a/b`. -/
inductive BlockKind
  | block
  | paren
  | path
  | setPath
  | getPath
  | litPath
deriving DecidableEq, Repr

def BlockKind.isPath : BlockKind → Bool
  | .block | .paren => false
  | .path | .setPath | .getPath | .litPath => true

/-- The form of sequence that a pair of brackets holds. -/
def Bracket.blockKind : Bracket → BlockKind
  | .block => .block
  | .paren => .paren

/-- Something read from source text, with its place there. -/
structure Placed (α : Type) where
  value : α
  /-- a line break came before it -/
  newLine : Bool
  span : Span
deriving Repr

/-- Items in order. `tailLine` says that a line break came after the last of them. -/
structure Series (α : Type) where
  items : List (Placed α)
  tailLine : Bool
deriving Repr

inductive Value
  | none
  | unset
  | logic (b : Bool)
  | integer (n : Int)
  | decimal (x : Float)
  /-- a fraction: ten percent is 0.1 -/
  | percent (x : Float)
  | money (x : Float)
  | char (c : Char)
  | pair (x y : Float)
  | tuple (parts : List Nat)
  | time (t : Time)
  | date (d : Date)
  | string (s : String)
  | binary (bytes : Bytes)
  | file (s : String)
  | email (s : String)
  | url (s : String)
  /-- what stands between `<` and `>` -/
  | tag (s : String)
  | issue (s : Symbol)
  | word (kind : WordKind) (s : Symbol)
  | block (kind : BlockKind) (body : Series Value)
  /-- the name of a type, with its `!` -/
  | datatype (s : Symbol)
  /-- field names with their values -/
  | object (fields : List (Symbol × Placed Value))
  /-- a fault that was passed over -/
  | error (f : Fault)
deriving Repr

abbrev Item := Placed Value

abbrev Block := Series Value

namespace Value

/-- The form and the items of a sequence of values. -/
def block? : Value → Option (BlockKind × Block)
  | .block kind body => some (kind, body)
  | _ => Option.none

/-- The form and the name of a word. -/
def word? : Value → Option (WordKind × Symbol)
  | .word kind s => some (kind, s)
  | _ => Option.none

def isError : Value → Bool
  | .error _ => true
  | _ => false

/-- No other value stands in it, and no place in a text. -/
def isScalar : Value → Bool
  | .block _ _ | .object _ | .error _ => false
  | _ => true

/-- The name of a value's type. -/
def typeName : Value → String
  | .none => "none"
  | .unset => "unset"
  | .logic _ => "logic"
  | .integer _ => "integer"
  | .decimal _ => "decimal"
  | .percent _ => "percent"
  | .money _ => "money"
  | .char _ => "char"
  | .pair _ _ => "pair"
  | .tuple _ => "tuple"
  | .time _ => "time"
  | .date _ => "date"
  | .string _ => "string"
  | .binary _ => "binary"
  | .file _ => "file"
  | .email _ => "email"
  | .url _ => "url"
  | .tag _ => "tag"
  | .issue _ => "issue"
  | .word .word _ => "word"
  | .word .setWord _ => "set-word"
  | .word .getWord _ => "get-word"
  | .word .litWord _ => "lit-word"
  | .word .refinement _ => "refinement"
  | .block .block _ => "block"
  | .block .paren _ => "paren"
  | .block .path _ => "path"
  | .block .setPath _ => "set-path"
  | .block .getPath _ => "get-path"
  | .block .litPath _ => "lit-path"
  | .datatype _ => "datatype"
  | .object _ => "object"
  | .error _ => "error"

end Value

end RebolScan
