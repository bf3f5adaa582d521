import RebolScan.Literal.Radix
import RebolScan.Number.Text
import RebolScan.Text.Escaped
import RebolScan.Value.Basic

/-!
# Values as text

`render` writes a value the way source text spells it, for listings. Words, numbers, blocks and
paths read back as the same value; text in quotes is escaped for display, which is not how source
text escapes it.
-/

set_option autoImplicit false

namespace RebolScan

/-- What stands before, between and after the items of a sequence. -/
def BlockKind.marks : BlockKind → String × String × String
  | .block => ("[", " ", "]")
  | .paren => ("(", " ", ")")
  | .path => ("", "/", "")
  | .setPath => ("", "/", ":")
  | .getPath => (":", "/", "")
  | .litPath => ("'", "/", "")

/-- A name with the marks of its form. -/
def WordKind.spell (kind : WordKind) (name : String) : String :=
  match kind with
  | .word => name
  | .setWord => name ++ ":"
  | .getWord => ":" ++ name
  | .litWord => "'" ++ name
  | .refinement => "/" ++ name

/-- Bytes in base 16, between braces. -/
def binaryText (bytes : Bytes) : String :=
  "#\x7b" ++ String.ofList ((Radix.sixteen.encode 0 bytes).map Char.ofUInt8) ++ "\x7d"

/-- The items of a sequence, already written, with its marks. A path may start with an empty
segment, which is written as nothing. -/
def BlockKind.wrap (kind : BlockKind) (items : List Item) (texts : List String) : String :=
  let (opening, between, closing) := kind.marks
  let texts := match kind.isPath, items, texts with
    | true, ⟨.none, _, _⟩ :: _, _ :: rest => "" :: rest
    | _, _, texts => texts
  opening ++ between.intercalate texts ++ closing

mutual

/-- A value as source text spells it. -/
def Value.render (t : SymbolTable) : Value → String
  | .none => "#[none]"
  | .unset => "#[unset]"
  | .logic b => if b then "#[true]" else "#[false]"
  | .integer n => toString n
  | .decimal x => NumberLayout.full.text x
  | .percent x => NumberLayout.plain.text (x * 100) ++ "%"
  | .money x => "$" ++ fixedText 2 x
  | .char c => "#" ++ Text.quotedText c.toString
  | .pair x y => NumberLayout.plain.text x ++ "x" ++ NumberLayout.plain.text y
  | .tuple parts => ".".intercalate (parts.map toString)
  | .time time => time.text
  | .date d => d.text
  | .string s => Text.quotedText s
  | .binary bytes => binaryText bytes
  | .file s => "%" ++ s
  | .email s => s
  | .url s => s
  | .tag s => "<" ++ s ++ ">"
  | .issue s => "#" ++ t.lookup s
  | .word kind s => kind.spell (t.lookup s)
  | .block kind ⟨items, _⟩ => kind.wrap items (renderItems t items)
  | .datatype s => "#[" ++ t.lookup s ++ "]"
  | .object fields => "#[object! [" ++ " ".intercalate (renderFields t fields) ++ "]]"
  | .error f => "** " ++ f.text

/-- The texts of items. -/
def renderItems (t : SymbolTable) : List (Placed Value) → List String
  | [] => []
  | ⟨v, _, _⟩ :: items => v.render t :: renderItems t items

/-- The texts of fields, each with its name in front. -/
def renderFields (t : SymbolTable) : List (Symbol × Placed Value) → List String
  | [] => []
  | (name, ⟨v, _, _⟩) :: fields => (t.lookup name ++ ": " ++ v.render t) :: renderFields t fields

end

end RebolScan
