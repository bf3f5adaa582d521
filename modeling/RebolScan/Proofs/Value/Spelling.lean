import RebolScan.Proofs.Value.Moved
import RebolScan.Proofs.Value.Spellable

/-!
# How names are spelled

`Value.spellings` lists the words and issues that a value is or that stand in it, at any depth: each
with its symbol, the range of source it was read from, and the marks that stand around the name there.
A word has the marks of its form, and the first segment of a get-path or a lit-path has the mark of the
path in front of it. A spelling is right for a source and a table if **the range holds the name of the
symbol between those marks**, and nothing else (`Spelling.Holds`).

The names of the fields of an object have no place in a source and are not listed; their values are.
-/

set_option autoImplicit false

namespace RebolScan

open Ascii

/-- What a word has in front of its name. -/
def WordKind.front : WordKind → Bytes
  | .getWord => [colon]
  | .litWord => [tick]
  | .refinement => [slash]
  | .word | .setWord => []

/-- What a word has behind its name. -/
def WordKind.behind : WordKind → Bytes
  | .setWord => [colon]
  | _ => []

/-- A name, where it was read, and the marks around it there. -/
structure Spelling where
  symbol : Symbol
  span : Span
  front : Bytes
  behind : Bytes

mutual

/-- The words and issues in a value that was read from `span`. What is in front of it there that is
not its own is `mark`. -/
def Value.spellings (span : Span) (mark : Bytes) : Value → List Spelling
  | .word kind s => [⟨s, span, mark ++ kind.front, kind.behind⟩]
  | .issue s => [⟨s, span, mark ++ [pound], []⟩]
  | .block kind ⟨items, _⟩ => itemSpellings kind.front items
  | .object fields => fieldSpellings fields
  | _ => []

/-- Those in items, of which the first has `mark` in front of it. -/
def itemSpellings (mark : Bytes) : List (Placed Value) → List Spelling
  | [] => []
  | ⟨v, _, span⟩ :: items => v.spellings span mark ++ itemSpellings [] items

/-- Those in the values of fields. -/
def fieldSpellings : List (Symbol × Placed Value) → List Spelling
  | [] => []
  | (_, ⟨v, _, span⟩) :: fields => v.spellings span [] ++ fieldSpellings fields

end

/-- The words and issues in an item. -/
def Item.spellings (item : Item) : List Spelling := item.value.spellings item.span []

theorem mem_itemSpellings {items : List Item} {x : Spelling} :
    x ∈ itemSpellings [] items ↔ ∃ item ∈ items, x ∈ item.spellings := by
  induction items with
  | nil => simp [itemSpellings]
  | cons item items ih =>
    rw [itemSpellings, List.mem_append, ih]
    simp [Item.spellings]

theorem mem_fieldSpellings {fields : List (Symbol × Item)} {x : Spelling} :
    x ∈ fieldSpellings fields ↔ ∃ name item, (name, item) ∈ fields ∧ x ∈ item.spellings := by
  induction fields with
  | nil => simp [fieldSpellings]
  | cons field fields ih =>
    obtain ⟨name, item⟩ := field
    rw [fieldSpellings, List.mem_append, ih]
    simp [Item.spellings, or_and_right, exists_or, and_assoc]

/-- No other value without parts has a name. -/
theorem Value.spellings_eq_nil {v : Value} (hscalar : v.isScalar = true) (hnamed : v.isNamed = false)
    (span : Span) (mark : Bytes) : v.spellings span mark = [] := by
  cases v with
  | word | issue => cases hnamed
  | block | object | error => cases hscalar
  | _ => rfl

/-! ## Where a spelling is right -/

/-- The source has the name of the symbol there, between its marks. -/
def Spelling.Holds (source : Bytes) (table : SymbolTable) (x : Spelling) : Prop :=
  ∃ name, table.get? name = some x.symbol ∧
    between source x.span.start x.span.stop = x.front ++ Utf8.encode name ++ x.behind

/-- The words and issues in an item keep the names that they have in the source. -/
def Item.KeepsNames (source : Bytes) (table : SymbolTable) (item : Item) : Prop :=
  ∀ x ∈ item.spellings, x.Holds source table

section

variable {source : Bytes} {t u : SymbolTable} {item : Item} {items : List Item}

/-- A later table has the same names. -/
theorem Item.KeepsNames.mono (h : item.KeepsNames source t) (htu : t.Within u) :
    item.KeepsNames source u := by
  intro x hx
  obtain ⟨name, hname, hbytes⟩ := h x hx
  exact ⟨name, htu _ _ hname, hbytes⟩

end

end RebolScan
