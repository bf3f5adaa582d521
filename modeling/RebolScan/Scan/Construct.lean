import RebolScan.Scan.Options

/-!
# Constructors

What the body of `#[...]` constructs. The standard constructor knows `#[none]`, `#[unset]`,
`#[true]` and `#[false]`, the types `#[integer!]` and so on, and objects, `#[object! [field: value
...]]`; case does not count in its words. Set-words that stand together in an object share the value
after them.
-/

set_option autoImplicit false

namespace RebolScan.Constructor

/-- The types that `#[name!]` may name, without the `!`. -/
def datatypes : List String :=
  ["none", "unset", "logic", "integer", "decimal", "percent", "money", "char", "pair", "tuple",
   "time", "date", "string", "binary", "file", "email", "url", "tag", "issue", "word", "set-word",
   "get-word", "lit-word", "refinement", "block", "paren", "path", "set-path", "get-path",
   "lit-path", "datatype", "object", "error"]

/-- A name with its capitals made small. -/
def lowerCase (name : String) : String := String.ofList (name.toList.map Char.toLower)

/-- The fields that items spell, with the set-words before them that still wait for a value. -/
def fields : List Item → List Symbol → Option (List (Symbol × Item))
  | [], waiting => if waiting.isEmpty then some [] else none
  | item :: items, waiting =>
    match item.value with
    | .word .setWord name => fields items (waiting ++ [name])
    | _ =>
      if waiting.isEmpty then none
      else (fields items []).map fun fs => waiting.map (·, item) ++ fs

/-- A set-word waits for a value. -/
theorem fields_setWord {item : Item} {items : List Item} {waiting : List Symbol} {name : Symbol}
    (h : item.value = .word .setWord name) :
    fields (item :: items) waiting = fields items (waiting ++ [name]) := by
  rw [fields, h]

/-- Any other item is the value of the set-words that wait. -/
theorem fields_value {item : Item} {items : List Item} {waiting : List Symbol}
    (h : ∀ name, item.value ≠ .word .setWord name) :
    fields (item :: items) waiting =
      if waiting.isEmpty then none
      else (fields items []).map fun fs => waiting.map (·, item) ++ fs := by
  rw [fields]
  split
  · rename_i name hv
    exact absurd hv (h name)
  · rfl

/-- An object of the fields in a block. -/
def object (body : Value) : Option Value :=
  match body.block? with
  | some (.block, block) => (fields block.items []).map .object
  | _ => none

/-- The constructions without an argument. -/
def simple (name : String) (s : Symbol) : Option Value :=
  if name == "none" then some .none
  else if name == "unset" then some .unset
  else if name == "true" then some (.logic true)
  else if name == "false" then some (.logic false)
  else if datatypes.any fun t => t ++ "!" == name then some (.datatype s)
  else none

/-- The value that the items of `#[...]` in source text describe. -/
def valueOf? (spec : List Item) (symbols : SymbolTable) : Option Value :=
  match spec with
  | [] => none
  | head :: rest =>
    match head.value.word? with
    | some (.word, s) =>
      let name := lowerCase (symbols.lookup s)
      match rest with
      | [] => simple name s
      | [body] => if name == "object!" then object body.value else none
      | _ => none
    | _ => none

/-- The meaning of `#[...]` in source text. -/
def standard : Constructor := .reading valueOf?

/-- Constructs nothing. -/
def refusing : Constructor := .reading fun _ _ => none

/-- Gives the items back as a block. -/
def echo : Constructor := .reading fun spec _ => some (.block .block ⟨spec, false⟩)

end RebolScan.Constructor
