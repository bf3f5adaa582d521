/-!
# Symbols

The names of words and issues are interned: each different name gets a symbol, once, and the table
gives the name back for the symbol. Case counts. A table has sixteen shards; the first bytes of a
name pick its shard, and the symbols of a shard are numbered in the order in which their names came.
The empty name is there from the start, as the first symbol of shard 0.

A shard keeps its names twice, in the order of their symbols and with the places where they are, and
carries that the two agree. How many names there are is counted apart. A shard is taken not to fill
up: there is room in it for as many names as 28 bits can number.
-/

set_option autoImplicit false

namespace RebolScan

/-- How many shards a table has. -/
abbrev shardCount : Nat := 16

/-- An interned name: a shard and a number within it. -/
structure Symbol where
  shard : Fin shardCount
  index : Nat
deriving DecidableEq, Repr

namespace Symbol

/-- The symbol of the empty name. -/
def empty : Symbol := ⟨0, 0⟩

/-- Shard and number as one: the number takes the low 28 bits. -/
def raw (s : Symbol) : Nat := s.shard * 0x10000000 + s.index

/-- The symbol that was packed: the shard is in the bits above the low 28. -/
def ofRaw (raw : Nat) : Symbol := ⟨Fin.ofNat shardCount (raw / 0x10000000), raw % 0x10000000⟩

def isEmpty (s : Symbol) : Bool := s.raw == 0

/-- The form that diagnostics show. -/
def debugText (s : Symbol) : String :=
  "Symbol(shard=" ++ toString s.shard.val ++ ", local=" ++ toString s.index ++ ")"

end Symbol

/-- The place of a name is where it is kept. -/
def Linked (names : Array String) (places : List (String × Nat)) : Prop :=
  ∀ name i, places.lookup name = some i ↔ names[i]? = some name

theorem linked_nil : Linked #[] [] := fun _ _ => by simp

/-- A name that is new may be put behind the others. -/
theorem Linked.push {names : Array String} {places : List (String × Nat)} {name : String}
    (h : Linked names places) (hnew : places.lookup name = none) :
    Linked (names.push name) ((name, names.size) :: places) := by
  intro other i
  have hother := h other i
  rw [List.lookup_cons, Array.getElem?_push]
  by_cases ho : other = name
  · subst ho
    rw [hnew] at hother
    by_cases hi : i = names.size
    · simp [hi]
    · simp [hi, ← hother, Ne.symm hi]
  · rw [beq_false_of_ne ho]
    by_cases hi : i = names.size
    · subst hi
      have hnone : names[names.size]? = none := by simp
      rw [hnone] at hother
      simp [Ne.symm ho, hother]
    · rw [if_neg hi]
      exact hother

/-- A shard: its names in the order in which they came, and the place of each by its name. -/
structure Shard where
  names : Array String
  places : List (String × Nat)
  linked : Linked names places
deriving Repr

namespace Shard

def empty : Shard := ⟨#[], [], linked_nil⟩

/-- Adds a name that is new, behind the others. -/
def push (s : Shard) (name : String) (hnew : s.places.lookup name = none) : Shard :=
  ⟨s.names.push name, (name, s.names.size) :: s.places, s.linked.push hnew⟩

end Shard

structure SymbolTable where
  shards : Vector Shard shardCount
  /-- how many names the table knows, the empty one among them -/
  size : Nat
deriving Repr

namespace SymbolTable

/-- The table that knows the empty name only. -/
def initial : SymbolTable := ⟨(Vector.replicate shardCount .empty).set 0 (Shard.empty.push "" rfl), 1⟩

/-- The shard of a name: its first eight bytes, read as the digits of a number to base 31, modulo
the number of shards. -/
def shardOf (name : String) : Fin shardCount :=
  let first := (name.toList.flatMap String.utf8EncodeChar).take 8
  Fin.ofNat shardCount (first.foldl (fun h b => h * 31 + b.toNat) 0)

def shard (t : SymbolTable) (k : Fin shardCount) : Shard := t.shards[k]

/-- The symbol of a name that has been interned. -/
def get? (t : SymbolTable) (name : String) : Option Symbol :=
  let k := shardOf name
  ((t.shard k).places.lookup name).map fun i => ⟨k, i⟩

/-- Adds a name that is new, in its shard, and counts it. -/
def add (t : SymbolTable) (name : String)
    (hnew : (t.shard (shardOf name)).places.lookup name = none) : SymbolTable :=
  ⟨t.shards.set (shardOf name) ((t.shard (shardOf name)).push name hnew), t.size + 1⟩

/-- The symbol of a name, new if the name is. -/
def intern (t : SymbolTable) (name : String) : Symbol × SymbolTable :=
  let k := shardOf name
  match h : (t.shard k).places.lookup name with
  | some i => (⟨k, i⟩, t)
  | none => (⟨k, (t.shard k).names.size⟩, t.add name h)

/-- The name of a symbol; a symbol that the table does not know reads as the empty name. -/
def lookup (t : SymbolTable) (s : Symbol) : String := (t.shard s.shard).names.getD s.index ""

/-- The table knows the empty name only. -/
def isEmpty (t : SymbolTable) : Bool := t.size ≤ 1

end SymbolTable

end RebolScan
