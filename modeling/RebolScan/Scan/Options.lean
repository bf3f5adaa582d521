import RebolScan.Value.Basic

/-!
# Scan options

What a caller may ask of one scan, and the constructor that gives `#[...]` its meaning.
-/

set_option autoImplicit false

namespace RebolScan

structure Options where
  /-- stop after the first value -/
  next : Bool
  /-- stop after the first value and allow no block or paren -/
  only : Bool
  /-- pass over faults, keeping each as an error value -/
  relaxed : Bool
  /-- how deep blocks, parens, paths and constructions may nest -/
  maxDepth : Nat
deriving DecidableEq, Repr

namespace Options

/-- The nesting that is allowed where nothing else is asked for. -/
def defaultDepth : Nat := 1024

/-- A whole text, strictly, to the default depth. -/
def standard : Options := ⟨false, false, false, defaultDepth⟩

/-- The scan stops after one value of the whole text. -/
def stopsAfterValue (o : Options) : Bool := o.next || o.only

end Options

/-- Makes a value of the items between `#[` and `]`; none if they describe no value. It finds the
names of symbols in the table, and may intern more. -/
structure Constructor where
  make : List Item → SymbolTable → Option Value × SymbolTable

namespace Constructor

/-- A constructor that interns nothing. -/
def reading (f : List Item → SymbolTable → Option Value) : Constructor :=
  ⟨fun items symbols => (f items symbols, symbols)⟩

instance : CoeFun Constructor fun _ => List Item → SymbolTable → Option Value :=
  ⟨fun c items symbols => (c.make items symbols).1⟩

end Constructor

end RebolScan
