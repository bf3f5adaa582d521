import RebolScan.Scan.Construct
import RebolScan.Scan.Scanner

/-!
# Values read further on

The same text read `n` bytes further on gives the same values with every span moved: `Value.moved`.
Only the errors among them may say something else about the line they are on, since a text that is
read from its middle has other lines, so a moved error says nothing of lines at all. That makes
`Item.moved 0` the way to forget the lines, and **two readings agree when one moved is the other
without its lines**.

No constructor looks at a span, so what it makes of moved items is what it makes of the items, moved
(`valueOf?_moved`). The same holds of whatever else `Replaces` places and nothing more, and is said
of that (`valueOf?_replaced`).
-/

set_option autoImplicit false

namespace RebolScan

def Span.moved (n : Nat) (s : Span) : Span := ⟨s.start + n, s.stop + n⟩

/-- The fault without its line. -/
def Fault.moved (n : Nat) (f : Fault) : Fault :=
  { f with span := f.span.moved n, line := 0, near := "" }

mutual

/-- The value as it is read `n` bytes further on, its errors without their lines. -/
def Value.moved (n : Nat) : Value → Value
  | .block kind ⟨items, tailLine⟩ => .block kind ⟨movedItems n items, tailLine⟩
  | .object fields => .object (movedFields n fields)
  | .error f => .error (f.moved n)
  | v => v

def movedItems (n : Nat) : List (Placed Value) → List (Placed Value)
  | [] => []
  | ⟨v, newLine, span⟩ :: items => ⟨v.moved n, newLine, span.moved n⟩ :: movedItems n items

def movedFields (n : Nat) : List (Symbol × Placed Value) → List (Symbol × Placed Value)
  | [] => []
  | (name, ⟨v, newLine, span⟩) :: fields =>
    (name, ⟨v.moved n, newLine, span.moved n⟩) :: movedFields n fields

end

def Item.moved (n : Nat) (item : Item) : Item :=
  ⟨item.value.moved n, item.newLine, item.span.moved n⟩

def Block.moved (n : Nat) (b : Block) : Block := ⟨b.items.map (Item.moved n), b.tailLine⟩

theorem movedItems_eq_map (n : Nat) (items : List Item) :
    movedItems n items = items.map (Item.moved n) := by
  induction items with
  | nil => rfl
  | cons item items ih => rw [movedItems, ih]; rfl

theorem movedFields_eq_map (n : Nat) (fields : List (Symbol × Item)) :
    movedFields n fields = fields.map fun (name, item) => (name, item.moved n) := by
  induction fields with
  | nil => rfl
  | cons field fields ih =>
    obtain ⟨name, item⟩ := field
    rw [movedFields, ih]
    rfl

section

variable (n : Nat)

@[simp] theorem Value.moved_block (kind : BlockKind) (body : Block) :
    (Value.block kind body).moved n = .block kind (body.moved n) := by
  rw [Value.moved, movedItems_eq_map]
  rfl

@[simp] theorem Value.moved_object (fields : List (Symbol × Item)) :
    (Value.object fields).moved n = .object (fields.map fun (name, item) => (name, item.moved n)) := by
  rw [Value.moved, movedFields_eq_map]

@[simp] theorem Value.moved_error (f : Fault) : (Value.error f).moved n = .error (f.moved n) := by
  rw [Value.moved]

/-! ## What moving leaves alone -/

@[simp] theorem Value.word?_moved (v : Value) : (v.moved n).word? = v.word? := by
  cases v with
  | block kind body => rw [moved_block]; rfl
  | object fields => rw [moved_object]; rfl
  | _ => rfl

theorem Value.block?_moved (v : Value) :
    (v.moved n).block? = v.block?.map fun (kind, body) => (kind, body.moved n) := by
  cases v with
  | block kind body => rw [moved_block]; rfl
  | object fields => rw [moved_object]; rfl
  | _ => rfl

theorem Value.word?_eq_some {v : Value} {kind : WordKind} {name : Symbol}
    (h : v.word? = some (kind, name)) : v = .word kind name := by
  cases v with
  | word kind' name' =>
    cases h
    rfl
  | _ => cases h

/-- The value is a word or an issue, which have names. -/
def Value.isNamed : Value → Bool
  | .word _ _ | .issue _ => true
  | _ => false

theorem Value.word?_eq_none {v : Value} (h : v.isNamed = false) : v.word? = Option.none := by
  cases v with
  | word => cases h
  | _ => rfl

theorem Value.block?_eq_some {v : Value} {kind : BlockKind} {body : Block}
    (h : v.block? = some (kind, body)) : v = .block kind body := by
  cases v with
  | block kind' body' =>
    cases h
    rfl
  | _ => cases h

end

/-! ## What no constructor looks at -/

/-- `f` changes values, and `place` the items that hold them, in nothing but what the items at any
depth say of their places. -/
structure Replaces (f : Value → Value) (place : Item → Item) : Prop where
  value : ∀ item, (place item).value = f item.value
  word? : ∀ v, (f v).word? = v.word?
  block? : ∀ v, ((f v).block?.map fun (kind, body) => (kind, body.items)) =
    v.block?.map fun (kind, body) => (kind, body.items.map place)
  object : ∀ fields, f (.object fields) = .object (fields.map fun (name, item) => (name, place item))
  scalar : ∀ v, v.isScalar = true → f v = v

theorem replaces_moved (n : Nat) : Replaces (Value.moved n) (Item.moved n) where
  value _ := rfl
  word? := Value.word?_moved n
  block? v := by
    rw [Value.block?_moved, Option.map_map]
    rfl
  object := Value.moved_object n
  scalar v h := by
    cases v with
    | block | object | error => cases h
    | _ => rfl

section

variable {f : Value → Value} {place : Item → Item} (hf : Replaces f place)

include hf

theorem Replaces.plainWord (v : Value) : Scan.plainWord (f v) = f (Scan.plainWord v) := by
  cases hw : v.word? with
  | some word =>
    obtain ⟨kind, name⟩ := word
    rw [Value.word?_eq_some hw, hf.scalar _ rfl]
    exact (hf.scalar _ rfl).symm
  | none =>
    have hplain {v : Value} (h : v.word? = none) : Scan.plainWord v = v := by
      cases v with
      | word => cases h
      | _ => rfl
    rw [hplain hw, hplain ((hf.word? v).trans hw)]

theorem Replaces.mapFirst_plainWord
    (hplace : ∀ item v, place { item with value := v } = { place item with value := f v })
    (items : List Item) :
    (Scan.mapFirst Scan.plainWord items).map place =
      Scan.mapFirst Scan.plainWord (items.map place) := by
  cases items with
  | nil => rfl
  | cons item items =>
    show place _ :: _ = _ :: _
    rw [hplace, hf.value, hf.plainWord]

/-- The first item is the same word, or none, in both. -/
theorem Replaces.first_word? (items : List Item) :
    ((items.map place).head?.bind fun item => item.value.word?) =
      items.head?.bind fun item => item.value.word? := by
  cases items with
  | nil => rfl
  | cons item items =>
    show (place item).value.word? = item.value.word?
    rw [hf.value, hf.word?]

end

namespace Constructor

section

variable {f : Value → Value} {place : Item → Item} (hf : Replaces f place)

include hf

theorem fields_replaced (items : List Item) (waiting : List Symbol) :
    fields (items.map place) waiting =
      (fields items waiting).map fun fs => fs.map fun (name, item) => (name, place item) := by
  induction items generalizing waiting with
  | nil =>
    simp only [List.map_nil, fields]
    split <;> rfl
  | cons item items ih =>
    rw [List.map_cons]
    by_cases hv : ∃ name, item.value = .word .setWord name
    · obtain ⟨name, hv⟩ := hv
      have hm : (place item).value = .word .setWord name := by
        rw [hf.value, hv]
        exact hf.scalar _ rfl
      rw [fields_setWord hv, fields_setWord hm, ih]
    · have hm (name : Symbol) : (place item).value ≠ .word .setWord name := by
        intro hm
        refine hv ⟨name, Value.word?_eq_some ?_⟩
        rw [← hf.word?, ← hf.value]
        exact congrArg Value.word? hm
      rw [fields_value (fun name h => hv ⟨name, h⟩), fields_value hm, ih]
      split
      · rfl
      · simp [Function.comp_def]

theorem object_replaced (body : Value) : object (f body) = (object body).map f := by
  have hblock := hf.block? body
  unfold object
  cases hb : body.block? with
  | none =>
    rw [hb] at hblock
    rw [Option.map_eq_none_iff.1 hblock]
    rfl
  | some b =>
    obtain ⟨kind, block⟩ := b
    rw [hb] at hblock
    obtain ⟨⟨kind', block'⟩, hb', he⟩ := Option.map_eq_some_iff.1 hblock
    obtain ⟨rfl, hitems⟩ := Prod.mk.inj he
    rw [hb']
    cases kind' with
    | block =>
      have hitems : block'.items = block.items.map place := hitems
      show (fields block'.items []).map _ = _
      rw [hitems, fields_replaced hf, Option.map_map, Option.map_map]
      congr 1
      funext fs
      exact (hf.object fs).symm
    | _ => rfl

theorem simple_replaced (name : String) (s : Symbol) : (simple name s).map f = simple name s := by
  unfold simple
  repeat' split
  all_goals first
    | rfl
    | exact congrArg some (hf.scalar _ rfl)

/-- **What is constructed of replaced items is what is constructed of the items, replaced.** -/
theorem valueOf?_replaced (spec : List Item) (symbols : SymbolTable) :
    valueOf? (spec.map place) symbols = (valueOf? spec symbols).map f := by
  match spec with
  | [] => rfl
  | head :: rest =>
    have hw : (place head).value.word? = head.value.word? := by rw [hf.value, hf.word?]
    rw [List.map_cons, valueOf?, valueOf?, hw]
    split
    · match rest with
      | [] => exact (simple_replaced hf _ _).symm
      | [body] =>
        show (if _ then object (place body).value else none) = _
        rw [hf.value, object_replaced hf]
        dsimp only
        split <;> rfl
      | _ :: _ :: _ => rfl
    · rfl

end

/-- What is constructed of moved items is what is constructed of the items, moved. -/
theorem valueOf?_moved (n : Nat) (spec : List Item) (symbols : SymbolTable) :
    valueOf? (spec.map (Item.moved n)) symbols = (valueOf? spec symbols).map (Value.moved n) :=
  valueOf?_replaced (replaces_moved n) spec symbols

end Constructor

end RebolScan
