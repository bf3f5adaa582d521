import RebolScan.Proofs.Value.Moved

/-!
# How deep a value nests

The nesting of a value is the number of blocks, parens and paths on the longest way from it to a
value without parts. An object is none of these and only hands on the nesting of its fields.

A bound on the nesting of a list of values is a bound on each of them (`nestingItems_le`), and which
form of word a path starts with makes no difference to it.
-/

set_option autoImplicit false

namespace RebolScan

mutual

/-- Blocks, parens and paths on the longest way into the value, itself among them. -/
def Value.nesting : Value → Nat
  | .block _ ⟨items, _⟩ => nestingItems items + 1
  | .object fields => nestingFields fields
  | _ => 0

/-- The nesting of the deepest item. -/
def nestingItems : List (Placed Value) → Nat
  | [] => 0
  | ⟨v, _, _⟩ :: items => max v.nesting (nestingItems items)

/-- The nesting of the deepest field. -/
def nestingFields : List (Symbol × Placed Value) → Nat
  | [] => 0
  | (_, ⟨v, _, _⟩) :: fields => max v.nesting (nestingFields fields)

end

@[simp] theorem Value.nesting_block (kind : BlockKind) (body : Block) :
    (Value.block kind body).nesting = nestingItems body.items + 1 := by
  rw [Value.nesting]

@[simp] theorem Value.nesting_object (fields : List (Symbol × Item)) :
    (Value.object fields).nesting = nestingFields fields := by
  rw [Value.nesting]

@[simp] theorem nestingItems_cons (item : Item) (items : List Item) :
    nestingItems (item :: items) = max item.value.nesting (nestingItems items) := by
  rw [nestingItems]

@[simp] theorem nestingFields_cons (name : Symbol) (item : Item) (fields : List (Symbol × Item)) :
    nestingFields ((name, item) :: fields) = max item.value.nesting (nestingFields fields) := by
  rw [nestingFields]

theorem nestingItems_le {items : List Item} {n : Nat} :
    nestingItems items ≤ n ↔ ∀ item ∈ items, item.value.nesting ≤ n := by
  induction items with
  | nil => simp [nestingItems]
  | cons item items ih => rw [nestingItems_cons, Nat.max_le, ih, List.forall_mem_cons]

theorem nestingFields_le {fields : List (Symbol × Item)} {n : Nat} :
    nestingFields fields ≤ n ↔ ∀ field ∈ fields, field.2.value.nesting ≤ n := by
  induction fields with
  | nil => simp [nestingFields]
  | cons field fields ih =>
    obtain ⟨name, item⟩ := field
    rw [nestingFields_cons, Nat.max_le, ih, List.forall_mem_cons]

theorem nesting_le_of_mem {item : Item} {items : List Item} (h : item ∈ items) :
    item.value.nesting ≤ nestingItems items := nestingItems_le.1 (Nat.le_refl _) item h

theorem nestingItems_reverse (items : List Item) :
    nestingItems items.reverse = nestingItems items := by
  apply Nat.le_antisymm
  · exact nestingItems_le.2 fun item h => nesting_le_of_mem (List.mem_reverse.1 h)
  · exact nestingItems_le.2 fun item h => nesting_le_of_mem (List.mem_reverse.2 h)

/-- What stands for itself has nothing in it. -/
theorem Value.nesting_of_isScalar {v : Value} (h : v.isScalar = true) : v.nesting = 0 := by
  cases v with
  | block kind body => cases h
  | object fields => cases h
  | error f => cases h
  | _ => rfl

theorem nesting_plainWord (v : Value) : (Scan.plainWord v).nesting = v.nesting := by
  cases v with
  | word kind s => rfl
  | _ => rfl

/-- Which form of word the first segment of a path is makes no difference. -/
theorem nestingItems_plainWord (items : List Item) :
    nestingItems (Scan.mapFirst Scan.plainWord items) = nestingItems items := by
  cases items with
  | nil => rfl
  | cons item items =>
    show nestingItems ({ item with value := Scan.plainWord item.value } :: items) = _
    rw [nestingItems_cons, nestingItems_cons, nesting_plainWord]

end RebolScan
