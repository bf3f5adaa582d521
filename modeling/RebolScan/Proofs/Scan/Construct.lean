import RebolScan.Proofs.Token.Written
import RebolScan.Proofs.Value.Spellable
import RebolScan.Scan.Construct

/-!
# What constructions make

The body of `#[...]` describes a value by the names and the items in it. The words that the standard
constructor knows stand for their values, and **the items that spell the fields of an object make
these fields again**: a set-word waits for the item behind it, which is a field's value unless it is
a set-word itself.
-/

set_option autoImplicit false

namespace RebolScan

namespace Constructor

/-! ## Words -/

theorem simple_none (s : Symbol) : simple (lowerCase "none") s = some .none := rfl

theorem simple_unset (s : Symbol) : simple (lowerCase "unset") s = some .unset := rfl

theorem simple_logic (b : Bool) (s : Symbol) :
    simple (lowerCase (if b then "true" else "false")) s = some (.logic b) := by
  cases b <;> rfl

/-- The name of a type is a name in small letters, and none of the other words. -/
theorem datatype_name : ∀ type ∈ datatypes, isName (Utf8.encode (type ++ "!")) = true ∧
    lowerCase (type ++ "!") = type ++ "!" ∧ type ++ "!" ≠ "none" ∧ type ++ "!" ≠ "unset" ∧
    type ++ "!" ≠ "true" ∧ type ++ "!" ≠ "false" := by
  decide +kernel

/-- The name of a type constructs the type. -/
theorem simple_datatype {type : String} (h : type ∈ datatypes) (s : Symbol) :
    simple (lowerCase (type ++ "!")) s = some (.datatype s) := by
  obtain ⟨-, hlower, hnone, hunset, htrue, hfalse⟩ := datatype_name type h
  have hany : (datatypes.any fun t => t ++ "!" == type ++ "!") = true :=
    List.any_eq_true.2 ⟨type, h, beq_self_eq_true _⟩
  rw [hlower, simple, if_neg (by simpa using hnone), if_neg (by simpa using hunset),
    if_neg (by simpa using htrue), if_neg (by simpa using hfalse), if_pos hany]

/-! ## Objects -/

/-- **The items that spell fields make these fields again**, wherever they were read. -/
theorem fields_of_items {written : List (Symbol × Item)}
    (hset : ∀ field ∈ written, ∀ name, field.2.value ≠ .word .setWord name) {items : List Item}
    (h : items.map Item.unplaced = (fieldItems written).map Item.unplaced) :
    ∃ read, fields items [] = some read ∧
      (read.map fun (name, item) => (name, item.unplaced)) =
        written.map fun (name, item) => (name, item.unplaced) := by
  induction written generalizing items with
  | nil =>
    cases List.map_eq_nil_iff.1 h
    exact ⟨[], rfl, rfl⟩
  | cons field written ih =>
    obtain ⟨name, value⟩ := field
    rw [fieldItems, List.flatMap_cons, List.map_append] at h
    obtain ⟨word, items, rfl, hword, h⟩ := List.map_eq_cons_iff.1 h
    obtain ⟨item, items, rfl, hitem, h⟩ := List.map_eq_cons_iff.1 h
    have hword : word.value = .word .setWord name :=
      Value.eq_word_of_unplaced (congrArg Placed.value hword)
    have hvalue : item.value.unplaced = value.value.unplaced := congrArg Placed.value hitem
    have hnot : ∀ a, item.value ≠ .word .setWord a := by
      intro a ha
      rw [ha] at hvalue
      exact hset (name, value) List.mem_cons_self a (Value.eq_word_of_unplaced hvalue.symm)
    obtain ⟨read, hread, hsame⟩ := ih (fun field hf => hset field (List.mem_cons_of_mem _ hf)) h
    refine ⟨(name, item) :: read, ?_, ?_⟩
    · rw [fields_setWord hword, fields_value hnot, hread]
      rfl
    · rw [List.map_cons, List.map_cons, hsame]
      exact congrArg (fun i => (name, i) :: _) hitem

end Constructor

end RebolScan
