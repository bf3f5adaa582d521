import RebolScan.Proofs.Value.Moved

/-!
# What stands in a value

A finder goes over a value and lists what it finds, from left to right: blocks, parens and paths are
gone into, and objects with the names of their fields. Two things are looked for in this way, the
symbols of a value and the faults among its parts.

What is found in items one behind the other is what is found in the first and then in the rest
(`Finder.items_append`). Whatever finder of symbols finds the words (`FindsWords`), the standard
constructor makes nothing in which it finds a symbol that it did not find in the items
(`found_valueOf`).
-/

set_option autoImplicit false

namespace RebolScan

/-- What to look for: what a value without parts has of it, and what the name of a field has. -/
structure Finder (α : Type) where
  leaf : Value → List α
  field : Symbol → List α

namespace Finder

variable {α : Type}

mutual

/-- What is found in a value, from left to right. -/
def value (f : Finder α) : Value → List α
  | .block _ ⟨body, _⟩ => f.items body
  | .object fields => f.fields fields
  | v => f.leaf v

def items (f : Finder α) : List (Placed Value) → List α
  | [] => []
  | ⟨v, _, _⟩ :: rest => f.value v ++ f.items rest

def fields (f : Finder α) : List (Symbol × Placed Value) → List α
  | [] => []
  | (name, ⟨v, _, _⟩) :: rest => f.field name ++ f.value v ++ f.fields rest

end

/-- The faults that were passed over. -/
def faults : Finder Fault where
  leaf
    | .error f => [f]
    | _ => []
  field _ := []

/-- The symbols of words, issues, types and fields. -/
def symbols : Finder Symbol where
  leaf
    | .word _ s | .issue s | .datatype s => [s]
    | _ => []
  field s := [s]

/-- The symbols of words, of whatever form. -/
def words : Finder Symbol where
  leaf
    | .word _ s => [s]
    | _ => []
  field _ := []

section

variable (f : Finder α)

@[simp] theorem value_block (kind : BlockKind) (body : Block) :
    f.value (.block kind body) = f.items body.items := by
  rw [value]

@[simp] theorem value_object (fs : List (Symbol × Item)) :
    f.value (.object fs) = f.fields fs := by
  rw [value]

theorem items_eq_flatMap (is : List Item) : f.items is = is.flatMap fun item => f.value item.value := by
  induction is with
  | nil => rfl
  | cons item is ih => rw [items, ih, List.flatMap_cons]

theorem fields_eq_flatMap (fs : List (Symbol × Item)) :
    f.fields fs = fs.flatMap fun field => f.field field.1 ++ f.value field.2.value := by
  induction fs with
  | nil => rfl
  | cons field fs ih => rw [fields, ih, List.flatMap_cons]

theorem items_append (front back : List Item) :
    f.items (front ++ back) = f.items front ++ f.items back := by
  rw [items_eq_flatMap, items_eq_flatMap, items_eq_flatMap, List.flatMap_append]

@[simp] theorem items_cons (item : Item) (is : List Item) :
    f.items (item :: is) = f.value item.value ++ f.items is := by
  rw [items]

theorem mem_items {a : α} {is : List Item} :
    a ∈ f.items is ↔ ∃ item ∈ is, a ∈ f.value item.value := by
  rw [items_eq_flatMap, List.mem_flatMap]

/-- If it finds the same in all forms of a word, the form of the first segment makes no difference to
what it finds in a path. -/
theorem items_plainWord (h : ∀ kind s, f.leaf (.word kind s) = f.leaf (.word .word s))
    (is : List Item) : f.items (Scan.mapFirst Scan.plainWord is) = f.items is := by
  have hvalue (v : Value) : f.value (Scan.plainWord v) = f.value v := by
    cases v with
    | word kind s => exact (h kind s).symm
    | _ => rfl
  cases is with
  | nil => rfl
  | cons item is =>
    show f.items ({ item with value := Scan.plainWord item.value } :: is) = _
    rw [items_cons, items_cons, hvalue]

end

/-- A value without symbols is no word and no issue. -/
theorem not_isNamed_of_symbols {v : Value} (h : symbols.value v = []) : v.isNamed = false := by
  cases v with
  | word | issue => cases h
  | _ => rfl

/-- A value without parts is no fault. -/
theorem faults_of_isScalar {v : Value} (h : v.isScalar = true) : faults.value v = [] := by
  cases v with
  | block | object | error => cases h
  | _ => rfl

/-- It finds all words, and nothing that is no symbol. -/
structure FindsWords (f : Finder Symbol) : Prop where
  word : ∀ kind s, f.leaf (.word kind s) = [s]
  leaf : ∀ v, ∀ a ∈ f.leaf v, a ∈ symbols.leaf v
  field : ∀ s, ∀ a ∈ f.field s, a = s

theorem findsWords_symbols : symbols.FindsWords where
  word _ _ := rfl
  leaf _ _ ha := ha
  field _ _ := List.mem_singleton.1

theorem findsWords_words : words.FindsWords where
  word _ _ := rfl
  leaf v a ha := by
    cases v with
    | word => exact ha
    | _ => cases ha
  field _ _ ha := absurd ha List.not_mem_nil

mutual

/-- It finds no more than the symbols. -/
theorem FindsWords.value {f : Finder Symbol} (hf : f.FindsWords) :
    ∀ v, ∀ a ∈ f.value v, a ∈ symbols.value v
  | .block _ ⟨body, _⟩ => by
    rw [Finder.value, Finder.value]
    exact hf.items body
  | .object fs => by
    rw [Finder.value, Finder.value]
    exact hf.fields fs
  | .none | .unset | .logic _ | .integer _ | .decimal _ | .percent _ | .money _ | .char _
  | .pair _ _ | .tuple _ | .time _ | .date _ | .string _ | .binary _ | .file _ | .email _ | .url _
  | .tag _ | .issue _ | .word _ _ | .datatype _ | .error _ => hf.leaf _

theorem FindsWords.items {f : Finder Symbol} (hf : f.FindsWords) :
    ∀ is, ∀ a ∈ f.items is, a ∈ symbols.items is
  | [] => fun _ ha => absurd ha List.not_mem_nil
  | ⟨v, _, _⟩ :: rest => by
    intro a ha
    rw [Finder.items, List.mem_append] at ha ⊢
    exact ha.imp (hf.value v a) (hf.items rest a)

theorem FindsWords.fields {f : Finder Symbol} (hf : f.FindsWords) :
    ∀ fs, ∀ a ∈ f.fields fs, a ∈ symbols.fields fs
  | [] => fun _ ha => absurd ha List.not_mem_nil
  | (name, ⟨v, _, _⟩) :: rest => by
    intro a ha
    rw [Finder.fields, List.mem_append, List.mem_append] at ha ⊢
    refine ha.imp (Or.imp ?_ (hf.value v a)) (hf.fields rest a)
    intro hname
    rw [hf.field name a hname]
    exact List.mem_singleton_self name

end

end Finder

/-! ## Constructions -/

namespace Constructor

open Finder

theorem symbols_simple {name : String} {s : Symbol} {v : Value} (h : simple name s = some v) :
    ∀ a ∈ symbols.value v, a = s := by
  have hnone {w : Value} (hw : symbols.value w = []) (he : some w = some v) :
      ∀ a ∈ symbols.value v, a = s := by
    cases he
    intro a ha
    rw [hw] at ha
    cases ha
  unfold simple at h
  split at h
  · exact hnone rfl h
  · split at h
    · exact hnone rfl h
    · split at h
      · exact hnone rfl h
      · split at h
        · exact hnone rfl h
        · split at h
          · cases h
            exact fun a => List.mem_singleton.1
          · cases h

section

variable {f : Finder Symbol} (hf : f.FindsWords)

include hf

/-- What is found in the fields of an object is found in the items that spell them. -/
theorem found_fields {is : List Item} {waiting : List Symbol} {fs : List (Symbol × Item)}
    (h : fields is waiting = some fs) :
    ∀ a ∈ f.fields fs, a ∈ waiting ∨ a ∈ f.items is := by
  induction is generalizing waiting fs with
  | nil =>
    rw [fields] at h
    split at h
    · cases h
      intro a ha
      cases ha
    · cases h
  | cons item is ih =>
    intro a ha
    rw [items_cons, List.mem_append]
    by_cases hset : ∃ name, item.value = .word .setWord name
    · obtain ⟨name, hv⟩ := hset
      rw [fields_setWord hv] at h
      rcases ih h a ha with hw | hi
      · rcases List.mem_append.1 hw with hw | hname
        · exact .inl hw
        · refine .inr (.inl ?_)
          rw [hv]
          show a ∈ f.leaf (.word .setWord name)
          rwa [hf.word]
      · exact .inr (.inr hi)
    · rw [fields_value fun name hv => hset ⟨name, hv⟩] at h
      split at h
      · cases h
      · obtain ⟨rest, hrest, rfl⟩ := Option.map_eq_some_iff.1 h
        rw [fields_eq_flatMap, List.flatMap_append, List.mem_append] at ha
        rcases ha with ha | ha
        · obtain ⟨field, hfield, ha⟩ := List.mem_flatMap.1 ha
          obtain ⟨name, hname, rfl⟩ := List.mem_map.1 hfield
          rcases List.mem_append.1 ha with ha | ha
          · rw [hf.field name a ha]
            exact .inl hname
          · exact .inr (.inl ha)
        · rw [← fields_eq_flatMap] at ha
          rcases ih hrest a ha with hw | hi
          · cases hw
          · exact .inr (.inr hi)

/-- **A construction has no symbol that its items do not have.** -/
theorem found_valueOf {spec : List Item} {t : SymbolTable} {v : Value}
    (h : valueOf? spec t = some v) : ∀ a ∈ f.value v, a ∈ f.items spec := by
  intro a ha
  unfold valueOf? at h
  split at h
  · cases h
  · rename_i head rest
    split at h
    · rename_i s hword
      rw [items_cons]
      dsimp only at h
      split at h
      · rw [symbols_simple h a (hf.value v a ha), Value.word?_eq_some hword]
        refine List.mem_append_left _ ?_
        show s ∈ f.leaf (.word .word s)
        rw [hf.word]
        exact List.mem_singleton_self s
      · rename_i body
        split at h
        · unfold object at h
          split at h
          · rename_i block hblock
            obtain ⟨fs, hfs, rfl⟩ := Option.map_eq_some_iff.1 h
            rw [value_object] at ha
            rcases found_fields hf hfs a ha with hw | hi
            · cases hw
            · rw [items_cons, Value.block?_eq_some hblock, value_block]
              exact List.mem_append_right _ (List.mem_append_left _ hi)
          · cases h
        · cases h
      · cases h
    · cases h

end

end Constructor

end RebolScan
