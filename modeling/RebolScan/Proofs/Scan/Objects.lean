import RebolScan.Proofs.Symbol
import RebolScan.Proofs.Value.Moved
import RebolScan.Scan.Construct

/-!
# The fields of objects

The body of `#[object! [...]]` reads as groups: set-words, one or more, and the item behind them,
which is the value of them all (`FieldGroup`). The constructor goes through the items once and keeps
the set-words that wait for a value; what waits is always the start of a group, which is all that the
induction over the items needs to know (`groups_of_fields`). **A body makes an object exactly when it
is a row of groups, and the object then has one field for each set-word, with the value of its group**
(`object_iff_groups`).
-/

set_option autoImplicit false

namespace RebolScan

/-- The name of a set-word. -/
def Value.setWord? : Value → Option Symbol
  | .word .setWord name => some name
  | _ => Option.none

/-- The name of the field that an item is a set-word for. -/
def Item.fieldName? (item : Item) : Option Symbol := item.value.setWord?

/-- One or more set-words and the item behind them, which is no set-word. -/
structure FieldGroup where
  heads : List Item
  value : Item
  nonempty : heads ≠ []
  named : ∀ head ∈ heads, head.fieldName?.isSome = true
  closed : value.fieldName? = none

namespace FieldGroup

/-- The items of the group in their order. -/
def items (g : FieldGroup) : List Item := g.heads ++ [g.value]

/-- A field for each set-word, each with the value. -/
def fields (g : FieldGroup) : List (Symbol × Item) :=
  (g.heads.filterMap Item.fieldName?).map (·, g.value)

end FieldGroup

/-! ## Groups -/

theorem Item.value_of_fieldName? {item : Item} {name : Symbol} (h : item.fieldName? = some name) :
    item.value = .word .setWord name := by
  unfold fieldName? Value.setWord? at h
  split at h
  · cases h
    assumption
  · cases h

theorem Item.value_ne_of_fieldName? {item : Item} (h : item.fieldName? = none) (name : Symbol) :
    item.value ≠ .word .setWord name := by
  intro hvalue
  rw [fieldName?, hvalue] at h
  cases h

/-- Set-words have names, so that there are none if there is no name. -/
theorem eq_nil_of_names {heads : List Item} (hheads : ∀ head ∈ heads, head.fieldName?.isSome = true)
    (h : heads.filterMap Item.fieldName? = []) : heads = [] := by
  refine List.eq_nil_iff_forall_not_mem.2 fun head hmem => ?_
  have hnamed := hheads head hmem
  rw [List.filterMap_eq_nil_iff.1 h head hmem] at hnamed
  cases hnamed

/-- Every group has a field for each of its set-words, in their order. -/
theorem map_fields (groups : List FieldGroup) :
    (groups.flatMap FieldGroup.fields).map Prod.fst =
      (groups.flatMap FieldGroup.items).filterMap Item.fieldName? := by
  induction groups with
  | nil => rfl
  | cons g groups ih =>
    rw [List.flatMap_cons, List.flatMap_cons, List.map_append, List.filterMap_append, ih,
      FieldGroup.fields, FieldGroup.items, List.filterMap_append, List.map_map,
      List.filterMap_cons_none g.closed, List.filterMap_nil, List.append_nil]
    congr 1
    exact List.map_id _

/-- The value of a group is the value of a field. -/
theorem FieldGroup.exists_field (g : FieldGroup) : ∃ name, (name, g.value) ∈ g.fields := by
  obtain ⟨head, heads, hheads⟩ := List.exists_cons_of_ne_nil g.nonempty
  have hmem : head ∈ g.heads := hheads ▸ List.mem_cons_self
  obtain ⟨name, hname⟩ := Option.isSome_iff_exists.1 (g.named head hmem)
  exact ⟨name, List.mem_map_of_mem (List.mem_filterMap.2 ⟨head, hmem, hname⟩)⟩

/-- No item is lost: what is no set-word is the value of a field. -/
theorem exists_field_of_groups {groups : List FieldGroup} {item : Item}
    (hitem : item ∈ groups.flatMap FieldGroup.items) (hvalue : item.fieldName? = none) :
    ∃ name, (name, item) ∈ groups.flatMap FieldGroup.fields := by
  obtain ⟨g, hg, hitem⟩ := List.mem_flatMap.1 hitem
  rcases List.mem_append.1 hitem with hhead | hlast
  · have hnamed := g.named item hhead
    rw [hvalue] at hnamed
    cases hnamed
  · obtain rfl := List.mem_singleton.1 hlast
    obtain ⟨name, hname⟩ := g.exists_field
    exact ⟨name, List.mem_flatMap.2 ⟨g, hg, hname⟩⟩

namespace Constructor

/-! ## The loop -/

/-- Set-words wait in the order in which they come. -/
theorem fields_heads {heads : List Item} (hheads : ∀ head ∈ heads, head.fieldName?.isSome = true)
    (rest : List Item) (waiting : List Symbol) :
    fields (heads ++ rest) waiting = fields rest (waiting ++ heads.filterMap Item.fieldName?) := by
  induction heads generalizing waiting with
  | nil => rw [List.nil_append, List.filterMap_nil, List.append_nil]
  | cons head heads ih =>
    obtain ⟨name, hname⟩ := Option.isSome_iff_exists.1 (hheads head List.mem_cons_self)
    rw [List.cons_append, fields_setWord (Item.value_of_fieldName? hname),
      ih fun head hh => hheads head (List.mem_cons_of_mem _ hh), List.filterMap_cons_some hname,
      List.append_assoc, List.singleton_append]

/-- A group makes its fields, and nothing waits behind it. -/
theorem fields_group (g : FieldGroup) (rest : List Item) :
    fields (g.items ++ rest) [] = (fields rest []).map (g.fields ++ ·) := by
  have hwaits : (g.heads.filterMap Item.fieldName?).isEmpty = false :=
    List.isEmpty_eq_false_iff.2 fun h => g.nonempty (eq_nil_of_names g.named h)
  rw [FieldGroup.items, List.append_assoc, fields_heads g.named, List.nil_append,
    List.singleton_append, fields_value (Item.value_ne_of_fieldName? g.closed), hwaits]
  rfl

theorem fields_groups (groups : List FieldGroup) :
    fields (groups.flatMap FieldGroup.items) [] = some (groups.flatMap FieldGroup.fields) := by
  induction groups with
  | nil => rfl
  | cons g groups ih => rw [List.flatMap_cons, fields_group, ih]; rfl

/-- Items that make fields are a row of groups, the first of which starts with what waits. -/
theorem groups_of_fields (waiting : List Item) {items : List Item} {fs : List (Symbol × Item)}
    (hwaiting : ∀ head ∈ waiting, head.fieldName?.isSome = true)
    (h : fields items (waiting.filterMap Item.fieldName?) = some fs) :
    ∃ groups : List FieldGroup, waiting ++ items = groups.flatMap FieldGroup.items ∧
      fs = groups.flatMap FieldGroup.fields := by
  induction items generalizing waiting fs with
  | nil =>
    rw [fields] at h
    split at h
    case isTrue hnone =>
      obtain rfl := eq_nil_of_names hwaiting (List.isEmpty_iff.1 hnone)
      exact ⟨[], rfl, (Option.some.inj h).symm⟩
    case isFalse => cases h
  | cons item items ih =>
    cases hitem : item.fieldName? with
    | some name =>
      rw [fields_setWord (Item.value_of_fieldName? hitem)] at h
      have hnames : (waiting ++ [item]).filterMap Item.fieldName? =
          waiting.filterMap Item.fieldName? ++ [name] := by
        rw [List.filterMap_append, List.filterMap_cons_some hitem, List.filterMap_nil]
      have hmore : ∀ head ∈ waiting ++ [item], head.fieldName?.isSome = true :=
        List.forall_mem_append.2 ⟨hwaiting, List.forall_mem_singleton.2 (by rw [hitem]; rfl)⟩
      obtain ⟨groups, hgroups, hfs⟩ := ih _ hmore (hnames ▸ h)
      exact ⟨groups, by rw [← hgroups, List.append_assoc, List.singleton_append], hfs⟩
    | none =>
      rw [fields_value (Item.value_ne_of_fieldName? hitem)] at h
      split at h
      case isTrue => cases h
      case isFalse hwaits =>
        obtain ⟨rest, hrest, rfl⟩ := Option.map_eq_some_iff.1 h
        obtain ⟨groups, hgroups, rfl⟩ := ih [] (fun _ h => absurd h List.not_mem_nil) hrest
        have hsome : waiting ≠ [] := fun hnone => hwaits (by rw [hnone]; rfl)
        refine ⟨⟨waiting, item, hsome, hwaiting, hitem⟩ :: groups, ?_, rfl⟩
        rw [List.flatMap_cons, ← hgroups, FieldGroup.items, List.append_assoc]
        rfl

/-! ## Objects -/

/-- The word in front of the body says that it is an object's. -/
theorem standard_object {symbols : SymbolTable} {head : Item} {s : Symbol} (body : Item)
    (hhead : head.value = .word .word s) (hname : lowerCase (symbols.lookup s) = "object!") :
    standard [head, body] symbols = object body.value := by
  show valueOf? [head, body] symbols = _
  simp only [valueOf?, hhead, Value.word?, hname, beq_self_eq_true, if_true]

theorem object_eq_some {body v : Value} :
    object body = some v ↔ ∃ block : Block, ∃ groups : List FieldGroup, body = .block .block block ∧
      block.items = groups.flatMap FieldGroup.items ∧ v = .object (groups.flatMap FieldGroup.fields) := by
  constructor
  · intro h
    unfold object at h
    split at h
    case h_1 block hblock =>
      obtain ⟨fs, hfs, rfl⟩ := Option.map_eq_some_iff.1 h
      obtain ⟨groups, hgroups, rfl⟩ :=
        groups_of_fields [] (fun _ h => absurd h List.not_mem_nil) hfs
      exact ⟨block, groups, Value.block?_eq_some hblock, hgroups, rfl⟩
    case h_2 => cases h
  · rintro ⟨block, groups, rfl, hgroups, rfl⟩
    show (fields block.items []).map Value.object = _
    rw [hgroups, fields_groups]
    rfl

/-- **An object has the fields that its body writes, no more and no fewer.** After the word that asks
for an object, in any case, a body makes one exactly when it is a block whose items are a row of
groups. The fields are those of the groups: there is one for each set-word in the order of these, with
the item that ends the group as it was read, and each item that is no set-word is the value of one. -/
theorem object_iff_groups {symbols : SymbolTable} {head body : Item} {s : Symbol}
    (hhead : head.value = .word .word s) (hname : lowerCase (symbols.lookup s) = "object!") :
    (∀ v, standard [head, body] symbols = some v ↔
      ∃ block : Block, ∃ groups : List FieldGroup, body.value = .block .block block ∧
        block.items = groups.flatMap FieldGroup.items ∧
        v = .object (groups.flatMap FieldGroup.fields)) ∧
    (standard [head, body] symbols = none ↔
      ∀ (block : Block) (groups : List FieldGroup), body.value = .block .block block →
        block.items ≠ groups.flatMap FieldGroup.items) ∧
    ∀ (block : Block) (fs : List (Symbol × Item)), body.value = .block .block block →
      standard [head, body] symbols = some (.object fs) →
      fs.map Prod.fst = block.items.filterMap Item.fieldName? ∧
      fs.length = block.items.countP (fun item : Item => item.fieldName?.isSome) ∧
      ∀ item ∈ block.items, Item.fieldName? item = none → ∃ name, (name, item) ∈ fs := by
  rw [standard_object body hhead hname]
  refine ⟨fun v => object_eq_some, ?_, ?_⟩
  · rw [Option.eq_none_iff_forall_ne_some]
    constructor
    · intro hnone block groups hbody hgroups
      exact hnone _ (object_eq_some.2 ⟨block, groups, hbody, hgroups, rfl⟩)
    · intro hnone v hv
      obtain ⟨block, groups, hbody, hgroups, -⟩ := object_eq_some.1 hv
      exact hnone block groups hbody hgroups
  · intro block fs hbody hobject
    obtain ⟨block', groups, hbody', hgroups, hfields⟩ := object_eq_some.1 hobject
    obtain rfl := (Value.block.inj (hbody.symm.trans hbody')).2
    obtain rfl := Value.object.inj hfields
    have hnames := map_fields groups
    rw [← hgroups] at hnames
    refine ⟨hnames, ?_, fun item hitem hvalue => exists_field_of_groups (hgroups ▸ hitem) hvalue⟩
    rw [← List.length_filterMap_eq_countP, ← hnames, List.length_map]

/-- `#[Object! [a: b: 1]]`, with one value for two fields. -/
theorem object_iff_groups_shared :
    let interned := SymbolTable.initial.intern "Object!"
    let item (v : Value) : Item := ⟨v, false, ⟨0, 0⟩⟩
    let a : Symbol := ⟨1, 0⟩
    let b : Symbol := ⟨2, 0⟩
    let body := [item (.word .setWord a), item (.word .setWord b), item (.integer 1)]
    lowerCase (interned.2.lookup interned.1) = "object!" ∧
      standard [item (.word .word interned.1), item (.block .block ⟨body, false⟩)] interned.2 =
        some (.object [(a, item (.integer 1)), (b, item (.integer 1))]) := by
  intro interned item a b body
  have hname : lowerCase (interned.2.lookup interned.1) = "object!" := by
    rw [SymbolTable.lookup_of_get? (SymbolTable.get?_intern _ _)]
    decide
  let group : FieldGroup := ⟨[item (.word .setWord a), item (.word .setWord b)], item (.integer 1),
    List.cons_ne_nil _ _, by simp [Item.fieldName?, Value.setWord?, item], rfl⟩
  exact ⟨hname, ((object_iff_groups rfl hname).1 _).2 ⟨⟨body, false⟩, [group], rfl, rfl, rfl⟩⟩

end Constructor

end RebolScan
