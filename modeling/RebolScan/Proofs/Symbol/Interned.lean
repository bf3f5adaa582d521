import Mathlib.Data.Finset.Card
import RebolScan.Proofs.Symbol

/-!
# What a table knows after names were interned

`Interns t given u` says that interning the names of `given` one after the other leads from `t` to
`u` and gives them their symbols there. What is known of a table follows from that alone, whoever
interned the names and what for: **a table that comes from the initial one has the laws of
`Lawful`**. A name has one symbol and a symbol one name, for good; what is known is what was
interned, and the empty name; and the names are counted right.

The one step is that of a name which may be new: it makes that name known and no other, and counts it
if it was not known before (`isSome_get?_intern`, `Counts.intern`).
-/

set_option autoImplicit false

namespace RebolScan

/-! ## Packed symbols -/

namespace Symbol

variable {s : Symbol}

theorem raw_lt (h : s.index < 0x10000000) : s.raw < 0x100000000 := by
  have hshard : s.shard.val < 16 := s.shard.isLt
  rw [raw]
  omega

/-- **Packing loses nothing** as long as the number fits into its bits. -/
theorem ofRaw_raw (h : s.index < 0x10000000) : ofRaw s.raw = s := by
  obtain ⟨k, i⟩ := s
  have hshard : k.val < shardCount := k.isLt
  have hdiv : (k.val * 0x10000000 + i) / 0x10000000 = k.val := by
    dsimp only at h
    omega
  have hmod : (k.val * 0x10000000 + i) % 0x10000000 = i := by
    dsimp only at h
    omega
  rw [ofRaw, raw, hdiv, hmod]
  exact congrArg (Symbol.mk · i) (Fin.ext (Nat.mod_eq_of_lt hshard))

end Symbol

/-- A name with the symbol that it was given. -/
structure Naming where
  name : String
  symbol : Symbol

namespace SymbolTable

variable {t u v : SymbolTable} {name other : String} {s : Symbol} {given more : List Naming}
  {names : Finset String}

/-- Interning the names of `given` leads from `t` to `u` and gives them their symbols. -/
inductive Interns : SymbolTable → List Naming → SymbolTable → Prop
  | nil (t : SymbolTable) : Interns t [] t
  | cons {t u : SymbolTable} {given : List Naming} (name : String)
      (h : Interns (t.intern name).2 given u) :
      Interns t (⟨name, (t.intern name).1⟩ :: given) u

theorem Interns.append (htu : Interns t given u) (huv : Interns u more v) :
    Interns t (given ++ more) v := by
  induction htu with
  | nil => exact huv
  | cons name _ ih => exact .cons name (ih huv)

theorem interns_one (t : SymbolTable) (name : String) :
    Interns t [⟨name, (t.intern name).1⟩] (t.intern name).2 := .cons name (.nil _)

theorem Interns.within (h : Interns t given u) : t.Within u := by
  induction h with
  | nil t => exact .refl t
  | cons name _ ih => exact (within_intern _ name).trans ih

/-- **Each name has the symbol that it was given**, however many came after it. -/
theorem Interns.get? (h : Interns t given u) : ∀ n ∈ given, u.get? n.name = some n.symbol := by
  induction h with
  | nil =>
    intro n hn
    cases hn
  | cons name h ih =>
    intro n hn
    rcases List.mem_cons.1 hn with rfl | hn
    · exact h.within _ _ (get?_intern _ name)
    · exact ih n hn

/-! ## What is known -/

/-- Interning makes one name known. -/
theorem isSome_get?_intern :
    ((t.intern name).2.get? other).isSome ↔ other = name ∨ (t.get? other).isSome := by
  constructor
  · intro h
    obtain ⟨s, hs⟩ := Option.isSome_iff_exists.1 h
    cases hname : t.get? name with
    | some _ =>
      rw [intern_of_get? hname] at h
      exact .inr h
    | none =>
      obtain ⟨hnew, hintern⟩ := intern_of_new hname
      rw [hintern, get?_eq_some, names_add] at hs
      obtain ⟨hshard, hs⟩ := hs
      have hold {i : Nat} (hi : (t.shard (shardOf other)).names[i]? = some other) :
          (t.get? other).isSome := by
        have hs : t.get? other = some ⟨shardOf other, i⟩ := get?_eq_some.2 ⟨rfl, hi⟩
        rw [hs]
        rfl
      split at hs
      · rw [Array.getElem?_push] at hs
        split at hs
        · exact .inl (Option.some.inj hs).symm
        · exact .inr (hold hs)
      · exact .inr (hold hs)
  · rintro (rfl | h)
    · rw [get?_intern]
      rfl
    · obtain ⟨s, hs⟩ := Option.isSome_iff_exists.1 h
      rw [within_intern t name other s hs]
      rfl

/-- The table knows these names and counts them. -/
structure Counts (t : SymbolTable) (names : Finset String) : Prop where
  known : ∀ name, (t.get? name).isSome ↔ name ∈ names
  size : t.size = names.card

theorem Counts.intern (h : t.Counts names) (name : String) :
    (t.intern name).2.Counts (insert name names) where
  known other := by rw [isSome_get?_intern, Finset.mem_insert, h.known]
  size := by
    cases hname : t.get? name with
    | some _ =>
      have hmem : name ∈ names := (h.known name).1 (by rw [hname]; rfl)
      rw [intern_of_get? hname, Finset.insert_eq_of_mem hmem]
      exact h.size
    | none =>
      have hmem : name ∉ names := by
        rw [← h.known, hname]
        exact Bool.noConfusion
      obtain ⟨hnew, hintern⟩ := intern_of_new hname
      rw [hintern, Finset.card_insert_of_notMem hmem]
      exact congrArg (· + 1) h.size

theorem Interns.counts (h : Interns t given u) (ht : t.Counts names) :
    u.Counts (names ∪ (given.map Naming.name).toFinset) := by
  induction h generalizing names with
  | nil t =>
    rw [List.map_nil, List.toFinset_nil, Finset.union_empty]
    exact ht
  | cons name _ ih =>
    rw [List.map_cons, List.toFinset_cons, Finset.union_insert, ← Finset.insert_union]
    exact ih (ht.intern name)

/-! ## The initial table -/

theorem get?_empty_initial : initial.get? "" = some .empty := by decide

theorem names_initial : ∀ k, (initial.shard k).names = if k = 0 then #[""] else #[] := by decide

theorem counts_initial : initial.Counts {""} where
  known name := by
    rw [Finset.mem_singleton]
    constructor
    · intro h
      obtain ⟨s, hs⟩ := Option.isSome_iff_exists.1 h
      obtain ⟨-, hs⟩ := get?_eq_some.1 hs
      have hmem := Array.mem_of_getElem? hs
      rw [names_initial] at hmem
      split at hmem
      · exact List.mem_singleton.1 (Array.mem_toList_iff.2 hmem)
      · exact absurd hmem (Array.not_mem_empty name)
    · rintro rfl
      rw [get?_empty_initial]
      rfl
  size := rfl

/-- The empty name has the empty symbol and no other name has. -/
theorem intern_eq_empty (h : initial.Within t) : (t.intern name).1 = .empty ↔ name = "" := by
  constructor
  · intro he
    have hname := get?_intern t name
    rw [he] at hname
    have hempty := (h.trans (within_intern t name)) _ _ get?_empty_initial
    rw [← lookup_of_get? hname, lookup_of_get? hempty]
  · rintro rfl
    rw [intern_of_get? (h _ _ get?_empty_initial)]

/-! ## The laws -/

/-- No shard has more names than can be numbered. -/
def Roomy (t : SymbolTable) : Prop := ∀ k, (t.shard k).names.size ≤ 0x10000000

instance : DecidablePred Roomy := fun t =>
  inferInstanceAs (Decidable (∀ k, (t.shard k).names.size ≤ 0x10000000))

theorem Roomy.index_lt (h : t.Roomy) (hs : t.get? name = some s) : s.index < 0x10000000 := by
  obtain ⟨hi, -⟩ := Array.getElem?_eq_some_iff.1 (get?_eq_some.1 hs).2
  exact Nat.lt_of_lt_of_le hi (h _)

/-- What holds of a table in which the names of `given` have been interned. -/
structure Lawful (t : SymbolTable) (given : List Naming) : Prop where
  /-- a symbol gives back the name that it was given for -/
  lookup : ∀ n ∈ given, t.lookup n.symbol = n.name
  /-- a name that is interned again has the symbol that it had, and nothing changes -/
  again : ∀ n ∈ given, t.intern n.name = (n.symbol, t)
  /-- equal names have equal symbols, and different names different ones -/
  distinct : ∀ m ∈ given, ∀ n ∈ given, m.name = n.name ↔ m.symbol = n.symbol
  /-- the names that are found are those that were interned, and the empty one -/
  known : ∀ name s, t.get? name = some s ↔ ⟨name, s⟩ ∈ given ∨ name = "" ∧ s = .empty
  /-- the empty name has the symbol that stands for none -/
  empty : ∀ name, (t.intern name).1 = .empty ↔ name = ""
  /-- different names are counted once each, and the empty one always -/
  size : t.size = 1 + ((given.map Naming.name).toFinset.erase "").card
  /-- packed into a number, the symbols are still the same -/
  packed : t.Roomy → ∀ n ∈ given, n.symbol.raw < 0x100000000 ∧ .ofRaw n.symbol.raw = n.symbol

/-- **A table that comes from the initial one by interning is lawful.** -/
theorem Interns.lawful (h : Interns initial given t) : t.Lawful given := by
  have hcounts := h.counts counts_initial
  have hempty : t.get? "" = some .empty := h.within _ _ get?_empty_initial
  have hdistinct : ∀ m ∈ given, ∀ n ∈ given, m.name = n.name ↔ m.symbol = n.symbol := by
    intro m hm n hn
    constructor
    · intro he
      have hsame := h.get? m hm
      rw [he, h.get? n hn] at hsame
      exact (Option.some.inj hsame).symm
    · intro he
      rw [← lookup_of_get? (h.get? m hm), he, lookup_of_get? (h.get? n hn)]
  refine ⟨fun n hn => lookup_of_get? (h.get? n hn), fun n hn => intern_of_get? (h.get? n hn),
    hdistinct, ?_, fun name => intern_eq_empty h.within, ?_, ?_⟩
  · intro name s
    constructor
    · intro hs
      have hmem := (hcounts.known name).1 (by rw [hs]; rfl)
      rcases Finset.mem_union.1 hmem with hname | hname
      · cases Finset.mem_singleton.1 hname
        rw [hempty] at hs
        exact .inr ⟨rfl, (Option.some.inj hs).symm⟩
      · obtain ⟨n, hn, rfl⟩ := List.mem_map.1 (List.mem_toFinset.1 hname)
        rw [h.get? n hn] at hs
        cases hs
        exact .inl hn
    · rintro (hn | ⟨rfl, rfl⟩)
      · exact h.get? ⟨name, s⟩ hn
      · exact hempty
  · rw [hcounts.size, Finset.singleton_union,
      ← Finset.card_erase_add_one (Finset.mem_insert_self "" _), Finset.erase_insert_eq_erase,
      Nat.add_comm]
  · intro hroom n hn
    have hi := hroom.index_lt (h.get? n hn)
    exact ⟨Symbol.raw_lt hi, Symbol.ofRaw_raw hi⟩

end SymbolTable

end RebolScan
