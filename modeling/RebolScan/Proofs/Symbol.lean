import RebolScan.Symbol

/-!
# Interning

A table gives a symbol for each name that it knows, and the name back for the symbol. Interning
takes nothing away: **what a table knows, every later table knows** (`Within`), under the same
symbols. So a symbol that was found once can be looked up at any time.
-/

set_option autoImplicit false

namespace RebolScan.SymbolTable

variable {t u : SymbolTable} {name : String} {s : Symbol}

/-- Everything that `t` knows `u` knows, under the same symbols. -/
def Within (t u : SymbolTable) : Prop := ∀ name s, t.get? name = some s → u.get? name = some s

theorem Within.refl (t : SymbolTable) : t.Within t := fun _ _ h => h

theorem Within.trans {v : SymbolTable} (htu : t.Within u) (huv : u.Within v) : t.Within v :=
  fun name s h => huv name s (htu name s h)

/-- The symbol of a name is the place where its shard keeps it. -/
theorem get?_eq_some : t.get? name = some s ↔
    s.shard = shardOf name ∧ (t.shard (shardOf name)).names[s.index]? = some name := by
  simp only [get?, Option.map_eq_some_iff, (t.shard (shardOf name)).linked name]
  constructor
  · rintro ⟨i, h, rfl⟩
    exact ⟨rfl, h⟩
  · rintro ⟨hs, h⟩
    refine ⟨s.index, h, ?_⟩
    rw [← hs]

/-- **The name of a name's symbol is the name.** -/
theorem lookup_of_get? (h : t.get? name = some s) : t.lookup s = name := by
  obtain ⟨k, i⟩ := s
  obtain ⟨rfl, h⟩ := get?_eq_some.1 h
  show (t.shard (shardOf name)).names.getD i "" = name
  rw [Array.getD_eq_getD_getElem?, h, Option.getD_some]

/-! ## A new name -/

theorem intern_of_get? (h : t.get? name = some s) : t.intern name = (s, t) := by
  obtain ⟨i, hi, rfl⟩ := Option.map_eq_some_iff.1 h
  unfold intern
  dsimp only
  split
  · rename_i j hj
    rw [hi] at hj
    cases hj
    rfl
  · rename_i hj
    rw [hi] at hj
    cases hj

/-- A name that is new is added behind the others of its shard. -/
theorem intern_of_new (h : t.get? name = none) :
    ∃ hnew, t.intern name =
      (⟨shardOf name, (t.shard (shardOf name)).names.size⟩, t.add name hnew) := by
  have hnew : (t.shard (shardOf name)).places.lookup name = none := Option.map_eq_none_iff.1 h
  refine ⟨hnew, ?_⟩
  unfold intern
  dsimp only
  split
  · rename_i i hi
    rw [hnew] at hi
    cases hi
  · rfl

/-- The names of the shards after a new name: its own shard has it at the end. -/
theorem names_add {hnew : (t.shard (shardOf name)).places.lookup name = none} (k : Fin shardCount) :
    ((t.add name hnew).shard k).names =
      if k = shardOf name then (t.shard k).names.push name else (t.shard k).names := by
  by_cases hk : k = shardOf name
  · subst hk
    simp [add, shard, Shard.push]
  · have hne : (shardOf name).val ≠ k.val := fun he => hk (Fin.ext he.symm)
    simp [add, shard, hk, Vector.getElem_set_ne _ _ hne]

/-- **A name that has been interned is known**, under the symbol that it was given. -/
theorem get?_intern (t : SymbolTable) (name : String) :
    (t.intern name).2.get? name = some (t.intern name).1 := by
  cases h : t.get? name with
  | some s => rw [intern_of_get? h, h]
  | none =>
    obtain ⟨hnew, hintern⟩ := intern_of_new h
    rw [hintern, get?_eq_some, names_add, if_pos rfl]
    exact ⟨rfl, Array.getElem?_push_size⟩

/-- **Interning takes nothing away.** -/
theorem within_intern (t : SymbolTable) (name : String) : t.Within (t.intern name).2 := by
  intro other s hs
  cases h : t.get? name with
  | some _ => rwa [intern_of_get? h]
  | none =>
    obtain ⟨hnew, hintern⟩ := intern_of_new h
    obtain ⟨hshard, hi⟩ := get?_eq_some.1 hs
    obtain ⟨hlt, -⟩ := Array.getElem?_eq_some_iff.1 hi
    rw [hintern]
    refine get?_eq_some.2 ⟨hshard, ?_⟩
    rw [names_add]
    split
    · rw [Array.getElem?_push, if_neg (Nat.ne_of_lt hlt)]
      exact hi
    · exact hi

/-- The symbol is one of the table's: its name has it for a symbol. -/
def Knows (t : SymbolTable) (s : Symbol) : Prop := t.get? (t.lookup s) = some s

/-- A symbol that comes from interning is known. -/
theorem knows_intern (t : SymbolTable) (name : String) :
    (t.intern name).2.Knows (t.intern name).1 := by
  have hname := t.get?_intern name
  rw [Knows, lookup_of_get? hname, hname]

/-- A name keeps its symbol in every later table. -/
theorem Knows.eq_of_get? {s' : Symbol} (h : t.Knows s) (htu : t.Within u)
    (hs : u.get? (t.lookup s) = some s') : s' = s := by
  rw [htu _ _ h] at hs
  exact (Option.some.inj hs).symm

end RebolScan.SymbolTable
