import RebolScan.Proofs.Scan.Construct
import RebolScan.Proofs.Scan.ReadPath

/-!
# Rendering and scanning

**The scanner takes back what the renderer writes** (`scanSource_render`): a text that was made of
values, with spaces between them, has these values, whatever form each of them takes and however
they nest. The induction is over `Spellable`, whose constructors are the forms that text can take.
Blocks, parens and paths are read back if their items are; so it is left to see what constructions
make, whose bodies are levels that start with a word.
-/

set_option autoImplicit false

namespace RebolScan

open Ascii

namespace Scan

open Session

section

variable {t : SymbolTable} {d fuel room start : Nat} {level : Level} {s u : Session} {rest : Bytes}

/-! ## Constructions -/

/-- A name between brackets is a word, and its symbol is known from then on. -/
theorem name_turn (opened : Site) (c : Collected) (nested : Nested) {name : String}
    (hn : isName (Utf8.encode name) = true) (hrest : Terminates rest)
    (hs : s.cursor.rest = Utf8.encode name ++ rest) :
    ∃ symbol span u, turn standardSetup nested (.inside .block) opened c s =
        .ok (c.push (.word .word symbol) span, true) u ∧
      s.Left u rest ∧ u.symbols.get? name = some symbol := by
  have hlevel : Level.inside .block ≠ .path := Level.noConfusion
  have hlooked : s.looked.cursor.rest = Utf8.encode name ++ rest := by
    rw [(looked_of_not_space (not_space_of_startsValue _ ?_)).2, hs]
    rw [hs]
    exact startsValue_name hn rest
  obtain ⟨symbol, u, hu, hleft, hsymbol⟩ :=
    perform_word nested s.looked.cursor.start .word name hlooked
  have hreading : s.reading (.inside .block) = ⟨.word .word name, (Utf8.encode name).length⟩ := by
    rw [Session.reading, hlooked]
    exact Element.of_word hn hrest
  rw [← hreading] at hu
  obtain ⟨span, hturn⟩ := turn_value opened c hlevel hu
  exact ⟨symbol, span, u, hturn, hleft.of_looked, hsymbol⟩

/-- The body of a construction is a word, and perhaps items behind it. -/
theorem construction_level {name : String} {items : List Item} {behind : Bytes}
    (h : ∀ item ∈ items, Readable t d item.value) (hn : isName (Utf8.encode name) = true)
    (hready : Ready t d fuel room s) (hs : s.cursor.rest = Utf8.encode name ++ behind)
    (hbehind : Terminates behind)
    (hnext : behind.dropWhile isSpace =
      spellItems t space items ++ Bracket.block.closeByte :: rest) :
    ∃ symbol span read tailLine u, Scan.level standardSetup fuel room (.inside .block) s =
        .ok ⟨⟨.word .word symbol, false, span⟩ :: read, tailLine⟩ u ∧
      read.map Item.unplaced = items.map Item.unplaced ∧ u.symbols.get? name = some symbol ∧
      s.Left u rest := by
  obtain ⟨symbol, span, u, hturn, hleft, hsymbol⟩ := name_turn ⟨s.cursor.line, s.cursor.lineStart⟩
    .empty (inside standardSetup fuel room) hn hbehind hs
  obtain ⟨out, u', ⟨read, hitems, hsame⟩, hleft', hrun⟩ := items_close h
    ⟨s.cursor.line, s.cursor.lineStart⟩ (Collected.empty.push (.word .word symbol) span)
    (hready.past hs hleft) (by rw [looked_rest, hleft.rest, hnext])
  have hshorter : s.Shorter u := by
    show u.cursor.rest.length < s.cursor.rest.length
    rw [hleft.rest, hs, List.length_append]
    have hpos := Element.length_pos_of_isName hn
    omega
  refine ⟨symbol, span, read, out.newLine, u', ?_, hsame, hleft'.symbols _ _ hsymbol,
    hleft.trans hleft'⟩
  rw [level_of_finishes (.step hturn hshorter hrun) hready.fuel]
  exact congrArg (fun items => EStateM.Result.ok (Series.mk items out.newLine) u') hitems

/-- **A construction without an argument is read back** if its word stands for the value. -/
theorem readsBack_construction {v : Value} {name : String}
    (htext : v.spell t = constructionText name) (hn : isName (Utf8.encode name) = true)
    (hv : ∀ {symbols : SymbolTable} {symbol : Symbol}, t.Within symbols →
      symbols.get? name = some symbol →
      Constructor.simple (Constructor.lowerCase name) symbol = some v) :
    ReadsBack t (d + 1) v := by
  intro level start fuel room s rest hready _ _ hs
  obtain ⟨room, rfl, hinner⟩ := hready.inside
  have hs : s.cursor.rest =
      pound :: bracketOpen :: (Utf8.encode name ++ Bracket.block.closeByte :: rest) := by
    rw [hs, htext, constructionText]
    simp only [List.cons_append, List.append_assoc]
    rfl
  have hpast : s.Left { s with cursor := s.cursor.advance 2 }
      (Utf8.encode name ++ Bracket.block.closeByte :: rest) :=
    left_advance (w := [pound, bracketOpen]) hs (.refl _)
  have hnone : ∀ item ∈ ([] : List Item), Readable t d item.value :=
    fun _ hi => absurd hi List.not_mem_nil
  obtain ⟨symbol, span, read, tailLine, u, hbody, hsame, hsymbol, hleft⟩ := construction_level hnone
    hn (hinner.past (w := [pound, bracketOpen]) hs hpast) hpast.rest
    (Bracket.block.terminates_close rest)
    (dropWhile_of_not_space (Bracket.block.not_space_close rest))
  cases List.map_eq_nil_iff.1 hsame
  refine ⟨v, u, ?_, rfl, hpast.trans hleft⟩
  rw [hs, Element.of_construct]
  refine perform_construct hbody ?_
  show Constructor.simple (Constructor.lowerCase (u.symbols.lookup symbol)) symbol = _
  rw [SymbolTable.lookup_of_get? hsymbol]
  exact hv (hinner.symbols.trans (hpast.trans hleft).symbols) hsymbol

/-- The block in the construction of an object. -/
def fieldsBlock (fields : List (Symbol × Item)) : Item :=
  ⟨.block .block ⟨fieldItems fields, false⟩, false, ⟨0, 0⟩⟩

/-- **An object is read back** if the values of its fields are. -/
theorem readsBack_object {fields : List (Symbol × Item)}
    (hnames : ∀ field ∈ fields, t.Names field.1)
    (hset : ∀ field ∈ fields, ∀ a, field.2.value ≠ .word .setWord a)
    (h : ∀ field ∈ fields, Readable t d field.2.value) : ReadsBack t (d + 2) (.object fields) := by
  intro level start fuel room s rest hready _ _ hs
  obtain ⟨room, rfl, hinner⟩ := hready.inside
  -- The fields are the items of a block, and the block is the one item behind the word.
  have hitems : ∀ item ∈ fieldItems fields, Readable t d item.value := by
    intro item hi
    obtain ⟨field, hf, hi⟩ := List.mem_flatMap.1 hi
    rcases List.mem_cons.1 hi with rfl | hi
    · exact readable_word .setWord (hnames field hf)
    · cases List.mem_singleton.1 hi
      exact h field hf
  have hblock : ∀ item ∈ [fieldsBlock fields], Readable t (d + 1) item.value := by
    intro item hi
    cases List.mem_singleton.1 hi
    exact readable_sequence .block hitems
  have hs : s.cursor.rest = pound :: bracketOpen :: (Utf8.encode "object!" ++
      space :: (spellItems t space [fieldsBlock fields] ++ Bracket.block.closeByte :: rest)) := by
    rw [hs, spell_object]
    simp only [List.cons_append, List.append_assoc]
    rfl
  have hpast : s.Left { s with cursor := s.cursor.advance 2 } _ :=
    left_advance (w := [pound, bracketOpen]) hs (.refl _)
  have hname : isName (Utf8.encode "object!") = true := by decide
  have hnext := dropWhile_of_not_space
    (spellItems_not_space hblock (Bracket.block.not_space_close rest))
  obtain ⟨symbol, span, read, tailLine, u, hbody, hsame, hsymbol, hleft⟩ := construction_level hblock
    hname (hinner.past (w := [pound, bracketOpen]) hs hpast) hpast.rest (terminates_space _) hnext
  obtain ⟨item, more, rfl, hitem, hmore⟩ := List.map_eq_cons_iff.1 hsame
  cases List.map_eq_nil_iff.1 hmore
  have hvalue : item.value.unplaced = (fieldsBlock fields).value.unplaced :=
    congrArg Placed.value hitem
  obtain ⟨block, hitem, hitems⟩ := Value.eq_block_of_unplaced
    (hvalue.trans (Value.unplaced_block .block ⟨fieldItems fields, false⟩))
  obtain ⟨made, hmade, hfields⟩ := Constructor.fields_of_items hset hitems
  refine ⟨.object made, u, ?_, ?_, hpast.trans hleft⟩
  · rw [hs, Element.of_construct]
    refine perform_construct hbody ?_
    show (if Constructor.lowerCase (u.symbols.lookup symbol) == "object!" then
      Constructor.object item.value else none) = _
    rw [SymbolTable.lookup_of_get? hsymbol, if_pos (by decide), Constructor.object, hitem]
    exact congrArg (Option.map Value.object) hmade
  · rw [Value.unplaced_object, Value.unplaced_object, hfields]

/-! ## Every value -/

/-- **Whatever can be written as source text is read back from it.** -/
theorem readable_of_spellable {v : Value} (h : v.Spellable t d) : Readable t d v := by
  induction h with
  | none =>
    refine ⟨.none, readsBack_construction spell_none (by decide) ?_⟩
    exact fun _ _ => Constructor.simple_none _
  | unset =>
    refine ⟨.unset, readsBack_construction spell_unset (by decide) ?_⟩
    exact fun _ _ => Constructor.simple_unset _
  | logic b =>
    refine ⟨.logic b, readsBack_construction (spell_logic b) ?_ ?_⟩
    · cases b <;> decide
    · exact fun _ _ => Constructor.simple_logic b _
  | datatype hs hname h =>
    have hn := (Constructor.datatype_name _ hname).1
    rw [← h] at hn
    -- The symbol of a type is the word's own, so the table has to know it.
    refine ⟨.datatype hs hname h, readsBack_construction (spell_datatype _) hn ?_⟩
    intro symbols symbol hsymbols hsymbol
    rw [hs.eq_of_get? hsymbols hsymbol, h]
    exact Constructor.simple_datatype hname _
  | integer h => exact ⟨.integer h, readsBack_integer h⟩
  | tuple h₁ h₂ h => exact ⟨.tuple h₁ h₂ h, readsBack_tuple h₁ h₂ h⟩
  | time h hmin => exact ⟨.time h hmin, readsBack_time h hmin⟩
  | binary bytes => exact ⟨.binary bytes, readsBack_binary bytes⟩
  | issue hs h => exact ⟨.issue hs h, readsBack_issue hs h⟩
  | word kind hs => exact readable_word kind hs
  | sequence b _ ih => exact readable_sequence b ih
  | object hnames hset h ih => exact ⟨.object hnames hset h, readsBack_object hnames hset ih⟩
  | path hk hfirst hs hmore hsegment _ tailLine ih =>
    exact readable_path hk hs hfirst hmore ih hsegment tailLine
  | slotPath hk hslot hfirst hs hmore hsegment _ tailLine ih =>
    exact readable_slotPath hk hs hslot hfirst hmore ih hsegment tailLine

end

end Scan

/-! ## Whole texts -/

section

variable {t u : SymbolTable}

/-- The scan of a text that was written starts with the first value. -/
theorem start_rest {items : List Item} {d : Nat} (h : ∀ item ∈ items, item.value.Spellable t d) :
    (Session.start (spellItems t space items) u).cursor.rest = spellItems t space items := by
  have hmark : byteOrderMarkLength (spellItems t space items) = 0 := by
    cases items with
    | nil => rfl
    | cons item items =>
      obtain ⟨more, hmore⟩ := spellItems_append t space item items []
      rw [List.append_nil] at hmore
      rw [hmore]
      refine byteOrderMarkLength_of_ne fun hb => ?_
      have hstarts := (h item List.mem_cons_self).starts more
      rw [hb] at hstarts
      cases hstarts
  show (spellItems t space items).drop (byteOrderMarkLength (spellItems t space items)) = _
  rw [hmark, List.drop_zero]

/-- **The items of a text are read back from it.** -/
theorem scan_spellItems (htu : t.Within u) {items : List Item}
    (h : ∀ item ∈ items, item.value.Spellable t Options.defaultDepth) :
    ∃ block s, Setup.scan Scan.standardSetup (spellItems t space items)
        (Session.start (spellItems t space items) u) = .ok block s ∧ u.Within s.symbols ∧
      block.items.map Item.unplaced = items.map Item.unplaced := by
  have hstart := start_rest (u := u) h
  have hread : ∀ item ∈ items, Scan.Readable t Options.defaultDepth item.value :=
    fun item hi => Scan.readable_of_spellable (h item hi)
  have hready : Scan.Ready t Options.defaultDepth ((spellItems t space items).length + 1)
      Options.defaultDepth (Session.start (spellItems t space items) u) :=
    ⟨Nat.le_refl _, by rw [hstart]; exact Nat.lt_succ_self _, htu⟩
  have hlevel : Level.top ≠ .path := Level.noConfusion
  have hend : Terminates [] := ⟨rfl, by decide⟩
  have hspace : isSpace (byteAt [] 0) = false := by decide
  have hlooked : (Session.start (spellItems t space items) u).looked.cursor.rest =
      spellItems t space items ++ [] := by
    have hfirst := Session.dropWhile_of_not_space (Scan.spellItems_not_space hread hspace)
    rw [List.append_nil] at hfirst ⊢
    rw [Session.looked_rest, hstart, hfirst]
  obtain ⟨c, s, ⟨read, hitems, hread⟩, -, hs, hsymbols, hrun⟩ :=
    Scan.items_read hread ⟨_, _⟩ .empty hlevel hend hspace hready hlooked
  refine ⟨c.toBlock, s.looked, ?_, hsymbols, ?_⟩
  · exact Scan.level_of_finishes (hrun (.last (Scan.turn_end _ _ _ hs))) hready.fuel
  · rw [hitems]
    exact hread

/-- **The values of a text that was written are the values that were written.** The scan may start
with any table that knows their names. -/
theorem scanSource_render (htu : t.Within u) {vs : List Value}
    (h : ∀ v ∈ vs, v.Spellable t Options.defaultDepth) :
    ∃ block table,
      scanSource (Utf8.encode (" ".intercalate (vs.map (Value.render t)))) u = (.ok block, table) ∧
        u.Within table ∧
        (block.items.map fun item => item.value.unplaced) = vs.map Value.unplaced := by
  have hsource : Utf8.encode (" ".intercalate (vs.map (Value.render t))) =
      spellItems t space (vs.map fun v => ⟨v, false, ⟨0, 0⟩⟩) := by
    rw [encode_intercalate (show Utf8.encode " " = [space] from rfl), spellItems, List.map_map,
      List.map_map]
    rfl
  have hitems : ∀ item ∈ vs.map fun v => (⟨v, false, ⟨0, 0⟩⟩ : Item),
      item.value.Spellable t Options.defaultDepth := by
    intro item hi
    obtain ⟨v, hv, rfl⟩ := List.mem_map.1 hi
    exact h v hv
  obtain ⟨block, s, hscan, hsymbols, hblock⟩ := scan_spellItems htu hitems
  have hvalues := congrArg (List.map Placed.value) hblock
  rw [List.map_map, List.map_map, List.map_map] at hvalues
  refine ⟨block, s.symbols, ?_, hsymbols, hvalues⟩
  rw [hsource, scanSource, transcode, transcodeWith]
  rw [show Setup.scan ⟨.standard, Constructor.standard⟩ _ _ = _ from hscan]
  rfl

/-- `1:` looks like a time, and is the last segment of a set-path. -/
theorem scanSource_render_setPath :
    ∃ block table, scanSource (Utf8.encode "a/1: #[object! [a: #[none]]]")
        (SymbolTable.initial.intern "a").2 = (.ok block, table) ∧
      (block.items.map fun item => item.value.unplaced) =
        [.block .setPath ⟨[⟨.word .word (SymbolTable.initial.intern "a").1, false, ⟨0, 0⟩⟩,
          ⟨.integer 1, false, ⟨0, 0⟩⟩], false⟩,
        .object [((SymbolTable.initial.intern "a").1, ⟨.none, false, ⟨0, 0⟩⟩)]] := by
  have ha : (SymbolTable.initial.intern "a").2.Names (SymbolTable.initial.intern "a").1 := by
    refine ⟨SymbolTable.knows_intern _ _, ?_⟩
    rw [SymbolTable.lookup_of_get? (SymbolTable.get?_intern _ _)]
    decide
  have h : ∀ v ∈ [Value.block .setPath ⟨[⟨.word .word (SymbolTable.initial.intern "a").1, false,
      ⟨0, 0⟩⟩, ⟨.integer 1, false, ⟨0, 0⟩⟩], false⟩,
      .object [((SymbolTable.initial.intern "a").1, ⟨.none, false, ⟨0, 0⟩⟩)]],
      v.Spellable (SymbolTable.initial.intern "a").2 Options.defaultDepth := by
    intro v hv
    show v.Spellable _ (1022 + 2)
    rcases List.mem_cons.1 hv with rfl | hv
    · refine .path rfl rfl ha (List.cons_ne_nil _ _) ?_ ?_ false
      · intro item hi
        cases List.mem_singleton.1 hi
        rfl
      · intro item hi
        cases List.mem_singleton.1 hi
        exact .integer (by decide)
    · cases List.mem_singleton.1 hv
      refine .object ?_ ?_ ?_
      · intro field hf
        cases List.mem_singleton.1 hf
        exact ha
      · intro field hf
        cases List.mem_singleton.1 hf
        exact fun _ => Value.noConfusion
      · intro field hf
        cases List.mem_singleton.1 hf
        exact .none
  obtain ⟨block, table, hscan, -, hvalues⟩ := scanSource_render (.refl _) h
  refine ⟨block, table, ?_, hvalues⟩
  refine (congrArg (fun text => scanSource (Utf8.encode text) _) ?_).trans hscan
  decide +kernel

end

end RebolScan
