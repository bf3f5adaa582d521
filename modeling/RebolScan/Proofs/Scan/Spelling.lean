import RebolScan.Proofs.Scan.Paths
import RebolScan.Proofs.Token.Cut
import RebolScan.Proofs.Token.Delimiters
import RebolScan.Proofs.Value.Spelling

/-!
# Names keep their spelling

The name of a word is cut out of its lexeme in one place and the span of its value is reckoned in
another, and the two agree: **the bytes that a word takes are its name between the marks of its form**
(`keepsName_of`). A path takes over the mark of its first segment and leaves the segment its place, so
the mark is still in front of the name there. So **every word and issue that a strict scan returns is
spelled in the source where its span says** (`transcode_keepsNames`).

The name is interned on the way, and later names do not change what the table says of it. So a level
has `Spells` of whatever table it has come to, and the level around it has it of a later one.
-/

set_option autoImplicit false

namespace RebolScan

open Ascii Scan

namespace Element

variable {level : Level} {text : Bytes} {l : Lexeme}

/-- What stands around the name of a word in its lexeme is the marks of its form. -/
theorem WordCut.marks {kind : WordKind} {start stop taken : Nat} (hw : l.malformed = false)
    (hnames : Lexeme.Names text l) (hcut : Lexeme.Cut text l)
    (h : WordCut level text l kind start stop taken) (hlt : start < stop) :
    between text 0 taken = kind.front ++ between text start stop ++ kind.behind := by
  have hname := hnames hw
  have hmark {b : UInt8} (hb : byteAt text 0 = b) (hne : b ≠ nul) (n : Nat) (hn : 1 < n) :
      between text 0 n = [b] ++ between text 1 n ++ [] := by
    rw [between_first hb hne (by omega), List.append_nil]
    rfl
  cases h with
  | word hk | pathEnd hk => exact (List.append_nil _).symm
  | setWord hk =>
    have hcolon := (hcut.byte hw).1 hk
    have hlen := lt_length_of_byteAt (by rw [hcolon]; decide)
    exact between_last hcolon (by omega) (by omega)
  | marked hk | markedEnd hk =>
    rcases hk with ⟨hk, rfl⟩ | ⟨hk, rfl⟩
    · rw [hk] at hname
      exact hmark hname.1 (by decide) _ hlt
    · rw [hk] at hname
      exact hmark hname.1 (by decide) _ hlt
  | refinement hk =>
    rw [hk] at hname
    exact hmark hname.1 (by decide) _ hlt

/-- The bytes that a reading takes are the name in it, between its marks. -/
structure KeepsName (text : Bytes) (r : Reading) : Prop where
  word : ∀ kind name, r.element = .word kind name →
    text.take r.taken = kind.front ++ Utf8.encode name ++ kind.behind
  issue : ∀ name, r.element = .issue name → text.take r.taken = pound :: Utf8.encode name

/-- **A reading takes the name and its marks**, and nothing else. -/
theorem keepsName_of (level : Level) (text : Bytes) :
    KeepsName text (of level text (Lexeme.ofFront text)) := by
  have hnames := Lexeme.ofFront_names text
  have hcut := Lexeme.ofFront_cut text
  have hof := nameOf_of level text (Lexeme.ofFront text)
  generalize of level text (Lexeme.ofFront text) = r at hof
  cases hof with
  | word hw h hlt hname =>
    refine ⟨fun kind' name' he => ?_, fun _ => Element.noConfusion⟩
    cases he
    rw [hname]
    exact h.marks hw hnames hcut hlt
  | issue hw hk _ hname =>
    refine ⟨fun _ _ => Element.noConfusion, fun name' he => ?_⟩
    cases he
    have hpound := (hcut.byte hw).2 hk
    have hne : text ≠ [] := by
      rintro rfl
      cases hpound
    rw [hname]
    exact between_first hpound (by decide) (Lexeme.ofFront_bounds hne).1
  | other h =>
    constructor
    · intro kind name he
      rw [he] at h
      cases h
    · intro name he
      rw [he] at h
      cases h

end Element

namespace Scan

open Session

variable {setup : Setup} {nested : Nested} {source : Bytes} {l : Level} {opened : Site}
  {c c' : Collected} {s t u : Session} {goesOn : Bool}

/-- The table of `u` has all that the one of `s` has, and the items keep the names that it gives them. -/
structure Spells (source : Bytes) (s : Session) (items : List Item) (u : Session) : Prop where
  table : s.symbols.Within u.symbols
  items : ∀ item ∈ items, Item.KeepsNames source u.symbols item

/-! ## What an element comes to -/

theorem spells_unnamed {v : Value} {line : Bool} {span : Span} (htable : s.symbols.Within t.symbols)
    (hscalar : v.isScalar = true) (hnamed : v.isNamed = false) :
    Spells source s [⟨v, line, span⟩] t := by
  refine ⟨htable, List.forall_mem_singleton.2 fun x hx => ?_⟩
  rw [Item.spellings, Value.spellings_eq_nil hscalar hnamed] at hx
  cases hx

/-- A path has the names of its segments: the mark that the first one lost is in front of it still. -/
theorem Headed.spellings {kind : TokenKind} {form : BlockKind} {first head : Value}
    (h : Headed kind first form head) (span : Span) :
    head.spellings span form.front = first.spellings span [] := by
  cases h with
  | slot | getPath | litPath => rfl
  | word name hform => rcases hform with rfl | rfl <;> rfl

section

variable (hn : Known source (fun _ s c t => Spells source s c.items t) nested)

include hn

/-- The names in a path are spelled where its segments stand. -/
theorem path_spells (hpather : Pather source nested) {kind : TokenKind} {start : Nat} {v : Value}
    {r : Element.Reading} (hs : s.At source) (hr : Element.Reads l s.cursor.rest r)
    (he : r.element = .pathHead kind) (h : path nested kind start s = .ok v t) (line : Bool)
    (span : Span) : Spells source s [⟨v, line, span⟩] t := by
  obtain ⟨segments, u, hsegments, hjoin⟩ := bind_eq_ok.1 h
  obtain ⟨hsegmented, -, -⟩ := hpather.path hs hr he hsegments
  obtain ⟨c, rfl, hspells⟩ := hn hs (fun _ => hr.of_pathHead he) hsegments
  have hjoins := joinPath_eq_ok hjoin
  have hitems : ∀ item ∈ c.toBlock.items, Item.KeepsNames source u.symbols item :=
    fun item hitem => hspells.items item (List.mem_reverse.1 hitem)
  generalize c.toBlock = segments at hsegmented hitems hjoins
  obtain ⟨items, tailLine⟩ := segments
  obtain ⟨hfirst, -, -⟩ := hsegmented
  rename_i first rest
  obtain ⟨form, head, hheaded, rfl, hsymbols, -⟩ := hjoins.headed hfirst
  refine ⟨hsymbols ▸ hspells.table, List.forall_mem_singleton.2 fun x hx => ?_⟩
  have hx : x ∈ head.spellings first.span form.front ++ itemSpellings [] rest := hx
  rw [hheaded.spellings] at hx
  obtain ⟨item, hitem, hx⟩ := mem_itemSpellings.1 (show x ∈ itemSpellings [] (first :: rest) from hx)
  rw [hsymbols]
  exact hitems item hitem x hx

/-- **The names in what an element comes to are spelled by its bytes.** -/
theorem Performed.spells (hmake : setup.construct = .standard) (hpather : Pather source nested)
    {r : Element.Reading} {v : Value} (hs : s.At source) (hr : Element.Reads l s.cursor.rest r)
    (hproper : Element.Proper r) (hname : Element.KeepsName s.cursor.rest r) (line : Bool)
    (h : Performed setup nested r s.cursor.start s (.value v) t) :
    Spells source s [⟨v, line, ⟨s.cursor.start, t.cursor.start⟩⟩] t := by
  cases h with
  | head he hpath => exact path_spells hn hpather hs hr he hpath line _
  | consumed h =>
    have hu := hs.advance (h.taken_bounds hr).2
    generalize he : r.element = e at h
    cases h with
    | value =>
      exact spells_unnamed (.refl _) (hr.isScalar_of_value he)
        (Finder.not_isNamed_of_symbols (hproper.literal v he))
    | word kind name =>
      refine ⟨SymbolTable.within_intern _ name, List.forall_mem_singleton.2 fun x hx => ?_⟩
      obtain rfl := List.mem_singleton.1 hx
      refine ⟨name, SymbolTable.get?_intern _ name, ?_⟩
      exact (hs.between r.taken).trans (hname.word kind name he)
    | issue name =>
      refine ⟨SymbolTable.within_intern _ name, List.forall_mem_singleton.2 fun x hx => ?_⟩
      obtain rfl := List.mem_singleton.1 hx
      refine ⟨name, SymbolTable.get?_intern _ name, ?_⟩
      exact (hs.between r.taken).trans ((hname.issue name he).trans (List.append_nil _).symm)
    | opener b hbody =>
      obtain ⟨c, rfl, hspells⟩ := hn hu Level.noConfusion hbody
      refine ⟨hspells.table, List.forall_mem_singleton.2 fun x hx => ?_⟩
      have hx : x ∈ itemSpellings [] c.items.reverse := by
        cases b <;> exact hx
      obtain ⟨item, hitem, hx⟩ := mem_itemSpellings.1 hx
      exact hspells.items item (List.mem_reverse.1 hitem) x hx
    | construct hc =>
      obtain ⟨spec, u, hspec, hc⟩ := bind_eq_ok.1 hc
      obtain ⟨hv, htable⟩ := construct_eq_ok hc
      obtain ⟨c, rfl, hspells⟩ := hn hu Level.noConfusion hspec
      rw [hmake] at hv htable
      subst htable
      rcases valueOf_cases hv with ⟨hscalar, hnamed⟩ |
        ⟨body, hbody, block, fields, hvalue, rfl, hfields⟩
      · exact spells_unnamed hspells.table hscalar hnamed
      · -- A field's value is an item of the block that spells the object.
        refine ⟨hspells.table, List.forall_mem_singleton.2 fun x hx => ?_⟩
        obtain ⟨name, item, hfield, hx⟩ := mem_fieldSpellings.1 hx
        refine hspells.items body (List.mem_reverse.1 hbody) x ?_
        rw [Item.spellings, hvalue]
        exact mem_itemSpellings.2 ⟨item, hfields name item hfield, hx⟩

/-! ## Rounds -/

/-- A round adds an item that keeps its names, and no name that was interned before is lost. -/
theorem turn_spells (hmake : setup.construct = .standard) (hstrict : setup.options.relaxed = false)
    (hpather : Pather source nested) (hu : u.At source) (hspells : Spells source s c.items u)
    (h : turn setup nested l opened c u = .ok (c', goesOn) t) : Spells source s c'.items t := by
  have hsame {v w : Session} {items : List Item} (hv : Spells source s items v)
      (hw : w.symbols = v.symbols) : Spells source s items w := by
    obtain ⟨htable, hitems⟩ := hv
    exact ⟨hw ▸ htable, hw ▸ hitems⟩
  cases turn_adds hstrict h with
  | nothing hitems ht =>
    rw [hitems]
    exact hsame hspells ht
  | slot hitems ht =>
    rw [hitems]
    refine hsame ⟨hspells.table, List.forall_mem_cons.2 ⟨?_, hspells.items⟩⟩ ht
    exact fun x hx => absurd hx List.not_mem_nil
  | value hv hitems hle ht =>
    have hvalue := hv.spells hn hmake hpather hu.looked (u.reading_reads l) Element.proper_of
      (Element.keepsName_of _ _) c.newLine
    rw [hitems]
    refine hsame ⟨hspells.table.trans hvalue.table, List.forall_mem_cons.2 ⟨?_, ?_⟩⟩ ht
    · exact hvalue.items _ (List.mem_singleton_self _)
    · exact fun item hitem => (hspells.items item hitem).mono hvalue.table

end

/-- **What a strict level returns keeps its names**, however deep it nests. -/
theorem known_spells (hmake : setup.construct = .standard) (hstrict : setup.options.relaxed = false)
    (room : Nat) : Known source (fun _ s c t => Spells source s c.items t)
      (inside setup (source.length + 1) room) := by
  apply known_always hmake hstrict
  · intro l s hs
    exact ⟨.refl _, fun item hitem => absurd hitem List.not_mem_nil⟩
  · intro room l opened s c u c' t goesOn hn hu hspells h
    exact turn_spells hn hmake hstrict (pather_inside hmake hstrict source room) hu hspells h

end Scan

/-- **Words keep their source spelling.** In what a strict scan returns, the span of every word and
issue, at any depth, holds the name that the table has for its symbol, between the marks of its form
and nothing else: the mark in front of a get-word, a lit-word, a refinement, an issue or the head of a
get-path or lit-path, and the colon behind a set-word. -/
theorem transcode_keepsNames {source : Bytes} {symbols table : SymbolTable} {options : Options}
    {t : Transcoded} (hstrict : options.relaxed = false)
    (h : transcode source symbols options = (.ok t, table)) :
    ∀ x ∈ itemSpellings [] t.values.items, between source x.span.start x.span.stop =
      x.front ++ Utf8.encode (table.lookup x.symbol) ++ x.behind := by
  obtain ⟨s, hs, -, rfl⟩ := transcodeWith_eq_ok.1 h
  obtain ⟨c, hc, -, hitems⟩ := (known_spells rfl hstrict _).scan hs
  intro x hx
  rw [hc] at hx
  obtain ⟨item, hitem, hx⟩ := mem_itemSpellings.1 hx
  obtain ⟨name, hname, hbytes⟩ := hitems item (List.mem_reverse.1 hitem) x hx
  rw [SymbolTable.lookup_of_get? hname]
  exact hbytes

/-- `:a/'b c: #d`: the colon in front of a get-path is not in the name of its head. -/
theorem transcode_keepsNames_getPath :
    ∃ source t table, transcode source .initial .standard = (.ok t, table) ∧
      source = [0x3A, 0x61, 0x2F, 0x27, 0x62, 0x20, 0x63, 0x3A, 0x20, 0x23, 0x64] ∧
      ((itemSpellings [] t.values.items).map fun x => (table.lookup x.symbol, x.span)) =
        [("a", ⟨0, 2⟩), ("b", ⟨3, 5⟩), ("c", ⟨6, 8⟩), ("d", ⟨9, 11⟩)] ∧
      ∀ x ∈ itemSpellings [] t.values.items, between source x.span.start x.span.stop =
        x.front ++ Utf8.encode (table.lookup x.symbol) ++ x.behind := by
  have hnames : ((fun (result : Except Failure Transcoded × SymbolTable) =>
      result.1.toOption.map fun t => (itemSpellings [] t.values.items).map fun x =>
        (result.2.lookup x.symbol, x.span))
      (transcode [0x3A, 0x61, 0x2F, 0x27, 0x62, 0x20, 0x63, 0x3A, 0x20, 0x23, 0x64] .initial
        .standard)) = some [("a", ⟨0, 2⟩), ("b", ⟨3, 5⟩), ("c", ⟨6, 8⟩), ("d", ⟨9, 11⟩)] := by
    decide +kernel
  cases h : transcode [0x3A, 0x61, 0x2F, 0x27, 0x62, 0x20, 0x63, 0x3A, 0x20, 0x23, 0x64] .initial
      .standard with
  | mk result table =>
    rw [h] at hnames
    cases result with
    | error failure => cases hnames
    | ok t => exact ⟨_, t, table, h, rfl, Option.some.inj hnames, transcode_keepsNames rfl h⟩

end RebolScan
