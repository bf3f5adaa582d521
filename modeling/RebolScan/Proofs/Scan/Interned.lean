import RebolScan.Proofs.Scan.Reading
import RebolScan.Proofs.Scan.Triple
import RebolScan.Proofs.Symbol.Interned
import RebolScan.Scan.Transcode

/-!
# What a scan does to the table of symbols

A scan touches the table where it reads a word or an issue, and nowhere else: it interns the name.
So **whatever becomes of the scan, the table that it leaves is the one it was given with some names
interned** (`transcodeWith_interns`). Where it returns values, each symbol in them is one that it was
given for such a name.

Which symbols are looked for, and what is asked of their names, is a `Watch`: all symbols, of whose
names nothing is asked, or those of words alone, of whose names something is known. `Interned s w a t`
is what is kept on the way: from `s` to `t` names were interned, those of the symbols `a` among them,
and they are as `w` asks. It is closed under going on, so a level has it of what the levels inside it
interned, though their values may be dropped again.
-/

set_option autoImplicit false

namespace RebolScan

open Finder Scan

/-! ## What is looked for -/

/-- The symbols to look for, and what is asked of the names that they were given for. -/
structure Watch where
  finder : Finder Symbol
  asks : String → Prop

namespace Watch

/-- All symbols, whatever their names are. -/
def symbols : Watch := ⟨Finder.symbols, fun _ => True⟩

/-- The names of what is looked for are as they are asked to be when they are read. -/
structure Holds (w : Watch) : Prop where
  finds : w.finder.FindsWords
  word : ∀ level text kind name,
    (Element.of level text (Lexeme.ofFront text)).element = .word kind name → w.asks name
  issue : ∀ s name, w.finder.leaf (.issue s) ≠ [] → w.asks name

theorem holds_symbols : symbols.Holds where
  finds := findsWords_symbols
  word _ _ _ _ _ := trivial
  issue _ _ _ := trivial

end Watch

/-- The constructor interns nothing, and makes values of the symbols that it is given. -/
structure Constructor.Frugal (f : Finder Symbol) (k : Constructor) : Prop where
  table : ∀ spec t, (k.make spec t).2 = t
  found : ∀ spec t v, k spec t = some v → ∀ a ∈ f.value v, a ∈ f.items spec

theorem Constructor.frugal_standard {f : Finder Symbol} (hf : f.FindsWords) :
    Constructor.standard.Frugal f where
  table _ _ := rfl
  found _ _ _ := found_valueOf hf

/-- From `s` to `t` names were interned, and the symbols `given` are among those that they got, for
names that are as `w` asks. -/
def Session.Interned (s : Session) (w : Watch) (given : List Symbol) (t : Session) : Prop :=
  ∃ names, s.symbols.Interns names t.symbols ∧
    ∀ a ∈ given, ∃ n ∈ names, n.symbol = a ∧ w.asks n.name

namespace Session

variable {s t u : Session} {w : Watch} {given more : List Symbol}

theorem interned_nil (h : t.symbols = s.symbols) : s.Interned w [] t :=
  ⟨[], h ▸ .nil _, fun _ ha => absurd ha List.not_mem_nil⟩

theorem Interned.append (hst : s.Interned w given t) (htu : t.Interned w more u) :
    s.Interned w (given ++ more) u := by
  obtain ⟨names, hnames, hgiven⟩ := hst
  obtain ⟨names', hnames', hmore⟩ := htu
  refine ⟨names ++ names', hnames.append hnames', fun a ha => ?_⟩
  rcases List.mem_append.1 ha with ha | ha
  · obtain ⟨n, hn, hasks⟩ := hgiven a ha
    exact ⟨n, List.mem_append_left _ hn, hasks⟩
  · obtain ⟨n, hn, hasks⟩ := hmore a ha
    exact ⟨n, List.mem_append_right _ hn, hasks⟩

theorem Interned.mono (h : s.Interned w given t) (hsub : ∀ a ∈ more, a ∈ given) :
    s.Interned w more t := by
  obtain ⟨names, hnames, hgiven⟩ := h
  exact ⟨names, hnames, fun a ha => hgiven a (hsub a ha)⟩

theorem Interned.forget (h : s.Interned w given t) : s.Interned w [] t :=
  h.mono fun _ ha => absurd ha List.not_mem_nil

/-- What is no matter of the table may change. -/
theorem Interned.of_symbols (h : s.Interned w given t) (hu : u.symbols = t.symbols) :
    s.Interned w given u := by
  obtain ⟨names, hnames, hgiven⟩ := h
  exact ⟨names, hu ▸ hnames, hgiven⟩

/-- A name is interned, and it is as it is asked to be if its symbol is found. -/
theorem interned_intern {name : String} (hu : u.symbols = (s.symbols.intern name).2)
    (hgiven : ∀ a ∈ given, a = (s.symbols.intern name).1 ∧ w.asks name) : s.Interned w given u := by
  refine ⟨[⟨name, (s.symbols.intern name).1⟩], ?_, fun a ha => ?_⟩
  · rw [hu]
    exact SymbolTable.interns_one _ name
  · obtain ⟨rfl, hasks⟩ := hgiven a ha
    exact ⟨_, List.mem_singleton_self _, rfl, hasks⟩

end Session

namespace Scan

open Session

variable {setup : Setup} {nested : Nested} {w : Watch} {s₀ s : Session} {c : Collected}

/-! ## What is known of a level -/

/-- The symbols in what a level has collected are those of names that were interned since `s₀`. -/
def Collects (w : Watch) (s₀ : Session) (c : Collected) (t : Session) : Prop :=
  s₀.Interned w (w.finder.items c.items) t

/-- A fault was met, and names were interned before it. -/
def Broken (w : Watch) (s₀ : Session) (_ : Fault) (t : Session) : Prop := s₀.Interned w [] t

theorem Collects.push {t : Session} {v : Value} (h : Collects w s₀ c s)
    (hv : s.Interned w (w.finder.value v) t) (span : Span) : Collects w s₀ (c.push v span) t := by
  refine (Interned.append h hv).mono fun a ha => ?_
  rw [Collected.push, items_cons, List.mem_append] at ha
  exact List.mem_append.2 ha.symm

theorem Collects.keep {t : Session} (h : Collects w s₀ c s) (ht : t.symbols = s.symbols) :
    Collects w s₀ c t := h.of_symbols ht

/-- The scan goes on and interns names that are of no matter here. -/
theorem Collects.go {t : Session} (h : Collects w s₀ c s) (ht : s.Interned w [] t) :
    Collects w s₀ c t := by
  have happend := Interned.append h ht
  rwa [List.append_nil] at happend

/-- What an element came to has symbols of names that were interned since `s₀`. -/
def Comes (w : Watch) (s₀ : Session) : Outcome → Session → Prop
  | .value v => s₀.Interned w (w.finder.value v)
  | _ => s₀.Interned w []

theorem fail_broken {α : Type} {kind : FaultKind} {token : TokenKind} {span : Span}
    {Q : α → Session → Prop} {given : List Symbol} (h : s₀.Interned w given s) :
    Ends (fail kind token span) s Q (Broken w s₀) := h.forget.of_symbols rfl

/-! ## What an element comes to -/

theorem construct_interned (hk : setup.construct.Frugal w.finder) {start : Nat} {spec : Block}
    (h : s₀.Interned w (w.finder.items spec.items) s) :
    Ends (construct setup start spec) s (fun v => s₀.Interned w (w.finder.value v))
      (Broken w s₀) := by
  have htable := hk.table spec.items s.symbols
  apply construct_ends
  · intro v hv
    exact (h.mono (hk.found spec.items s.symbols v hv)).of_symbols htable
  · intro _
    exact fail_broken (h.of_symbols htable)

section

variable (hw : w.Holds)

include hw

/-- In a value without symbols nothing is found. -/
theorem interned_literal {v : Value} {t : Session} (hv : Finder.symbols.value v = [])
    (ht : t.symbols = s.symbols) : s.Interned w (w.finder.value v) t := by
  refine (interned_nil ht).mono fun a ha => ?_
  have hmem := hw.finds.value v a ha
  rwa [hv] at hmem

/-- The symbols of a path are those of its segments. -/
theorem joinPath_interned {head : TokenKind} {start : Nat} {segments : Block}
    (h : s₀.Interned w (w.finder.items segments.items) s) :
    Ends (joinPath head start segments) s (fun v => s₀.Interned w (w.finder.value v))
      (Broken w s₀) := by
  apply joinPath_ends
  · intro kind
    rw [value_block]
    have hsame := items_plainWord w.finder
      (fun _ _ => (hw.finds.word _ _).trans (hw.finds.word _ _).symm) segments.items
    rwa [← hsame] at h
  · rwa [value_block]
  · intro _
    rw [value_block]
    exact h.of_symbols rfl
  · intro _
    exact fail_broken (h.of_symbols rfl)

/-- What the levels inside are taken to intern. -/
def NestedInterned (w : Watch) (nested : Nested) : Prop :=
  ∀ l start s, Ends (nested l start) s (fun body => s.Interned w (w.finder.items body.items))
    (Broken w s)

variable (hk : setup.construct.Frugal w.finder) (hn : NestedInterned w nested)

include hk hn

theorem carryOut_interned {r : Element.Reading} (hr : Element.Proper r)
    (hasks : ∀ kind name, r.element = .word kind name → w.asks name) (start : Nat) (s : Session) :
    Ends (carryOut setup nested r start) s (Comes w s) (Broken w s) := by
  have hnone : s.Interned w [] s := interned_nil rfl
  unfold carryOut
  split
  · refine Ends.after rfl ?_
    exact .pure (interned_nil rfl)
  · exact .pure hnone
  · rename_i v he
    exact .pure (interned_literal hw (hr.literal v he) rfl)
  · rename_i kind name he
    refine Ends.after rfl ?_
    refine .pure (interned_intern rfl fun a ha => ⟨?_, hasks kind name he⟩)
    have hword : a ∈ w.finder.leaf (.word kind (s.symbols.intern name).1) := ha
    rw [hw.finds.word] at hword
    exact List.mem_singleton.1 hword
  · rename_i name _
    refine Ends.after rfl ?_
    refine .pure (interned_intern rfl fun a ha => ⟨?_, ?_⟩)
    · exact List.mem_singleton.1 (hw.finds.leaf _ a ha)
    · exact hw.issue _ name (List.ne_nil_of_mem ha)
  · rename_i b _
    apply Ends.ite
    · intro _
      exact fail_broken hnone
    · intro _
      apply (hn _ _ s).bind
      intro body t ht
      refine .pure ?_
      rwa [Comes, value_block]
  · apply Ends.bind (Q := fun v => s.Interned w (w.finder.value v))
    · apply (hn _ _ s).bind
      intro spec t ht
      exact construct_interned hk ht
    · intro v t ht
      exact .pure ht
  · exact fail_broken hnone
  · exact .pure hnone

theorem perform_interned {r : Element.Reading} (hr : Element.Proper r)
    (hasks : ∀ kind name, r.element = .word kind name → w.asks name) (start : Nat) (s : Session) :
    Ends (perform setup nested r start) s (Comes w s) (Broken w s) := by
  unfold perform
  split
  · apply Ends.bind (Q := fun v => s.Interned w (w.finder.value v))
    · apply (hn _ _ s).bind
      intro segments t ht
      exact joinPath_interned hw ht
    · intro v t ht
      exact .pure ht
  · refine Ends.after rfl ?_
    refine (carryOut_interned hw hk hn hr hasks start _).imp (fun out t ht => ?_) fun f t ht => ht
    cases out with
    | _ => exact ht

end

/-! ## One round of a level -/

theorem record_collects {f : Fault} (hw : w.Holds) (hc : Collects w s₀ c s) :
    Ends (record setup f c) s (Collects w s₀) (Broken w s₀) := by
  apply Ends.ite
  · intro _
    exact .throw hc.forget
  · intro _
    exact hc.push (interned_literal hw rfl rfl) _

theorem placeless_collects (hw : w.Holds) : Placeless setup (Collects w s₀) (Broken w s₀) where
  moved _ hc := hc.keep rfl
  recorded {c s} _ _ _ _ _ _ hc := by
    have hcounted : Collects w s₀ c { s with faultCount := s.faultCount + 1 } := hc.keep rfl
    refine Ends.after rfl ?_
    apply (record_collects hw hcounted).bind
    intro c t ht
    exact .pure ht

/-- What an element interned is added to what the level had. -/
theorem Collects.fits {t : Session} (hw : w.Holds) (hc : Collects w s₀ c s) {out : Outcome}
    (h : Comes w s out t) : Fits setup (Collects w s₀) (Broken w s₀) c (.ok out) t := by
  cases out with
  | value v => exact hc.push h
  | slot =>
    have hempty : t.Interned w (w.finder.value .none) t := interned_literal hw rfl rfl
    exact (hc.go h).push hempty
  | lineBreak | comment => exact hc.go h

theorem turn_collects (hw : w.Holds) (hk : setup.construct.Frugal w.finder)
    (hn : NestedInterned w nested) (level : Level) (opened : Site) :
    Triple (Collects w s₀ c) (turn setup nested level opened c) (fun r => Collects w s₀ r.1)
      (Broken w s₀) := by
  apply (placeless_collects hw).turn
  intro c s hc level _
  have hlooked : Collects w s₀ c s.looked := hc.keep rfl
  have hasks : ∀ kind name, (s.reading level).element = .word kind name → w.asks name :=
    fun kind name => hw.word _ _ kind name
  exact (perform_interned hw hk hn Element.proper_of hasks _ _).imp
    (fun _ _ ht => hlooked.fits hw ht) fun _ _ ht => record_collects hw (hlooked.go ht)

/-- **What a level did to the table is to intern names**, those of its symbols among them. -/
theorem level_interned (hw : w.Holds) (hk : setup.construct.Frugal w.finder) (fuel room : Nat)
    (l : Level) (s : Session) :
    Ends (level setup fuel room l) s (fun body => s.Interned w (w.finder.items body.items))
      (Broken w s) := by
  have hyields {s t : Session} {body : Block} (h : Yields (Collects w s) body t) :
      s.Interned w (w.finder.items body.items) t := by
    obtain ⟨c, rfl, hc⟩ := h
    refine hc.mono fun a ha => ?_
    obtain ⟨item, hitem, ha⟩ := (mem_items _).1 ha
    exact (mem_items _).2 ⟨item, List.mem_reverse.1 hitem, ha⟩
  refine (level_collects (P := Collects w) (E := Broken w) ?_ ?_ fuel room l s
    (interned_nil rfl)).imp (fun _ _ => hyields) fun _ _ => id
  · intro start s hs
    refine Ends.after rfl ?_
    exact fail_broken hs
  · intro nested _ hn s level opened c
    refine turn_collects hw hk (fun l start s => ?_) level opened
    exact (hn l start s (interned_nil rfl)).imp (fun _ _ => hyields) fun _ _ => id

end Scan

/-! ## Whole scans -/

section

variable {k : Constructor} {w : Watch}

/-- However a scan ends, it has interned names and done nothing else to the table, and every symbol
that is looked for in its values was given to one of these names, which is as it is asked to be. -/
theorem transcodeWith_watched (hw : w.Holds) (hk : k.Frugal w.finder) (source : Bytes)
    (symbols : SymbolTable) (options : Options) :
    ∃ names, symbols.Interns names (transcodeWith k source symbols options).2 ∧
      ∀ t, (transcodeWith k source symbols options).1 = .ok t →
        ∀ a ∈ w.finder.items t.values.items, ∃ n ∈ names, n.symbol = a ∧ w.asks n.name := by
  have hends : Ends (Setup.scan ⟨options, k⟩ source) (Session.start source symbols)
      (fun values => (Session.start source symbols).Interned w (w.finder.items values.items))
      (Broken w (Session.start source symbols)) := level_interned hw hk _ _ _ _
  rw [transcodeWith]
  cases h : Setup.scan ⟨options, k⟩ source (Session.start source symbols) with
  | ok values s =>
    obtain ⟨names, hnames, hgiven⟩ := hends.ok h
    refine ⟨names, hnames, fun t ht => ?_⟩
    cases ht
    exact hgiven
  | error f s =>
    obtain ⟨names, hnames, -⟩ := hends.error h
    refine ⟨names, hnames, fun t ht => ?_⟩
    cases ht

/-- **However a scan ends, it has interned names and done nothing else to the table**, and every
symbol in its values is that of one of these names. -/
theorem transcodeWith_interns (hk : k.Frugal Finder.symbols) (source : Bytes)
    (symbols : SymbolTable) (options : Options) :
    ∃ names, symbols.Interns names (transcodeWith k source symbols options).2 ∧
      ∀ t, (transcodeWith k source symbols options).1 = .ok t →
        ∀ a ∈ Finder.symbols.items t.values.items, a ∈ names.map Naming.symbol := by
  obtain ⟨names, hnames, hgiven⟩ :=
    transcodeWith_watched Watch.holds_symbols hk source symbols options
  refine ⟨names, hnames, fun t ht a ha => ?_⟩
  obtain ⟨n, hn, hsymbol, -⟩ := hgiven t ht a ha
  exact List.mem_map.2 ⟨n, hn, hsymbol⟩

/-- A single word is interned if it is one. -/
theorem scanWord_interns (source : Bytes) (symbols : SymbolTable) :
    scanWord source symbols = (none, symbols) ∨
      ∃ name, Utf8.decode? (source.drop (byteOrderMarkLength source)) = some name ∧
        scanWord source symbols = (some (symbols.intern name).1, (symbols.intern name).2) := by
  unfold scanWord
  dsimp only
  split
  · exact .inl rfl
  · rename_i hword
    simp only [Bool.or_eq_true, bne_iff_ne, not_or, ne_eq, Decidable.not_not] at hword
    obtain ⟨⟨-, hstart⟩, hstop⟩ := hword
    have hbytes : (Cursor.afterMark source).scan.2.bytes =
        source.drop (byteOrderMarkLength source) := by
      rw [Cursor.bytes, hstart, hstop]
      exact List.take_of_length_le (Nat.le_of_eq List.length_drop)
    rw [hbytes]
    split
    · rename_i name h
      exact .inr ⟨name, h, rfl⟩
    · exact .inl rfl

theorem scanIssue_interns (source : Bytes) (symbols : SymbolTable) :
    scanIssue source symbols = (none, symbols) ∨
      ∃ name, Utf8.decode? source = some name ∧
        scanIssue source symbols = (some (symbols.intern name).1, (symbols.intern name).2) := by
  unfold scanIssue
  split
  · exact .inl rfl
  · split
    · rename_i name h
      exact .inr ⟨name, h, rfl⟩
    · exact .inl rfl

end

end RebolScan
