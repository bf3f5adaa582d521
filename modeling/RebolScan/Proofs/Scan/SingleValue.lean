import RebolScan.Proofs.Scan.FirstFault
import RebolScan.Proofs.Scan.Incremental
import RebolScan.Proofs.Scan.Skipping
import RebolScan.Proofs.Scan.Triple
import RebolScan.Proofs.Scan.Written
import RebolScan.Proofs.Value.Flags
import RebolScan.Proofs.Value.Paths

/-!
# A scan for a single value

A scan may be asked for a single value, which is none that brackets hold. It then stops after the
first, but only the top level looks at that; what keeps brackets out of the levels inside is that no
opener is ever entered. **Whatever level an element stands in, relaxed or not, it comes to a value
without brackets if the levels inside do** (`Performed.unbracketed`), an object too: its fields would
have to be in a block. So the one value that the scan returns has none at any depth, and **a strict
scan whose text starts with a bracket ends there** (`transcode_single`).
-/

set_option autoImplicit false

namespace RebolScan

open Ascii

namespace Scan

open Session

variable {setup : Setup} {nested : Nested} {l : Level} {opened : Site} {c c' : Collected}
  {s t : Session}

/-! ## What has no brackets -/

theorem unbracketed_plainWord {v : Value} (h : v.Unbracketed) : (plainWord v).Unbracketed := by
  cases v with
  | word kind name => exact Value.unbracketed_of_isScalar rfl
  | _ => exact h

/-- A path has no brackets that its segments do not have. -/
theorem Joins.unbracketed {head : TokenKind} {segments : Block} {v : Value}
    (h : Joins head segments s v t) (hsegments : ∀ item ∈ segments.items, item.value.Unbracketed) :
    v.Unbracketed := by
  cases h with
  | litPath | getPath =>
    exact Value.unbracketed_path rfl
      (forall_mapFirst hsegments fun _ hitem => unbracketed_plainWord hitem)
  | path | setPath => exact Value.unbracketed_path rfl hsegments

/-- What is constructed of items without brackets is no object: that takes a block. -/
theorem unbracketed_valueOf {spec : List Item} {symbols : SymbolTable} {v : Value}
    (hspec : ∀ item ∈ spec, item.value.Unbracketed)
    (h : Constructor.valueOf? spec symbols = some v) : v.Unbracketed := by
  rcases valueOf_cases h with ⟨hscalar, -⟩ | ⟨body, hbody, block, fields, hvalue, -, -⟩
  · exact Value.unbracketed_of_isScalar hscalar
  · have hpath := hspec body hbody .block block (hvalue ▸ .here)
    cases hpath

/-! ## One round -/

/-- Nothing with brackets has been collected. -/
def Unbracketed (c : Collected) : Prop := ∀ item ∈ c.items, item.value.Unbracketed

/-- The levels inside collect nothing with brackets. -/
def BracketFree (nested : Nested) : Prop :=
  ∀ l start s t body, nested l start s = .ok body t →
    ∀ item ∈ body.items, item.value.Unbracketed

theorem Unbracketed.push {v : Value} (hc : Unbracketed c) (hv : v.Unbracketed) (span : Span) :
    Unbracketed (c.push v span) := List.forall_mem_cons.2 ⟨hv, hc⟩

section

variable (hmake : setup.construct = .standard) (honly : setup.options.only = true)

include hmake honly

/-- **No element comes to a value with brackets**: a bracket is refused, and every other way into a
level inside leads back out with what that level has collected. -/
theorem Performed.unbracketed (hn : BracketFree nested) {r : Element.Reading} {start : Nat}
    {text : Bytes} {v : Value} (hr : Element.Reads l text r)
    (h : Performed setup nested r start s (.value v) t) : v.Unbracketed := by
  cases h with
  | head he hpath =>
    obtain ⟨segments, u, hsegments, hjoin⟩ := bind_eq_ok.1 hpath
    exact (joinPath_eq_ok hjoin).unbracketed (hn _ _ _ _ _ hsegments)
  | consumed h =>
    generalize he : r.element = e at h
    cases h with
    | value => exact Value.unbracketed_of_isScalar (hr.isScalar_of_value he)
    | word | issue => exact Value.unbracketed_of_isScalar rfl
    | opener b hbody hopen =>
      rw [honly] at hopen
      cases hopen
    | construct hc =>
      obtain ⟨spec, u, hspec, hc⟩ := bind_eq_ok.1 hc
      obtain ⟨hv, -⟩ := construct_eq_ok hc
      rw [hmake] at hv
      exact unbracketed_valueOf (hn _ _ _ _ _ hspec) hv

omit hmake honly in
/-- A fault that is passed over becomes an error, in which nothing stands. -/
theorem record_unbracketed {f : Fault} (hc : Unbracketed c) :
    Ends (record setup f c) s (fun c _ => Unbracketed c) fun _ _ => True := by
  apply Ends.ite
  · intro _
    exact .throw trivial
  · intro _
    exact hc.push (Value.unbracketed_error f) _

omit hmake honly in
theorem placeless_unbracketed :
    Placeless setup (fun c _ => Unbracketed c) fun _ _ => True where
  moved _ hc := hc
  recorded _ _ _ _ _ _ hc := by
    refine Ends.after rfl ?_
    apply (record_unbracketed hc).bind
    intro c t ht
    exact .pure ht

theorem turn_unbracketed (hn : BracketFree nested) (level : Level) (opened : Site) (c : Collected) :
    Triple (fun _ => Unbracketed c) (turn setup nested level opened c)
      (fun r _ => Unbracketed r.1) fun _ _ => True := by
  apply placeless_unbracketed.turn
  intro c s hc level hitem
  cases hp : perform setup nested (s.reading level) s.looked.cursor.start s.looked with
  | error f t => exact (ends_of_error hp).2 (record_unbracketed hc)
  | ok out t =>
    refine (ends_of_ok hp).2 ?_
    have hperformed := perform_eq_ok hitem hp
    cases out with
    | value v => exact hc.push (hperformed.unbracketed hmake honly hn (s.reading_reads level))
    | slot => exact hc.push (Value.unbracketed_of_isScalar rfl)
    | lineBreak | comment => exact hc

/-! ## Levels -/

/-- **No level collects a value with brackets**, however deep it lies. -/
theorem level_unbracketed (fuel room : Nat) : BracketFree fun l _ => level setup fuel room l := by
  intro l start s t body h
  have hempty : Unbracketed .empty := fun _ h => absurd h List.not_mem_nil
  have hfinished {body : Block} {t : Session} (h : Yields (fun c _ => Unbracketed c) body t) :
      ∀ item ∈ body.items, item.value.Unbracketed := by
    obtain ⟨c, rfl, hc⟩ := h
    exact fun item hitem => hc item (List.mem_reverse.1 hitem)
  have hends : Ends (level setup fuel room l) s (Yields fun c _ => Unbracketed c)
      fun _ _ => True := by
    refine level_collects (P := fun _ c _ => Unbracketed c) (E := fun _ _ _ => True)
      (fun _ _ _ => trivial) ?_ fuel room l s hempty
    intro nested _ hn _ level opened c
    refine turn_unbracketed hmake honly ?_ level opened c
    intro l start s t body h
    exact hfinished ((hn l start s hempty).ok h)
  exact hfinished (hends.ok h)

end

/-! ## The top -/

/-- A scan that stops after a value has none while it goes on, so that it ends with one at most. -/
theorem rounds_single (hn : ∀ l start, Forward (nested l start)) (hc : Consumes nested)
    (hstops : setup.options.stopsAfterValue = true) {fuel : Nat}
    (hfuel : s.cursor.rest.length < fuel)
    (h : rounds setup nested .top opened fuel .empty s = .ok c t) : c.items.length ≤ 1 := by
  refine rounds_induct hn hc (P := fun c _ => c.items = []) (Q := fun c _ => c.items.length ≤ 1)
    ?_ ?_ hfuel rfl h
  · intro c s c' t hnone hturn
    cases turn_top hturn with
    | none _ hsame => exact hsame.trans hnone
    | one _ item _ hgoes =>
      rw [hstops] at hgoes
      cases hgoes
  · intro c s c' t hnone hturn
    cases turn_top hturn with
    | last _ =>
      rw [hnone]
      exact Nat.zero_le 1
    | one _ item hadds _ =>
      rw [hadds, hnone]
      exact Nat.le_refl 1

/-- A strict round that meets an opener ends with a fault over it. -/
theorem turn_opener_refused (setup : Setup) (nested : Nested) (l : Level) (opened : Site)
    (c : Collected) (honly : setup.options.only = true) (hstrict : setup.options.relaxed = false)
    {b : Bracket} {rest : Bytes} (hs : s.cursor.rest = b.openByte :: rest) :
    ∃ f t, turn setup nested l opened c s = .error f t ∧ f.kind = .notAllowed b ∧
      f.token = b.openKind ∧ f.span = ⟨s.cursor.start, s.cursor.start + 1⟩ ∧
      t.symbols = s.symbols := by
  have hspace : isSpace (byteAt s.cursor.rest 0) = false := by
    rw [hs]
    cases b <;> rfl
  obtain ⟨hstart, hrest⟩ := looked_of_not_space hspace
  have hreading : s.reading l = ⟨.opener b, 1⟩ := by
    rw [reading, hrest, hs]
    exact Element.of_openBracket b l rest
  have hcarry : carryOut setup nested ⟨.opener b, 1⟩ s.cursor.start =
      fail (.notAllowed b) b.openKind ⟨s.cursor.start, s.cursor.start + 1⟩ := by
    rw [carryOut]
    exact if_pos honly
  obtain ⟨f, t, hperform, hf⟩ : ∃ f t,
      perform setup nested ⟨.opener b, 1⟩ s.cursor.start s.looked = .error f t ∧
        f.kind = .notAllowed b ∧ f.token = b.openKind ∧
        f.span = ⟨s.cursor.start, s.cursor.start + 1⟩ ∧ t.symbols = s.symbols := by
    rw [perform_element (fun _ => Element.noConfusion), hcarry]
    exact ⟨_, _, rfl, rfl, rfl, rfl, rfl⟩
  refine ⟨f, t, ?_, hf⟩
  rw [turn_item (by rw [hreading]; rfl), hreading, hstart, item, bind_of_ok (attempt_of_error hperform),
    settle, record, if_pos (by rw [hstrict]; rfl)]
  rfl

end Scan

open Scan

variable {source : Bytes} {symbols : SymbolTable} {options : Options}

/-- What a scan for a single value returns has no brackets. -/
theorem transcode_unbracketed (honly : options.only = true) {t : Transcoded} {table : SymbolTable}
    (h : transcode source symbols options = (.ok t, table)) :
    t.values.items.length ≤ 1 ∧ ∀ item ∈ t.values.items, item.value.Unbracketed := by
  obtain ⟨s, hscan, -, -⟩ := transcodeWith_eq_ok.1 h
  refine ⟨?_, level_unbracketed rfl honly _ _ .top 0 _ _ _ hscan⟩
  rw [Setup.scan, level_eq, levelWith_eq_ok] at hscan
  obtain ⟨c, hrun, hc⟩ := hscan
  have hfuel := (Session.at_start source symbols).lt_fuel
  have hstops : options.stopsAfterValue = true := by rw [Options.stopsAfterValue, honly, Bool.or_true]
  have hone := rounds_single (inside_forward _ _ _) (inside_consumes _ _ _) hstops hfuel hrun
  rw [← hc]
  show c.items.reverse.length ≤ 1
  rwa [List.length_reverse]

/-- A strict scan for a single value ends at a bracket in front of which the text says nothing. -/
theorem transcode_opener_refused (honly : options.only = true) (hstrict : options.relaxed = false)
    {b : Bracket} {z rest : Bytes} (hz : Skipped z)
    (hsource : source.drop (byteOrderMarkLength source) = z ++ b.openByte :: rest) :
    ∃ failure, transcode source symbols options = (.error failure, symbols) ∧
      failure.count = 1 ∧ failure.fault.kind = .notAllowed b ∧ failure.fault.token = b.openKind ∧
      failure.fault.span =
        ⟨byteOrderMarkLength source + z.length, byteOrderMarkLength source + z.length + 1⟩ := by
  have hplace := Session.at_start source symbols
  have hlength := hplace.length
  have hrest : (Session.start source symbols).cursor.rest = z ++ b.openByte :: rest := hsource
  have hfirst : b.openByte ≠ lineFeed := by cases b <;> decide
  let setup : Setup := ⟨options, .standard⟩
  let nested : Nested := inside setup (source.length + 1) options.maxDepth
  let opened : Site := ⟨(Session.start source symbols).cursor.line, byteOrderMarkLength source⟩
  have hf : ∀ l start, Forward (nested l start) := inside_forward setup _ _
  have hc : Consumes nested := inside_consumes setup _ _
  obtain ⟨c, s, hfinish, -, hs, honward⟩ : ∃ c s,
      finish setup nested .top opened .empty (Session.start source symbols) =
        finish setup nested .top opened c s ∧ c.items = [] ∧
        s.cursor.rest = b.openByte :: rest ∧ (Session.start source symbols).Onward s :=
    finish_skipped setup opened hf hc hz (v := b.openByte :: rest) hfirst .empty hrest
  obtain ⟨f, t, hturn, hkind, htoken, hspan, htable⟩ :=
    turn_opener_refused setup nested .top opened c honly hstrict hs
  have hscan : Setup.scan setup source (Session.start source symbols) = .error f t := by
    rw [Setup.scan, level_eq]
    refine bind_of_error (k := fun c : Collected => pure c.toBlock) ?_
    rw [rounds_eq_finish hf hc (by omega)]
    exact hfinish.trans (finish_fails hturn)
  have hfails : transcode source symbols options = (.error ⟨f, t.faultCount⟩, symbols) :=
    transcodeWith_eq_error.2 ⟨t, hscan, rfl, (htable.trans honward.symbols).symm⟩
  have hsame : options.strictly = options := by
    rw [Options.strictly, ← hstrict]
  have hstart : s.cursor.start = byteOrderMarkLength source + z.length := by
    have hbehind := (honward.place source hplace).length
    rw [hrest, List.length_append] at hlength
    rw [hs] at hbehind
    have hmark : (Session.start source symbols).cursor.start = byteOrderMarkLength source := rfl
    omega
  refine ⟨⟨f, t.faultCount⟩, hfails, ?_, hkind, htoken, hstart ▸ hspan⟩
  exact (relaxedly_of_error (hsame.symm ▸ hfails)).1

/-- **A scan for a single value is flat.** What it returns, relaxed or not, is one value at the most,
with neither a block nor a paren in it at any depth. A strict one fails at a bracket that nothing but
white space, line breaks and comments stand in front of: the fault covers the bracket, it is the only
one, and no name has been interned. -/
theorem transcode_single (source : Bytes) (symbols : SymbolTable) {options : Options}
    (honly : options.only = true) :
    (∀ t table, transcode source symbols options = (.ok t, table) →
      t.values.items.length ≤ 1 ∧ ∀ item ∈ t.values.items, item.value.Unbracketed) ∧
    (options.relaxed = false → ∀ (b : Bracket) (z rest : Bytes), Skipped z →
      source.drop (byteOrderMarkLength source) = z ++ b.openByte :: rest →
      ∃ failure, transcode source symbols options = (.error failure, symbols) ∧
        failure.count = 1 ∧ failure.fault.kind = .notAllowed b ∧ failure.fault.token = b.openKind ∧
        failure.fault.span =
          ⟨byteOrderMarkLength source + z.length, byteOrderMarkLength source + z.length + 1⟩) :=
  ⟨fun _ _ h => transcode_unbracketed honly h,
    fun hstrict _ _ _ hz hsource => transcode_opener_refused honly hstrict hz hsource⟩

/-- In `1 2` the scan stops behind the first value, and in `;x` with a line `[1]` behind it the bracket
is refused. -/
theorem transcode_single_number_and_block :
    let options := { Options.standard with only := true }
    (∃ t table, transcode [0x31, 0x20, 0x32] .initial options = (.ok t, table) ∧
      t.values.items.length ≤ 1 ∧ ∀ item ∈ t.values.items, item.value.Unbracketed) ∧
    ∃ failure, transcode [0x3B, 0x78, 0x0A, 0x5B, 0x31, 0x5D] .initial options =
        (.error failure, .initial) ∧
      failure.fault.kind = .notAllowed .block ∧ failure.fault.span = ⟨3, 4⟩ := by
  intro options
  have honly : options.only = true := rfl
  constructor
  · have hone : transcode [0x31, 0x20, 0x32] .initial options =
        (.ok ⟨⟨[⟨.integer 1, false, ⟨0, 1⟩⟩], false⟩, 1, []⟩, .initial) := rfl
    exact ⟨_, _, hone, (transcode_single _ _ honly).1 _ _ hone⟩
  · have hcomment : Skipped (semicolon :: [0x78] ++ lineFeed :: []) :=
      .comment (List.forall_mem_singleton.2 rfl) rfl .nil
    obtain ⟨failure, hfails, -, hkind, -, hspan⟩ :=
      (transcode_single [0x3B, 0x78, 0x0A, 0x5B, 0x31, 0x5D] .initial honly).2 rfl .block _
        [0x31, 0x5D] hcomment rfl
    exact ⟨failure, hfails, hkind, hspan⟩

end RebolScan
