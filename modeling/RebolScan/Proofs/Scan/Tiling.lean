import RebolScan.Proofs.Scan.StrictRound
import RebolScan.Proofs.Token.OneLine
import RebolScan.Proofs.Value.Moved
import RebolScan.Proofs.Value.Tiled
import RebolScan.Scan.Transcode

/-!
# A strict scan loses nothing

**The values of a strict scan tile its source** (`transcode_tiled`): at every level the spans follow
one another with nothing between them but white space and comments, brackets stand at the two ends
of a block or paren, and single slashes divide the segments of a path.

Between two rounds a level keeps `Tiling`, and a path `PathTiling`. What a round needs to know of
the levels inside it is `Tiles`, which `tiler_inside` then shows of every level by recursion on the
room that is left.
-/

set_option autoImplicit false

namespace RebolScan

open Ascii Scan

/-! ## Places -/

/-- The scan is at a place of `source`. -/
structure Session.At (source : Bytes) (s : Session) : Prop where
  sourced : s.cursor.source = source
  coherent : s.cursor.Coherent
  le : s.cursor.start ≤ source.length

namespace Session

variable {source : Bytes} {s t : Session}

theorem At.rest (h : s.At source) : s.cursor.rest = source.drop s.cursor.start := by
  rw [← h.sourced]
  exact h.coherent

theorem At.byte (h : s.At source) (i : Nat) :
    byteAt s.cursor.rest i = byteAt source (s.cursor.start + i) := by
  rw [h.rest, byteAt_drop]

theorem At.length (h : s.At source) : s.cursor.start + s.cursor.rest.length = source.length := by
  rw [h.rest, List.length_drop, Nat.add_sub_cancel' h.le]

/-- Nothing is left at the end of the source alone. -/
theorem At.at_end (h : s.At source) (hrest : s.cursor.rest = []) :
    s.cursor.start = source.length := by
  have hlength := h.length
  rwa [hrest, List.length_nil, Nat.add_zero] at hlength

/-- A round for every byte of the source and one more outlast what is left of it. -/
theorem At.lt_fuel (h : s.At source) : s.cursor.rest.length < source.length + 1 := by
  have := h.length
  omega

theorem at_start (source : Bytes) (symbols : SymbolTable) :
    (Session.start source symbols).At source := ⟨rfl, rfl, byteOrderMarkLength_le source⟩

theorem At.between (h : s.At source) (n : Nat) :
    between source s.cursor.start (s.cursor.start + n) = s.cursor.rest.take n := by
  rw [RebolScan.between, Nat.add_sub_cancel_left, h.rest]

theorem At.before (h : s.At source) (hst : s.Before t) (hle : t.cursor.start ≤ source.length) :
    t.At source := ⟨hst.source.trans h.sourced, hst.coherent h.coherent, hle⟩

/-- What is no matter of the cursor may change. -/
theorem At.of_cursor (h : s.At source) (hc : t.cursor = s.cursor) : t.At source := by
  obtain ⟨h1, h2, h3⟩ := h
  rw [← hc] at h1 h2 h3
  exact ⟨h1, h2, h3⟩

theorem At.advance (h : s.At source) {n : Nat} (hn : n ≤ s.cursor.rest.length) :
    At source { s with cursor := s.cursor.advance n } := by
  have := h.length
  refine ⟨h.sourced, h.coherent.advance n, ?_⟩
  show s.cursor.start + n ≤ source.length
  omega

theorem At.gap (h : s.At source) {n : Nat} (hn : n ≤ s.cursor.rest.length)
    (hs : Skipped (s.cursor.rest.take n)) : Gap source s.cursor.start (s.cursor.start + n) := by
  have := h.length
  refine ⟨Nat.le_add_right _ _, by omega, ?_⟩
  rwa [h.between]

/-! ## White space in front of a lexeme -/

theorem At.gap_looked (h : s.At source) : Gap source s.cursor.start s.looked.cursor.start := by
  have hpre : s.cursor.rest.takeWhile isSpace <+: s.cursor.rest := List.takeWhile_prefix _
  refine h.gap hpre.length_le ?_
  rw [← List.prefix_iff_eq_take.1 hpre]
  exact skipped_spaces _

theorem At.looked (h : s.At source) : s.looked.At source :=
  h.before (before_looked s) h.gap_looked.length

/-- No line breaks in the space in front of a lexeme. -/
theorem At.unbroken_looked (h : s.At source) :
    Unbroken source s.cursor.start s.looked.cursor.start := by
  show Unbroken source s.cursor.start
    (s.cursor.start + (s.cursor.rest.takeWhile isSpace).length)
  rw [← unbroken_drop, ← h.rest]
  apply unbroken_takeWhile
  intro b hb
  rw [isSpace, beq_iff_eq] at hb
  exact Lexeme.not_lineBreak_of_delimiter hb Delimiter.noConfusion Delimiter.noConfusion

theorem looked_not_space (s : Session) : isSpace (byteAt s.looked.cursor.rest 0) = false :=
  s.cursor.not_space_skipSpace

end Session

namespace Scan

open Session

variable {setup : Setup} {nested : Nested} {source : Bytes} {s t : Session}

/-! ## What a value was read from -/

/-- The bytes from `s` to `t` spell `v`, and nothing behind them has been looked at. -/
structure Spelled (source : Bytes) (s t : Session) (v : Value) : Prop where
  place : t.At source
  lt : s.cursor.start < t.cursor.start
  stop : t.cursor.stop = t.cursor.start
  tiled : v.Tiled source ⟨s.cursor.start, t.cursor.start⟩

/-- The levels inside collect items that tile the source, up to the closer or to the end of the last
segment. -/
structure Tiler (source : Bytes) (nested : Nested) : Prop where
  inside : ∀ {b : Bracket} {start : Nat} {s t : Session} {body : Block}, s.At source →
    nested (.inside b) start s = .ok body t →
      ∃ e stop, Tiles source (Item.Tiled source) body.items s.cursor.start e ∧
        Gap source e stop ∧ byteAt source stop = b.closeByte ∧ t.At source ∧
        t.cursor.start = stop + 1 ∧ t.cursor.stop = stop + 1
  path : ∀ {start : Nat} {s t : Session} {segments : Block}, s.At source →
    StartsSegment s.cursor.rest → nested .path start s = .ok segments t →
      Joined source (Item.Tiled source) segments.items s.cursor.start t.cursor.start ∧
        t.At source ∧ t.cursor.stop = t.cursor.start

/-- A value that stands for itself may be any text. -/
theorem spelled_of_scalar {v : Value} (h : v.isScalar = true) (ht : t.At source)
    (hlt : s.cursor.start < t.cursor.start) (hstop : t.cursor.stop = t.cursor.start) :
    Spelled source s t v := ⟨ht, hlt, hstop, .scalar h⟩

theorem tiled_plainWord (item : Item) (h : item.Tiled source) :
    Item.Tiled source { item with value := plainWord item.value } := by
  obtain ⟨v, line, span⟩ := item
  cases v with
  | word kind name => exact .scalar rfl
  | _ => exact h

/-- A path is its segments, with the colon behind it if it has one. -/
theorem Joins.spelled {head : TokenKind} {segments : Block} {v : Value} {u : Session} (hu : u.At source)
    (hstop : u.cursor.stop = u.cursor.start)
    (hsegments : Joined source (Item.Tiled source) segments.items s.cursor.start u.cursor.start)
    (h : Joins head segments u v t) : Spelled source s t v := by
  have hlt := hsegments.lt
  cases h with
  | litPath | getPath =>
    exact ⟨hu, hlt, hstop, .path _ rfl BlockKind.noConfusion (hsegments.plainWord tiled_plainWord)⟩
  | path => exact ⟨hu, hlt, hstop, .path .path rfl BlockKind.noConfusion hsegments⟩
  | setPath _ _ hc =>
    rw [hstop, Nat.sub_self] at hc
    have hn : u.cursor.stop + 1 - u.cursor.start = 1 := by omega
    have hcolon : byteAt source u.cursor.start = colon := by
      rw [← hc, hu.byte, Nat.add_zero]
    rw [hn]
    refine ⟨hu.advance (lt_length_of_byteAt (by rw [hc]; decide)), ?_, rfl, ?_⟩
    · show s.cursor.start < u.cursor.start + 1
      omega
    · exact .setPath hsegments hcolon

theorem mem_fields {items : List Item} {waiting : List Symbol} {fields : List (Symbol × Item)}
    (h : Constructor.fields items waiting = some fields) {name : Symbol} {item : Item}
    (hmem : (name, item) ∈ fields) : item ∈ items := by
  fun_induction Constructor.fields items waiting generalizing fields with
  | case1 waiting hw =>
    cases h
    cases hmem
  | case2 => cases h
  | case3 waiting first items name' hv ih => exact List.mem_cons_of_mem _ (ih h hmem)
  | case4 => cases h
  | case5 waiting first items hv hw ih =>
    obtain ⟨fs, hfs, rfl⟩ := Option.map_eq_some_iff.1 h
    rcases List.mem_append.1 hmem with hmem | hmem
    · obtain ⟨_, -, he⟩ := List.mem_map.1 hmem
      cases he
      exact List.mem_cons_self
    · exact List.mem_cons_of_mem _ (ih hfs hmem)

theorem isScalar_simple {name : String} {symbol : Symbol} {v : Value}
    (h : Constructor.simple name symbol = some v) :
    v.isScalar = true ∧ v.isNamed = false := by
  unfold Constructor.simple at h
  repeat' split at h
  all_goals cases h
  all_goals exact ⟨rfl, rfl⟩

/-- **What a construction makes** stands for itself and is no word and no issue, or has fields that are
items of a block among those it is made of. -/
theorem valueOf_cases {items : List Item} {symbols : SymbolTable} {v : Value}
    (h : Constructor.valueOf? items symbols = some v) :
    (v.isScalar = true ∧ v.isNamed = false) ∨
      ∃ body ∈ items, ∃ block fields, body.value = .block .block block ∧ v = .object fields ∧
        ∀ name item, (name, item) ∈ fields → item ∈ block.items := by
  unfold Constructor.valueOf? at h
  split at h
  · cases h
  · split at h
    · dsimp only at h
      split at h
      · exact .inl (isScalar_simple h)
      · rename_i body
        split at h
        · unfold Constructor.object at h
          split at h
          · rename_i block hblock
            obtain ⟨fields, hfields, rfl⟩ := Option.map_eq_some_iff.1 h
            exact .inr ⟨body, List.mem_cons_of_mem _ List.mem_cons_self, block, fields,
              Value.block?_eq_some hblock, rfl, fun _ _ hmem => mem_fields hfields hmem⟩
          · cases h
        · cases h
      · cases h
    · cases h

/-- What is constructed of tiled items is tiled. -/
theorem tiled_valueOf {items : List Item} {symbols : SymbolTable} {v : Value} {a e : Nat}
    {span : Span} (hstart : span.start ≤ a) (hstop : e ≤ span.stop)
    (hitems : Tiles source (Item.Tiled source) items a e)
    (h : Constructor.valueOf? items symbols = some v) : v.Tiled source span := by
  rcases valueOf_cases h with ⟨hscalar, -⟩ | ⟨body, hbody, block, fields, hvalue, rfl, hfields⟩
  · exact .scalar hscalar
  · obtain ⟨h1, -, h3, htiled⟩ := hitems.mem hbody
    rw [Item.Tiled, hvalue] at htiled
    refine .object (fun name item hmem => ?_) fun name item hmem => ?_
    · obtain ⟨h4, h5, h6, -⟩ := htiled.mem (hfields name item hmem)
      exact ⟨by omega, h5, by omega⟩
    · exact (htiled.mem (hfields name item hmem)).2.2.2

/-- What an element that is no path head comes to has taken its bytes. -/
theorem CarriedOut.taken_bounds {start : Nat} {r : Element.Reading} {out : Outcome} {level : Level}
    {text : Bytes} (hr : Element.Reads level text r)
    (h : CarriedOut setup nested start s r.element out t) : 1 ≤ r.taken ∧ r.taken ≤ text.length := by
  refine hr.taken_bounds (fun he => ?_) h.ne_pathHead
  rw [he] at h
  cases h

section

variable (hn : Tiler source nested) (hmake : setup.construct = .standard)

include hn hmake

/-- **The value of an element is spelled by its bytes.** -/
theorem Performed.spelled {level : Level} {r : Element.Reading} {v : Value} (hs : s.At source)
    (hr : Element.Reads level s.cursor.rest r)
    (h : Performed setup nested r s.cursor.start s (.value v) t) : Spelled source s t v := by
  cases h with
  | head he hpath =>
    obtain ⟨segments, u, hsegments, hjoin⟩ := bind_eq_ok.1 hpath
    obtain ⟨hjoined, hu, hstop⟩ := hn.path hs (hr.of_pathHead he) hsegments
    exact (joinPath_eq_ok hjoin).spelled hu hstop hjoined
  | consumed h =>
    obtain ⟨h1, h2⟩ := h.taken_bounds hr
    have hu := hs.advance h2
    have hlt : s.cursor.start < s.cursor.start + r.taken := Nat.lt_add_of_pos_right h1
    generalize he : r.element = e at h
    cases h with
    | value => exact spelled_of_scalar (hr.isScalar_of_value he) hu hlt rfl
    | word kind name => exact spelled_of_scalar rfl ⟨hu.1, hu.2, hu.3⟩ hlt rfl
    | issue name => exact spelled_of_scalar rfl ⟨hu.1, hu.2, hu.3⟩ hlt rfl
    | opener b hbody =>
      obtain ⟨e, stop, htiles, hgap, hclose, ht, hstart, hstop⟩ := hn.inside hu hbody
      obtain ⟨hopen, htaken⟩ := hr.of_opener he
      have hle : s.cursor.start + r.taken ≤ e := htiles.le
      have := hgap.le
      refine ⟨ht, by omega, by omega, ?_⟩
      rw [htaken] at htiles
      rw [hs.byte, Nat.add_zero] at hopen
      rw [hstart]
      exact .bracketed b hopen htiles hgap hclose
    | construct hc =>
      obtain ⟨spec, u, hspec, hc⟩ := bind_eq_ok.1 hc
      obtain ⟨hv, rfl⟩ := construct_eq_ok hc
      obtain ⟨e, stop, htiles, hgap, -, hu, hstart, hstop⟩ := hn.inside hu hspec
      have hle : s.cursor.start + r.taken ≤ e := htiles.le
      have := hgap.le
      rw [hmake] at hv
      refine ⟨⟨hu.1, hu.2, hu.3⟩, by dsimp only; omega, hstop.trans hstart.symm, ?_⟩
      show Value.Tiled source ⟨s.cursor.start, u.cursor.start⟩ v
      refine tiled_valueOf ?_ ?_ htiles hv
      · exact Nat.le_add_right _ _
      · dsimp only
        omega

end

/-! ## Rounds between brackets and at the top -/

/-- From `e` to where the scan is the source says nothing. Only before NUL has a comment been cut
off there. -/
def Silent (source : Bytes) (e : Nat) (s : Session) : Prop :=
  Gap source e s.cursor.start ∨
    (OpenGap source e s.cursor.start ∧ byteAt s.cursor.rest 0 = nul)

/-- Between two rounds of a level that starts at `a`, what it has collected tiles the source. -/
structure Tiling (source : Bytes) (a : Nat) (c : Collected) (s : Session) : Prop where
  place : s.At source
  tiles : ∃ e, Tiles source (Item.Tiled source) c.items.reverse a e ∧ Silent source e s

theorem Tiling.push {a e : Nat} {c : Collected} {v : Value}
    (hc : Tiles source (Item.Tiled source) c.items.reverse a e)
    (hgap : Gap source e s.cursor.start) (hv : Spelled source s t v) :
    Tiling source a (c.push v ⟨s.cursor.start, t.cursor.start⟩) t := by
  refine ⟨hv.place, t.cursor.start, ?_, .inl (.refl hv.place.le)⟩
  show Tiles source (Item.Tiled source) (_ :: c.items).reverse a t.cursor.start
  rw [List.reverse_cons]
  exact .snoc hc hgap hv.lt hv.place.le hv.tiled

/-- What a line break takes says nothing. -/
theorem gap_of_lineBreak {level : Level} {r : Element.Reading} (hs : s.At source)
    (hspace : isSpace (byteAt s.cursor.rest 0) = false)
    (hr : Element.Reads level s.cursor.rest r) (he : r.element = .lineBreak) :
    Gap source s.cursor.start (s.cursor.start + r.taken) := by
  obtain ⟨-, hle⟩ := hr.taken_bounds (by rw [he]; exact Element.noConfusion) fun kind => by
    rw [he]
    exact Element.noConfusion
  refine hs.gap hle ?_
  cases hr with
  | lineBreak h => exact skipped_lineBreak h
  | commentLine h hb =>
    rw [hspace] at h
    exact skipped_commentLine (h.resolve_right Bool.noConfusion) hb
  | leaf e n h =>
    subst he
    cases h
  | _ => cases he

/-- A comment without a line break is cut off by NUL, if not by the end of the source. -/
theorem silent_of_comment {level : Level} {r : Element.Reading} {e : Nat} (hs : s.At source)
    (hspace : isSpace (byteAt s.cursor.rest 0) = false)
    (hr : Element.Reads level s.cursor.rest r) (he : r.element = .comment)
    (hgap : Gap source e s.cursor.start) :
    Silent source e { s with cursor := s.cursor.advance r.taken } := by
  obtain ⟨hpos, hle⟩ := hr.taken_bounds (by rw [he]; exact Element.noConfusion) fun kind => by
    rw [he]
    exact Element.noConfusion
  have hlen := hs.length
  cases hr with
  | comment h hb =>
    rw [hspace] at h
    have h := h.resolve_right Bool.noConfusion
    rw [hs.byte, Nat.add_zero] at h
    refine .inr ⟨⟨s.cursor.start, hgap, h, Nat.lt_add_of_pos_right hpos, ?_, ?_⟩, ?_⟩
    · show s.cursor.start + lineLength s.cursor.rest ≤ source.length
      dsimp only at hle
      omega
    · intro c hc
      have hc : c ∈ between source s.cursor.start (s.cursor.start + lineLength s.cursor.rest) := hc
      rw [hs.between, take_lineLength] at hc
      exact not_lineEnd_of_mem hc
    · show byteAt (s.cursor.rest.drop (lineLength s.cursor.rest)) 0 = nul
      rwa [byteAt_drop, Nat.add_zero]
  | leaf e n h =>
    subst he
    cases h
  | _ => cases he

/-- How a round left a level: it goes on, no value but the first was asked for, the source has ended,
or the closer of the level has been consumed. -/
inductive TilingTurn (setup : Setup) (source : Bytes) (level : Level) (a : Nat) :
    Collected → Bool → Session → Prop
  | goesOn {c' : Collected} {t : Session} (h : Tiling source a c' t) :
      TilingTurn setup source level a c' true t
  | stopped {c' : Collected} {t : Session} (hl : level = .top)
      (hstops : setup.options.stopsAfterValue = true) (h : Tiling source a c' t) :
      TilingTurn setup source level a c' false t
  | atEnd {c' : Collected} {t : Session} {e : Nat} (hl : level = .top)
      (h : Tiles source (Item.Tiled source) c'.items.reverse a e)
      (hend : Gap source e source.length ∨ OpenGap source e source.length) :
      TilingTurn setup source level a c' false t
  | closed {c' : Collected} {t : Session} {e stop : Nat} (b : Bracket) (hl : level = .inside b)
      (h : Tiles source (Item.Tiled source) c'.items.reverse a e) (hgap : Gap source e stop)
      (hclose : byteAt source stop = b.closeByte) (ht : t.At source)
      (hstart : t.cursor.start = stop + 1) (hstop : t.cursor.stop = stop + 1) :
      TilingTurn setup source level a c' false t

section

variable (hn : Tiler source nested) (hmake : setup.construct = .standard)

include hn hmake

theorem item_tiling {level : Level} {r : Element.Reading} {a e : Nat} {c c' : Collected}
    {goesOn : Bool} {out : Outcome} {u : Session} (hl : level ≠ .path) (hs : s.At source)
    (hspace : isSpace (byteAt s.cursor.rest 0) = false) (hr : Element.Reads level s.cursor.rest r)
    (hc : Tiles source (Item.Tiled source) c.items.reverse a e) (hgap : Gap source e s.cursor.start)
    (hperform : Performed setup nested r s.cursor.start s out u)
    (hsettle : Settled setup level s.cursor.start c u (.ok out) c' goesOn t) :
    TilingTurn setup source level a c' goesOn t := by
  cases hsettle with
  | lineBreak =>
    obtain ⟨he, rfl⟩ := hperform.of_lineBreak
    have hu := hs.advance (hr.taken_bounds (by simp [he]) (by simp [he])).2
    have hbreak := gap_of_lineBreak hs hspace hr he
    exact .goesOn ⟨⟨hu.1, hu.2, hu.3⟩, e, hc, .inl (hgap.trans hbreak)⟩
  | comment =>
    obtain ⟨he, rfl⟩ := hperform.of_comment
    have hu := hs.advance (hr.taken_bounds (by simp [he]) (by simp [he])).2
    exact .goesOn ⟨hu, e, hc, silent_of_comment hs hspace hr he hgap⟩
  | slot => exact absurd (hr.of_slot hperform.of_slot.1).1 hl
  | value v h =>
    have hnext := Tiling.push hc hgap (hperform.spelled hn hmake hs hr)
    obtain ⟨rfl, rfl, ⟨rfl, -⟩ | ⟨rfl, htop, hstops⟩⟩ := afterItem_eq_ok hl h
    · exact .goesOn hnext
    · exact .stopped htop hstops hnext

/-- **A round of a strict scan loses nothing.** -/
theorem turn_tiling (hstrict : setup.options.relaxed = false) {level : Level} {opened : Site} {a : Nat}
    {c c' : Collected} {goesOn : Bool} (hl : level ≠ .path) (hc : Tiling source a c s)
    (h : turn setup nested level opened c s = .ok (c', goesOn) t) :
    TilingTurn setup source level a c' goesOn t := by
  have hread := s.reading_reads level
  have hlooked := hc.place.looked
  obtain ⟨e, htiles, hgap | ⟨hopen, hnul⟩⟩ := hc.tiles
  · have hgap := hgap.trans hc.place.gap_looked
    cases turn_strict hstrict h with
    | atEnd he htop =>
      rw [hlooked.at_end (hread.of_endOfInput he)] at hgap
      exact .atEnd (htop.resolve_right hl) htiles (.inl hgap)
    | left b he hpath => exact absurd hpath hl
    | closed b he hb =>
      have hclose := hread.of_closer he
      have hlt : 1 ≤ s.looked.cursor.rest.length :=
        lt_length_of_byteAt (by rw [hclose]; cases b <;> decide)
      rw [hlooked.byte, Nat.add_zero] at hclose
      exact .closed b hb htiles hgap hclose (hlooked.advance hlt) rfl rfl
    | item out u _ hperform hsettle =>
      exact item_tiling hn hmake hl hlooked (looked_not_space s) hread htiles hgap hperform hsettle
  · -- Behind a comment that was cut off there is NUL: the end, or a byte that is refused.
    obtain ⟨-, hrest⟩ := looked_of_not_space (s := s) (by rw [hnul]; rfl)
    cases turn_strict hstrict h with
    | atEnd he htop =>
      rw [hc.place.at_end (hrest.symm.trans (hread.of_endOfInput he))] at hopen
      exact .atEnd (htop.resolve_right hl) htiles (.inr hopen)
    | left b he hpath => exact absurd hpath hl
    | closed b he =>
      have hclose := hread.of_closer he
      rw [hrest, hnul] at hclose
      cases b <;> cases hclose
    | item out u hitem hperform =>
      have hne := hread.ne_nil (Element.ne_endOfInput_of_isItem hitem)
      cases hs : s.cursor.rest with
      | nil => exact absurd (hrest.trans hs) hne
      | cons b rest =>
        rw [hs, byteAt_cons_zero] at hnul
        have hinvalid : (s.reading level).element = .invalid .word 1 := by
          rw [reading, hrest, hs, hnul]
          exact Element.of_nul level rest
        exact absurd hinvalid (hperform.ne_invalid _ _)

end

/-! ## Rounds of a path -/

/-- Between two rounds of a path that starts at `a`, its segments tile the source and another one is
next. The first one may be empty. -/
structure PathTiling (source : Bytes) (a : Nat) (c : Collected) (s : Session) : Prop where
  place : s.At source
  segments : Segments source (Item.Tiled source) c.items.reverse a s.cursor.start
  next : (isDelimiter (byteAt s.cursor.rest 0) = false ∨ byteAt s.cursor.rest 0 = parenOpen) ∨
    (c.items = [] ∧ StartsSegment s.cursor.rest)

/-- A path that starts at `a` has ended with its last segment. -/
structure PathEnd (source : Bytes) (a : Nat) (c : Collected) (t : Session) : Prop where
  joined : Joined source (Item.Tiled source) c.items.reverse a t.cursor.start
  place : t.At source
  stop : t.cursor.stop = t.cursor.start

theorem PathTiling.starts {a : Nat} {c : Collected} (h : PathTiling source a c s) :
    StartsSegment s.cursor.rest ∨ byteAt s.cursor.rest 0 = parenOpen := by
  rcases h.next with (hd | hp) | ⟨-, hs⟩
  · exact .inl (.inl hd)
  · exact .inr hp
  · exact .inl hs

/-- A slash is next only in front of the first segment, which is empty then. -/
theorem PathTiling.of_slash {a : Nat} {c : Collected} (h : PathTiling source a c s)
    (hslash : byteAt s.cursor.rest 0 = slash) :
    c.items = [] ∧ isDelimiter (byteAt s.cursor.rest 1) = false := by
  have hdelimiter : isDelimiter slash = true := by decide
  rcases h.next with (hd | hp) | ⟨hnil, hd | ⟨-, hd⟩⟩
  · rw [hslash, hdelimiter] at hd
    cases hd
  · rw [hslash] at hp
    exact absurd hp (by decide)
  · rw [hslash, hdelimiter] at hd
    cases hd
  · exact ⟨hnil, hd⟩

theorem PathTiling.not_space {a : Nat} {c : Collected} (h : PathTiling source a c s) :
    isSpace (byteAt s.cursor.rest 0) = false := by
  rcases h.starts with hs | hp
  · rw [← Bool.not_eq_true]
    exact fun hspace => Element.not_startsSegment_of_isSpace hspace hs
  · rw [hp]
    decide

/-- Looking at the next segment stays in front of it. -/
theorem PathTiling.looked {a : Nat} {c : Collected} (h : PathTiling source a c s) :
    PathTiling source a c s.looked := by
  obtain ⟨hstart, hrest⟩ := looked_of_not_space h.not_space
  refine ⟨h.place.looked, ?_, ?_⟩
  · rw [hstart]
    exact h.segments
  · rw [hrest]
    exact h.next

theorem PathTiling.slot {a : Nat} {c : Collected} {r : Element.Reading}
    (h : PathTiling source a c s) (hr : Element.Reads .path s.cursor.rest r)
    (hp : Performed setup nested r s.cursor.start s .slot t) :
    PathTiling source a (c.push .none ⟨s.cursor.start, t.cursor.start⟩) t := by
  obtain ⟨he, rfl⟩ := hp.of_slot
  obtain ⟨-, hslash, htaken⟩ := hr.of_slot he
  obtain ⟨hnil, hnext⟩ := h.of_slash hslash
  have ht := h.place.advance (hr.taken_bounds (by simp [he]) (by simp [he])).2
  have hsegments := h.segments
  rw [htaken] at ht ⊢
  rw [hnil] at hsegments
  -- Nothing has been collected yet, so the path starts at the slash.
  obtain rfl : a = s.cursor.start := hsegments.of_nil
  rw [h.place.byte, Nat.add_zero] at hslash
  refine ⟨ht, ?_, .inl (.inl ?_)⟩
  · show Segments source _ (_ :: c.items).reverse _ (s.cursor.start + 1)
    rw [hnil]
    exact .slot rfl rfl hslash
  · show isDelimiter (byteAt (s.cursor.rest.drop 1) 0) = false
    rwa [byteAt_drop]

theorem PathTiling.value {a : Nat} {c : Collected} {v : Value} {u : Session} {goesOn : Bool}
    (h : PathTiling source a c s) (hv : Spelled source s u v) (hparted : Parted u goesOn t) :
    (goesOn = true ∧ PathTiling source a (c.push v ⟨s.cursor.start, u.cursor.start⟩) t) ∨
      (goesOn = false ∧ PathEnd source a (c.push v ⟨s.cursor.start, u.cursor.start⟩) t) := by
  rcases hparted.settled hv.stop with ⟨rfl, rfl, -⟩ | ⟨rfl, rfl, hslash, hnext⟩
  · refine .inr ⟨rfl, ?_, hv.place, hv.stop⟩
    show Joined source _ (_ :: c.items).reverse a t.cursor.start
    rw [List.reverse_cons]
    exact .mk h.segments rfl hv.lt hv.place.le hv.tiled
  · have hu := hv.place.advance (n := 1) (lt_length_of_byteAt (by rw [hslash]; decide))
    rw [hv.place.byte, Nat.add_zero] at hslash
    refine .inl ⟨rfl, hu, ?_, .inl ?_⟩
    · show Segments source _ (_ :: c.items).reverse a (u.cursor.start + 1)
      rw [List.reverse_cons]
      exact .snoc h.segments rfl hv.lt hv.tiled hslash
    · show isDelimiter (byteAt (u.cursor.rest.drop 1) 0) = false ∨
        byteAt (u.cursor.rest.drop 1) 0 = parenOpen
      rwa [byteAt_drop]

/-- **A round of a path loses nothing either.** -/
theorem path_turn_tiling (hn : Tiler source nested) (hmake : setup.construct = .standard)
    (hstrict : setup.options.relaxed = false) {opened : Site} {a : Nat} {c c' : Collected}
    {goesOn : Bool} (hc : PathTiling source a c s)
    (h : turn setup nested .path opened c s = .ok (c', goesOn) t) :
    (goesOn = true ∧ PathTiling source a c' t) ∨ (goesOn = false ∧ PathEnd source a c' t) := by
  have hc := hc.looked
  have hread := s.reading_reads .path
  rcases segment_strict hstrict (hread.of_segment hc.starts) h with
    ⟨hperform, rfl, rfl⟩ | ⟨v, u, hperform, rfl, hparted⟩
  · exact .inl ⟨rfl, hc.slot hread hperform⟩
  · exact hc.value (hperform.spelled hn hmake hc.place hread) hparted

/-! ## Levels -/

/-- **What the rounds of a level keep, the level comes to.** `P` holds between its rounds, and `Q` of what
it has collected when it has ended. -/
theorem level_induct {room : Nat} {level : Level} {body : Block} {P : Collected → Session → Prop}
    {Q : Block → Session → Prop} (hs : s.At source)
    (h : Scan.level setup (source.length + 1) room level s = .ok body t) (hP : P .empty s)
    (hgo : ∀ opened c u c' v, P c u →
      turn setup (inside setup (source.length + 1) room) level opened c u = .ok (c', true) v → P c' v)
    (hend : ∀ opened c u c' v, P c u →
      turn setup (inside setup (source.length + 1) room) level opened c u = .ok (c', false) v →
        Q c'.toBlock v) : Q body t := by
  rw [level_eq, levelWith_eq_ok] at h
  obtain ⟨c, hrun, rfl⟩ := h
  exact rounds_induct (Q := fun c t => Q c.toBlock t) (inside_forward setup _ room)
    (inside_consumes setup _ room) (hgo _) (hend _) hs.lt_fuel hP hrun

section

variable (hmake : setup.construct = .standard) (hstrict : setup.options.relaxed = false)

include hmake hstrict

/-- What the levels inside collect tiles the source, however deep they may nest. -/
theorem tiler_inside (source : Bytes) (room : Nat) :
    Tiler source (inside setup (source.length + 1) room) := by
  induction room with
  | zero =>
    constructor
    · intro b start s t body hs h
      cases h
    · intro start s t segments hs hstarts h
      cases h
  | succ room ih =>
    constructor
    · intro b start s t body hs h
      have hl : Level.inside b ≠ .path := Level.noConfusion
      refine level_induct (P := Tiling source s.cursor.start) (Q := fun body t =>
        ∃ e stop, Tiles source (Item.Tiled source) body.items s.cursor.start e ∧
          Gap source e stop ∧ byteAt source stop = b.closeByte ∧ t.At source ∧
          t.cursor.start = stop + 1 ∧ t.cursor.stop = stop + 1)
        hs h ⟨hs, _, .nil _, .inl (.refl hs.le)⟩ ?_ ?_
      · intro opened c u c' v hu hturn
        cases turn_tiling ih hmake hstrict hl hu hturn with
        | goesOn h => exact h
      · intro opened c u c' v hu hturn
        cases turn_tiling ih hmake hstrict hl hu hturn with
        | stopped hl => cases hl
        | atEnd hl => cases hl
        | closed b' hl h hgap hclose hv hstart hstop =>
          cases hl
          exact ⟨_, _, h, hgap, hclose, hv, hstart, hstop⟩
    · intro start s t segments hs hstarts h
      refine level_induct (P := PathTiling source s.cursor.start) (Q := fun segments t =>
        Joined source (Item.Tiled source) segments.items s.cursor.start t.cursor.start ∧
          t.At source ∧ t.cursor.stop = t.cursor.start)
        hs h ⟨hs, .nil _, .inr ⟨rfl, hstarts⟩⟩ ?_ ?_
      · intro opened c u c' v hu hturn
        rcases path_turn_tiling ih hmake hstrict hu hturn with ⟨-, h⟩ | ⟨h, -⟩
        · exact h
        · cases h
      · intro opened c u c' v hu hturn
        rcases path_turn_tiling ih hmake hstrict hu hturn with ⟨h, -⟩ | ⟨-, hend⟩
        · cases h
        · exact ⟨hend.joined, hend.place, hend.stop⟩

end

end Scan

/-- The values of a strict scan tile the source from behind a byte order mark, whatever part of it was
asked for; if that was all of it, nothing is left but white space and comments. -/
theorem tiles_of_transcode {source : Bytes} {symbols table : SymbolTable} {options : Options}
    {t : Transcoded} (hstrict : options.relaxed = false)
    (h : transcode source symbols options = (.ok t, table)) :
    ∃ e, Tiles source (Item.Tiled source) t.values.items (byteOrderMarkLength source) e ∧
      (options.stopsAfterValue = false → Gap source e source.length ∨ OpenGap source e source.length) := by
  obtain ⟨s, hs, -, -⟩ := transcodeWith_eq_ok.1 h
  have hplace := Session.at_start source symbols
  have hn : Tiler source (inside ⟨options, .standard⟩ (source.length + 1) options.maxDepth) :=
    tiler_inside rfl hstrict source options.maxDepth
  refine level_induct (P := Tiling source (byteOrderMarkLength source)) (Q := fun values _ =>
    ∃ e, Tiles source (Item.Tiled source) values.items (byteOrderMarkLength source) e ∧
      (options.stopsAfterValue = false →
        Gap source e source.length ∨ OpenGap source e source.length))
    hplace hs ⟨hplace, _, .nil _, .inl (.refl hplace.le)⟩ ?_ ?_
  · intro opened c u c' v hu hturn
    cases turn_tiling hn rfl hstrict Level.noConfusion hu hturn with
    | goesOn h => exact h
  · intro opened c u c' v hu hturn
    cases turn_tiling hn rfl hstrict Level.noConfusion hu hturn with
    | stopped hl hstops h =>
      have hstops : options.stopsAfterValue = true := hstops
      obtain ⟨e, htiles, -⟩ := h.tiles
      refine ⟨e, htiles, fun hall => ?_⟩
      rw [hall] at hstops
      cases hstops
    | atEnd hl h hend => exact ⟨_, h, fun _ => hend⟩
    | closed b hl => cases hl

/-- **A strict scan of a whole source loses nothing of it**: its values tile the source from behind
a byte order mark to where they end, and what is left of it then is white space and comments, of
which the end of the source may cut off the last. -/
theorem transcode_tiled {source : Bytes} {symbols table : SymbolTable} {options : Options}
    {t : Transcoded} (hstrict : options.relaxed = false) (hnext : options.next = false)
    (honly : options.only = false) (h : transcode source symbols options = (.ok t, table)) :
    ∃ e, Tiles source (Item.Tiled source) t.values.items (byteOrderMarkLength source) e ∧
      (Gap source e source.length ∨ OpenGap source e source.length) := by
  have hall : options.stopsAfterValue = false := by
    rw [Options.stopsAfterValue, hnext, honly]
    rfl
  obtain ⟨e, htiles, hend⟩ := tiles_of_transcode hstrict h
  exact ⟨e, htiles, hend hall⟩

/-- `a/1: (2);`, whose comment the end of the source cuts off. -/
theorem transcode_tiled_setPath :
    ∃ source t table, transcode source .initial .standard = (.ok t, table) ∧
      source = [0x61, 0x2F, 0x31, 0x3A, 0x20, 0x28, 0x32, 0x29, 0x3B] ∧
      t.values.items.map (·.span) = [⟨0, 4⟩, ⟨5, 8⟩] ∧
      ∃ e, Tiles source (Item.Tiled source) t.values.items (byteOrderMarkLength source) e ∧
        (Gap source e source.length ∨ OpenGap source e source.length) := by
  have hspans : ((transcode [0x61, 0x2F, 0x31, 0x3A, 0x20, 0x28, 0x32, 0x29, 0x3B] .initial
      .standard).1.toOption.map fun t => t.values.items.map (·.span)) = some [⟨0, 4⟩, ⟨5, 8⟩] := by
    decide +kernel
  cases h : transcode [0x61, 0x2F, 0x31, 0x3A, 0x20, 0x28, 0x32, 0x29, 0x3B] .initial .standard with
  | mk result table =>
    rw [h] at hspans
    cases result with
    | error failure => cases hspans
    | ok t => exact ⟨_, t, table, h, rfl, Option.some.inj hspans, transcode_tiled rfl rfl rfl h⟩

end RebolScan
