import RebolScan.Proofs.Scan.Resumed
import RebolScan.Proofs.Scan.Round

/-!
# Scanning value by value

A caller who asks for one value at a time, and goes on behind what was consumed, **gets what one
scan of the whole source gives, value by value** (`oneByOne_eq_whole`). The one thing that is said
about the source is that no byte order mark stands in it but at its start: a mark in front of what is
left would be skipped, where the scan of the whole reads it as text.

What a round at the top does to the list of values is the same whatever the scan is asked for
(`turn_top`). Together with `turn_alike` that makes a scan for one value the first part of the scan
of the rest (`rounds_next`), and `Remaining` is what holds between two such scans.
-/

set_option autoImplicit false

namespace RebolScan

/-- The same options for a scan that stops after one value. -/
def Options.forOne (o : Options) : Options := { o with next := true }

open Session

namespace Scan

variable {setup : Setup} {nested : Nested}

/-! ## A scan for one value -/

section

variable {n k : Nat} {o p : Options} {inner inner' : Nested}

theorem Follows.length_eq {old : List Item} {c d : Collected} (h : c.Follows k old d) :
    c.items.length = d.items.length + old.length := by
  obtain ⟨new, hc, hd⟩ := h.items
  rw [hc, List.length_append, ← List.length_map (f := Item.moved 0), hd, List.length_map]

theorem Follows.items_eq {old : List Item} {c d : Collected} (h : c.Follows k old d)
    (hd : d.items = []) : c.items = old := by
  obtain ⟨new, hc, hnew⟩ := h.items
  rw [hd, List.map_nil, List.map_eq_nil_iff] at hnew
  rw [hc, hnew, List.nil_append]

variable (hn : NestedMatches n k inner inner') (hr : p.relaxed = o.relaxed) (ho : p.only = o.only)
  (hf : ∀ l start, Forward (inner l start)) (hc : Consumes inner)
  (hall : o.stopsAfterValue = false) (hone : p.stopsAfterValue = true)

include hn hr ho hf hc hall hone

/-- **A scan for one value does what the scan of the rest does first**, and stops where that one has
collected a value, or where it ends. -/
theorem rounds_next {old : List Item} {opened opened' : Site} {fuel fuel' : Nat}
    {c d last : Collected} (hcd : c.Follows k old d) (hd : d.items = []) {s t u : Session}
    (hst : s.Resumed k t) (hsize : s.cursor.rest.length ≤ n) (hfuel : s.cursor.rest.length < fuel)
    (hfuel' : s.cursor.rest.length < fuel')
    (h : rounds ⟨o, .standard⟩ inner .top opened fuel c s = .ok last u) :
    ∃ d' v, rounds ⟨p, .standard⟩ inner' .top opened' fuel' d t = .ok d' v ∧
      ∃ c₁ s₁, c₁.Follows k old d' ∧ s₁.InStep n k v ∧ s.Before s₁ ∧
        (d'.items = [] ∧ s₁.cursor.rest = [] ∧ last.items = old ∨
          (∃ item, d'.items = [item]) ∧ c₁.newLine = false ∧ s.Shorter s₁ ∧
            ∃ fuel₁, s₁.cursor.rest.length < fuel₁ ∧
              rounds ⟨o, .standard⟩ inner .top opened fuel₁ c₁ s₁ = .ok last u) := by
  induction fuel generalizing fuel' c d s t with
  | zero => exact absurd hfuel (Nat.not_lt_zero _)
  | succ fuel ih =>
    cases fuel' with
    | zero => exact absurd hfuel' (Nat.not_lt_zero _)
    | succ fuel' =>
      obtain ⟨⟨c₁, goesOn⟩, s₁, hx, h⟩ := bind_eq_ok.1 h
      have hturn := turn_alike hn hr ho .top hcd opened opened' hst hsize
      obtain ⟨_, ⟨d₁, goesOn'⟩, _, t₁, hx', hy, ⟨hcd₁, -⟩, hst₁⟩ | ⟨_, _, _, _, hx', -⟩ := hturn.cases
      · cases hx.symm.trans hx'
        have hlen := Follows.length_eq hcd
        have hlen₁ := Follows.length_eq hcd₁
        have hbefore : s.Before s₁ := (turn_forward hf _ _ _).ok hx
        have hrest : t.looked.cursor.rest = s.looked.cursor.rest := (look_resumed hst hsize).rest
        rw [rounds, bind_of_ok hy]
        cases turn_top hx with
        | last h0 =>
          cases turn_top hy with
          | last _ =>
            cases h
            exact ⟨d, t.looked, rfl, _, s.looked, hcd₁, hst₁, hbefore,
              .inl ⟨hd, h0, Follows.items_eq hcd hd⟩⟩
          | none h1 _ => exact absurd (hrest.trans h0) h1
          | one h1 _ _ _ => exact absurd (hrest.trans h0) h1
        | none h0 hc₁ =>
          have hshort : s.Shorter s₁ := turn_shorter hf hc hx
          cases turn_top hy with
          | last h1 => exact absurd (hrest.symm.trans h1) h0
          | none _ hd₁ =>
            obtain ⟨d', v, hrun, c₂, s₂, hcd₂, hst₂, hbefore₂, hend⟩ := ih hcd₁ (hd₁.trans hd)
              hst₁.toResumed hst₁.size (Nat.lt_of_lt_of_le hshort (Nat.le_of_lt_succ hfuel))
              (Nat.lt_of_lt_of_le hshort (Nat.le_of_lt_succ hfuel')) h
            refine ⟨d', v, hrun, c₂, s₂, hcd₂, hst₂, hbefore.trans hbefore₂, ?_⟩
            rcases hend with hend | ⟨hitem, hline, hshort₂, hgoes⟩
            · exact .inl hend
            · exact .inr ⟨hitem, hline, Nat.lt_trans hshort₂ hshort, hgoes⟩
          | one _ item hd₁ _ =>
            rw [hd₁, hc₁, List.length_cons] at hlen₁
            omega
        | one h0 item hc₁ hg =>
          obtain rfl : goesOn = true := by rw [hg, show o.stopsAfterValue = false from hall]; rfl
          have hshort : s.Shorter s₁ := turn_shorter hf hc hx
          cases turn_top hy with
          | last h1 => exact absurd (hrest.symm.trans h1) h0
          | none _ hd₁ =>
            rw [hd₁, hc₁, List.length_cons] at hlen₁
            omega
          | one _ item' hd₁ hg' =>
            obtain rfl : goesOn' = false := by rw [hg', show p.stopsAfterValue = true from hone]; rfl
            refine ⟨d₁, t₁, rfl, c₁, s₁, hcd₁, hst₁, hbefore,
              .inr ⟨⟨item', ?_⟩, ?_, hshort, fuel, ?_, h⟩⟩
            · rw [hd₁, hd]
            · rw [hc₁]
            · exact Nat.lt_of_lt_of_le hshort (Nat.le_of_lt_succ hfuel)
      · cases hx.symm.trans hx'

omit hn hr ho hone hall in
/-- A level only adds to what it has collected. -/
theorem rounds_suffix {opened : Site} {fuel : Nat} {c last : Collected} {s t : Session}
    (hfuel : s.cursor.rest.length < fuel)
    (h : rounds ⟨o, .standard⟩ inner .top opened fuel c s = .ok last t) :
    c.items <:+ last.items := by
  refine rounds_induct hf hc (P := fun c' _ => c.items <:+ c'.items)
    (Q := fun c' _ => c.items <:+ c'.items) ?_ ?_ hfuel (List.suffix_refl _) h
  · exact fun _ _ _ _ hsuffix hturn => hsuffix.trans (turn_top hturn).suffix
  · exact fun _ _ _ _ hsuffix hturn => hsuffix.trans (turn_top hturn).suffix

end

/-- What the scan of the whole still collects from `offset` on. -/
inductive Remaining (o : Options) (source : Bytes) (offset : Nat) (symbols : SymbolTable)
    (items : List Item) : Prop
  | mk {s t : Session} {opened : Site} {fuel : Nat} {c last : Collected}
      (hsource : s.cursor.source = source) (hcoherent : s.cursor.Coherent)
      (hresumed : s.Resumed offset (Session.start (source.drop offset) symbols))
      (hfuel : s.cursor.rest.length < fuel) (hline : c.newLine = false)
      (hrun : rounds ⟨o, .standard⟩ (inside ⟨o, .standard⟩ (source.length + 1) o.maxDepth) .top opened
        fuel c s = .ok last t)
      (hitems : last.items.reverse = c.items.reverse ++ items)

theorem byteOrderMarkLength_of_not {source : Bytes} (h : byteOrderMark.isPrefixOf source = false) :
    byteOrderMarkLength source = 0 := by
  rw [byteOrderMarkLength, h]
  rfl

/-- A place that the scan of the whole has come to is where a scan of what is left starts, if no
mark is in front of that. -/
theorem resumed_start {s t : Session} {n k : Nat} {source : Bytes} (hst : s.InStep n k t)
    (hsource : s.cursor.source = source) (hcoherent : s.cursor.Coherent)
    (hmark : byteOrderMarkLength (source.drop s.cursor.start) = 0) :
    s.Resumed s.cursor.start (Session.start (source.drop s.cursor.start) t.symbols) := by
  subst hsource
  refine ⟨rfl, ?_, ?_, hst.symbols⟩
  · show (s.cursor.source.drop s.cursor.start).drop (byteOrderMarkLength _) = s.cursor.rest
    rw [hmark]
    exact hcoherent.symm
  · show s.cursor.start = byteOrderMarkLength _ + s.cursor.start
    rw [hmark, Nat.zero_add]

theorem Shorter.start_lt {s t : Session} (h : s.Shorter t) (hst : s.Before t) :
    s.cursor.start < t.cursor.start := by
  have hlen := h
  rw [Shorter, hst.rest, List.length_drop] at hlen
  omega

/-- Where the scan of the whole has ended, nothing is left for another. -/
theorem Remaining.of_end {o : Options} {source : Bytes} {s t : Session} {n k : Nat}
    (hst : s.InStep n k t) (hsource : s.cursor.source = source) (hcoherent : s.cursor.Coherent)
    (hend : s.cursor.rest = []) :
    Remaining o source s.cursor.start t.symbols [] := by
  have hdrop : source.drop s.cursor.start = [] := by
    rw [← hsource, ← hend]
    exact hcoherent.symm
  have hlooked : s.looked.cursor.rest = [] := by
    show s.cursor.rest.drop _ = []
    rw [hend, List.drop_nil]
  have helement : (s.reading .top).element = .endOfInput := by
    rw [Session.reading, hlooked]
    rfl
  have hturn (inner : Nested) : turn ⟨o, .standard⟩ inner .top ⟨0, 0⟩ .empty s =
      .ok (.empty, false) s.looked := by
    rw [turn_apply, helement]
    rfl
  have hrun (inner : Nested) : rounds ⟨o, .standard⟩ inner .top ⟨0, 0⟩ 1 .empty s =
      .ok .empty s.looked := by
    rw [rounds, bind_of_ok (hturn inner)]
    rfl
  refine .mk hsource hcoherent (resumed_start hst hsource hcoherent ?_) ?_ rfl (hrun _) rfl
  · rw [hdrop]
    rfl
  · rw [hend]
    exact Nat.zero_lt_one

/-- A scan of the whole starts with everything left. -/
theorem Remaining.of_transcode {o : Options} {source : Bytes} {symbols table : SymbolTable}
    {whole : Transcoded} (h : transcode source symbols o = (.ok whole, table)) :
    Remaining o source 0 symbols whole.values.items := by
  obtain ⟨t, ht, -, -⟩ := transcodeWith_eq_ok.1 h
  rw [Setup.scan, level_eq, levelWith_eq_ok] at ht
  obtain ⟨last, hrun, ht⟩ := ht
  refine .mk (s := Session.start source symbols) rfl rfl ⟨rfl, rfl, rfl, rfl⟩ ?_ rfl hrun ?_
  · show (source.drop _).length < source.length + 1
    rw [List.length_drop]
    omega
  · rw [← ht]
    rfl

section

variable {o : Options} {source : Bytes} {offset : Nat} {symbols : SymbolTable} {items : List Item}

/-- **One value at a time, what is left gets shorter by that value.** -/
theorem Remaining.step (honly : o.only = false) (hnext : o.next = false)
    (hmark : ∀ k, 0 < k → byteOrderMark.isPrefixOf (source.drop k) = false)
    (h : Remaining o source offset symbols items) :
    ∃ t table, transcode (source.drop offset) symbols o.forOne = (.ok t, table) ∧
      ∃ new rest, items = new ++ rest ∧
        new.map (Item.moved 0) = t.values.items.map (Item.moved offset) ∧
        (t.values.items = [] ∧ items = [] ∨
          (∃ item, t.values.items = [item]) ∧ 1 ≤ t.consumed) ∧
        Remaining o source (offset + t.consumed) table rest := by
  obtain @⟨s, u, opened, fuel, c, last, hsource, hcoherent, hresumed, hfuel, hline, hrun, hitems⟩ := h
  have hsize : s.cursor.rest.length ≤ (source.drop offset).length := by
    rw [← hresumed.rest]
    show ((source.drop offset).drop _).length ≤ _
    rw [List.length_drop]
    omega
  have hr : o.forOne.relaxed = o.relaxed := rfl
  have ho : o.forOne.only = o.only := rfl
  have hall : o.stopsAfterValue = false := by rw [Options.stopsAfterValue, hnext, honly]; rfl
  have hone : o.forOne.stopsAfterValue = true := rfl
  have hn := inside_matches (k := offset) hr ho (n := (source.drop offset).length)
    (show _ < source.length + 1 by rw [List.length_drop]; omega) (Nat.lt_succ_self _) o.maxDepth
  have hf := inside_forward ⟨o, .standard⟩ (source.length + 1) o.maxDepth
  have hc := inside_consumes ⟨o, .standard⟩ source.length o.maxDepth
  have hfollows : c.Follows offset c.items .empty := ⟨⟨[], rfl, rfl⟩, hline⟩
  obtain ⟨d, v, hd, c₁, s₁, hfollows₁, hst₁, hbefore, hend⟩ := rounds_next hn hr ho hf hc hall hone
    hfollows rfl hresumed hsize hfuel (Nat.lt_succ_of_le hsize) hrun
  have hscan : Setup.scan ⟨o.forOne, .standard⟩ (source.drop offset)
      (Session.start (source.drop offset) symbols) = .ok d.toBlock v := by
    rw [Setup.scan, level_eq, levelWith_eq_ok]
    exact ⟨d, hd, rfl⟩
  refine ⟨⟨d.toBlock, v.cursor.start, v.faults.reverse⟩, v.symbols,
    transcodeWith_eq_ok.2 ⟨v, hscan, rfl, rfl⟩, ?_⟩
  have hoffset : offset + v.cursor.start = s₁.cursor.start := by
    rw [hst₁.start, Nat.add_comm]
  have hsource₁ : s₁.cursor.source = source := hbefore.source.trans hsource
  have hcoherent₁ := hbefore.coherent hcoherent
  rw [hoffset]
  rcases hend with ⟨hempty, hrest, hlast⟩ | ⟨⟨item, hitem⟩, hline₁, hshort, fuel₁, hfuel₁, hrun₁⟩
  · have hnone : items = [] := by
      rw [hlast] at hitems
      exact List.self_eq_append_right.1 hitems
    refine ⟨[], [], hnone, ?_, .inl ⟨?_, hnone⟩, .of_end hst₁ hsource₁ hcoherent₁ hrest⟩
    · show [] = d.items.reverse.map _
      rw [hempty]
      rfl
    · show d.items.reverse = []
      rw [hempty]
      rfl
  · obtain ⟨new, hc₁, hnew⟩ := hfollows₁.items
    obtain ⟨more, hmore⟩ := rounds_suffix hf hc hfuel₁ hrun₁
    have hlt := Shorter.start_lt hshort hbefore
    have hstart := hresumed.start
    refine ⟨new.reverse, more.reverse, ?_, ?_, .inr ⟨⟨item, ?_⟩, ?_⟩, ?_⟩
    · rw [← hmore, hc₁, List.reverse_append, List.reverse_append, List.append_assoc] at hitems
      exact (List.append_cancel_left hitems).symm
    · show _ = d.items.reverse.map _
      rw [List.map_reverse, List.map_reverse, hnew]
    · show d.items.reverse = [item]
      rw [hitem]
      rfl
    · show 1 ≤ v.cursor.start
      omega
    · refine .mk hsource₁ hcoherent₁ (resumed_start hst₁ hsource₁ hcoherent₁ ?_) hfuel₁ hline₁
        hrun₁ ?_
      · exact byteOrderMarkLength_of_not (hmark _ (by omega))
      · rw [← hmore, List.reverse_append]

end

end Scan

/-! ## One value at a time -/

/-- `n` scans for one value, each of what the one before left, as long as they succeed. -/
def oneByOne (source : Bytes) (options : Options) : Nat → Nat → SymbolTable → List TranscodeStep
  | 0, _, _ => []
  | n + 1, offset, symbols =>
    let (result, symbols) := transcode (source.drop offset) symbols options.forOne
    ⟨offset, result, symbols⟩ ::
      match result with
      | .ok t => oneByOne source options n (offset + t.consumed) symbols
      | .error _ => []

/-- The values of a step as the whole source has them, their errors without their lines. -/
def TranscodeStep.items (step : TranscodeStep) : List Item :=
  match step.result with
  | .ok t => t.values.items.map (Item.moved step.offset)
  | .error _ => []

/-- A step that succeeded with one value at most, and consumed something if it has one. -/
def TranscodeStep.Sound (step : TranscodeStep) : Prop :=
  ∃ t, step.result = .ok t ∧ t.values.items.length ≤ 1 ∧ (t.values.items ≠ [] → 1 ≤ t.consumed)

open Scan

theorem oneByOne_of_remaining {source : Bytes} {options : Options} (honly : options.only = false)
    (hnext : options.next = false)
    (hmark : ∀ k, 0 < k → byteOrderMark.isPrefixOf (source.drop k) = false) {offset : Nat}
    {symbols : SymbolTable} {items : List Item} (h : Remaining options source offset symbols items)
    (n : Nat) :
    (oneByOne source options n offset symbols).length = n ∧
      (∀ step ∈ oneByOne source options n offset symbols, step.Sound) ∧
      (oneByOne source options n offset symbols).flatMap TranscodeStep.items =
        (items.map (Item.moved 0)).take n := by
  induction n generalizing offset symbols items with
  | zero => exact ⟨rfl, fun _ hstep => (List.not_mem_nil hstep).elim, rfl⟩
  | succ n ih =>
    obtain ⟨t, table, ht, new, rest, hitems, hnew, hvalues, hrest⟩ := h.step honly hnext hmark
    obtain ⟨hlength, hsound, hflat⟩ := ih hrest
    have hsteps : oneByOne source options (n + 1) offset symbols =
        ⟨offset, .ok t, table⟩ :: oneByOne source options n (offset + t.consumed) table := by
      rw [oneByOne, ht]
    have hlen : new.length = t.values.items.length := by
      rw [← List.length_map (f := Item.moved 0), hnew, List.length_map]
    rw [hsteps]
    refine ⟨congrArg (· + 1) hlength, ?_, ?_⟩
    · intro step hstep
      rcases List.mem_cons.1 hstep with rfl | hstep
      · refine ⟨t, rfl, ?_, fun hne => ?_⟩
        · rcases hvalues with ⟨hnone, -⟩ | ⟨⟨item, hitem⟩, -⟩
          · rw [hnone]
            exact Nat.zero_le 1
          · rw [hitem]
            exact Nat.le_refl 1
        · rcases hvalues with ⟨hnone, -⟩ | ⟨-, hconsumed⟩
          · exact absurd hnone hne
          · exact hconsumed
      · exact hsound step hstep
    · rw [List.flatMap_cons, hflat]
      show t.values.items.map (Item.moved offset) ++ _ = _
      rw [← hnew, hitems, List.map_append]
      rcases hvalues with ⟨hnone, hempty⟩ | ⟨⟨item, hitem⟩, -⟩
      · obtain ⟨rfl, rfl⟩ := List.append_eq_nil_iff.1 (hitems.symm.trans hempty)
        simp
      · rw [hitem] at hlen
        obtain ⟨x, rfl⟩ := List.length_eq_one_iff.1 hlen
        rfl

/-- **Value by value is what the whole is**: after a scan of the whole source that succeeds, every
scan for one value succeeds, gives one value at most and consumes something if it gives one, and the
values of the first `n` scans are the first `n` values of the whole, at their places. -/
theorem oneByOne_eq_whole {source : Bytes} {symbols table : SymbolTable} {options : Options}
    {whole : Transcoded} (hnext : options.next = false) (honly : options.only = false)
    (hmark : ∀ k, 0 < k → byteOrderMark.isPrefixOf (source.drop k) = false)
    (h : transcode source symbols options = (.ok whole, table)) (n : Nat) :
    (oneByOne source options n 0 symbols).length = n ∧
      (∀ step ∈ oneByOne source options n 0 symbols, step.Sound) ∧
      (oneByOne source options n 0 symbols).flatMap TranscodeStep.items =
        (whole.values.items.map (Item.moved 0)).take n :=
  oneByOne_of_remaining honly hnext hmark (.of_transcode h) n

/-- `1 2`, value by value. -/
theorem oneByOne_two_numbers : ∃ source whole table,
    transcode source .initial .standard = (.ok whole, table) ∧ whole.values.items.length = 2 ∧
      (oneByOne source .standard 3 0 .initial).flatMap TranscodeStep.items =
        (whole.values.items.map (Item.moved 0)).take 3 := by
  have h : transcode [0x31, 0x20, 0x32] .initial .standard =
      (.ok ⟨⟨[⟨.integer 1, false, ⟨0, 1⟩⟩, ⟨.integer 2, false, ⟨2, 3⟩⟩], false⟩, 3, []⟩,
        .initial) := by
    rfl
  have hmark (k : Nat) (hk : 0 < k) :
      byteOrderMark.isPrefixOf (List.drop k [0x31, 0x20, 0x32]) = false := by
    match k with
    | 1 => rfl
    | 2 => rfl
    | k + 3 =>
      show byteOrderMark.isPrefixOf (List.drop k []) = false
      rw [List.drop_nil]
      rfl
  exact ⟨_, _, _, h, rfl, (oneByOne_eq_whole rfl rfl hmark h 3).2.2⟩

end RebolScan
