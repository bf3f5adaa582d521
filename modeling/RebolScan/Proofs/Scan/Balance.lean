import RebolScan.Proofs.Scan.Located

/-!
# Relaxed scans account for every fault

A fault counts when it arises, and a relaxed scan records it when a level receives it. In between it
is in flight, and **at most one fault is ever in flight**: `Balanced` holds between the rounds of
every level, `Owing` while a fault is on its way to the level around it. A level hands on no fault
that it has recorded. The only one it hands on at all is that nesting is too deep, and nothing is
recorded while that one travels outwards (`Refused`): the session that the whole scan ends with is
the one in which the level was refused (`level_balanced`).

A relaxed scan that is asked for everything also reads everything: the top level ends at the end of
the source and nowhere else.
-/

set_option autoImplicit false

namespace RebolScan

open Scan

/-- Every fault that has arisen is recorded, and none of them is fatal. -/
structure Session.Balanced (s : Session) : Prop where
  count : s.faultCount = s.faults.length
  passable : ∀ f ∈ s.faults, f.isFatal = false

/-- One fault that has arisen is not recorded. -/
structure Session.Owing (s : Session) : Prop where
  count : s.faultCount = s.faults.length + 1
  passable : ∀ f ∈ s.faults, f.isFatal = false

/-- `f` is the refusal of a level in a balanced session, and nothing has changed since. -/
def Fault.Refused (f : Fault) (t : Session) : Prop :=
  ∃ start s, s.Balanced ∧ (tooDeep start : Scan Block) s = .error f t

namespace Scan

open Session

variable {setup : Setup} {nested : Nested} {f : Fault} {s t : Session}

/-- A fault on its way to the level around it: one that this level records, or a refusal. -/
def InTransit (f : Fault) (t : Session) : Prop := (f.isFatal = false ∧ t.Owing) ∨ f.Refused t

/-! ## Faults -/

theorem owing_of_balanced (hs : s.Balanced) : Owing { s with faultCount := s.faultCount + 1 } :=
  ⟨congrArg (· + 1) hs.count, hs.passable⟩

theorem Refused.kind (h : f.Refused t) : f.kind = .tooDeep := by
  obtain ⟨start, s, hs, h⟩ := h
  cases h
  rfl

theorem Refused.owing (h : f.Refused t) : t.Owing := by
  obtain ⟨start, s, hs, h⟩ := h
  cases h
  exact owing_of_balanced hs

theorem fail_balanced {α : Type} {kind : FaultKind} {token : TokenKind} {span : Span}
    {Q : α → Session → Prop} (hkind : kind ≠ .tooDeep) (hs : s.Balanced) :
    Ends (fail kind token span) s Q InTransit :=
  .inl ⟨beq_false_of_ne hkind, owing_of_balanced hs⟩

/-- **A fault in flight is recorded once**, and then nothing is in flight. A refusal is not recorded
at all. -/
theorem record_balanced (hr : setup.options.relaxed = true) {c : Collected}
    (hf : InTransit f s) : Ends (record setup f c) s (fun _ => Balanced) Fault.Refused := by
  rcases hf with ⟨hpass, hs⟩ | hrefused
  · have hgo : ¬(!setup.options.relaxed || f.isFatal) = true := by
      rw [hr, hpass]
      exact Bool.noConfusion
    rw [record, if_neg hgo]
    refine ⟨hs.count, ?_⟩
    intro g hg
    rcases List.mem_cons.1 hg with rfl | hg
    · exact hpass
    · exact hs.passable g hg
  · have hfatal : (!setup.options.relaxed || f.isFatal) = true := by
      rw [Fault.isFatal, Refused.kind hrefused, hr]
      rfl
    rw [record, if_pos hfatal]
    exact .throw hrefused

/-- A fault that is recorded as soon as it arises. -/
theorem recorded_balanced (hr : setup.options.relaxed = true) {kind : FaultKind}
    {token : TokenKind} {span : Span} {site : Site} {c : Collected} {goesOn : Bool}
    (hkind : kind ≠ .tooDeep) (hs : s.Balanced) :
    Ends (faultAt kind token span site >>= fun f => record setup f c >>= fun c => pure (c, goesOn))
      s (fun _ => Balanced) Fault.Refused := by
  refine Ends.after rfl ?_
  apply (record_balanced hr (.inl ⟨beq_false_of_ne hkind, owing_of_balanced hs⟩)).bind
  intro c t ht
  exact .pure ht

/-! ## What an element comes to -/

theorem joinPath_balanced {head : TokenKind} {start : Nat} {segments : Block} :
    Triple Balanced (joinPath head start segments) (fun _ => Balanced) InTransit := by
  intro s hs
  have hpast : s.past.Balanced := ⟨hs.count, hs.passable⟩
  apply joinPath_ends (fun _ => hs) hs
  · intro _
    exact hpast
  · intro _
    exact fail_balanced FaultKind.noConfusion hpast

theorem construct_balanced {start : Nat} {spec : Block} :
    Triple Balanced (construct setup start spec) (fun _ => Balanced) InTransit := by
  intro s hs
  apply construct_ends
  · intro v _
    exact ⟨hs.count, hs.passable⟩
  · intro _
    exact fail_balanced FaultKind.noConfusion ⟨hs.count, hs.passable⟩

/-- What is refused further in is in transit. -/
theorem Ends.inTransit {α : Type} {x : Scan α} {Q : α → Session → Prop}
    (h : Ends x s Q Fault.Refused) : Ends x s Q InTransit :=
  h.imp (fun _ _ => id) fun _ _ => .inr

/-- What the levels inside are taken to keep. -/
def NestedBalanced (nested : Nested) : Prop :=
  ∀ l start, Triple Balanced (nested l start) (fun _ => Balanced) Fault.Refused

section

variable (hn : NestedBalanced nested)

include hn

theorem carryOut_balanced (r : Element.Reading) (start : Nat) :
    Triple Balanced (carryOut setup nested r start) (fun _ => Balanced) InTransit := by
  intro s hs
  unfold carryOut
  split
  · refine Ends.after rfl ?_
    exact .pure ⟨hs.count, hs.passable⟩
  · exact .pure hs
  · exact .pure hs
  · refine Ends.after rfl ?_
    exact .pure ⟨hs.count, hs.passable⟩
  · refine Ends.after rfl ?_
    exact .pure ⟨hs.count, hs.passable⟩
  · apply Ends.ite
    · intro _
      exact fail_balanced FaultKind.noConfusion hs
    · intro _
      apply (hn _ _ s hs).inTransit.bind
      intro body t ht
      exact .pure ht
  · apply Ends.bind (Q := fun _ => Balanced)
    · apply (hn _ _ s hs).inTransit.bind
      intro spec
      exact construct_balanced
    · intro v t ht
      exact .pure ht
  · exact fail_balanced FaultKind.noConfusion hs
  · exact .pure hs

theorem perform_balanced (r : Element.Reading) (start : Nat) :
    Triple Balanced (perform setup nested r start) (fun _ => Balanced) InTransit := by
  intro s hs
  unfold perform
  split
  · apply Ends.bind (Q := fun _ => Balanced)
    · apply (hn _ _ s hs).inTransit.bind
      intro segments
      exact joinPath_balanced
    · intro v t ht
      exact .pure ht
  · refine Ends.after rfl ?_
    exact carryOut_balanced hn _ _ _ ⟨hs.count, hs.passable⟩

end

/-! ## One round of a level -/

section

variable (hr : setup.options.relaxed = true)

include hr

theorem placeless_balanced : Placeless setup (fun _ => Balanced) Fault.Refused where
  moved _ hs := ⟨hs.count, hs.passable⟩
  recorded _ _ _ _ _ hkind hs := recorded_balanced hr hkind hs

theorem turn_balanced (hn : NestedBalanced nested) (level : Level) (opened : Site)
    (c : Collected) :
    Triple Balanced (turn setup nested level opened c) (fun _ => Balanced) Fault.Refused := by
  apply (placeless_balanced hr).turn
  intro c s hs level _
  have hlooked : s.looked.Balanced := ⟨hs.count, hs.passable⟩
  exact (perform_balanced hn _ _ _ hlooked).imp (fun out _ ht => fits_const out ht)
    fun _ _ ht => record_balanced hr ht

/-- **A level returns with every fault recorded, or ends with a refusal** that nothing around it has
recorded. -/
theorem level_balanced (fuel room : Nat) (l : Level) :
    Triple Balanced (level setup fuel room l) (fun _ => Balanced) Fault.Refused := by
  apply level_triple
  · intro start s hs
    exact ⟨start, s, hs, rfl⟩
  · intro nested _ hn
    exact turn_balanced hr hn

end

/-! ## The end of the source -/

/-- A scan of everything that returns has read everything. -/
theorem scan_to_end {source : Bytes} {symbols : SymbolTable} {values : Block}
    (hall : setup.options.stopsAfterValue = false)
    (h : setup.scan source (Session.start source symbols) = .ok values s) :
    s.cursor.start = source.length := by
  have hstart := tracked_start source symbols
  have hforward := inside_forward setup (source.length + 1) setup.options.maxDepth
  have hnested : NestedTracked source (inside setup (source.length + 1) setup.options.maxDepth) := by
    intro l start
    cases setup.options.maxDepth with
    | zero => exact tooDeep_tracked start
    | succ room => exact level_tracked setup _ room l
  refine level_induct (P := fun _ s => s.Tracked source) (Q := fun _ s => s.cursor.start = source.length)
    hstart.toAt h hstart ?_ ?_
  · intro opened c u c' v hu hturn
    exact (turn_tracked hforward hnested _ _ _ u hu).ok hturn
  · intro opened c u c' v hu hturn
    cases turn_top hturn with
    | last hrest => exact hu.toAt.looked.at_end hrest
    | one hrest item hc hg =>
      -- A round that finds a value goes on, where everything is asked for.
      rw [hall] at hg
      cases hg

end Scan

/-- **A relaxed scan completes and accounts for every fault.** It fails only where nesting is too
deep, and has then met one fault more than it has recorded. Where it returns it has recorded as many
faults as have arisen, and it has read the whole source if it was asked to. Inside, each level
returns with all faults recorded once that arose in it, and hands on no fault but a refusal, which
no level on the way records. -/
theorem relaxed_scan_complete (construct : Constructor) (source : Bytes) (symbols : SymbolTable)
    (options : Options) :
    (match transcodeWith construct source symbols options.relaxedly with
      | (.ok t, _) =>
        (options.next = false → options.only = false → t.consumed = source.length) ∧
        (Scan.after (Setup.scan ⟨options.relaxedly, construct⟩ source)
          (Session.start source symbols)).faultCount = t.faults.length
      | (.error failure, _) =>
        failure.fault.kind = .tooDeep ∧
        failure.count =
          (Setup.recorded ⟨options.relaxedly, construct⟩ source symbols).length + 1) ∧
    (∀ fuel room l, Triple Session.Balanced (Scan.level ⟨options.relaxedly, construct⟩ fuel room l)
      (fun _ => Session.Balanced) Fault.Refused) := by
  have hlevels (fuel room : Nat) (l : Level) :
      Triple Session.Balanced (Scan.level ⟨options.relaxedly, construct⟩ fuel room l)
        (fun _ => Session.Balanced) Fault.Refused := level_balanced rfl fuel room l
  refine ⟨?_, hlevels⟩
  have hstart : (Session.start source symbols).Balanced :=
    ⟨rfl, fun f hf => absurd hf List.not_mem_nil⟩
  have hends : Ends (Setup.scan ⟨options.relaxedly, construct⟩ source) (Session.start source symbols)
      (fun _ => Session.Balanced) Fault.Refused := hlevels _ _ .top _ hstart
  cases h : Setup.scan ⟨options.relaxedly, construct⟩ source (Session.start source symbols) with
  | ok values s =>
    rw [transcodeWith, h, after_of_ok h]
    constructor
    · intro hnext honly
      apply scan_to_end _ h
      simp only [Options.stopsAfterValue, Options.relaxedly, hnext, honly, Bool.or_self]
    · rw [(hends.ok h).count]
      exact (List.length_reverse).symm
  | error f s =>
    rw [transcodeWith, h, Setup.recorded, after_of_error h]
    have hrefused := hends.error h
    refine ⟨Refused.kind hrefused, ?_⟩
    rw [List.length_reverse]
    exact (Refused.owing hrefused).count

/-- `[1x` has two faults, and all of it is read. -/
theorem relaxed_scan_complete_open_block :
    ∃ t table, transcode [0x5B, 0x31, 0x78] .initial Options.standard.relaxedly = (.ok t, table) ∧
      t.faults.map (·.kind) = [.invalid .pair, .missing .block] ∧ t.consumed = 3 ∧
      (Scan.after (Setup.scan ⟨Options.standard.relaxedly, .standard⟩ [0x5B, 0x31, 0x78])
        (Session.start [0x5B, 0x31, 0x78] .initial)).faultCount = 2 := by
  have hkinds : ((transcode [0x5B, 0x31, 0x78] .initial
      Options.standard.relaxedly).1.toOption.map fun t => t.faults.map (·.kind)) =
        some [.invalid .pair, .missing .block] := by decide +kernel
  have hcomplete :=
    (relaxed_scan_complete .standard [0x5B, 0x31, 0x78] .initial Options.standard).1
  cases h : transcode [0x5B, 0x31, 0x78] .initial Options.standard.relaxedly with
  | mk result table =>
    rw [h] at hkinds
    rw [show transcodeWith .standard [0x5B, 0x31, 0x78] .initial Options.standard.relaxedly =
      (result, table) from h] at hcomplete
    cases result with
    | error failure => cases hkinds
    | ok t =>
      have hfaults : t.faults.map (·.kind) = [.invalid .pair, .missing .block] :=
        Option.some.inj hkinds
      have hlength := congrArg List.length hfaults
      rw [List.length_map] at hlength
      exact ⟨t, table, rfl, hfaults, hcomplete.1 rfl rfl, hcomplete.2.trans hlength⟩

end RebolScan
