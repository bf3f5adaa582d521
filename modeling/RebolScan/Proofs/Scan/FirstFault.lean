import RebolScan.Proofs.Scan.Triple
import RebolScan.Scan.Transcode

/-!
# Strict and relaxed scans agree up to the first fault

A strict scan ends at its first fault, a relaxed one keeps the fault and goes on. Until then the two
are the same scan: `Agrees` compares a strict step with a relaxed one from a state without faults,
and says that **either both return the same in the same state, or the strict step ends with the
fault that the relaxed one meets first**. The fault travels outwards through every level that is
open, so the second case has two shapes: the relaxed step may end with that same fault, still in
flight, or have recorded it already and be in any state that comes after.
-/

set_option autoImplicit false

namespace RebolScan

/-- The same options for a scan that ends at its first fault. -/
def Options.strictly (o : Options) : Options := { o with relaxed := false }

/-- The same options for a scan that passes over faults. -/
def Options.relaxedly (o : Options) : Options := { o with relaxed := true }

/-- The faults that a scan records on its way, oldest first, be it that it ends with another. -/
def Setup.recorded (setup : Setup) (source : Bytes) (symbols : SymbolTable) : List Fault :=
  (Scan.after (setup.scan source) (Session.start source symbols)).faults.reverse

namespace Scan

variable {α β : Type}

/-- No fault has arisen. -/
structure Clean (s : Session) : Prop where
  faults : s.faults = []
  count : s.faultCount = 0

/-- One fault has arisen and is not recorded. -/
structure InFlight (s : Session) : Prop where
  faults : s.faults = []
  count : s.faultCount = 1

/-- `f` was the first fault to be recorded. -/
def First (f : Fault) (s : Session) : Prop := s.faults.getLast? = some f

theorem First.before {f : Fault} {s t : Session} (h : First f s) (hst : s.Before t) :
    First f t := by
  obtain ⟨l, hl⟩ := hst.faults
  rw [First, ← hl, List.getLast?_append, show s.faults.getLast? = some f from h]
  rfl

/-- How a strict step compares with the relaxed one. -/
def Agrees (x y : Scan α) : Prop := ∀ s, Clean s →
  match x s with
  | .ok a t => Clean t ∧ y s = .ok a t
  | .error f t => InFlight t ∧ (y s = .error f t ∨ First f (after y s))

theorem Agrees.ok {x y : Scan α} (h : Agrees x y) {s t : Session} {a : α} (hs : Clean s)
    (hx : x s = .ok a t) : Clean t ∧ y s = .ok a t := by
  have := h s hs
  rwa [hx] at this

theorem Agrees.error {x y : Scan α} (h : Agrees x y) {s t : Session} {f : Fault} (hs : Clean s)
    (hx : x s = .error f t) : InFlight t ∧ (y s = .error f t ∨ First f (after y s)) := by
  have := h s hs
  rwa [hx] at this

/-! ## How steps are put together -/

theorem agrees_pure (a : α) : Agrees (pure a : Scan α) (pure a) := fun _ hs => ⟨hs, rfl⟩

theorem Agrees.bind {x y : Scan α} {k l : α → Scan β} (hx : Agrees x y)
    (hk : ∀ a, Agrees (k a) (l a)) (hl : ∀ a, Forward (l a)) : Agrees (x >>= k) (y >>= l) := by
  intro s hs
  cases hxs : x s with
  | ok a t =>
    obtain ⟨ht, hy⟩ := hx.ok hs hxs
    rw [bind_of_ok hxs, bind_of_ok hy, after, bind_of_ok hy]
    exact hk a t ht
  | error f t =>
    obtain ⟨ht, hy | hy⟩ := hx.error hs hxs
    · rw [bind_of_error hxs]
      exact ⟨ht, .inl (bind_of_error hy)⟩
    · rw [bind_of_error hxs]
      exact ⟨ht, .inr (hy.before (Forward.after_bind hl s))⟩

theorem Agrees.ite {c : Prop} [Decidable c] {x y x' y' : Scan α} (h : Agrees x y)
    (h' : Agrees x' y') : Agrees (if c then x else x') (if c then y else y') := by
  split
  · exact h
  · exact h'

/-- A step that neither asks whether faults are relaxed nor meets one. -/
def Quiet (x : Scan α) : Prop :=
  ∀ s, ∃ a t, x s = .ok a t ∧ t.faults = s.faults ∧ t.faultCount = s.faultCount

theorem Quiet.clean {x : Scan α} (h : Quiet x) {s : Session} (hs : Clean s) :
    ∃ a t, x s = .ok a t ∧ Clean t := by
  obtain ⟨a, t, hx, hf, hc⟩ := h s
  exact ⟨a, t, hx, ⟨hf.trans hs.faults, hc.trans hs.count⟩⟩

theorem Quiet.bind {x : Scan α} {k l : α → Scan β} (hx : Quiet x)
    (hk : ∀ a, Agrees (k a) (l a)) : Agrees (x >>= k) (x >>= l) := by
  intro s hs
  obtain ⟨a, t, hx, ht⟩ := hx.clean hs
  rw [bind_of_ok hx, bind_of_ok hx, after, bind_of_ok hx]
  exact hk a t ht

theorem quiet_cursor : Quiet cursor := fun _ => ⟨_, _, rfl, rfl, rfl⟩

theorem quiet_site : Quiet site := fun _ => ⟨_, _, rfl, rfl, rfl⟩

theorem quiet_get : Quiet (get : Scan Session) := fun _ => ⟨_, _, rfl, rfl, rfl⟩

theorem quiet_advance (n : Nat) : Quiet (advance n) := fun _ => ⟨_, _, rfl, rfl, rfl⟩

theorem quiet_advanceTo (pos : Nat) : Quiet (advanceTo pos) := fun _ => ⟨_, _, rfl, rfl, rfl⟩

theorem quiet_byteFrom (pos : Nat) : Quiet (byteFrom pos) := fun _ => ⟨_, _, rfl, rfl, rfl⟩

theorem quiet_look : Quiet look := fun _ => ⟨_, _, rfl, rfl, rfl⟩

theorem quiet_intern (name : String) : Quiet (intern name) := fun _ => ⟨_, _, rfl, rfl, rfl⟩

/-! ## Faults -/

/-- A fault counts as soon as it arises, relaxed or not. -/
theorem fail_agrees (kind : FaultKind) (token : TokenKind) (span : Span) :
    Agrees (fail kind token span : Scan α) (fail kind token span) := fun _ hs =>
  ⟨⟨hs.faults, congrArg (· + 1) hs.count⟩, .inl rfl⟩

theorem invalid_agrees (token : TokenKind) (span : Span) :
    Agrees (invalid token span : Scan α) (invalid token span) := fail_agrees _ _ _

theorem tooDeep_agrees (start : Nat) : Agrees (tooDeep start : Scan α) (tooDeep start) :=
  quiet_cursor.bind fun _ => fail_agrees _ _ _

section

variable {o : Options} {make : Constructor}

theorem record_strictly (f : Fault) (c : Collected) :
    record ⟨o.strictly, make⟩ f c = throw f := by
  simp [record, Options.strictly]

theorem record_relaxedly {f : Fault} (hf : f.isFatal = false) (c : Collected) (s : Session) :
    record ⟨o.relaxedly, make⟩ f c s =
      .ok (c.push (.error f) f.span) { s with faults := f :: s.faults } := by
  rw [record, if_neg (by simp [Options.relaxedly, hf])]
  rfl

theorem record_relaxedly_fatal {f : Fault} (hf : f.isFatal = true) (c : Collected) :
    record ⟨o.relaxedly, make⟩ f c = throw f := by
  simp [record, hf]

/-- **A fault in flight ends the strict step, and is the first that the relaxed one records** unless
it ends that one too. -/
theorem record_first {f : Fault} {c : Collected} {k l : Collected → Scan β} {s : Session}
    (hs : InFlight s) (hl : ∀ c, Forward (l c)) :
    (record ⟨o.strictly, make⟩ f c >>= k) s = .error f s ∧
      ((record ⟨o.relaxedly, make⟩ f c >>= l) s = .error f s ∨
        First f (after (record ⟨o.relaxedly, make⟩ f c >>= l) s)) := by
  rw [record_strictly]
  refine ⟨rfl, ?_⟩
  cases hf : f.isFatal with
  | true =>
    rw [record_relaxedly_fatal hf]
    exact .inl rfl
  | false =>
    refine .inr (First.before ?_ (Forward.after_bind hl s))
    rw [after_of_ok (record_relaxedly hf c s), First, hs.faults]
    rfl

/-- The same from the moment the fault arises. -/
theorem recorded_agrees (kind : FaultKind) (token : TokenKind) (span : Span) (site : Site)
    (c : Collected) {k l : Collected → Scan β} (hl : ∀ c, Forward (l c)) :
    Agrees (faultAt kind token span site >>= fun f => record ⟨o.strictly, make⟩ f c >>= k)
      (faultAt kind token span site >>= fun f => record ⟨o.relaxedly, make⟩ f c >>= l) := by
  intro s hs
  have hfl : InFlight { s with faultCount := s.faultCount + 1 } :=
    ⟨hs.faults, congrArg (· + 1) hs.count⟩
  obtain ⟨hk, hr⟩ := record_first hfl hl
  rw [bind_of_ok (rfl : faultAt kind token span site s = .ok _ _), hk]
  refine ⟨hfl, ?_⟩
  rw [after, bind_of_ok (rfl : faultAt kind token span site s = .ok _ _)]
  exact hr

end

/-! ## One round of a level -/

theorem joinPath_agrees (head : TokenKind) (start : Nat) (segments : Block) :
    Agrees (joinPath head start segments) (joinPath head start segments) := by
  refine quiet_cursor.bind fun c => (quiet_byteFrom _).bind fun b => ?_
  dsimp only
  refine .ite (agrees_pure _) ?_
  split
  · exact .ite ((quiet_advanceTo _).bind fun _ => invalid_agrees _ _) (agrees_pure _)
  · exact .ite ((quiet_advanceTo _).bind fun _ => agrees_pure _) (agrees_pure _)

section

variable {o : Options} {make : Constructor}

theorem construct_agrees (start : Nat) (spec : Block) :
    Agrees (construct ⟨o.strictly, make⟩ start spec) (construct ⟨o.relaxedly, make⟩ start spec) := by
  refine quiet_get.bind fun s => ?_
  dsimp only
  refine Quiet.bind (fun _ => ⟨_, _, rfl, rfl, rfl⟩) fun _ => ?_
  split
  · exact agrees_pure _
  · exact quiet_cursor.bind fun _ => fail_agrees _ _ _

theorem separator_agrees (start : Nat) (c : Collected) :
    Agrees (separator ⟨o.strictly, make⟩ start c) (separator ⟨o.relaxedly, make⟩ start c) := by
  refine quiet_cursor.bind fun cur => (quiet_byteFrom _).bind fun b => ?_
  refine .ite (agrees_pure _) ?_
  refine (quiet_advanceTo _).bind fun _ => (quiet_byteFrom _).bind fun next => ?_
  refine .ite ?_ (agrees_pure _)
  exact quiet_site.bind fun _ => recorded_agrees _ _ _ _ c fun _ => .pure _

theorem afterItem_agrees (level : Level) (start : Nat) (c : Collected) :
    Agrees (afterItem ⟨o.strictly, make⟩ level start c)
      (afterItem ⟨o.relaxedly, make⟩ level start c) := by
  cases level with
  | path => exact separator_agrees start c
  | top => exact agrees_pure _
  | inside b => exact agrees_pure _

theorem unclosed_agrees (b : Bracket) (token : Token) (opened : Site) (c : Collected) :
    Agrees (unclosed ⟨o.strictly, make⟩ b token opened c)
      (unclosed ⟨o.relaxedly, make⟩ b token opened c) :=
  recorded_agrees _ _ _ _ c fun _ => .pure _

theorem closer_agrees (level : Level) (b : Bracket) (token : Token) (opened : Site)
    (c : Collected) :
    Agrees (closer ⟨o.strictly, make⟩ level b token opened c)
      (closer ⟨o.relaxedly, make⟩ level b token opened c) := by
  cases level with
  | path => exact agrees_pure _
  | top =>
    refine (quiet_advanceTo _).bind fun _ => quiet_site.bind fun _ => ?_
    exact recorded_agrees _ _ _ _ c fun _ => .pure _
  | inside b' =>
    exact .ite ((quiet_advanceTo _).bind fun _ => agrees_pure _) (unclosed_agrees b' token opened c)

theorem settle_agrees (level : Level) (start : Nat) (c : Collected) (out : Outcome) :
    Agrees (settle ⟨o.strictly, make⟩ level start c (.ok out))
      (settle ⟨o.relaxedly, make⟩ level start c (.ok out)) := by
  cases out with
  | lineBreak => exact agrees_pure _
  | comment => exact agrees_pure _
  | slot => exact quiet_cursor.bind fun _ => agrees_pure _
  | value v => exact quiet_cursor.bind fun _ => afterItem_agrees _ _ _

/-- A fault that a level is handed leaves the strict scan, and is recorded by the relaxed one. -/
theorem settle_first (o : Options) (make : Constructor) {f : Fault} (level : Level) (start : Nat)
    (c : Collected) {s : Session} (hs : InFlight s) :
    settle ⟨o.strictly, make⟩ level start c (.error f) s = .error f s ∧
      (settle ⟨o.relaxedly, make⟩ level start c (.error f) s = .error f s ∨
        First f (after (settle ⟨o.relaxedly, make⟩ level start c (.error f)) s)) :=
  record_first hs fun c' => .ite (.pure _) (afterItem_forward _ _ _ c')

variable {strict relaxed : Nested}
variable (hn : ∀ l start, Agrees (strict l start) (relaxed l start))
variable (hf : ∀ l start, Forward (relaxed l start))

include hn

theorem path_agrees (head : TokenKind) (start : Nat) :
    Agrees (path strict head start) (path relaxed head start) :=
  (hn _ _).bind (fun _ => joinPath_agrees _ _ _) fun _ => joinPath_forward _ _ _

theorem construction_agrees (start : Nat) :
    Agrees (construction ⟨o.strictly, make⟩ strict start)
      (construction ⟨o.relaxedly, make⟩ relaxed start) :=
  (hn _ _).bind (fun _ => construct_agrees _ _) fun _ => construct_forward _ _ _

theorem carryOut_agrees (r : Element.Reading) (start : Nat) :
    Agrees (carryOut ⟨o.strictly, make⟩ strict r start)
      (carryOut ⟨o.relaxedly, make⟩ relaxed r start) := by
  unfold carryOut
  split
  · exact Quiet.bind (fun _ => ⟨_, _, rfl, rfl, rfl⟩) fun _ => agrees_pure _
  · exact agrees_pure _
  · exact agrees_pure _
  · exact (quiet_intern _).bind fun _ => agrees_pure _
  · exact (quiet_intern _).bind fun _ => agrees_pure _
  · refine .ite (fail_agrees _ _ _) ?_
    exact (hn _ _).bind (fun _ => agrees_pure _) fun _ => .pure _
  · exact (construction_agrees hn _).bind (fun _ => agrees_pure _) fun _ => .pure _
  · exact invalid_agrees _ _
  · exact agrees_pure _

theorem perform_agrees (r : Element.Reading) (start : Nat) :
    Agrees (perform ⟨o.strictly, make⟩ strict r start)
      (perform ⟨o.relaxedly, make⟩ relaxed r start) := by
  unfold perform
  split
  · exact (path_agrees hn _ _).bind (fun _ => agrees_pure _) fun _ => .pure _
  · exact (quiet_advance _).bind fun _ => carryOut_agrees hn _ _

theorem item_agrees (level : Level) (r : Element.Reading) (start : Nat) (c : Collected) :
    Agrees (item ⟨o.strictly, make⟩ strict level r start c)
      (item ⟨o.relaxedly, make⟩ relaxed level r start c) := by
  intro s hs
  unfold item
  cases hp : perform ⟨o.strictly, make⟩ strict r start s with
  | ok out t =>
    obtain ⟨ht, hy⟩ := (perform_agrees hn r start).ok hs hp
    rw [bind_of_ok (attempt_of_ok hp), bind_of_ok (attempt_of_ok hy), after,
      bind_of_ok (attempt_of_ok hy)]
    exact settle_agrees level start c out t ht
  | error f t =>
    obtain ⟨ht, hy⟩ := (perform_agrees hn r start).error hs hp
    obtain ⟨hk, hr⟩ := settle_first o make level start c ht
    rw [bind_of_ok (attempt_of_error hp), hk]
    refine ⟨ht, ?_⟩
    rcases hy with hy | hy
    · rw [after, bind_of_ok (attempt_of_error hy)]
      exact hr
    · rw [← after_attempt] at hy
      exact .inr (hy.before (Forward.after_bind (fun out => settle_forward _ _ _ _ out) s))

theorem turn_agrees (level : Level) (opened : Site) (c : Collected) :
    Agrees (turn ⟨o.strictly, make⟩ strict level opened c)
      (turn ⟨o.relaxedly, make⟩ relaxed level opened c) := by
  refine quiet_look.bind fun ⟨l, cur⟩ => ?_
  dsimp only
  split
  · split
    · exact unclosed_agrees _ _ _ _
    · exact agrees_pure _
  · exact closer_agrees _ _ _ _ _
  · exact item_agrees hn _ _ _ _

include hf

theorem rounds_agrees (level : Level) (opened : Site) (fuel : Nat) (c : Collected) :
    Agrees (rounds ⟨o.strictly, make⟩ strict level opened fuel c)
      (rounds ⟨o.relaxedly, make⟩ relaxed level opened fuel c) := by
  induction fuel generalizing c with
  | zero => exact agrees_pure _
  | succ fuel ih =>
    refine (turn_agrees hn level opened c).bind (fun ⟨c', goesOn⟩ => ?_) fun ⟨c', goesOn⟩ => ?_
    · exact .ite (ih c') (agrees_pure _)
    · exact .ite (rounds_forward hf _ _ _ _) (.pure _)

theorem levelWith_agrees (fuel : Nat) (level : Level) :
    Agrees (levelWith ⟨o.strictly, make⟩ strict fuel level)
      (levelWith ⟨o.relaxedly, make⟩ relaxed fuel level) :=
  quiet_site.bind fun _ =>
    (rounds_agrees hn hf _ _ _ _).bind (fun _ => agrees_pure _) fun _ => .pure _

end

/-- **A whole level agrees**, by induction on the room inside it. -/
theorem level_agrees (o : Options) (make : Constructor) (fuel room : Nat) (l : Level) :
    Agrees (level ⟨o.strictly, make⟩ fuel room l) (level ⟨o.relaxedly, make⟩ fuel room l) := by
  induction room generalizing l with
  | zero =>
    exact levelWith_agrees (fun _ start => tooDeep_agrees start)
      (fun _ start => tooDeep_forward start) fuel l
  | succ room ih =>
    exact levelWith_agrees (fun inner _ => ih inner) (fun inner _ => level_forward _ _ _ inner)
      fuel l

/-! ## What ends a relaxed scan -/

/-- Only a fault that cannot be passed over ends the step. -/
def EndsFatally (x : Scan α) : Prop := ∀ s f t, x s = .error f t → f.isFatal = true

/-- The fault cannot be passed over. -/
def Fatal (f : Fault) (_ : Session) : Prop := f.isFatal = true

section

variable {setup : Setup} (hr : setup.options.relaxed = true)

include hr

theorem record_fatal {f : Fault} {c : Collected} {s : Session} :
    Ends (record setup f c) s (fun _ _ => True) Fatal := by
  apply Ends.ite
  · intro hthrow
    rw [hr, Bool.not_true, Bool.false_or] at hthrow
    exact .throw hthrow
  · intro _
    trivial

theorem placeless_fatal : Placeless setup (fun _ _ => True) Fatal where
  moved _ _ := trivial
  recorded _ _ _ _ _ _ _ := by
    refine Ends.after rfl ?_
    apply (record_fatal hr).bind
    intro c t _
    exact .pure trivial

/-- Whatever the levels inside do, a round catches every fault that can be passed over. -/
theorem turn_fatal {nested : Nested} (level : Level) (opened : Site) (c : Collected) :
    Triple (fun _ => True) (turn setup nested level opened c) (fun _ _ => True) Fatal := by
  apply (placeless_fatal hr).turn
  intro c s _ level _
  cases hp : perform setup nested (s.reading level) s.looked.cursor.start s.looked with
  | ok out t => exact (ends_of_ok hp).2 (fits_const out trivial)
  | error f t => exact (ends_of_error hp).2 (record_fatal hr)

/-- **A relaxed level ends with too much nesting or not at all.** -/
theorem level_endsFatally (fuel room : Nat) (l : Level) : EndsFatally (level setup fuel room l) := by
  intro s f t h
  have hlevel : Triple (fun _ => True) (level setup fuel room l) (fun _ _ => True) Fatal := by
    apply level_triple
    · intro start s _
      rw [Ends]
      rfl
    · intro nested _ _
      exact turn_fatal hr
  exact (hlevel s trivial).error h

end

end Scan

/-! ## Whole scans -/

open Scan

theorem Session.clean_start (source : Bytes) (symbols : SymbolTable) :
    Clean (Session.start source symbols) := ⟨rfl, rfl⟩

section

variable {construct : Constructor} {source : Bytes} {symbols table : SymbolTable}
  {options : Options}

theorem scan_agrees (options : Options) (construct : Constructor) (source : Bytes) :
    Agrees (Setup.scan ⟨options.strictly, construct⟩ source)
      (Setup.scan ⟨options.relaxedly, construct⟩ source) :=
  level_agrees _ _ _ _ _

/-- A scan that succeeds gives back what it recorded. -/
theorem recorded_of_ok {t : Transcoded}
    (h : transcodeWith construct source symbols options = (.ok t, table)) :
    Setup.recorded ⟨options, construct⟩ source symbols = t.faults := by
  obtain ⟨s, hs, ht, -⟩ := transcodeWith_eq_ok.1 h
  rw [ht, Setup.recorded, after_of_ok hs]

/-- What a strict scan gives, the relaxed one gives, and it records nothing. -/
theorem relaxedly_of_ok {t : Transcoded}
    (h : transcodeWith construct source symbols options.strictly = (.ok t, table)) :
    transcodeWith construct source symbols options.relaxedly = (.ok t, table) ∧ t.faults = [] := by
  obtain ⟨s, hs, ht, htable⟩ := transcodeWith_eq_ok.1 h
  obtain ⟨hclean, hr⟩ :=
    (scan_agrees options construct source).ok (Session.clean_start source symbols) hs
  refine ⟨transcodeWith_eq_ok.2 ⟨s, hr, ht, htable⟩, ?_⟩
  rw [ht, hclean.faults]
  rfl

/-- **The fault that ends a strict scan is the first that the relaxed one records**, unless it ends
that one in the same way. -/
theorem relaxedly_of_error {failure : Failure}
    (h : transcodeWith construct source symbols options.strictly = (.error failure, table)) :
    failure.count = 1 ∧
      ((Setup.recorded ⟨options.relaxedly, construct⟩ source symbols).head? = some failure.fault ∨
        (Setup.recorded ⟨options.relaxedly, construct⟩ source symbols = [] ∧
          transcodeWith construct source symbols options.relaxedly = (.error failure, table) ∧
          failure.fault.kind = .tooDeep)) := by
  obtain ⟨s, hs, hcount, htable⟩ := transcodeWith_eq_error.1 h
  obtain ⟨hflight, hr⟩ :=
    (scan_agrees options construct source).error (Session.clean_start source symbols) hs
  refine ⟨hcount.trans hflight.count, ?_⟩
  rcases hr with hr | hr
  · refine .inr ⟨?_, transcodeWith_eq_error.2 ⟨s, hr, hcount, htable⟩, ?_⟩
    · rw [Setup.recorded, after_of_error hr, hflight.faults]
      rfl
    · exact eq_of_beq (level_endsFatally rfl _ _ _ _ _ _ hr)
  · refine .inl ?_
    rw [Setup.recorded, List.head?_reverse]
    exact hr

end

/-- **A strict scan succeeds exactly when the relaxed one meets no fault, and then the two give the
same; a strict scan fails with the first fault that the relaxed one records**, or with the relaxed
one's own failure when the first fault is too much nesting. -/
theorem transcodeWith_strictly_relaxedly (construct : Constructor) (source : Bytes)
    (symbols : SymbolTable) (options : Options) :
    let strict := transcodeWith construct source symbols options.strictly
    let relaxed := transcodeWith construct source symbols options.relaxedly
    let recorded := Setup.recorded ⟨options.relaxedly, construct⟩ source symbols
    (∀ t table, strict = (.ok t, table) ↔ relaxed = (.ok t, table) ∧ t.faults = []) ∧
    (∀ failure table, strict = (.error failure, table) → failure.count = 1 ∧
      ((∃ t table', relaxed = (.ok t, table') ∧ t.faults.head? = some failure.fault) ∨
        (∃ last table', relaxed = (.error last, table') ∧
          (recorded.head? = some failure.fault ∨
            (recorded = [] ∧ last = failure ∧ table' = table ∧
              failure.fault.kind = .tooDeep))))) := by
  intro strict relaxed recorded
  refine ⟨fun t table => ⟨relaxedly_of_ok, ?_⟩, fun failure table hs => ?_⟩
  · rintro ⟨hr, hempty⟩
    rcases hs : strict with ⟨failure | u, table'⟩
    · obtain ⟨-, hfirst | ⟨-, he, -⟩⟩ := relaxedly_of_error hs
      · rw [recorded_of_ok hr, hempty] at hfirst
        cases hfirst
      · cases hr.symm.trans he
    · exact (relaxedly_of_ok hs).1.symm.trans hr
  · obtain ⟨hcount, hfirst⟩ := relaxedly_of_error hs
    refine ⟨hcount, ?_⟩
    rcases hr : relaxed with ⟨last | u, table'⟩
    · refine .inr ⟨last, table', rfl, ?_⟩
      rcases hfirst with h | ⟨hempty, he, hkind⟩
      · exact .inl h
      · cases hr.symm.trans he
        exact .inr ⟨hempty, rfl, rfl, hkind⟩
    · refine .inl ⟨u, table', rfl, ?_⟩
      rcases hfirst with h | ⟨-, he, -⟩
      · rwa [recorded_of_ok hr] at h
      · cases hr.symm.trans he

end RebolScan
