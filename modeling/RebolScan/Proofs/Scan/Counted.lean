import RebolScan.Proofs.Scan.Progress
import RebolScan.Scan.Transcode

/-!
# A scan that counts its levels

The scanner keeps no count of the levels it is in: `level` hands down the room that the limit
leaves, and what is handed down cannot be left wrong. Here is the scan with **a counter in its
state**, raised where a level is entered, lowered where it is left, and compared with the limit.
Only `deeper` touches the counter. The steps of a round that read no level inside are taken over as
they are (`lift`), and the others are put together as the scanner puts them together.

**The two are one scan** (`counted_eq`): at a depth of `d` a level of the counting scan ends as the
level does that has room for `maxDepth - d`, and with the counter at `d`, whether it returned or a
fault ended it.
-/

set_option autoImplicit false

namespace RebolScan

/-- A session, and how many levels are open inside the top. -/
structure Counted where
  session : Session
  depth : Nat

/-- A step of a scan that counts its levels. -/
abbrev CountedScan := EStateM Fault Counted

namespace CountedScan

open Scan

variable {α β : Type}

/-- A step that leaves the counter alone. -/
def lift (x : Scan α) : CountedScan α := fun s =>
  match x s.session with
  | .ok a t => .ok a ⟨t, s.depth⟩
  | .error f t => .error f ⟨t, s.depth⟩

/-- The result of a step, or the fault that ended it; what the step changed stays changed. -/
def attempt (step : CountedScan α) : CountedScan (Except Fault α) :=
  tryCatch (do return .ok (← step)) fun f => return .error f

/-- Reads the levels inside a level, and counts them. -/
abbrev Nested := Level → Nat → CountedScan Block

/-! ## One round of a level -/

/-- The path whose first segment is next, a token of kind `head` at `start`. -/
def path (nested : Nested) (head : TokenKind) (start : Nat) : CountedScan Value := do
  lift (joinPath head start (← nested .path start))

/-- The construction whose `#[` at `start` has just been consumed. -/
def construction (setup : Setup) (nested : Nested) (start : Nat) : CountedScan Value := do
  lift (construct setup start (← nested (.inside .block) start))

/-- What an element at `start` comes to once it is consumed. -/
def carryOut (setup : Setup) (nested : Nested) (r : Element.Reading) (start : Nat) :
    CountedScan Outcome := do
  match r.element with
  | .opener b =>
    if setup.options.only then lift (fail (.notAllowed b) b.openKind ⟨start, start + r.taken⟩)
    else return .value (.block b.blockKind (← nested (.inside b) start))
  | .construct => return .value (← construction setup nested start)
  -- No other element has a level inside.
  | _ => lift (Scan.carryOut setup (fun _ start => tooDeep start) r start)

/-- Consumes an element at `start` and finds out what it comes to. -/
def perform (setup : Setup) (nested : Nested) (r : Element.Reading) (start : Nat) :
    CountedScan Outcome :=
  match r.element with
  | .pathHead kind => do return .value (← path nested kind start)
  | _ => do
    lift (advance r.taken)
    carryOut setup nested r start

/-- An element that neither closes a level nor ends the input. -/
def item (setup : Setup) (nested : Nested) (level : Level) (r : Element.Reading) (start : Nat)
    (c : Collected) : CountedScan (Collected × Bool) := do
  let out ← attempt (perform setup nested r start)
  lift (settle setup level start c out)

/-- One round of a level that was opened at `opened`. -/
def turn (setup : Setup) (nested : Nested) (level : Level) (opened : Site) (c : Collected) :
    CountedScan (Collected × Bool) := do
  let (l, cursor) ← lift look
  let token := l.token cursor
  let r := Element.of level cursor.rest l
  match r.element with
  | .endOfInput =>
    match level with
    | .inside b => lift (unclosed setup b token opened c)
    | _ => return (c, false)
  | .closer b => lift (closer setup level b token opened c)
  | _ => item setup nested level r cursor.start c

/-! ## Levels -/

/-- The rounds of a level, `fuel` of them at most. -/
def rounds (setup : Setup) (nested : Nested) (level : Level) (opened : Site) :
    Nat → Collected → CountedScan Collected
  | 0, c => return c
  | fuel + 1, c => do
    let (c, goesOn) ← turn setup nested level opened c
    if goesOn then rounds setup nested level opened fuel c else return c

/-- One level, with the levels inside it given. -/
def levelWith (setup : Setup) (nested : Nested) (fuel : Nat) (level : Level) :
    CountedScan Block := do
  let opened ← lift site
  let c ← rounds setup nested level opened fuel .empty
  return c.toBlock

/-- Enters one level more if the limit allows it, and leaves it again however it ends. -/
def deeper (setup : Setup) (inner : Level → CountedScan Block) : Nested := fun l start => do
  if setup.options.maxDepth ≤ (← get).depth then lift (tooDeep start)
  else
    modify fun s => { s with depth := s.depth + 1 }
    let result ← attempt (inner l)
    modify fun s => { s with depth := s.depth - 1 }
    match result with
    | .ok block => return block
    | .error f => throw f

/-- One level. It is the counter that refuses a level too many: `bound` only ends the recursion, and
a bound of the whole limit is never reached. -/
def level (setup : Setup) (fuel : Nat) : Nat → Level → CountedScan Block
  | 0, l => levelWith setup (fun _ start => lift (tooDeep start)) fuel l
  | bound + 1, l => levelWith setup (deeper setup (level setup fuel bound)) fuel l

/-- The whole scan, with the counter at 0. -/
def scan (setup : Setup) (source : Bytes) : CountedScan Block :=
  level setup (source.length + 1) setup.options.maxDepth .top

/-! ## The counter changes nothing -/

/-- Where the counter is at `d`, the counting step does what the other does and leaves it there. -/
def Counts (d : Nat) (x : CountedScan α) (y : Scan α) : Prop := ∀ s, x ⟨s, d⟩ = lift y ⟨s, d⟩

variable {d : Nat}

theorem counts_lift (x : Scan α) : Counts d (lift x) x := fun _ => rfl

theorem counts_pure (a : α) : Counts d (pure a) (pure a) := fun _ => rfl

theorem Counts.bind {x : CountedScan α} {y : Scan α} {k : α → CountedScan β} {l : α → Scan β}
    (h : Counts d x y) (hk : ∀ a, Counts d (k a) (l a)) : Counts d (x >>= k) (y >>= l) := by
  intro s
  cases hy : y s with
  | ok a t =>
    have hx : x ⟨s, d⟩ = .ok a ⟨t, d⟩ := by rw [h s, lift, hy]
    rw [lift, bind_of_ok hy]
    simp only [Bind.bind, EStateM.bind, hx]
    exact hk a t
  | error f t =>
    have hx : x ⟨s, d⟩ = .error f ⟨t, d⟩ := by rw [h s, lift, hy]
    rw [lift, bind_of_error hy]
    simp only [Bind.bind, EStateM.bind, hx]

theorem Counts.ite {c : Prop} [Decidable c] {x x' : CountedScan α} {y y' : Scan α}
    (h : Counts d x y) (h' : Counts d x' y') :
    Counts d (if c then x else x') (if c then y else y') := by
  split
  · exact h
  · exact h'

theorem attempt_of_ok {x : CountedScan α} {s t : Counted} {a : α} (h : x s = .ok a t) :
    attempt x s = .ok (.ok a) t := by
  have hx : (x >>= fun a => pure (.ok a) : CountedScan (Except Fault α)) s = .ok (.ok a) t := by
    simp only [Bind.bind, EStateM.bind, h]
    rfl
  show EStateM.tryCatch _ _ s = _
  delta EStateM.tryCatch
  simp only [hx]

theorem attempt_of_error {x : CountedScan α} {s t : Counted} {f : Fault} (h : x s = .error f t) :
    attempt x s = .ok (.error f) t := by
  have hx : (x >>= fun a => pure (.ok a) : CountedScan (Except Fault α)) s = .error f t := by
    simp only [Bind.bind, EStateM.bind, h]
  show EStateM.tryCatch _ _ s = _
  delta EStateM.tryCatch
  simp only [hx]
  rfl

theorem Counts.attempt {x : CountedScan α} {y : Scan α} (h : Counts d x y) :
    Counts d (attempt x) (Scan.attempt y) := by
  intro s
  cases hy : y s with
  | ok a t =>
    have hx : x ⟨s, d⟩ = .ok a ⟨t, d⟩ := by rw [h s, lift, hy]
    rw [attempt_of_ok hx, lift, Scan.attempt_of_ok hy]
  | error f t =>
    have hx : x ⟨s, d⟩ = .error f ⟨t, d⟩ := by rw [h s, lift, hy]
    rw [attempt_of_error hx, lift, Scan.attempt_of_error hy]

section

variable {setup : Setup} {nested : Nested} {nested' : Scan.Nested}
  (hn : ∀ l start, Counts d (nested l start) (nested' l start))

include hn

theorem path_counts (head : TokenKind) (start : Nat) :
    Counts d (path nested head start) (Scan.path nested' head start) :=
  (hn _ _).bind fun _ => counts_lift _

theorem construction_counts (start : Nat) :
    Counts d (construction setup nested start) (Scan.construction setup nested' start) :=
  (hn _ _).bind fun _ => counts_lift _

theorem carryOut_counts (r : Element.Reading) (start : Nat) :
    Counts d (carryOut setup nested r start) (Scan.carryOut setup nested' r start) := by
  unfold carryOut Scan.carryOut
  cases r.element with
  | opener b =>
    refine .ite (counts_lift _) ?_
    exact (hn _ _).bind fun _ => counts_pure _
  | construct => exact (construction_counts hn _).bind fun _ => counts_pure _
  | _ => exact counts_lift _

theorem perform_counts (r : Element.Reading) (start : Nat) :
    Counts d (perform setup nested r start) (Scan.perform setup nested' r start) := by
  unfold perform Scan.perform
  cases r.element with
  | pathHead kind => exact (path_counts hn _ _).bind fun _ => counts_pure _
  | _ => exact (counts_lift _).bind fun _ => carryOut_counts hn _ _

theorem item_counts (level : Level) (r : Element.Reading) (start : Nat) (c : Collected) :
    Counts d (item setup nested level r start c) (Scan.item setup nested' level r start c) :=
  (perform_counts hn _ _).attempt.bind fun _ => counts_lift _

theorem turn_counts (level : Level) (opened : Site) (c : Collected) :
    Counts d (turn setup nested level opened c) (Scan.turn setup nested' level opened c) := by
  refine (counts_lift _).bind fun ⟨l, cursor⟩ => ?_
  dsimp only
  cases (Element.of level cursor.rest l).element with
  | endOfInput =>
    cases level with
    | inside b => exact counts_lift _
    | top | path => exact counts_pure _
  | closer b => exact counts_lift _
  | _ => exact item_counts hn _ _ _ _

theorem rounds_counts (level : Level) (opened : Site) (fuel : Nat) (c : Collected) :
    Counts d (rounds setup nested level opened fuel c)
      (Scan.rounds setup nested' level opened fuel c) := by
  induction fuel generalizing c with
  | zero => exact counts_pure _
  | succ fuel ih =>
    exact (turn_counts hn level opened c).bind fun ⟨c', goesOn⟩ => .ite (ih c') (counts_pure _)

theorem levelWith_counts (fuel : Nat) (level : Level) :
    Counts d (levelWith setup nested fuel level) (Scan.levelWith setup nested' fuel level) :=
  (counts_lift _).bind fun _ => (rounds_counts hn _ _ _ _).bind fun _ => counts_pure _

end

variable {setup : Setup}

/-- A level is left with the counter as it was when the level was entered. -/
theorem deeper_counts {inner : Level → CountedScan Block} {l : Level} {y : Scan Block} (start : Nat)
    (hy : ¬setup.options.maxDepth ≤ d → Counts (d + 1) (inner l) y) :
    Counts d (deeper setup inner l start)
      (if setup.options.maxDepth ≤ d then tooDeep start else y) := by
  intro s
  by_cases hd : setup.options.maxDepth ≤ d
  · rw [if_pos hd]
    show (if setup.options.maxDepth ≤ d then _ else _ : CountedScan Block) ⟨s, d⟩ = _
    rw [if_pos hd]
  · rw [if_neg hd]
    show (if setup.options.maxDepth ≤ d then _ else _ : CountedScan Block) ⟨s, d⟩ = _
    rw [if_neg hd]
    show (attempt (inner l) >>= fun result => _ : CountedScan Block) ⟨s, d + 1⟩ = _
    have hinner := hy hd s
    cases h : y s with
    | ok b t =>
      rw [lift, h] at hinner
      rw [lift, h]
      simp only [Bind.bind, EStateM.bind, attempt_of_ok hinner]
      rfl
    | error f t =>
      rw [lift, h] at hinner
      rw [lift, h]
      simp only [Bind.bind, EStateM.bind, attempt_of_error hinner]
      rfl

/-- So it counts like the levels inside one that has the room. -/
theorem inside_counts {fuel bound : Nat}
    (h : ∀ {d : Nat} (l : Level), Counts d (level setup fuel bound l)
      (Scan.level setup fuel (min bound (setup.options.maxDepth - d)) l)) (l : Level) (start : Nat) :
    Counts d (deeper setup (level setup fuel bound) l start)
      (inside setup fuel (min (bound + 1) (setup.options.maxDepth - d)) l start) := by
  have hdeeper : Counts d (deeper setup (level setup fuel bound) l start) _ :=
    deeper_counts start fun _ => h l
  by_cases hd : setup.options.maxDepth ≤ d
  · rw [if_pos hd] at hdeeper
    rw [Nat.sub_eq_zero_of_le hd, Nat.min_zero]
    exact hdeeper
  · have hroom : min (bound + 1) (setup.options.maxDepth - d) =
        min bound (setup.options.maxDepth - (d + 1)) + 1 := by omega
    rw [if_neg hd] at hdeeper
    rw [hroom]
    exact hdeeper

/-- **A level of the counting scan is the level that has the room which the counter leaves.** -/
theorem level_counts (setup : Setup) (fuel bound : Nat) (l : Level) :
    Counts d (level setup fuel bound l)
      (Scan.level setup fuel (min bound (setup.options.maxDepth - d)) l) := by
  induction bound generalizing d l with
  | zero =>
    rw [Nat.zero_min]
    exact levelWith_counts (fun _ _ => counts_lift _) fuel l
  | succ bound ih =>
    rw [level_eq]
    refine levelWith_counts (fun l start => ?_) fuel l
    exact inside_counts ih l start

/-- The counter in the state in which a step ends, whether it returns or a fault ends it. -/
def depthAfter (x : CountedScan α) (s : Counted) : Nat :=
  match x s with
  | .ok _ t => t.depth
  | .error _ t => t.depth

/-- **Whatever reading a level inside comes to, it leaves the counter as it found it.** -/
theorem depthAfter_deeper (setup : Setup) (fuel bound : Nat) (l : Level) (start : Nat)
    (s : Counted) : depthAfter (deeper setup (level setup fuel bound) l start) s = s.depth := by
  have h := inside_counts (d := s.depth) (fun l => level_counts setup fuel bound l) l start s.session
  rw [depthAfter, h, lift]
  cases inside setup fuel (min (bound + 1) (setup.options.maxDepth - s.depth)) l start s.session <;>
    rfl

/-- **The scan that counts its levels is the scan.** -/
theorem counted_eq (setup : Setup) (source : Bytes) (s : Session) :
    scan setup source ⟨s, 0⟩ = lift (setup.scan source) ⟨s, 0⟩ := by
  have h := level_counts (d := 0) setup (source.length + 1) setup.options.maxDepth .top s
  rw [Nat.sub_zero, Nat.min_self] at h
  exact h

end CountedScan

end RebolScan
