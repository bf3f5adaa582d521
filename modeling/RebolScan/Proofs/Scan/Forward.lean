import RebolScan.Proofs.Scan.Element
import RebolScan.Scan.Scanner

/-!
# A scan only moves forward

Whatever a step of the scanner does, and however it ends, **the source stays, the position does not
go back, what is left of the source is dropped from its front, and recorded faults stay recorded**:
`Session.Before`. Each step is shown to keep this once (`Forward`), in the order in which the
scanner is put together, up to a whole level (`level_forward`).
-/

set_option autoImplicit false

namespace RebolScan

/-- `t` is a state that a scan may reach from `s`. -/
structure Session.Before (s t : Session) : Prop where
  source : t.cursor.source = s.cursor.source
  start : s.cursor.start ≤ t.cursor.start
  rest : t.cursor.rest = s.cursor.rest.drop (t.cursor.start - s.cursor.start)
  faults : s.faults <:+ t.faults

namespace Session

theorem Before.refl (s : Session) : s.Before s :=
  ⟨rfl, Nat.le_refl _, by simp, List.suffix_refl _⟩

theorem Before.trans {s t u : Session} (h₁ : s.Before t) (h₂ : t.Before u) : s.Before u := by
  refine ⟨h₂.source.trans h₁.source, Nat.le_trans h₁.start h₂.start, ?_, h₁.faults.trans h₂.faults⟩
  rw [h₂.rest, h₁.rest, List.drop_drop]
  have := h₁.start
  have := h₂.start
  congr 1
  omega

/-- A step that moves the cursor by dropping a front, and touches nothing else that counts. -/
theorem before_of_drop {s t : Session} {n : Nat} (hsrc : t.cursor.source = s.cursor.source)
    (hstart : t.cursor.start = s.cursor.start + n) (hrest : t.cursor.rest = s.cursor.rest.drop n)
    (hf : s.faults <:+ t.faults) : s.Before t :=
  ⟨hsrc, by omega, by rw [hrest, hstart, Nat.add_sub_cancel_left], hf⟩

theorem Before.coherent {s t : Session} (h : s.Before t) (hs : s.cursor.Coherent) :
    t.cursor.Coherent := by
  show t.cursor.rest = t.cursor.source.drop t.cursor.start
  rw [h.rest, hs, List.drop_drop, h.source, Nat.add_sub_cancel' h.start]

/-- What is left never grows. -/
theorem Before.length_le {s t : Session} (h : s.Before t) :
    t.cursor.rest.length ≤ s.cursor.rest.length := by
  rw [h.rest, List.length_drop]
  omega

end Session

namespace Scan

variable {α β : Type}

/-- The state in which a step ends, whether it returns or a fault ends it. -/
def after (x : Scan α) (s : Session) : Session :=
  match x s with
  | .ok _ t => t
  | .error _ t => t

/-- The step only moves forward. -/
def Forward (x : Scan α) : Prop := ∀ s : Session, s.Before (after x s)

theorem Forward.ok {x : Scan α} (hx : Forward x) {s t : Session} {a : α} (h : x s = .ok a t) :
    s.Before t := by
  have := hx s
  rwa [after, h] at this

/-! ## How steps are put together -/

theorem bind_of_ok {x : Scan α} {k : α → Scan β} {s t : Session} {a : α} (h : x s = .ok a t) :
    (x >>= k) s = k a t := by
  simp only [Bind.bind, EStateM.bind, h]

theorem bind_of_error {x : Scan α} {k : α → Scan β} {s t : Session} {f : Fault}
    (h : x s = .error f t) : (x >>= k) s = .error f t := by
  simp only [Bind.bind, EStateM.bind, h]

/-- A step that returned did so after its first part had. -/
theorem bind_eq_ok {x : Scan α} {k : α → Scan β} {s u : Session} {b : β} :
    (x >>= k) s = .ok b u ↔ ∃ a t, x s = .ok a t ∧ k a t = .ok b u := by
  cases hx : x s with
  | ok a t =>
    rw [bind_of_ok hx]
    constructor
    · intro h
      exact ⟨a, t, rfl, h⟩
    · rintro ⟨a', t', he, h⟩
      cases he
      exact h
  | error f t =>
    rw [bind_of_error hx]
    constructor
    · intro h
      cases h
    · rintro ⟨a', t', he, -⟩
      cases he

/-- A fault that ended a step ended its first part, or came after that. -/
theorem bind_eq_error {x : Scan α} {k : α → Scan β} {s u : Session} {f : Fault} :
    (x >>= k) s = .error f u ↔ x s = .error f u ∨ ∃ a t, x s = .ok a t ∧ k a t = .error f u := by
  cases hx : x s with
  | ok a t =>
    rw [bind_of_ok hx]
    constructor
    · intro h
      exact .inr ⟨a, t, rfl, h⟩
    · rintro (h | ⟨a', t', he, h⟩)
      · cases h
      · cases he
        exact h
  | error g t =>
    rw [bind_of_error hx]
    constructor
    · intro h
      cases h
      exact .inl rfl
    · rintro (h | ⟨a', t', he, -⟩)
      · cases h
        rfl
      · cases he

theorem attempt_of_ok {x : Scan α} {s t : Session} {a : α} (h : x s = .ok a t) :
    attempt x s = .ok (.ok a) t := by
  have hx : (x >>= fun a => pure (.ok a) : Scan (Except Fault α)) s = .ok (.ok a) t := bind_of_ok h
  show EStateM.tryCatch _ _ s = _
  delta EStateM.tryCatch
  simp only [hx]

/-- Catching a fault keeps what the step had changed. -/
theorem attempt_of_error {x : Scan α} {s t : Session} {f : Fault} (h : x s = .error f t) :
    attempt x s = .ok (.error f) t := by
  have hx : (x >>= fun a => pure (.ok a) : Scan (Except Fault α)) s = .error f t := bind_of_error h
  show EStateM.tryCatch _ _ s = _
  delta EStateM.tryCatch
  simp only [hx]
  rfl

theorem after_of_ok {x : Scan α} {s t : Session} {a : α} (h : x s = .ok a t) : after x s = t := by
  rw [after, h]

theorem after_of_error {x : Scan α} {s t : Session} {f : Fault} (h : x s = .error f t) :
    after x s = t := by
  rw [after, h]

theorem Forward.pure (a : α) : Forward (pure a : Scan α) := fun s => .refl s

theorem Forward.throw (f : Fault) : Forward (throw f : Scan α) := fun s => .refl s

/-- After the first step a scan is where the rest of it, if there is any, goes on. -/
theorem after_bind {R : Session → Session → Prop} (hrefl : ∀ s, R s s) {x : Scan α} {k : α → Scan β}
    (hk : ∀ a s, R s (after (k a) s)) (s : Session) : R (after x s) (after (x >>= k) s) := by
  cases h : x s with
  | ok a t =>
    rw [after_of_ok h, after, bind_of_ok h]
    exact hk a t
  | error f t =>
    rw [after_of_error h, after_of_error (bind_of_error h)]
    exact hrefl t

theorem Forward.after_bind {x : Scan α} {k : α → Scan β} (hk : ∀ a, Forward (k a))
    (s : Session) : (after x s).Before (after (x >>= k) s) := Scan.after_bind .refl hk s

theorem Forward.bind {x : Scan α} {k : α → Scan β} (hx : Forward x) (hk : ∀ a, Forward (k a)) :
    Forward (x >>= k) := fun s => (hx s).trans (after_bind hk s)

theorem after_attempt (x : Scan α) (s : Session) : after (attempt x) s = after x s := by
  cases h : x s with
  | ok a t => rw [after_of_ok h, after_of_ok (attempt_of_ok h)]
  | error f t => rw [after_of_error h, after_of_ok (attempt_of_error h)]

theorem Forward.attempt {x : Scan α} (hx : Forward x) : Forward (attempt x) := by
  intro s
  rw [after_attempt]
  exact hx s

theorem Forward.ite {c : Prop} [Decidable c] {x y : Scan α} (hx : Forward x) (hy : Forward y) :
    Forward (if c then x else y) := by
  split
  · exact hx
  · exact hy

/-! ## Looking and moving on -/

theorem cursor_forward : Forward cursor := fun s => .refl s

theorem site_forward : Forward site := cursor_forward.bind fun _ => .pure _

theorem get_forward : Forward (get : Scan Session) := fun s => .refl s

theorem advance_forward (n : Nat) : Forward (advance n) := fun _ =>
  Session.before_of_drop rfl rfl rfl (List.suffix_refl _)

theorem advanceTo_forward (pos : Nat) : Forward (advanceTo pos) :=
  cursor_forward.bind fun _ => advance_forward _

theorem byteFrom_forward (pos : Nat) : Forward (byteFrom pos) :=
  cursor_forward.bind fun _ => .pure _

theorem look_forward : Forward look := fun _ =>
  Session.before_of_drop rfl rfl rfl (List.suffix_refl _)

theorem intern_forward (name : String) : Forward (intern name) := fun _ =>
  Session.before_of_drop (n := 0) rfl rfl rfl (List.suffix_refl _)

/-! ## Faults -/

theorem faultAt_forward (kind : FaultKind) (token : TokenKind) (span : Span) (site : Site) :
    Forward (faultAt kind token span site) := fun _ =>
  Session.before_of_drop (n := 0) rfl rfl rfl (List.suffix_refl _)

theorem fail_forward (kind : FaultKind) (token : TokenKind) (span : Span) :
    Forward (fail kind token span : Scan α) :=
  site_forward.bind fun _ => (faultAt_forward _ _ _ _).bind fun _ => .throw _

theorem invalid_forward (token : TokenKind) (span : Span) :
    Forward (invalid token span : Scan α) := fail_forward _ _ _

theorem tooDeep_forward (start : Nat) : Forward (tooDeep start : Scan α) :=
  cursor_forward.bind fun _ => fail_forward _ _ _

theorem record_forward (setup : Setup) (f : Fault) (c : Collected) :
    Forward (record setup f c) := by
  unfold record
  refine .ite (.throw f) fun s => ?_
  exact Session.before_of_drop (n := 0) rfl rfl rfl (List.suffix_cons _ _)

/-! ## One round of a level -/

theorem joinPath_forward (head : TokenKind) (start : Nat) (segments : Block) :
    Forward (joinPath head start segments) := by
  refine cursor_forward.bind fun c => (byteFrom_forward _).bind fun b => ?_
  dsimp only
  refine .ite (.pure _) ?_
  split
  · exact .ite ((advanceTo_forward _).bind fun _ => invalid_forward _ _) (.pure _)
  · exact .ite ((advanceTo_forward _).bind fun _ => .pure _) (.pure _)

theorem construct_forward (setup : Setup) (start : Nat) (spec : Block) :
    Forward (construct setup start spec) := by
  refine get_forward.bind fun s => ?_
  dsimp only
  refine Forward.bind (fun _ => ?_) fun _ => ?_
  · exact Session.before_of_drop (n := 0) rfl rfl rfl (List.suffix_refl _)
  · split
    · exact .pure _
    · exact cursor_forward.bind fun _ => fail_forward _ _ _

section

variable {setup : Setup} {nested : Nested} (hn : ∀ l start, Forward (nested l start))

include hn

theorem path_forward (head : TokenKind) (start : Nat) : Forward (path nested head start) :=
  (hn _ _).bind fun _ => joinPath_forward _ _ _

theorem construction_forward (start : Nat) : Forward (construction setup nested start) :=
  (hn _ _).bind fun _ => construct_forward _ _ _

theorem carryOut_forward (r : Element.Reading) (start : Nat) :
    Forward (carryOut setup nested r start) := by
  unfold carryOut
  split
  · refine Forward.bind (fun _ => ?_) fun _ => .pure _
    exact Session.before_of_drop (n := 0) rfl rfl rfl (List.suffix_refl _)
  · exact .pure _
  · exact .pure _
  · exact (intern_forward _).bind fun _ => .pure _
  · exact (intern_forward _).bind fun _ => .pure _
  · exact .ite (fail_forward _ _ _) ((hn _ _).bind fun _ => .pure _)
  · exact (construction_forward hn _).bind fun _ => .pure _
  · exact invalid_forward _ _
  · exact .pure _

omit hn in
theorem perform_head {r : Element.Reading} {kind : TokenKind} (he : r.element = .pathHead kind)
    (start : Nat) :
    perform setup nested r start = path nested kind start >>= fun v => return .value v := by
  rw [perform, he]

omit hn in
theorem perform_element {r : Element.Reading} (hr : ∀ kind, r.element ≠ .pathHead kind)
    (start : Nat) :
    perform setup nested r start = advance r.taken >>= fun _ => carryOut setup nested r start := by
  unfold perform
  split
  · rename_i kind he
    exact absurd he (hr kind)
  · rfl

theorem perform_forward (r : Element.Reading) (start : Nat) :
    Forward (perform setup nested r start) := by
  unfold perform
  split
  · exact (path_forward hn _ _).bind fun _ => .pure _
  · exact (advance_forward _).bind fun _ => carryOut_forward hn _ _

end

theorem separator_forward (setup : Setup) (start : Nat) (c : Collected) :
    Forward (separator setup start c) := by
  refine cursor_forward.bind fun cur => (byteFrom_forward _).bind fun b => ?_
  refine .ite (.pure _) ?_
  refine (advanceTo_forward _).bind fun _ => (byteFrom_forward _).bind fun next => ?_
  refine .ite ?_ (.pure _)
  refine site_forward.bind fun _ => (faultAt_forward _ _ _ _).bind fun f => ?_
  exact (record_forward setup f c).bind fun _ => .pure _

theorem afterItem_forward (setup : Setup) (level : Level) (start : Nat) (c : Collected) :
    Forward (afterItem setup level start c) := by
  cases level with
  | path => exact separator_forward setup start c
  | top => exact .pure _
  | inside b => exact .pure _

theorem unclosed_forward (setup : Setup) (b : Bracket) (token : Token) (opened : Site)
    (c : Collected) : Forward (unclosed setup b token opened c) :=
  (faultAt_forward _ _ _ _).bind fun f => (record_forward setup f c).bind fun _ => .pure _

theorem closer_forward (setup : Setup) (level : Level) (b : Bracket) (token : Token)
    (opened : Site) (c : Collected) : Forward (closer setup level b token opened c) := by
  cases level with
  | path => exact .pure _
  | top =>
    refine (advanceTo_forward _).bind fun _ => site_forward.bind fun _ => ?_
    exact (faultAt_forward _ _ _ _).bind fun f => (record_forward setup f c).bind fun _ => .pure _
  | inside o =>
    exact .ite ((advanceTo_forward _).bind fun _ => .pure _) (unclosed_forward setup o token opened c)

theorem settle_forward (setup : Setup) (level : Level) (start : Nat) (c : Collected)
    (o : Except Fault Outcome) : Forward (settle setup level start c o) := by
  unfold settle
  split
  · exact .pure _
  · exact .pure _
  · exact cursor_forward.bind fun _ => .pure _
  · exact cursor_forward.bind fun _ => afterItem_forward _ _ _ _
  · refine (record_forward setup _ c).bind fun c' => ?_
    exact .ite (.pure _) (afterItem_forward _ _ _ _)

section

variable {setup : Setup} {nested : Nested} (hn : ∀ l start, Forward (nested l start))

include hn

theorem item_forward (level : Level) (r : Element.Reading) (start : Nat) (c : Collected) :
    Forward (item setup nested level r start c) :=
  (perform_forward hn r start).attempt.bind fun o => settle_forward _ _ _ _ o

theorem turn_forward (level : Level) (opened : Site) (c : Collected) :
    Forward (turn setup nested level opened c) := by
  refine look_forward.bind fun ⟨l, cur⟩ => ?_
  dsimp only
  split
  · split
    · exact unclosed_forward _ _ _ _ _
    · exact .pure _
  · exact closer_forward _ _ _ _ _ _
  · exact item_forward hn _ _ _ _

theorem rounds_forward (level : Level) (opened : Site) (fuel : Nat) (c : Collected) :
    Forward (rounds setup nested level opened fuel c) := by
  induction fuel generalizing c with
  | zero => exact .pure _
  | succ fuel ih =>
    refine (turn_forward hn level opened c).bind fun ⟨c', goesOn⟩ => ?_
    exact .ite (ih c') (.pure _)

theorem levelWith_forward (fuel : Nat) (level : Level) :
    Forward (levelWith setup nested fuel level) :=
  site_forward.bind fun _ => (rounds_forward hn _ _ _ _).bind fun _ => .pure _

end

/-- **A level only moves forward**, whatever is in it. -/
theorem level_forward (setup : Setup) (fuel room : Nat) (l : Level) :
    Forward (level setup fuel room l) := by
  induction room generalizing l with
  | zero => exact levelWith_forward (fun _ start => tooDeep_forward start) fuel l
  | succ room ih => exact levelWith_forward (fun inner _ => ih inner) fuel l

end Scan

end RebolScan
