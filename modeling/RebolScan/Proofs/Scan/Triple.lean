import RebolScan.Proofs.Scan.Round

/-!
# What a step keeps

`Ends x s Q E`: the step `x` taken from `s` returns with `Q` or ends with a fault with `E`, and
`Triple P x Q E` says so of every state with `P`. Steps are put together as the scanner puts them
together, and so is what is known of them. **What every round keeps, however the levels inside it
are read, every level keeps**, be it of what it has collected since it was opened (`level_collects`)
or of the session alone (`level_triple`): that is the one induction over the nesting of a scan, and
fuel plays no part in it.
-/

set_option autoImplicit false

namespace RebolScan

namespace Scan

variable {α β : Type} {P : Session → Prop} {Q : α → Session → Prop} {E : Fault → Session → Prop}

/-- From `s` the step returns with `Q` or ends with a fault with `E`. -/
def Ends (x : Scan α) (s : Session) (Q : α → Session → Prop) (E : Fault → Session → Prop) : Prop :=
  match x s with
  | .ok a t => Q a t
  | .error f t => E f t

/-- From every state with `P` the step returns with `Q` or ends with a fault with `E`. -/
def Triple (P : Session → Prop) (x : Scan α) (Q : α → Session → Prop) (E : Fault → Session → Prop) :
    Prop := ∀ s, P s → Ends x s Q E

section

variable {x : Scan α} {s t : Session}

theorem ends_of_ok {a : α} (hx : x s = .ok a t) : Ends x s Q E ↔ Q a t := by
  rw [Ends, hx]

theorem ends_of_error {f : Fault} (hx : x s = .error f t) : Ends x s Q E ↔ E f t := by
  rw [Ends, hx]

theorem Ends.ok {a : α} (h : Ends x s Q E) (hx : x s = .ok a t) : Q a t := (ends_of_ok hx).1 h

theorem Ends.error {f : Fault} (h : Ends x s Q E) (hx : x s = .error f t) : E f t :=
  (ends_of_error hx).1 h

/-- Less may be said. -/
theorem Ends.imp {Q' : α → Session → Prop} {E' : Fault → Session → Prop} (h : Ends x s Q E)
    (hq : ∀ a t, Q a t → Q' a t) (he : ∀ f t, E f t → E' f t) : Ends x s Q' E' := by
  cases hx : x s with
  | ok a t => exact (ends_of_ok hx).2 (hq a t (h.ok hx))
  | error f t => exact (ends_of_error hx).2 (he f t (h.error hx))

theorem Ends.and {Q' : α → Session → Prop} {E' : Fault → Session → Prop} (h : Ends x s Q E)
    (h' : Ends x s Q' E') :
    Ends x s (fun a t => Q a t ∧ Q' a t) (fun f t => E f t ∧ E' f t) := by
  cases hx : x s with
  | ok a t => exact (ends_of_ok hx).2 ⟨h.ok hx, h'.ok hx⟩
  | error f t => exact (ends_of_error hx).2 ⟨h.error hx, h'.error hx⟩

/-! ## How steps are put together -/

theorem Ends.pure {a : α} (h : Q a s) : Ends (pure a) s Q E := h

theorem Ends.throw {f : Fault} (h : E f s) : Ends (throw f) s Q E := h

theorem Ends.bind {k : α → Scan β} {R : β → Session → Prop} (hx : Ends x s Q E)
    (hk : ∀ a, Triple (Q a) (k a) R E) : Ends (x >>= k) s R E := by
  cases h : x s with
  | ok a t =>
    rw [Ends, bind_of_ok h]
    exact hk a t (hx.ok h)
  | error f t => exact (ends_of_error (bind_of_error h)).2 (hx.error h)

/-- After a part that returns, the rest starts where that leaves off. -/
theorem Ends.after {k : α → Scan β} {R : β → Session → Prop} {a : α} (hx : x s = .ok a t)
    (hk : Ends (k a) t R E) : Ends (x >>= k) s R E := by
  rw [Ends, bind_of_ok hx]
  exact hk

theorem Ends.ite {c : Prop} [Decidable c] {y : Scan α} (hx : c → Ends x s Q E)
    (hy : ¬c → Ends y s Q E) : Ends (if c then x else y) s Q E := by
  split
  · rename_i h
    exact hx h
  · rename_i h
    exact hy h

/-- An attempt returns either way. -/
theorem Ends.attempt {R : Except Fault α → Session → Prop}
    (h : Ends x s (fun a => R (.ok a)) fun f => R (.error f)) : Ends (attempt x) s R E := by
  cases hx : x s with
  | ok a t => exact (ends_of_ok (attempt_of_ok hx)).2 (h.ok hx)
  | error f t => exact (ends_of_ok (attempt_of_error hx)).2 (h.error hx)

/-- A step from a place ends behind it. -/
theorem Ends.behind (h : Ends x s Q E) (hx : Forward x) {place : Nat}
    (hle : place ≤ s.cursor.start) :
    Ends x s (fun a t => Q a t ∧ place ≤ t.cursor.start)
      (fun f t => E f t ∧ place ≤ t.cursor.start) := by
  have hstart := (hx s).start
  cases hr : x s with
  | ok a t =>
    rw [after_of_ok hr] at hstart
    exact (ends_of_ok hr).2 ⟨h.ok hr, Nat.le_trans hle hstart⟩
  | error f t =>
    rw [after_of_error hr] at hstart
    exact (ends_of_error hr).2 ⟨h.error hr, Nat.le_trans hle hstart⟩

end

end Scan

/-! ## The parts of a round -/

/-- What is pending is consumed with the byte behind it. -/
def Session.past (s : Session) : Session :=
  { s with cursor := s.cursor.advance (s.cursor.stop + 1 - s.cursor.start) }

/-- The byte behind what is pending. -/
def Session.behind (s : Session) : UInt8 := byteAt s.cursor.rest (s.cursor.stop - s.cursor.start)

namespace Scan

section

variable {setup : Setup} {s : Session} {E : Fault → Session → Prop} {start : Nat} {c : Collected}

/-- Segments make a path where they end, or behind a colon; a colon behind a get-path is refused. -/
theorem joinPath_ends {head : TokenKind} {segments : Block} {Q : Value → Session → Prop}
    (hplain : ∀ kind,
      Q (.block kind { segments with items := mapFirst plainWord segments.items }) s)
    (hpath : Q (.block .path segments) s)
    (hset : s.behind = Ascii.colon → Q (.block .setPath segments) s.past)
    (hrefused : s.behind = Ascii.colon →
      Ends (invalid .path ⟨start, s.cursor.stop + 1⟩) s.past Q E) :
    Ends (joinPath head start segments) s Q E := by
  refine Ends.after rfl ?_
  refine Ends.after rfl ?_
  apply Ends.ite
  · intro _
    exact .pure (hplain _)
  · intro _
    split
    · apply Ends.ite
      · intro hcolon
        exact Ends.after rfl (hrefused (eq_of_beq hcolon))
      · intro _
        exact .pure (hplain _)
    · apply Ends.ite
      · intro hcolon
        exact Ends.after rfl (.pure (hset (eq_of_beq hcolon)))
      · intro _
        exact .pure hpath

/-- A construction makes a value of its items, or refuses them. -/
theorem construct_ends {spec : Block} {Q : Value → Session → Prop}
    (hmade : ∀ v, (setup.construct.make spec.items s.symbols).1 = some v →
      Q v { s with symbols := (setup.construct.make spec.items s.symbols).2 })
    (hrefused : (setup.construct.make spec.items s.symbols).1 = none →
      Ends (fail .malformedConstruct .construct ⟨start, s.cursor.start⟩)
        { s with symbols := (setup.construct.make spec.items s.symbols).2 } Q E) :
    Ends (construct setup start spec) s Q E := by
  refine Ends.after rfl ?_
  refine Ends.after rfl ?_
  split
  · rename_i v hv
    exact .pure (hmade v hv)
  · rename_i hnone
    exact Ends.after rfl (hrefused hnone)

/-- A path goes on behind a slash, unless what follows that is no segment. -/
theorem separator_ends {Q : Collected × Bool → Session → Prop} (hstop : Q (c, false) s)
    (hgo : s.behind = Ascii.slash → Q (c, true) s.past)
    (hrefused : s.behind = Ascii.slash →
      Ends (faultAt (.invalid .path) .path ⟨start, s.cursor.stop + 1⟩
          ⟨s.past.cursor.line, s.past.cursor.lineStart⟩ >>= fun f =>
        record setup f c >>= fun c => pure (c, false)) s.past Q E) :
    Ends (separator setup start c) s Q E := by
  refine Ends.after rfl ?_
  refine Ends.after rfl ?_
  apply Ends.ite
  · intro _
    exact .pure hstop
  · intro hslash
    rw [bne_iff_ne, ne_eq, Decidable.not_not] at hslash
    refine Ends.after rfl ?_
    refine Ends.after rfl ?_
    apply Ends.ite
    · intro _
      exact Ends.after rfl (hrefused hslash)
    · intro _
      exact .pure (hgo hslash)

/-- A closer is consumed by the level that it ends and at the top, and left by every other. -/
theorem closer_ends {level : Level} {b : Bracket} {token : Token} {opened : Site}
    {Q : Collected × Bool → Session → Prop} (hleft : Q (c, false) s)
    (hclosed : Q (c, false)
      { s with cursor := s.cursor.advance (token.stop - s.cursor.start) })
    (hextra : ∀ site goesOn,
      Ends (faultAt (.extra b) token.kind ⟨token.start, token.stop⟩ site >>= fun f =>
          record setup f c >>= fun c => pure (c, goesOn))
        { s with cursor := s.cursor.advance (token.stop - s.cursor.start) } Q E)
    (hunclosed : ∀ o, Ends (unclosed setup o token opened c) s Q E) :
    Ends (closer setup level b token opened c) s Q E := by
  cases level with
  | path => exact .pure hleft
  | top =>
    refine Ends.after rfl ?_
    exact Ends.after rfl (hextra _ _)
  | inside o =>
    apply Ends.ite
    · intro _
      exact Ends.after rfl (.pure hclosed)
    · intro _
      exact hunclosed o

end

/-- An element is the head of a path, which reads it again, or is consumed and carried out. -/
theorem perform_ends {setup : Setup} {nested : Nested} {r : Element.Reading} {start : Nat} {s : Session}
    {Q : Outcome → Session → Prop} {E : Fault → Session → Prop}
    (hpath : ∀ kind, r.element = .pathHead kind →
      Ends (path nested kind start) s (fun v => Q (.value v)) E)
    (hconsumed : (∀ kind, r.element ≠ .pathHead kind) →
      Ends (carryOut setup nested r start) { s with cursor := s.cursor.advance r.taken } Q E) :
    Ends (perform setup nested r start) s Q E := by
  by_cases hhead : ∃ kind, r.element = .pathHead kind
  · obtain ⟨kind, he⟩ := hhead
    rw [perform_head he]
    exact (hpath kind he).bind fun v t ht => .pure ht
  · have hhead (kind : TokenKind) : r.element ≠ .pathHead kind := fun he => hhead ⟨kind, he⟩
    rw [perform_element hhead]
    exact Ends.after rfl (hconsumed hhead)

/-! ## Rounds -/

section

variable {setup : Setup} {nested : Nested} {level : Level} {opened : Site} {c : Collected}
  {E : Fault → Session → Prop}

/-- A round meets the end of the input, a closer or an item. -/
theorem turn_ends {s : Session} {Q : Collected × Bool → Session → Prop}
    (hstop : (s.reading level).element = .endOfInput → Q (c, false) s.looked)
    (hopen : (s.reading level).element = .endOfInput → ∀ b,
      Ends (unclosed setup b s.token opened c) s.looked Q E)
    (hcloser : ∀ b, (s.reading level).element = .closer b →
      Ends (closer setup level b s.token opened c) s.looked Q E)
    (hitem : (s.reading level).element.isItem = true →
      Ends (item setup nested level (s.reading level) s.looked.cursor.start c) s.looked Q E) :
    Ends (turn setup nested level opened c) s Q E := by
  rw [Ends, turn_apply]
  rcases (s.reading level).element.isItem_cases with he | ⟨b, he⟩ | his
  · specialize hstop he
    specialize hopen he
    rw [he]
    cases level with
    | inside b => exact hopen b
    | top | path => exact hstop
  · specialize hcloser b he
    rw [he]
    exact hcloser
  · rw [← turn_apply setup nested level opened c s, turn_item his]
    exact hitem his

/-- What has to be known of an outcome so that `P` is known of the level that takes it, or of a fault
so that `P` is known once it is recorded. -/
def Fits (setup : Setup) (P : Collected → Session → Prop) (E : Fault → Session → Prop)
    (c : Collected) : Except Fault Outcome → Session → Prop
  | .ok (.value v), t => ∀ span, P (c.push v span) t
  | .ok .slot, t => ∀ span, P (c.push .none span) t
  | .ok .lineBreak, t => P { c with newLine := true } t
  | .ok .comment, t => P c t
  | .error f, t => Ends (record setup f c) t P E

/-- What is known of the session alone fits every outcome. -/
theorem fits_const {I : Session → Prop} {t : Session} (out : Outcome) (ht : I t) :
    Fits setup (fun _ => I) E c (.ok out) t := by
  cases out with
  | value v | slot => exact fun _ => ht
  | lineBreak | comment => exact ht

/-- An item is an element that the level takes, and what follows it. -/
theorem item_ends {P Q : Collected → Session → Prop} {r : Element.Reading} {start : Nat}
    {s : Session} (hkeep : ∀ c t, P c t → Q c t)
    (hafter : ∀ c, Triple (P c) (afterItem setup level start c) (fun r => Q r.1) E)
    (h : Ends (perform setup nested r start) s (fun out => Fits setup P E c (.ok out))
      fun f => Fits setup P E c (.error f)) :
    Ends (item setup nested level r start c) s (fun r => Q r.1) E := by
  apply Ends.bind (Q := Fits setup P E c) (Ends.attempt h)
  intro out t ht
  match out with
  | .ok .lineBreak => exact .pure (hkeep _ _ ht)
  | .ok .comment => exact .pure (hkeep _ _ ht)
  | .ok .slot => exact Ends.after rfl (.pure (hkeep _ _ (ht _)))
  | .ok (.value v) => exact Ends.after rfl (hafter _ t (ht _))
  | .error f =>
    apply Ends.bind (Q := P) ht
    intro c' u hu
    apply Ends.ite
    · intro _
      exact .pure (hkeep _ _ hu)
    · intro _
      exact hafter _ u hu

/-- What is known of a level and does not depend on where the scan is. A fault that is recorded as
soon as it arises has to keep it. -/
structure Placeless (setup : Setup) (P : Collected → Session → Prop)
    (E : Fault → Session → Prop) : Prop where
  moved : ∀ {c s} (cursor : Cursor), P c s → P c { s with cursor }
  recorded : ∀ {c s} kind token span site (goesOn : Bool), kind ≠ .tooDeep → P c s →
    Ends (faultAt kind token span site >>= fun f => record setup f c >>= fun c => pure (c, goesOn))
      s (fun r => P r.1) E

namespace Placeless

variable {P : Collected → Session → Prop} (h : Placeless setup P E)

include h

theorem separator {start : Nat} :
    Triple (P c) (separator setup start c) (fun r => P r.1) E := by
  intro s hs
  apply separator_ends hs
  · intro _
    exact h.moved _ hs
  · intro _
    exact h.recorded _ _ _ _ _ FaultKind.noConfusion (h.moved _ hs)

theorem afterItem {start : Nat} :
    Triple (P c) (afterItem setup level start c) (fun r => P r.1) E := by
  cases level with
  | path => exact h.separator
  | top | inside b =>
    intro s hs
    exact .pure hs

theorem closer {b : Bracket} {token : Token} :
    Triple (P c) (closer setup level b token opened c) (fun r => P r.1) E := by
  intro s hs
  apply closer_ends hs (h.moved _ hs)
  · intro site goesOn
    exact h.recorded _ _ _ _ _ FaultKind.noConfusion (h.moved _ hs)
  · intro o
    exact h.recorded _ _ _ _ _ FaultKind.noConfusion hs

/-- **A round keeps it if the elements do.** -/
theorem turn
    (helement : ∀ c s, P c s → ∀ level, (s.reading level).element.isItem = true →
      Ends (perform setup nested (s.reading level) s.looked.cursor.start) s.looked
        (fun out => Fits setup P E c (.ok out)) fun f => Fits setup P E c (.error f)) :
    Triple (P c) (turn setup nested level opened c) (fun r => P r.1) E := by
  intro s hs
  have hlooked : P c s.looked := h.moved _ hs
  apply turn_ends
  · intro _
    exact hlooked
  · intro _ b
    exact h.recorded _ _ _ _ _ FaultKind.noConfusion hlooked
  · intro b _
    exact h.closer _ hlooked
  · intro hitem
    exact item_ends (fun _ _ => id) (fun _ => h.afterItem) (helement c s hs level hitem)

end Placeless

end

/-! ## Levels -/

/-- The block is what a level has collected, and `P` is known of that. -/
def Yields (P : Collected → Session → Prop) (body : Block) (t : Session) : Prop :=
  ∃ c, body = c.toBlock ∧ P c t

theorem yields_of_forall {P : Collected → Session → Prop} {body : Block} {t : Session}
    (h : ∀ c, P c t) : Yields P body t :=
  ⟨⟨body.items.reverse, body.tailLine⟩, by rw [Collected.toBlock, List.reverse_reverse], h _⟩

section

variable {setup : Setup} {nested : Nested} {I : Session → Prop} {E : Fault → Session → Prop}

/-- What one round keeps of a level, all the rounds of the level keep. -/
theorem rounds_collect {P : Collected → Session → Prop} {level : Level} {opened : Site}
    (hturn : ∀ c, Triple (P c) (turn setup nested level opened c) (fun r => P r.1) E) (fuel : Nat)
    (c : Collected) : Triple (P c) (rounds setup nested level opened fuel c) P E := by
  induction fuel generalizing c with
  | zero =>
    intro s hs
    exact .pure hs
  | succ fuel ih =>
    intro s hs
    apply (hturn c s hs).bind
    rintro ⟨c', goesOn⟩ t ht
    apply Ends.ite
    · intro _
      exact ih c' t ht
    · intro _
      exact .pure ht

theorem levelWith_collects {P : Collected → Session → Prop} {fuel : Nat} {level : Level}
    {s : Session} (hs : P .empty s)
    (hturn : ∀ opened c, Triple (P c) (turn setup nested level opened c) (fun r => P r.1) E) :
    Ends (levelWith setup nested fuel level) s (Yields P) E := by
  refine Ends.after rfl ?_
  apply (rounds_collect (hturn _) fuel .empty s hs).bind
  intro c t ht
  exact .pure ⟨c, rfl, ht⟩

/-- **What every round keeps of what its level has collected, every level keeps.** `P s c t` is known
of a level that was opened in `s` and has collected `c` in `t`. -/
theorem level_collects {P : Session → Collected → Session → Prop}
    {E : Session → Fault → Session → Prop}
    (hdeep : ∀ start s, P s .empty s → Ends (tooDeep start : Scan Block) s (Yields (P s)) (E s))
    (hturn : ∀ nested : Nested, (∀ l start, Forward (nested l start)) →
      (∀ l start s, P s .empty s → Ends (nested l start) s (Yields (P s)) (E s)) →
      ∀ s level opened c,
        Triple (P s c) (turn setup nested level opened c) (fun r => P s r.1) (E s))
    (fuel room : Nat) (l : Level) (s : Session) (hs : P s .empty s) :
    Ends (level setup fuel room l) s (Yields (P s)) (E s) := by
  induction room generalizing l s with
  | zero =>
    apply levelWith_collects hs
    exact hturn _ (fun _ start => tooDeep_forward start) (fun _ start => hdeep start) s l
  | succ room ih =>
    apply levelWith_collects hs
    exact hturn _ (fun inner _ => level_forward setup fuel room inner) (fun inner _ => ih inner) s l

/-- **What every round keeps, every level keeps**, be it that a level too many is refused. -/
theorem level_triple
    (hdeep : ∀ start, Triple I (tooDeep start : Scan Block) (fun _ => I) E)
    (hturn : ∀ nested : Nested, (∀ l start, Forward (nested l start)) →
      (∀ l start, Triple I (nested l start) (fun _ => I) E) →
      ∀ level opened c, Triple I (turn setup nested level opened c) (fun _ => I) E)
    (fuel room : Nat) (l : Level) : Triple I (level setup fuel room l) (fun _ => I) E := by
  have hyields {body : Block} {t : Session} (h : Yields (fun _ => I) body t) : I t := by
    obtain ⟨c, -, ht⟩ := h
    exact ht
  intro s hs
  refine (level_collects (P := fun _ _ => I) (E := fun _ => E) ?_ ?_ fuel room l s hs).imp
    (fun _ _ => hyields) fun _ _ => id
  · intro start s hs
    exact (hdeep start s hs).imp (fun _ _ ht => yields_of_forall fun _ => ht) fun _ _ => id
  · intro nested hf hn _
    refine hturn nested hf fun l start s hs => ?_
    exact (hn l start s hs).imp (fun _ _ => hyields) fun _ _ => id

end

end Scan

end RebolScan
