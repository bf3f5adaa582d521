import RebolScan.Proofs.Scan.Forward

/-!
# Every round that goes on consumes a byte

A level is rounds with fuel, and running out of fuel would end it silently. It never does: **a round
after which the level goes on leaves less of the source** (`turn_shorter`). The one element that
consumes nothing itself is the head of a path, so this needs that a path consumes its head, which is
said of the levels inside (`Consumes`) and shown of every level that has fuel at all.

`rounds_induct` is what comes of it: to know something of a whole level it is enough to know what
one round does, and fuel is not mentioned again.
-/

set_option autoImplicit false

namespace RebolScan

/-- Less is left of the source in `t` than in `s`. -/
def Session.Shorter (s t : Session) : Prop := t.cursor.rest.length < s.cursor.rest.length

/-- The state after looking at the next lexeme. -/
def Session.looked (s : Session) : Session := { s with cursor := s.cursor.scan.2 }

/-- The token that is next. -/
def Session.token (s : Session) : Token :=
  (Lexeme.ofFront s.looked.cursor.rest).token s.looked.cursor

/-- The element that is next, for a level. -/
def Session.reading (s : Session) (level : Level) : Element.Reading :=
  Element.of level s.looked.cursor.rest (Lexeme.ofFront s.looked.cursor.rest)

namespace Session

theorem Shorter.before {s t u : Session} (h : s.Shorter t) (htu : t.Before u) : s.Shorter u :=
  Nat.lt_of_le_of_lt htu.length_le h

theorem Before.shorter {s t u : Session} (hst : s.Before t) (h : t.Shorter u) : s.Shorter u :=
  Nat.lt_of_lt_of_le h hst.length_le

theorem before_looked (s : Session) : s.Before s.looked :=
  before_of_drop rfl rfl rfl (List.suffix_refl _)

/-- Where no space is next, looking stays there. -/
theorem looked_of_not_space {s : Session} (h : isSpace (byteAt s.cursor.rest 0) = false) :
    s.looked.cursor.start = s.cursor.start ∧ s.looked.cursor.rest = s.cursor.rest := by
  have hskip := Cursor.skipSpace_of_not_space h
  constructor
  · show s.cursor.skipSpace.start = s.cursor.start
    rw [hskip]
  · show s.cursor.skipSpace.rest = s.cursor.rest
    rw [hskip]

theorem reading_reads (s : Session) (level : Level) :
    Element.Reads level s.looked.cursor.rest (s.reading level) := Element.of_reads _ _

end Session

namespace Scan

open Session

variable {α β : Type}

/-- What a round does, by the element that it meets. -/
theorem turn_apply (setup : Setup) (nested : Nested) (level : Level) (opened : Site) (c : Collected)
    (s : Session) :
    turn setup nested level opened c s =
      (match (s.reading level).element with
      | .endOfInput =>
        match level with
        | .inside b => unclosed setup b s.token opened c
        | _ => return (c, false)
      | .closer b => closer setup level b s.token opened c
      | _ => item setup nested level (s.reading level) s.looked.cursor.start c) s.looked := rfl

theorem turn_item {setup : Setup} {nested : Nested} {level : Level} {opened : Site} {c : Collected}
    {s : Session} (hitem : (s.reading level).element.isItem = true) :
    turn setup nested level opened c s =
      item setup nested level (s.reading level) s.looked.cursor.start c s.looked := by
  rw [turn_apply]
  cases he : (s.reading level).element with
  | endOfInput | closer b =>
    rw [he] at hitem
    cases hitem
  | _ => rfl

theorem after_advance_shorter {s : Session} {n : Nat} (hn : 1 ≤ n) (hs : s.cursor.rest ≠ []) :
    s.Shorter (after (advance n) s) := by
  have hlen := List.length_pos_iff.2 hs
  show (s.cursor.rest.drop n).length < s.cursor.rest.length
  rw [List.length_drop]
  omega

/-- What a step has consumed stays consumed in what comes after it. -/
theorem after_bind_shorter {x : Scan α} {k : α → Scan β} {s : Session}
    (hk : ∀ a, Forward (k a)) (h : s.Shorter (after x s)) : s.Shorter (after (x >>= k) s) :=
  h.before (Forward.after_bind hk s)

/-- In front of the first segment of a path no space is skipped. -/
theorem looked_rest_of_startsSegment {s : Session} (h : StartsSegment s.cursor.rest) :
    s.looked.cursor.rest = s.cursor.rest := by
  refine (looked_of_not_space ?_).2
  rw [← Bool.not_eq_true]
  exact fun hspace => Element.not_startsSegment_of_isSpace hspace h

section

variable {setup : Setup} {nested : Nested}

/-- The levels inside read a path from its head, or cannot be entered at all. -/
def Consumes (nested : Nested) : Prop :=
  ∀ start s, StartsSegment s.cursor.rest →
    s.Shorter (after (nested .path start) s) ∨
      ∃ f t, nested .path start s = .error f t ∧ f.isFatal = true

theorem after_item_shorter {level : Level} {r : Element.Reading} {start : Nat} {c : Collected}
    {s : Session} (h : s.Shorter (after (perform setup nested r start) s)) :
    s.Shorter (after (item setup nested level r start c) s) := by
  refine after_bind_shorter (fun o => settle_forward _ _ _ _ o) ?_
  rwa [after_attempt]

variable (hn : ∀ l start, Forward (nested l start))

include hn

/-- An element takes its bytes first, whatever it does then. -/
theorem after_perform_shorter {r : Element.Reading} {start : Nat} {s : Session}
    (hr : ∀ kind, r.element ≠ .pathHead kind) (h1 : 1 ≤ r.taken) (hs : s.cursor.rest ≠ []) :
    s.Shorter (after (perform setup nested r start) s) := by
  rw [perform_element hr]
  exact after_bind_shorter (fun _ => carryOut_forward hn _ _) (after_advance_shorter h1 hs)

theorem after_turn_shorter {level : Level} {opened : Site} {c : Collected} {s : Session}
    (hitem : (s.reading level).element.isItem = true)
    (hhead : ∀ kind, (s.reading level).element ≠ .pathHead kind) :
    s.Shorter (after (turn setup nested level opened c) s) := by
  have hread := s.reading_reads level
  have hend := Element.ne_endOfInput_of_isItem hitem
  rw [after, turn_item hitem]
  exact (before_looked s).shorter (after_item_shorter
    (after_perform_shorter hn hhead (hread.taken_bounds hend hhead).1 (hread.ne_nil hend)))

/-- **The first round of a path reads its head.** -/
theorem after_path_turn_shorter {opened : Site} {c : Collected} {s : Session}
    (h : StartsSegment s.cursor.rest) :
    s.Shorter (after (turn setup nested .path opened c) s) := by
  have hr := s.reading_reads .path
  have hsegment : (s.reading .path).element.isSegment = true :=
    hr.of_startsSegment (by rwa [looked_rest_of_startsSegment h])
  refine after_turn_shorter hn (Element.isItem_of_isSegment hsegment) ?_
  intro kind he
  rw [he] at hsegment
  cases hsegment

/-- So does a path that has fuel for one round. -/
theorem after_path_shorter (fuel : Nat) {s : Session} (h : StartsSegment s.cursor.rest) :
    s.Shorter (after (levelWith setup nested (fuel + 1) .path) s) := by
  show s.Shorter (after (rounds setup nested .path _ (fuel + 1) .empty >>= fun c => pure c.toBlock) s)
  refine after_bind_shorter (fun _ => .pure _) ?_
  refine after_bind_shorter (fun ⟨c, goesOn⟩ => ?_) (after_path_turn_shorter hn h)
  exact .ite (rounds_forward hn _ _ _ _) (.pure _)

omit hn in
/-- The head of a path is consumed with the path, if it can be entered. -/
theorem head_shorter (hc : Consumes nested) {level : Level} {kind : TokenKind} {start : Nat}
    {c c' : Collected} {r : Element.Reading} {s t : Session} {goesOn : Bool}
    (hr : r.element = .pathHead kind) (hs : StartsSegment s.cursor.rest)
    (h : item setup nested level r start c s = .ok (c', goesOn) t) : s.Shorter t := by
  have hp := @perform_head setup nested _ _ hr start
  rcases hc start s hs with hlt | ⟨f, u, hf, hfatal⟩
  · have ht : after (item setup nested level r start c) s = t := after_of_ok h
    rw [← ht]
    refine after_item_shorter ?_
    rw [hp]
    exact after_bind_shorter (fun _ => .pure _)
      (after_bind_shorter (fun _ => joinPath_forward _ _ _) hlt)
  · have hperform : perform setup nested r start s = .error f u := by
      rw [hp]
      exact bind_of_error (bind_of_error hf)
    have hitem : item setup nested level r start c s = .error f u := by
      rw [item, bind_of_ok (attempt_of_error hperform), settle, record, if_pos (by simp [hfatal])]
      rfl
    rw [hitem] at h
    cases h

omit hn in
/-- A level that is not closed does not go on. -/
theorem unclosed_ends {b : Bracket} {token : Token} {opened : Site} {c c' : Collected}
    {s t : Session} {goesOn : Bool}
    (h : unclosed setup b token opened c s = .ok (c', goesOn) t) : goesOn = false := by
  obtain ⟨f, u, -, h⟩ := bind_eq_ok.1 h
  obtain ⟨c'', v, -, h⟩ := bind_eq_ok.1 h
  cases h
  rfl

omit hn in
/-- A closer is consumed unless the level ends at it. -/
theorem closer_shorter {level : Level} {b : Bracket} {token : Token} {opened : Site}
    {c c' : Collected} {s t : Session} (hs : s.cursor.rest ≠ []) (hstop : s.cursor.start < token.stop)
    (h : closer setup level b token opened c s = .ok (c', true) t) : s.Shorter t := by
  have hafter : after (closer setup level b token opened c) s = t := after_of_ok h
  cases level with
  | top =>
    rw [← hafter]
    refine after_bind_shorter (fun _ => ?_) (after_advance_shorter (by omega) hs)
    refine site_forward.bind fun _ => (faultAt_forward _ _ _ _).bind fun f => ?_
    exact (record_forward setup f c).bind fun _ => .pure _
  | path => cases h
  | inside b' =>
    simp only [closer] at h
    split at h
    · obtain ⟨-, u, -, h⟩ := bind_eq_ok.1 h
      cases h
    · cases unclosed_ends h

/-- **A round after which the level goes on leaves less of the source.** -/
theorem turn_shorter (hc : Consumes nested) {level : Level} {opened : Site} {c c' : Collected}
    {s t : Session} (h : turn setup nested level opened c s = .ok (c', true) t) : s.Shorter t := by
  have hr := s.reading_reads level
  have hafter : after (turn setup nested level opened c) s = t := after_of_ok h
  cases he : (s.reading level).element with
  | endOfInput =>
    rw [turn_apply, he] at h
    cases level with
    | inside b => cases unclosed_ends h
    | top => cases h
    | path => cases h
  | closer b =>
    rw [turn_apply, he] at h
    have hne := hr.ne_nil (by rw [he]; exact Element.noConfusion)
    obtain ⟨h1, -⟩ := Lexeme.ofFront_bounds hne
    exact (before_looked s).shorter (closer_shorter hne (Nat.lt_add_of_pos_right h1) h)
  | pathHead kind =>
    rw [turn_item (by rw [he]; rfl)] at h
    exact (before_looked s).shorter (head_shorter hc he (hr.of_pathHead he) h)
  | _ =>
    rw [← hafter]
    refine after_turn_shorter hn (by rw [he]; rfl) ?_
    intro kind
    rw [he]
    exact Element.noConfusion

/-- **What a level keeps.** `P` holds between rounds and `Q` of the end, and fuel that exceeds what
is left of the source never runs out. -/
theorem rounds_induct (hc : Consumes nested) {level : Level} {opened : Site}
    {P Q : Collected → Session → Prop}
    (hgo : ∀ c s c' t, P c s → turn setup nested level opened c s = .ok (c', true) t → P c' t)
    (hend : ∀ c s c' t, P c s → turn setup nested level opened c s = .ok (c', false) t → Q c' t)
    {fuel : Nat} {c c' : Collected} {s t : Session} (hfuel : s.cursor.rest.length < fuel)
    (hP : P c s) (h : rounds setup nested level opened fuel c s = .ok c' t) : Q c' t := by
  induction fuel generalizing c s with
  | zero => exact absurd hfuel (Nat.not_lt_zero _)
  | succ fuel ih =>
    obtain ⟨⟨c₁, goesOn⟩, s₁, hturn, h⟩ := bind_eq_ok.1 h
    cases goesOn with
    | true =>
      have hlt : s₁.cursor.rest.length < s.cursor.rest.length := turn_shorter hn hc hturn
      exact ih (by omega) (hgo c s c₁ s₁ hP hturn) h
    | false =>
      cases h
      exact hend c s _ _ hP hturn

end

/-! ## Levels -/

/-- A level is its rounds from nothing collected. -/
theorem levelWith_eq_ok {setup : Setup} {nested : Nested} {fuel : Nat} {l : Level} {s t : Session}
    {b : Block} :
    levelWith setup nested fuel l s = .ok b t ↔
      ∃ c, rounds setup nested l ⟨s.cursor.line, s.cursor.lineStart⟩ fuel .empty s = .ok c t ∧
        c.toBlock = b := by
  have hlevel : levelWith setup nested fuel l s =
      (rounds setup nested l ⟨s.cursor.line, s.cursor.lineStart⟩ fuel .empty >>= fun c =>
        return c.toBlock) s := rfl
  rw [hlevel, bind_eq_ok]
  constructor
  · rintro ⟨c, u, hrun, h⟩
    cases h
    exact ⟨c, hrun, rfl⟩
  · rintro ⟨c, hrun, rfl⟩
    exact ⟨c, t, hrun, rfl⟩

/-- The levels inside one that has room for `room` of them. -/
def inside (setup : Setup) (fuel : Nat) : Nat → Nested
  | 0 => fun _ start => tooDeep start
  | room + 1 => fun l _ => level setup fuel room l

theorem level_eq (setup : Setup) (fuel room : Nat) (l : Level) :
    level setup fuel room l = levelWith setup (inside setup fuel room) fuel l := by
  cases room <;> rfl

theorem inside_forward (setup : Setup) (fuel room : Nat) (l : Level) (start : Nat) :
    Forward (inside setup fuel room l start) := by
  cases room with
  | zero => exact tooDeep_forward start
  | succ room => exact level_forward _ _ _ l

/-- A path inside a level reads its head, if there is room for a path. -/
theorem inside_consumes (setup : Setup) (fuel room : Nat) :
    Consumes (inside setup (fuel + 1) room) := by
  intro start s h
  cases room with
  | zero => exact .inr ⟨_, _, rfl, rfl⟩
  | succ room =>
    refine .inl ?_
    show s.Shorter (after (level setup (fuel + 1) room .path) s)
    rw [level_eq]
    exact after_path_shorter (inside_forward setup _ _) fuel h

end Scan

end RebolScan
