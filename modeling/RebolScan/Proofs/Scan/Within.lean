import RebolScan.Proofs.Scan.Sighting
import RebolScan.Proofs.Scan.Tiling
import RebolScan.Proofs.Scan.Triple

/-!
# Every place that a scan uses lies in its source

A cursor counts from the front of the source, and an element says how many bytes it takes or is
wrong over. Neither is ever too large or too small: **what is next and what is pending stay inside
the source, and so does the span of every fault** (`Within`). A colon or slash behind a path is
consumed only where it stands, and the end of the source reads as neither, so moving one place
further than what is pending stays inside as well (`Within.past`).

The levels inside a level start at the token that opens them or behind it, and never go back in
front of it, which is why `Within` names a place: faults about the whole of a path, a block or a
construction start there.
-/

set_option autoImplicit false

namespace RebolScan

open Ascii Scan

/-! ## What is wrong in an element -/

namespace Element

variable {text : Bytes}

/-- An element that takes a byte at all is wrong over a byte at least, and over no more than it
takes, or over `#(`. -/
def Reading.Covers (text : Bytes) (r : Reading) : Prop :=
  ∀ kind n, r.element = .invalid kind n → 1 ≤ r.taken →
    1 ≤ n ∧ (n ≤ r.taken ∨ n = 2 ∧ byteAt text 1 = parenOpen)

theorem covers_of_ne {r : Reading} (h : ∀ kind n, r.element ≠ .invalid kind n) :
    r.Covers text := fun kind n he => absurd he (h kind n)

theorem covers_bad (kind : TokenKind) (n : Nat) : (bad kind n).Covers text := by
  intro kind' m he h1
  cases he
  exact ⟨h1, .inl (Nat.le_refl _)⟩

theorem covers_valueOr (kind : TokenKind) (n : Nat) (v : Option Value) :
    (valueOr kind n v).Covers text := by
  cases v with
  | none => exact covers_bad kind n
  | some v => exact covers_of_ne fun _ _ => Element.noConfusion

/-- A word without a name is wrong over a byte all the same. -/
theorem covers_wordFrom {wordKind : WordKind} {kind : TokenKind} {start stop taken : Nat}
    (h : stop ≤ taken) : (wordFrom wordKind kind text start stop taken).Covers text := by
  unfold wordFrom
  split
  · intro kind' m he h1
    cases he
    exact ⟨Nat.le_max_right _ _, .inl (Nat.max_le.2 ⟨h, h1⟩)⟩
  · rename_i hstart
    split
    · exact covers_of_ne fun _ _ => Element.noConfusion
    · intro kind' m he h1
      cases he
      exact ⟨by omega, .inl h⟩

theorem covers_markedWord {wordKind : WordKind} {kind : TokenKind} {level : Level} {n : Nat} :
    (markedWord wordKind kind level text n).Covers text := by
  unfold markedWord
  split
  · split
    · exact covers_bad _ _
    · exact covers_wordFrom (Nat.le_refl _)
  · exact covers_wordFrom (Nat.le_refl _)

/-- The fault about `#(` is about both bytes, of which one is taken. -/
theorem covers_issueFrom {n : Nat} : (issueFrom text n).Covers text := by
  unfold issueFrom
  split
  · split
    · rename_i hparen
      intro kind' m he _
      cases he
      exact ⟨by omega, .inr ⟨rfl, eq_of_beq hparen⟩⟩
    · exact covers_of_ne fun _ _ => Element.noConfusion
  · dsimp only
    split
    · exact covers_bad _ _
    · split
      · exact covers_of_ne fun _ _ => Element.noConfusion
      · exact covers_bad _ _

theorem covers_dateFrom {level : Level} {n : Nat} : (dateFrom level text n).Covers text :=
  covers_valueOr _ _ _

theorem covers_integerFrom {level : Level} {n : Nat} : (integerFrom level text n).Covers text := by
  unfold integerFrom
  split
  · exact covers_dateFrom
  · exact covers_valueOr _ _ _

theorem covers_numberFrom {kind : TokenKind} {n : Nat} {v : Option Value} :
    (numberFrom kind text n v).Covers text := by
  unfold numberFrom
  split
  · exact covers_bad _ _
  · exact covers_valueOr _ _ _

theorem covers_timeFrom {level : Level} {n : Nat} : (timeFrom level text n).Covers text := by
  unfold timeFrom
  split
  · exact covers_valueOr _ _ _
  · exact covers_valueOr _ _ _

theorem covers_lineFrom {n : Nat} : (lineFrom text n).Covers text := by
  refine covers_of_ne fun kind m he => ?_
  simp only [lineFrom] at he
  split at he
  · cases he
  · cases he

theorem covers_ofLexeme (level : Level) (l : Lexeme) : (ofLexeme level text l).Covers text := by
  cases hk : l.kind with
  | line =>
    simp only [ofLexeme, hk]
    exact covers_lineFrom
  | word | refinement =>
    simp only [ofLexeme, hk]
    exact covers_wordFrom (Nat.le_refl _)
  | setWord =>
    simp only [ofLexeme, hk]
    split
    · exact covers_wordFrom (Nat.le_refl _)
    · exact covers_wordFrom (Nat.sub_le _ _)
  | getWord | litWord =>
    simp only [ofLexeme, hk]
    exact covers_markedWord
  | issue =>
    simp only [ofLexeme, hk]
    exact covers_issueFrom
  | integer =>
    simp only [ofLexeme, hk]
    exact covers_integerFrom
  | date =>
    simp only [ofLexeme, hk]
    exact covers_dateFrom
  | decimal | percent | money =>
    simp only [ofLexeme, hk]
    exact covers_numberFrom
  | time =>
    simp only [ofLexeme, hk]
    exact covers_timeFrom
  | pair | tuple | binary | char | file | email | url | tag =>
    simp only [ofLexeme, hk]
    exact covers_valueOr _ _ _
  | path =>
    simp only [ofLexeme, hk]
    exact covers_bad _ _
  | _ =>
    simp only [ofLexeme, hk]
    exact covers_of_ne fun _ _ => Element.noConfusion

theorem of_covers (level : Level) (text : Bytes) :
    (of level text (Lexeme.ofFront text)).Covers text := by
  unfold of
  split
  · exact covers_bad _ _
  · split
    · exact covers_of_ne fun _ _ => Element.noConfusion
    · split
      · exact covers_of_ne fun _ _ => Element.noConfusion
      · exact covers_ofLexeme level _

/-- **What is wrong in an element lies in the text**, and is not empty. -/
theorem invalid_bounds {level : Level} {kind : TokenKind} {n : Nat}
    (h : (of level text (Lexeme.ofFront text)).element = .invalid kind n) :
    1 ≤ n ∧ n ≤ text.length := by
  obtain ⟨h1, h2⟩ := (of_reads level text).taken_bounds (by rw [h]; exact Element.noConfusion)
    (by rw [h]; exact fun _ => Element.noConfusion)
  obtain ⟨hpos, hle | ⟨rfl, hparen⟩⟩ := of_covers level text kind n h h1
  · exact ⟨hpos, Nat.le_trans hle h2⟩
  · exact ⟨hpos, lt_length_of_byteAt (by rw [hparen]; decide)⟩

end Element

/-! ## Places and spans -/

/-- A span does not end in front of its start, nor behind the end of the source. -/
structure Span.In (source : Bytes) (span : Span) : Prop where
  le : span.start ≤ span.stop
  length : span.stop ≤ source.length

/-- The scan is at `place` or behind it, what is pending lies in the source, and so does everything
that a recorded fault is about. -/
structure Session.Within (source : Bytes) (place : Nat) (s : Session) : Prop
    extends s.At source where
  behind : place ≤ s.cursor.start
  stop : s.cursor.start ≤ s.cursor.stop
  inside : s.cursor.stop ≤ source.length
  faults : ∀ f ∈ s.faults, f.span.In source

/-- The step has ended with a fault about a stretch of the source. -/
structure Fault.Within (source : Bytes) (place : Nat) (f : Fault) (t : Session) : Prop where
  span : f.span.In source
  place : t.Within source place

namespace Session

variable {source : Bytes} {place : Nat} {s t : Session}

theorem within_start (source : Bytes) (symbols : SymbolTable) :
    (Session.start source symbols).Within source 0 := by
  have hmark := byteOrderMarkLength_le source
  refine ⟨⟨rfl, Cursor.coherent_afterMark source, hmark⟩, Nat.zero_le _, Nat.le_refl _, hmark, ?_⟩
  intro f hf
  cases hf

namespace Within

/-- What is no matter of the place may change. -/
theorem of_cursor (h : s.Within source place) (hc : t.cursor = s.cursor)
    (hf : t.faults = s.faults) : t.Within source place := by
  obtain ⟨⟨h1, h2, h3⟩, h4, h5, h6, h7⟩ := h
  rw [← hc] at h1 h2 h3 h4 h5 h6
  rw [← hf] at h7
  exact ⟨⟨h1, h2, h3⟩, h4, h5, h6, h7⟩

theorem of_le {q : Nat} (h : s.Within source place) (hq : q ≤ place) : s.Within source q :=
  ⟨h.toAt, Nat.le_trans hq h.behind, h.stop, h.inside, h.faults⟩

/-- The scan is where it is. -/
theorem here (h : s.Within source place) : s.Within source s.cursor.start :=
  ⟨h.toAt, Nat.le_refl _, h.stop, h.inside, h.faults⟩

theorem record {f : Fault} (h : s.Within source place) (hf : f.span.In source) :
    Within source place { s with faults := f :: s.faults } := by
  refine ⟨⟨h.sourced, h.coherent, h.le⟩, h.behind, h.stop, h.inside, ?_⟩
  intro g hg
  rcases List.mem_cons.1 hg with rfl | hg
  · exact hf
  · exact h.faults g hg

theorem advance (h : s.Within source place) {n : Nat} (hn : n ≤ s.cursor.rest.length) :
    Within source place { s with cursor := s.cursor.advance n } :=
  ⟨h.toAt.advance hn, Nat.le_trans h.behind (Nat.le_add_right _ _), Nat.le_refl _,
    (h.toAt.advance hn).le, h.faults⟩

/-- What is pending is consumed with the byte behind it, if that is some byte of the source. -/
theorem past (h : s.Within source place) {b : UInt8} (hb : s.behind = b) (hnul : b ≠ nul) :
    s.past.Within source place ∧ Span.In source ⟨place, s.cursor.stop + 1⟩ := by
  have hstop := h.stop
  have hlength := h.toAt.length
  rw [← hb] at hnul
  have hlt := lt_length_of_byteAt hnul
  refine ⟨h.advance (by omega), Nat.le_succ_of_le (Nat.le_trans h.behind hstop), ?_⟩
  show s.cursor.stop + 1 ≤ source.length
  omega

/-- **Looking at a lexeme leaves it pending inside the source.** -/
theorem looked (h : s.Within source place) : s.looked.Within source place := by
  have hat := h.toAt.looked
  have hlength := hat.length
  have hstop : s.looked.cursor.stop =
      s.looked.cursor.start + (Lexeme.ofFront s.looked.cursor.rest).length := rfl
  refine ⟨hat, Nat.le_trans h.behind (before_looked s).start, ?_, ?_, h.faults⟩
  · rw [hstop]
    exact Nat.le_add_right _ _
  · rw [hstop]
    by_cases hnil : s.looked.cursor.rest = []
    · rw [hnil]
      exact hat.le
    · have := (Lexeme.ofFront_bounds hnil).2
      omega

/-- What has been looked at is in the source. -/
theorem token (h : s.Within source place) :
    Span.In source ⟨s.token.start, s.token.stop⟩ :=
  ⟨h.looked.stop, h.looked.inside⟩

end Within

end Session

namespace Scan

open Session

variable {source : Bytes} {setup : Setup} {nested : Nested} {place start : Nat} {s : Session}

/-! ## Faults -/

theorem fail_within {α : Type} {kind : FaultKind} {token : TokenKind} {span : Span}
    {Q : α → Session → Prop} (hs : s.Within source place) (hspan : span.In source) :
    Ends (fail kind token span) s Q (Fault.Within source place) :=
  ⟨hspan, hs.of_cursor rfl rfl⟩

/-- A fault is recorded, or ends the step. -/
theorem record_within {f : Fault} {c : Collected} (hf : f.Within source place s) :
    Ends (record setup f c) s (fun _ => Session.Within source place)
      (Fault.Within source place) := by
  apply Ends.ite
  · intro _
    exact .throw hf
  · intro _
    exact hf.place.record hf.span

/-- A fault that is recorded as soon as it arises. -/
theorem recorded_within {kind : FaultKind} {token : TokenKind} {span : Span} {site : Site}
    {c : Collected} {goesOn : Bool} (hs : s.Within source place) (hspan : span.In source) :
    Ends (faultAt kind token span site >>= fun f => record setup f c >>= fun c => pure (c, goesOn))
      s (fun _ => Session.Within source place) (Fault.Within source place) := by
  have hcounted : Session.Within source place { s with faultCount := s.faultCount + 1 } :=
    hs.of_cursor rfl rfl
  refine Ends.after rfl ?_
  apply (record_within ⟨hspan, hcounted⟩).bind
  intro c t ht
  exact .pure ht

/-- A level too many is refused over what is pending, from the token that would open it. -/
theorem tooDeep_within {α : Type} {Q : α → Session → Prop} :
    Triple (Session.Within source start) (tooDeep start) Q (Fault.Within source start) := by
  intro s hs
  refine Ends.after rfl ?_
  exact fail_within hs ⟨Nat.le_trans hs.behind hs.stop, hs.inside⟩

/-! ## What an element comes to -/

theorem joinPath_within {head : TokenKind} {segments : Block} :
    Triple (Session.Within source start) (joinPath head start segments)
      (fun _ => Session.Within source start) (Fault.Within source start) := by
  intro s hs
  have hcolon (hc : s.behind = colon) := hs.past hc (by decide)
  apply joinPath_ends
  · intro _
    exact hs
  · exact hs
  · intro hc
    exact (hcolon hc).1
  · intro hc
    exact fail_within (hcolon hc).1 (hcolon hc).2

theorem construct_within {spec : Block} :
    Triple (Session.Within source start) (construct setup start spec)
      (fun _ => Session.Within source start) (Fault.Within source start) := by
  intro s hs
  have hmade : Session.Within source start
      { s with symbols := (setup.construct.make spec.items s.symbols).2 } := hs.of_cursor rfl rfl
  apply construct_ends
  · intro _ _
    exact hmade
  · intro _
    exact fail_within hmade ⟨hmade.behind, hmade.le⟩

/-- What the levels inside are taken to keep. -/
def NestedWithin (source : Bytes) (nested : Nested) : Prop :=
  ∀ l start, Triple (Session.Within source start) (nested l start)
    (fun _ => Session.Within source start) (Fault.Within source start)

section

variable (hn : NestedWithin source nested)

include hn

theorem path_within (head : TokenKind) :
    Triple (Session.Within source start) (path nested head start)
      (fun _ => Session.Within source start) (Fault.Within source start) := by
  intro s hs
  apply (hn _ _ s hs).bind
  intro segments
  exact joinPath_within

theorem construction_within :
    Triple (Session.Within source start) (construction setup nested start)
      (fun _ => Session.Within source start) (Fault.Within source start) := by
  intro s hs
  apply (hn _ _ s hs).bind
  intro spec
  exact construct_within

/-- **What an element comes to stays in the source**, at its token or behind it. -/
theorem perform_within (hs : s.Within source place) {level : Level}
    (hitem : (s.reading level).element.isItem = true) :
    Ends (perform setup nested (s.reading level) s.looked.cursor.start) s.looked
      (fun _ => Session.Within source s.looked.cursor.start)
      (Fault.Within source s.looked.cursor.start) := by
  have hend := Element.ne_endOfInput_of_isItem hitem
  have hlooked := hs.looked.here
  have hlength := hlooked.toAt.length
  apply perform_ends
  · intro kind _
    exact path_within hn kind s.looked hlooked
  · intro hhead
    have htaken := ((s.reading_reads level).taken_bounds hend hhead).2
    have hs := hlooked.advance htaken
    unfold carryOut
    cases he : (s.reading level).element with
    | lineBreak | word kind name | issue name =>
      refine Ends.after rfl ?_
      exact .pure ⟨⟨hs.sourced, hs.coherent, hs.le⟩, hs.behind, hs.stop, hs.inside, hs.faults⟩
    | slot | value v | comment => exact .pure hs
    | opener b =>
      apply Ends.ite
      · intro _
        exact fail_within hs ⟨hs.behind, hs.le⟩
      · intro _
        apply (hn _ _ _ hs).bind
        intro body t ht
        exact .pure ht
    | construct =>
      apply (construction_within hn _ hs).bind
      intro v t ht
      exact .pure ht
    | invalid kind n =>
      have hbounds := Element.invalid_bounds he
      refine fail_within hs ⟨Nat.le_add_right _ _, ?_⟩
      show s.looked.cursor.start + n ≤ source.length
      omega
    | endOfInput | closer b =>
      rw [he] at hitem
      cases hitem
    | pathHead kind => exact absurd he (hhead kind)

end

/-! ## One round of a level -/

/-- A slash behind a segment is consumed, and refused if no segment follows. -/
theorem separator_within {c : Collected} :
    Triple (Session.Within source start) (separator setup start c)
      (fun _ => Session.Within source start) (Fault.Within source start) := by
  intro s hs
  have hslash (hb : s.behind = slash) := hs.past hb (by decide)
  apply separator_ends hs
  · intro hb
    exact (hslash hb).1
  · intro hb
    exact recorded_within (hslash hb).1 (hslash hb).2

theorem afterItem_within {level : Level} {c : Collected} :
    Triple (Session.Within source start) (afterItem setup level start c)
      (fun _ => Session.Within source start) (Fault.Within source start) := by
  cases level with
  | path => exact separator_within
  | top | inside b =>
    intro s hs
    exact .pure hs

theorem closer_within {level : Level} {b : Bracket} {opened : Site} {c : Collected}
    (hs : s.Within source place) :
    Ends (closer setup level b s.token opened c) s.looked
      (fun _ => Session.Within source place) (Fault.Within source place) := by
  have hclosed : Session.Within source place
      { s.looked with cursor := s.looked.cursor.advance (s.token.stop - s.looked.cursor.start) } := by
    have hlength := hs.looked.toAt.length
    have htoken : s.token.stop ≤ source.length := hs.token.length
    apply hs.looked.advance
    omega
  apply closer_ends hs.looked hclosed
  · intro _ _
    exact recorded_within hclosed hs.token
  · intro _
    exact recorded_within hs.looked hs.token

theorem turn_within (hn : NestedWithin source nested) (level : Level) (opened : Site)
    (c : Collected) :
    Triple (Session.Within source place) (turn setup nested level opened c)
      (fun _ => Session.Within source place) (Fault.Within source place) := by
  intro s hs
  have hplace : place ≤ s.looked.cursor.start := hs.looked.behind
  apply turn_ends
  · intro _
    exact hs.looked
  · intro _ b
    exact recorded_within hs.looked hs.token
  · intro b _
    exact closer_within hs
  · intro hitem
    have hends : Ends (item setup nested level (s.reading level) s.looked.cursor.start c) s.looked
        (fun _ => Session.Within source s.looked.cursor.start)
        (Fault.Within source s.looked.cursor.start) := by
      apply item_ends (P := fun _ => Session.Within source s.looked.cursor.start) (fun _ _ => id)
      · intro c
        exact afterItem_within
      · exact (perform_within hn hs hitem).imp (fun out _ ht => fits_const out ht)
          fun _ _ ht => record_within ht
    exact hends.imp (fun _ _ ht => ht.of_le hplace)
      fun _ _ ht => ⟨ht.span, ht.place.of_le hplace⟩

/-! ## Levels -/

theorem inside_succ (setup : Setup) (fuel room : Nat) (l : Level) (start : Nat) :
    inside setup fuel (room + 1) l start = levelWith setup (inside setup fuel room) fuel l :=
  level_eq setup fuel room l

/-- **A level keeps to its source**, from the token that opens it on. -/
theorem inside_within (fuel room : Nat) : NestedWithin source (inside setup fuel room) := by
  induction room with
  | zero => exact fun _ _ => tooDeep_within
  | succ room ih =>
    intro l start s hs
    rw [inside_succ]
    refine Ends.after rfl ?_
    apply (rounds_collect (P := fun _ => Session.Within source start)
      (fun c => turn_within ih l _ c) fuel .empty s hs).bind
    intro c t ht
    exact .pure ht

end Scan

end RebolScan
