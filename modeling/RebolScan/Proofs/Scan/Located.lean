import RebolScan.Proofs.Scan.Crossing
import RebolScan.Proofs.Scan.FirstFault
import RebolScan.Proofs.Scan.Tiling
import RebolScan.Proofs.Scan.Triple

/-!
# Where faults are reported

A fault names a line by its number and shows its text. The scanner counts lines as it goes, and a
lexeme may hold line breaks that it does not count (`HidesBreak`): tags and characters count none,
and quoted forms none that a caret escapes. So there are two cases, and `reported_located` shows
that there is no third: **a fault about text in one line names that line, unless line breaks before
it were hidden; then the number is too small**.

`Sited` ties the count to a position of the source, and `Tracked` is what every step of a scan keeps
of that. A step that looks at a lexeme counts its lines before it is consumed, so it is the rounds of
a level that keep `Tracked`, not each look.
-/

set_option autoImplicit false

namespace RebolScan

open Ascii Scan

/-! ## Positions and their lines -/

/-- The lexeme at `p` holds line breaks that it does not count. -/
structure HidesBreak (source : Bytes) (p : Nat) : Prop where
  kind : (Lexeme.ofFront (source.drop p)).kind ∈
    [TokenKind.string, .binary, .char, .file, .tag]
  lines : (Lexeme.ofFront (source.drop p)).lines <
    breaksBefore (source.drop p) (Lexeme.ofFront (source.drop p)).length

/-- Where the line of a position starts. -/
def lineStartAt (source : Bytes) (pos : Nat) : Nat :=
  (lastBreak source pos).getD (byteOrderMarkLength source)

/-- A line number and the start of a line as they are counted at `pos`: right, if no lexeme before
`pos` has hidden a line break. -/
def Sited (source : Bytes) (pos line lineStart : Nat) : Prop :=
  ∃ lines start, line = 1 + lines ∧ lineStart = start.getD (byteOrderMarkLength source) ∧
    Tallies source pos lines start ∧
    (lines < breaksBefore source pos →
      ∃ p, p + (Lexeme.ofFront (source.drop p)).length ≤ pos ∧ HidesBreak source p)

/-- A line break counts where it is cut. -/
theorem lines_of_kind_line {text : Bytes} (h : (Lexeme.ofFront text).kind = .line) :
    (Lexeme.ofFront text).lines = breaksBefore text (Lexeme.ofFront text).length := by
  have hbreak {skip : Nat} (hs : Unbroken text 0 skip)
      (hb : isLineBreak (byteAt text skip) = true) :
      (Lexeme.lineBreak text skip).lines =
        breaksBefore text (Lexeme.lineBreak text skip).length := by
    have hd : isLineBreak (byteAt (text.drop skip) 0) = true := by
      rwa [byteAt_drop]
    show 1 = breaksBefore text (skip + lineBreakLength (text.drop skip))
    rw [breaksBefore_add, breaksBefore_of_unbroken hs, (tallies_lineBreak hd).1]
  rcases Lexeme.ofFront_cases text with hst | hpl
  · generalize Lexeme.ofFront text = l at hst h
    cases hst with
    | endOfScript => cases h
    | opening b => cases b <;> cases h
    | closing b => cases b <;> cases h
    | lineBreak hb => exact hbreak (unbroken_refl 0) hb
    | comment hc =>
      unfold Lexeme.comment
      dsimp only
      split
      · exact (breaksBefore_of_unbroken (Lexeme.unbroken_lineLength text)).symm
      · rename_i hnul
        apply hbreak (Lexeme.unbroken_lineLength text)
        have he := Lexeme.isLineEnd_byteAt_lineLength text
        simpa [isLineEnd, hnul] using he
  · have hk := hpl.kind
    rw [h] at hk
    cases hk

/-- Only quoted forms, characters and tags hide line breaks. -/
theorem hidesBreak_of_lt {source : Bytes} {p : Nat}
    (h : (Lexeme.ofFront (source.drop p)).lines <
      breaksBefore (source.drop p) (Lexeme.ofFront (source.drop p)).length) :
    HidesBreak source p := by
  refine ⟨?_, h⟩
  cases hk : (Lexeme.ofFront (source.drop p)).kind.mayCross with
  | false =>
    obtain ⟨-, -, hu⟩ := (Lexeme.ofFront_lined (source.drop p)).oneLine (.inr hk)
    rw [breaksBefore_of_unbroken hu] at h
    exact absurd h (Nat.not_lt_zero _)
  | true =>
    cases hkind : (Lexeme.ofFront (source.drop p)).kind with
    | string | binary | char | file | tag => decide
    | line =>
      rw [lines_of_kind_line hkind] at h
      exact absurd h (Nat.lt_irrefl _)
    | _ =>
      rw [hkind] at hk
      cases hk

section

variable {source : Bytes} {p q line lineStart : Nat}

/-- A scan starts on the first line. -/
theorem sited_afterMark (source : Bytes) :
    Sited source (byteOrderMarkLength source) 1 (byteOrderMarkLength source) := by
  refine ⟨0, none, rfl, rfl, tallies_none _, ?_⟩
  intro h
  rw [breaksBefore_of_unbroken (unbroken_byteOrderMark source)] at h
  exact absurd h (Nat.lt_irrefl 0)

/-- Over a stretch without a line break the line stays. -/
theorem Sited.unbroken (h : Sited source p line lineStart) (hle : p ≤ q)
    (hu : Unbroken source p q) : Sited source q line lineStart := by
  obtain ⟨lines, start, hline, hstart, ht, hhides⟩ := h
  refine ⟨lines, start, hline, hstart, (tallies_unbroken hle hu).2 ht, ?_⟩
  intro hlt
  rw [breaksBefore_eq hle hu] at hlt
  obtain ⟨at?, hle', hhides⟩ := hhides hlt
  exact ⟨at?, Nat.le_trans hle' hle, hhides⟩

/-- Behind a lexeme its lines are counted. -/
theorem Sited.lexeme (h : Sited source p line lineStart) {l : Lexeme} {start : Option Nat}
    (hl : l = Lexeme.ofFront (source.drop p))
    (ht : Tallies (source.drop p) l.length l.lines start) :
    Sited source (p + l.length) (line + l.lines) ((start.map (p + ·)).getD lineStart) := by
  obtain ⟨lines, a, rfl, rfl, hta, hhides⟩ := h
  refine ⟨lines + l.lines, (start.map (p + ·)).or a, by omega, ?_, hta.add ht, ?_⟩
  · cases start with
    | none => rfl
    | some i => rfl
  · intro hlt
    rw [breaksBefore_add] at hlt
    by_cases hbefore : lines < breaksBefore source p
    · obtain ⟨at?, hle, hhides⟩ := hhides hbefore
      exact ⟨at?, Nat.le_trans hle (Nat.le_add_right _ _), hhides⟩
    · have hcount := hta.le
      subst hl
      exact ⟨p, Nat.le_refl _, hidesBreak_of_lt (by omega)⟩

end

/-! ## Faults -/

/-- The fault names the line on which it starts, and shows it. -/
structure Fault.OnLine (source : Bytes) (f : Fault) : Prop where
  line : f.line = 1 + breaksBefore source f.span.start
  near : f.near = Utf8.lossy (lineText source (lineStartAt source f.span.start))

/-- The fault names a line before its own: a lexeme before it hides a line break. -/
structure Fault.Behind (source : Bytes) (f : Fault) : Prop where
  line : f.line < 1 + breaksBefore source f.span.start
  hidden : ∃ p, p < f.span.start ∧ HidesBreak source p

/-- What a fault that is about a token in one line says of the line. -/
def Fault.Located (source : Bytes) (f : Fault) : Prop :=
  ∀ token, f.kind = .invalid token → Unbroken source f.span.start f.span.stop →
    f.OnLine source ∨ f.Behind source

theorem Fault.located_of_kind {source : Bytes} {f : Fault}
    (h : ∀ token, f.kind ≠ .invalid token) : f.Located source := by
  intro token hk
  exact absurd hk (h token)

/-- A fault that is reported where the scan is, in the line of what it is about. -/
theorem Sited.located {source : Bytes} {q line lineStart : Nat} {f : Fault}
    (h : Sited source q line lineStart) (hle : f.span.start ≤ q)
    (hu : Unbroken source f.span.start q) (hline : f.line = line)
    (hnear : f.near = Utf8.lossy (lineText source lineStart)) :
    f.OnLine source ∨ f.Behind source := by
  obtain ⟨lines, start, rfl, rfl, ht, hhides⟩ := h
  have htally := (tallies_unbroken hle hu).1 ht
  by_cases heq : lines = breaksBefore source f.span.start
  · left
    refine ⟨by rw [hline, heq], ?_⟩
    rw [hnear, htally.last heq]
    rfl
  · right
    have hcount := htally.le
    refine ⟨by omega, ?_⟩
    rw [← breaksBefore_eq hle hu] at heq hcount
    obtain ⟨p, hp, hhides⟩ := hhides (by omega)
    refine ⟨p, ?_, hhides⟩
    rw [← Nat.not_le]
    intro hge
    have hin : Unbroken (source.drop p) 0 (Lexeme.ofFront (source.drop p)).length :=
      unbroken_drop.2 (hu.mono hge hp)
    have hlines := hhides.lines
    rw [breaksBefore_of_unbroken hin] at hlines
    exact absurd hlines (Nat.not_lt_zero _)

/-! ## What a scan keeps -/

/-- Between two steps the line is counted up to the next byte, what is pending lies in that line,
and all that has been recorded is located. -/
structure Session.Tracked (source : Bytes) (s : Session) : Prop extends s.At source where
  stop : s.cursor.start ≤ s.cursor.stop
  pending : Unbroken source s.cursor.start s.cursor.stop
  sited : Sited source s.cursor.start s.cursor.line s.cursor.lineStart
  faults : ∀ f ∈ s.faults, f.Located source

/-- A located fault has been met, and the scan can go on behind it. -/
structure Fault.Met (source : Bytes) (f : Fault) (t : Session) : Prop where
  located : f.Located source
  tracked : t.Tracked source

namespace Session

variable {source : Bytes} {s t : Session}

theorem tracked_start (source : Bytes) (symbols : SymbolTable) :
    (Session.start source symbols).Tracked source := by
  refine ⟨at_start source symbols, Nat.le_refl _, unbroken_refl _, sited_afterMark source, ?_⟩
  intro f hf
  cases hf

/-- What is no matter of the place may change. -/
theorem Tracked.of_cursor (h : s.Tracked source) (hc : t.cursor = s.cursor)
    (hf : t.faults = s.faults) : t.Tracked source := by
  obtain ⟨hplace, h4, h5, h6, h7⟩ := h
  rw [← hc] at h4 h5 h6
  rw [← hf] at h7
  exact ⟨hplace.of_cursor hc, h4, h5, h6, h7⟩

theorem Tracked.record {f : Fault} (h : s.Tracked source) (hf : f.Located source) :
    Tracked source { s with faults := f :: s.faults } := by
  refine ⟨⟨h.sourced, h.coherent, h.le⟩, h.stop, h.pending, h.sited, ?_⟩
  intro g hg
  rcases List.mem_cons.1 hg with rfl | hg
  · exact hf
  · exact h.faults g hg

/-- Bytes of the line are consumed. -/
theorem Tracked.advance (h : s.Tracked source) {n : Nat} (hn : n ≤ s.cursor.rest.length)
    (hu : Unbroken source s.cursor.start (s.cursor.start + n)) :
    Tracked source { s with cursor := s.cursor.advance n } :=
  ⟨h.toAt.advance hn, Nat.le_refl _, unbroken_refl _,
    h.sited.unbroken (Nat.le_add_right _ _) hu, h.faults⟩

/-- What is pending is consumed with the byte behind it, which is no line break. -/
theorem Tracked.past (h : s.Tracked source) {b : UInt8} (hb : s.behind = b) (hnul : b ≠ nul)
    (hbreak : isLineBreak b = false) :
    s.past.Tracked source ∧ Unbroken source s.cursor.start (s.cursor.stop + 1) := by
  have hstop := h.stop
  rw [← hb] at hnul
  have hlt := lt_length_of_byteAt hnul
  have hlast : Unbroken source s.cursor.start (s.cursor.stop + 1) := by
    apply h.pending.trans
    apply unbroken_succ
    rw [Session.behind, h.byte, Nat.add_sub_cancel' hstop] at hb
    rw [hb]
    exact hbreak
  have hend : s.cursor.start + (s.cursor.stop + 1 - s.cursor.start) = s.cursor.stop + 1 := by
    omega
  refine ⟨h.advance (by omega) ?_, hlast⟩
  rwa [hend]

/-! ### Looking at a lexeme -/

/-- The lexeme that is next. -/
def lexeme (s : Session) : Lexeme := Lexeme.ofFront s.looked.cursor.rest

theorem Tracked.sited_looked (h : s.Tracked source) :
    Sited source s.looked.cursor.start s.cursor.line s.cursor.lineStart :=
  h.sited.unbroken (before_looked s).start h.toAt.unbroken_looked

/-- Looking at a lexeme of one line leaves it pending. -/
theorem Tracked.looked (h : s.Tracked source) (hl : s.lexeme.lines = 0)
    (hs : s.lexeme.lineStart = none) (hu : Unbroken s.looked.cursor.rest 0 s.lexeme.length) :
    s.looked.Tracked source := by
  have hat := h.toAt.looked
  refine ⟨hat, Nat.le_add_right _ _, ?_, ?_, h.faults⟩
  · rw [hat.rest, unbroken_drop] at hu
    exact hu
  · have hline : s.looked.cursor.line = s.cursor.line + s.lexeme.lines := rfl
    have hstart : s.looked.cursor.lineStart =
      (s.lexeme.lineStart.map (s.looked.cursor.start + ·)).getD s.cursor.lineStart := rfl
    rw [hline, hstart, hl, hs]
    exact h.sited_looked

/-- A closer, the end of the input or the head of a path is left pending. -/
theorem Tracked.looked_pending (h : s.Tracked source) {level : Level}
    (he : (s.reading level).element = .endOfInput ∨ (∃ b, (s.reading level).element = .closer b) ∨
      ∃ kind, (s.reading level).element = .pathHead kind) : s.looked.Tracked source := by
  have hr := s.reading_reads level
  have hlined : Lexeme.Lined s.looked.cursor.rest s.lexeme := Lexeme.ofFront_lined _
  have hcross : s.lexeme.kind.mayCross = false := by
    rcases he with he | ⟨b, he⟩ | ⟨kind, he⟩
    · rw [lexeme, hr.of_endOfInput he]
      rfl
    · rw [lexeme, Lexeme.ofFront_closing (hr.of_closer he)]
      cases b <;> rfl
    · exact Element.mayCross_of_startsPath (hr.startsPath_of_pathHead he)
  obtain ⟨hl, hs, hu⟩ := hlined.oneLine (.inr hcross)
  exact h.looked hl hs hu

/-! ### Consuming an element -/

theorem crosses_reading (s : Session) (level : Level) :
    Element.Crosses s.looked.cursor.rest s.lexeme (s.reading level) := Element.of_crosses _ _

theorem looked_line (s : Session) : s.looked.cursor.line = s.cursor.line + s.lexeme.lines := rfl

theorem looked_lineStart (s : Session) : s.looked.cursor.lineStart =
    (s.lexeme.lineStart.map (s.looked.cursor.start + ·)).getD s.cursor.lineStart := rfl

theorem Tracked.lexeme_eq (h : s.Tracked source) :
    s.lexeme = Lexeme.ofFront (source.drop s.looked.cursor.start) := by
  rw [lexeme, h.toAt.looked.rest]

/-- Behind an element its lines are counted, once it is not a line break. -/
theorem Tracked.sited_taken (h : s.Tracked source) {level : Level}
    (he : (s.reading level).element ≠ .lineBreak) :
    Sited source (s.looked.cursor.start + (s.reading level).taken) s.looked.cursor.line
      s.looked.cursor.lineStart := by
  have hc := s.crosses_reading level
  have hrest := h.toAt.looked.rest
  generalize s.reading level = r at hc he
  rw [looked_line, looked_lineStart]
  cases hc with
  | within hl hs hu =>
    rw [hl, hs]
    apply h.sited_looked.unbroken (Nat.le_add_right _ _)
    rwa [hrest, unbroken_drop] at hu
  | lineBreak => exact absurd rfl he
  | whole hleaf hlen ht =>
    rw [hrest] at ht
    exact h.sited_looked.lexeme h.lexeme_eq ht

/-- Behind a line break the next line starts. -/
theorem Tracked.sited_lineBreak (h : s.Tracked source) {level : Level}
    (he : (s.reading level).element = .lineBreak) :
    Sited source (s.looked.cursor.start + (s.reading level).taken) s.looked.cursor.line
      (s.looked.cursor.start + (s.reading level).taken) := by
  have hc := s.crosses_reading level
  obtain ⟨i, hi, hb⟩ := (s.reading_reads level).of_lineBreak he
  have hrest := h.toAt.looked.rest
  generalize s.reading level = r at hc he hi
  cases hc with
  | within hl hs hu =>
    rw [hu i (Nat.zero_le i) hi] at hb
    cases hb
  | lineBreak ht =>
    rw [hrest] at ht
    exact h.sited_looked.lexeme h.lexeme_eq ht
  | whole hleaf =>
    dsimp only at he
    rw [he] at hleaf
    cases hleaf

/-- What is invalid in one line has been counted on that line. -/
theorem Tracked.sited_invalid (h : s.Tracked source) {level : Level} {kind : TokenKind} {n : Nat}
    (he : (s.reading level).element = .invalid kind n)
    (hu : Unbroken source s.looked.cursor.start (s.looked.cursor.start + n)) :
    Sited source s.looked.cursor.start s.looked.cursor.line s.looked.cursor.lineStart := by
  have hc := s.crosses_reading level
  have hnone : s.lexeme.lines = 0 ∧ s.lexeme.lineStart = none := by
    generalize s.reading level = r at hc he
    cases hc with
    | within hl hs => exact ⟨hl, hs⟩
    | lineBreak => cases he
    | whole hleaf hlen ht =>
      rw [← unbroken_drop, ← h.toAt.looked.rest, hlen kind n he] at hu
      have hcount := ht.le
      rw [breaksBefore_of_unbroken hu] at hcount
      have hl := Nat.le_zero.1 hcount
      refine ⟨hl, ?_⟩
      rw [ht.last (by rw [hl, breaksBefore_of_unbroken hu])]
      exact lastBreak_of_breaksBefore (breaksBefore_of_unbroken hu)
  rw [looked_line, looked_lineStart, hnone.1, hnone.2]
  exact h.sited_looked

/-- An element that is no line break is consumed. -/
theorem Tracked.taken (h : s.Tracked source) {level : Level}
    (hend : (s.reading level).element ≠ .endOfInput)
    (hhead : ∀ kind, (s.reading level).element ≠ .pathHead kind)
    (hbreak : (s.reading level).element ≠ .lineBreak) :
    Tracked source
      { s.looked with cursor := s.looked.cursor.advance (s.reading level).taken } :=
  ⟨h.toAt.looked.advance ((s.reading_reads level).taken_bounds hend hhead).2, Nat.le_refl _,
    unbroken_refl _, h.sited_taken hbreak, h.faults⟩

end Session

namespace Scan

open Session

variable {source : Bytes} {setup : Setup} {nested : Nested}

/-! ## What a step keeps -/

/-- The scan is tracked, at `place` or behind it. -/
def From (source : Bytes) (place : Nat) (s : Session) : Prop :=
  s.Tracked source ∧ place ≤ s.cursor.start

/-- A fault was met at `place` or behind it. -/
def MetFrom (source : Bytes) (place : Nat) (f : Fault) (s : Session) : Prop :=
  f.Met source s ∧ place ≤ s.cursor.start

/-- A fault of another kind than invalid text need not name its line. -/
theorem fail_tracked {α : Type} {kind : FaultKind} {token : TokenKind} {span : Span}
    {Q : α → Session → Prop} {place : Nat} (hkind : ∀ token, kind ≠ .invalid token) :
    Triple (From source place) (fail kind token span) Q (MetFrom source place) := by
  rintro s ⟨hs, hle⟩
  exact ⟨⟨Fault.located_of_kind hkind, hs.of_cursor rfl rfl⟩, hle⟩

/-- A fault about a stretch of the line up to where the scan is. -/
theorem invalid_tracked {α : Type} {token : TokenKind} {start stop : Nat}
    {Q : α → Session → Prop} {s : Session} (hs : From source start s)
    (hstop : s.cursor.start ≤ stop) :
    Ends (invalid token ⟨start, stop⟩) s Q (MetFrom source start) := by
  obtain ⟨hs, hle⟩ := hs
  refine ⟨⟨?_, hs.of_cursor rfl rfl⟩, hle⟩
  intro token' _ hu
  exact hs.sited.located hle (hu.mono (Nat.le_refl _) hstop) rfl
    (congrArg (fun source => Utf8.lossy (lineText source s.cursor.lineStart)) hs.sourced)

theorem record_tracked {f : Fault} {c : Collected} {place : Nat} {s : Session}
    (hf : MetFrom source place f s) :
    Ends (record setup f c) s (fun _ => From source place) (MetFrom source place) := by
  apply Ends.ite
  · intro _
    exact .throw hf
  · intro _
    exact ⟨hf.1.tracked.record hf.1.located, hf.2⟩

/-- The colon behind a path or the slash behind a segment is consumed. -/
theorem From.past {start : Nat} {s : Session} (hs : From source start s) {b : UInt8}
    (hb : s.behind = b) (hnul : b ≠ nul) (hbreak : isLineBreak b = false) :
    From source start s.past ∧ s.past.cursor.start = s.cursor.stop + 1 := by
  obtain ⟨hs, hle⟩ := hs
  have hstop := hs.stop
  refine ⟨⟨(hs.past hb hnul hbreak).1, Nat.le_trans hle (Nat.le_add_right _ _)⟩, ?_⟩
  show s.cursor.start + (s.cursor.stop + 1 - s.cursor.start) = s.cursor.stop + 1
  omega

theorem joinPath_tracked {head : TokenKind} {start : Nat} {segments : Block} :
    Triple (From source start) (joinPath head start segments) (fun _ => From source start)
      (MetFrom source start) := by
  intro s hs
  have hcolon (hc : s.behind = colon) :
      From source start s.past ∧ s.past.cursor.start = s.cursor.stop + 1 :=
    hs.past hc (by decide) (by decide)
  apply joinPath_ends (fun _ => hs) hs
  · intro hc
    exact (hcolon hc).1
  · intro hc
    obtain ⟨hpast, hend⟩ := hcolon hc
    exact invalid_tracked hpast (Nat.le_of_eq hend)

theorem construct_tracked {start place : Nat} {spec : Block} :
    Triple (From source place) (construct setup start spec) (fun _ => From source place)
      (MetFrom source place) := by
  rintro s ⟨hs, hle⟩
  have hfrom : From source place
      { s with symbols := (setup.construct.make spec.items s.symbols).2 } :=
    ⟨hs.of_cursor rfl rfl, hle⟩
  apply construct_ends
  · intro v _
    exact hfrom
  · intro _
    exact fail_tracked (fun _ => FaultKind.noConfusion) _ hfrom

/-- What the levels inside are taken to keep. -/
def NestedTracked (source : Bytes) (nested : Nested) : Prop :=
  ∀ l start, Triple (Session.Tracked source) (nested l start) (fun _ => Session.Tracked source)
    (Fault.Met source)

section

variable (hf : ∀ l start, Forward (nested l start)) (hn : NestedTracked source nested)

include hf hn

theorem nested_tracked (l : Level) (start place : Nat) :
    Triple (From source place) (nested l start) (fun _ => From source place)
      (MetFrom source place) := by
  rintro s ⟨hs, hle⟩
  exact (hn l start s hs).behind (hf l start) hle

theorem path_tracked (head : TokenKind) (start : Nat) :
    Triple (From source start) (path nested head start) (fun _ => From source start)
      (MetFrom source start) := by
  intro s hs
  apply (nested_tracked hf hn _ _ _ s hs).bind
  intro segments
  exact joinPath_tracked

theorem construction_tracked (start place : Nat) :
    Triple (From source place) (construction setup nested start) (fun _ => From source place)
      (MetFrom source place) := by
  intro s hs
  apply (nested_tracked hf hn _ _ _ s hs).bind
  intro spec
  exact construct_tracked

/-- **What an element comes to is tracked**, from where it has been looked at. -/
theorem perform_tracked {s : Session} (hs : s.Tracked source) {level : Level}
    (hitem : (s.reading level).element.isItem = true) :
    Ends (perform setup nested (s.reading level) s.looked.cursor.start) s.looked
      (fun _ => From source s.looked.cursor.start)
      (MetFrom source s.looked.cursor.start) := by
  have hend := Element.ne_endOfInput_of_isItem hitem
  apply perform_ends
  · intro kind he
    have hpending := hs.looked_pending (.inr (.inr ⟨kind, he⟩))
    exact path_tracked hf hn kind _ s.looked ⟨hpending, Nat.le_refl _⟩
  · intro hhead
    have htaken (hb : (s.reading level).element ≠ .lineBreak) :
        From source s.looked.cursor.start
          { s.looked with cursor := s.looked.cursor.advance (s.reading level).taken } :=
      ⟨hs.taken hend hhead hb, Nat.le_add_right _ _⟩
    unfold carryOut
    cases he : (s.reading level).element with
    | lineBreak =>
      have hlen := ((s.reading_reads level).taken_bounds hend hhead).2
      have hat := hs.toAt.looked.advance hlen
      refine Ends.after rfl ?_
      refine .pure ⟨⟨⟨hat.sourced, hat.coherent, hat.le⟩, Nat.le_refl _, unbroken_refl _,
        hs.sited_lineBreak he, hs.faults⟩, Nat.le_add_right _ _⟩
    | slot | value v | comment =>
      have htaken := htaken (by rw [he]; exact Element.noConfusion)
      exact .pure htaken
    | word kind name | issue name =>
      obtain ⟨htracked, hle⟩ := htaken (by rw [he]; exact Element.noConfusion)
      refine Ends.after rfl ?_
      exact .pure ⟨htracked.of_cursor rfl rfl, hle⟩
    | opener b =>
      have htaken := htaken (by rw [he]; exact Element.noConfusion)
      apply Ends.ite
      · intro _
        exact fail_tracked (fun _ => FaultKind.noConfusion) _ htaken
      · intro _
        apply (nested_tracked hf hn _ _ _ _ htaken).bind
        intro body t ht
        exact .pure ht
    | construct =>
      have htaken := htaken (by rw [he]; exact Element.noConfusion)
      apply (construction_tracked hf hn _ _ _ htaken).bind
      intro v t ht
      exact .pure ht
    | invalid kind n =>
      obtain ⟨htracked, hle⟩ := htaken (by rw [he]; exact Element.noConfusion)
      refine ⟨⟨?_, htracked.of_cursor rfl rfl⟩, hle⟩
      intro token _ hu
      exact (hs.sited_invalid he hu).located (Nat.le_refl _) (unbroken_refl _) rfl
        (congrArg (fun source => Utf8.lossy (lineText source s.looked.cursor.lineStart))
          htracked.sourced)
    | endOfInput | closer b =>
      rw [he] at hitem
      cases hitem
    | pathHead kind => exact absurd he (hhead kind)

end

/-! ## One round of a level -/

/-- A fault is recorded, or ends the step. -/
theorem recorded_tracked {f : Fault} {c : Collected} {goesOn : Bool} {place : Nat} {s : Session}
    (hf : MetFrom source place f s) :
    Ends (record setup f c >>= fun c => pure (c, goesOn)) s (fun _ => From source place)
      (MetFrom source place) := by
  apply (record_tracked hf).bind
  intro c t ht
  exact .pure ht

/-- A slash behind a segment is consumed, and refused if no segment follows. -/
theorem separator_tracked {start : Nat} {c : Collected} :
    Triple (From source start) (separator setup start c) (fun _ => From source start)
      (MetFrom source start) := by
  intro s hs
  have hslash (hb : s.behind = slash) :
      From source start s.past ∧ s.past.cursor.start = s.cursor.stop + 1 :=
    hs.past hb (by decide) (by decide)
  apply separator_ends hs
  · intro hb
    exact (hslash hb).1
  · intro hb
    obtain ⟨hpast, hend⟩ := hslash hb
    refine Ends.after rfl ?_
    apply recorded_tracked
    exact invalid_tracked (Q := fun (_ : Unit) _ => False) hpast (Nat.le_of_eq hend)

theorem afterItem_tracked {level : Level} {start : Nat} {c : Collected} :
    Triple (From source start) (afterItem setup level start c) (fun _ => From source start)
      (MetFrom source start) := by
  cases level with
  | path => exact separator_tracked
  | top | inside b =>
    intro s hs
    exact .pure hs

/-- Where nothing need be said of the place. -/
theorem Ends.tracked {α : Type} {x : Scan α} {s : Session} {place : Nat}
    (h : Ends x s (fun _ => From source place) (MetFrom source place)) :
    Ends x s (fun _ => Session.Tracked source) (Fault.Met source) :=
  h.imp (fun _ _ ht => ht.1) fun _ _ ht => ht.1

/-- A fault about brackets need not name its line. -/
theorem recorded_bracket {kind : FaultKind} {token : TokenKind} {span : Span} {site : Site}
    {c : Collected} {goesOn : Bool} {s : Session} (hs : s.Tracked source)
    (hkind : ∀ token, kind ≠ .invalid token) :
    Ends (faultAt kind token span site >>= fun f => record setup f c >>= fun c => pure (c, goesOn))
      s (fun _ => Session.Tracked source) (Fault.Met source) := by
  refine Ends.after rfl ?_
  have hplace : s.cursor.start ≤ s.cursor.start := Nat.le_refl _
  apply Ends.tracked
  apply recorded_tracked
  exact ⟨⟨Fault.located_of_kind hkind, hs.of_cursor rfl rfl⟩, hplace⟩

theorem closer_tracked {level : Level} {b : Bracket} {opened : Site} {c : Collected} {s : Session}
    (hs : s.Tracked source) (he : (s.reading level).element = .closer b) :
    Ends (closer setup level b s.token opened c) s.looked (fun _ => Session.Tracked source)
      (Fault.Met source) := by
  have hpending := hs.looked_pending (.inr (.inl ⟨b, he⟩))
  have hclosed : Session.Tracked source
      { s.looked with cursor := s.looked.cursor.advance (s.token.stop - s.looked.cursor.start) } := by
    have hbounds := Lexeme.ofFront_bounds
      ((s.reading_reads level).ne_nil (by rw [he]; exact Element.noConfusion))
    have hstop : s.token.stop = s.looked.cursor.start + s.lexeme.length := rfl
    rw [hstop, Nat.add_sub_cancel_left]
    exact hpending.advance hbounds.2 hpending.pending
  apply closer_ends hpending hclosed
  · intro site goesOn
    exact recorded_bracket hclosed fun _ => FaultKind.noConfusion
  · intro o
    exact recorded_bracket hpending fun _ => FaultKind.noConfusion

theorem turn_tracked (hf : ∀ l start, Forward (nested l start)) (hn : NestedTracked source nested)
    (level : Level) (opened : Site) (c : Collected) :
    Triple (Session.Tracked source) (turn setup nested level opened c)
      (fun _ => Session.Tracked source) (Fault.Met source) := by
  intro s hs
  apply turn_ends
  · intro he
    exact hs.looked_pending (.inl he)
  · intro he b
    exact recorded_bracket (hs.looked_pending (.inl he)) fun _ => FaultKind.noConfusion
  · intro b he
    exact closer_tracked hs he
  · intro hitem
    apply Ends.tracked
    apply item_ends (P := fun _ => From source s.looked.cursor.start) (fun _ _ => id)
    · intro c
      exact afterItem_tracked
    · exact (perform_tracked hf hn hs hitem).imp (fun out _ ht => fits_const out ht)
        fun _ _ ht => record_tracked ht

theorem tooDeep_tracked (start : Nat) :
    Triple (Session.Tracked source) (tooDeep start : Scan Block)
      (fun _ => Session.Tracked source) (Fault.Met source) := by
  intro s hs
  refine Ends.after rfl ?_
  exact (fail_tracked (fun _ => FaultKind.noConfusion) s ⟨hs, Nat.le_refl _⟩).tracked

theorem level_tracked (setup : Setup) (fuel room : Nat) (l : Level) :
    Triple (Session.Tracked source) (level setup fuel room l) (fun _ => Session.Tracked source)
      (Fault.Met source) :=
  level_triple tooDeep_tracked (fun _ hf hn => turn_tracked hf hn) fuel room l

end Scan

/-! ## Whole scans -/

/-- The faults that a scan reports: those that it passed over, and the one that ended it. -/
def Setup.reported (setup : Setup) (source : Bytes) (symbols : SymbolTable) : List Fault :=
  match setup.scan source (Session.start source symbols) with
  | .ok _ s => s.faults.reverse
  | .error f s => s.faults.reverse ++ [f]

theorem Setup.scan_tracked (setup : Setup) (source : Bytes) (symbols : SymbolTable) :
    Ends (setup.scan source) (Session.start source symbols) (fun _ => Session.Tracked source)
      (Fault.Met source) :=
  level_tracked setup _ _ .top _ (Session.tracked_start source symbols)

end RebolScan
