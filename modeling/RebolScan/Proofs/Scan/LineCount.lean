import RebolScan.Proofs.Scan.Located
import RebolScan.Proofs.Scan.Within
import RebolScan.Proofs.Token.LineCount

/-!
# The line of a scan

Looking at a lexeme counts its lines at once, and a lexeme may be looked at more than once: at the
head of a path, where a slash stands for a missing segment, and at a closing bracket that one level
leaves to another. None of these counts a line. So the scanner keeps the law of the tokens it is fed
with: **the line is one more than the line breaks that the tokens own which the scan has accepted**
(`lines_counted`), be it inside, at the end or at a fault.

The accepted tokens are those of the scanner's own rounds, each run by `turn`, and they lie one
behind the other in the source (`Counts`). All other steps of a round pass on without counting
(`InLine`).
-/

set_option autoImplicit false

namespace RebolScan

open Ascii Scan

/-- A token that a scan has accepted, and the line of the scan behind it. -/
structure Accepted where
  token : Token
  line : Nat
deriving DecidableEq, Repr

namespace Scan

/-- Whether a level consumes an element itself. It leaves the end, the head of a path, and the
closing brackets that it ends in front of. -/
def consumes (level : Level) : Element → Bool
  | .endOfInput | .pathHead _ => false
  | .closer b =>
    match level with
    | .top => true
    | .inside opened => opened == b
    | .path => false
  | _ => true

/-- The level that is read inside an element; a scan for one single value reads no brackets. -/
def enters (setup : Setup) : Element → Option Level
  | .opener b => if setup.options.only then none else some (.inside b)
  | e => opens e

/-- The token that a level accepts of what is next. It ends where the element does. -/
def accepts (level : Level) (s : Session) : List Accepted :=
  let r := s.reading level
  if consumes level r.element then
    [⟨{ s.token with stop := s.token.start + r.taken }, s.looked.cursor.line⟩]
  else []

/-- What the level inside an element accepts, which is read from `s`. -/
def innerAccepts (setup : Setup) (inner : Level → Session → List Accepted) (e : Element)
    (s : Session) : List Accepted :=
  match enters setup e with
  | some l => inner l s
  | none => []

/-- What a round accepts, with what the levels inside accept given. -/
def turnAccepts (setup : Setup) (inner : Level → Session → List Accepted) (level : Level)
    (s : Session) : List Accepted :=
  accepts level s ++ innerAccepts setup inner (s.reading level).element (entered level s)

/-- What the rounds of a level accept. -/
def roundsAccept (setup : Setup) (nested : Nested) (inner : Level → Session → List Accepted)
    (level : Level) (opened : Site) : Nat → Collected → Session → List Accepted
  | 0, _, _ => []
  | fuel + 1, c, s =>
    turnAccepts setup inner level s ++
      match turn setup nested level opened c s with
      | .ok (c', true) t => roundsAccept setup nested inner level opened fuel c' t
      | _ => []

/-- What the levels inside one with room for `room` of them accept. -/
def insideAccepts (setup : Setup) (fuel : Nat) : Nat → Level → Session → List Accepted
  | 0, _, _ => []
  | room + 1, l, s =>
    roundsAccept setup (inside setup fuel room) (insideAccepts setup fuel room) l
      ⟨s.cursor.line, s.cursor.lineStart⟩ fuel .empty s

end Scan

/-- The tokens that a scan of `source` accepts, in order. -/
def Setup.accepted (setup : Setup) (source : Bytes) (symbols : SymbolTable) : List Accepted :=
  Scan.insideAccepts setup (source.length + 1) (setup.options.maxDepth + 1) .top
    (Session.start source symbols)

/-! ## Counting -/

/-- From `p`, in line `line`, to `q`, in line `line'`, tokens were accepted one behind the other,
each of which has moved the line on by what it owns. -/
inductive Counts (source : Bytes) : Nat → Nat → List Accepted → Nat → Nat → Prop
  | nil {p q line : Nat} (h : p ≤ q) : Counts source p line [] q line
  | cons {p q line line' : Nat} {x : Accepted} {w : List Accepted} (hp : p ≤ x.token.start)
      (hx : x.token.start ≤ x.token.stop) (hline : x.line = line + x.token.ownBreaks source)
      (h : Counts source x.token.stop x.line w q line') : Counts source p line (x :: w) q line'

namespace Counts

variable {source : Bytes} {p q r line line' line'' : Nat} {v w : List Accepted}

theorem earlier (h : Counts source q line w r line') (hle : p ≤ q) :
    Counts source p line w r line' := by
  cases h with
  | nil h => exact .nil (Nat.le_trans hle h)
  | cons hp hx hline h => exact .cons (Nat.le_trans hle hp) hx hline h

theorem append (h : Counts source p line v q line') (h' : Counts source q line' w r line'') :
    Counts source p line (v ++ w) r line'' := by
  induction h with
  | nil hle => exact h'.earlier hle
  | cons hp hx hline h ih => exact .cons hp hx hline (ih h')

/-- The lines behind the tokens are the sums of what they own up to there. -/
theorem scanl (h : Counts source p line w q line') :
    (w.map fun x => x.token.ownBreaks source).scanl (· + ·) line = line :: w.map (·.line) := by
  induction h with
  | nil h => rfl
  | cons hp hx hline h ih => rw [List.map_cons, List.scanl_cons, ← hline, ih, List.map_cons]

theorem sum (h : Counts source p line w q line') :
    line' = line + (w.map fun x => x.token.ownBreaks source).sum := by
  induction h with
  | nil h => rfl
  | cons hp hx hline h ih => rw [ih, hline, List.map_cons, List.sum_cons, Nat.add_assoc]

theorem ordered (h : Counts source p line w q line') :
    w.Pairwise fun x y => x.token.stop ≤ y.token.start := by
  have hbehind {p q line line' : Nat} {w : List Accepted} (h : Counts source p line w q line') :
      ∀ x ∈ w, p ≤ x.token.start := by
    induction h with
    | nil h => exact fun x hx => absurd hx List.not_mem_nil
    | cons hp hx hline h ih =>
      intro y hy
      rcases List.mem_cons.1 hy with rfl | hy
      · exact hp
      · exact Nat.le_trans hp (Nat.le_trans hx (ih y hy))
  induction h with
  | nil h => exact .nil
  | cons hp hx hline h ih => exact .cons (hbehind h) ih

end Counts

namespace Session

variable {source : Bytes} {s t u : Session} {v w : List Accepted}

/-- From `s` to `t` the scan moves on in its line. -/
structure Passes (s t : Session) : Prop where
  start : s.cursor.start ≤ t.cursor.start
  line : t.cursor.line = s.cursor.line

theorem Passes.refl (s : Session) : s.Passes s := ⟨Nat.le_refl _, rfl⟩

theorem Passes.trans (hst : s.Passes t) (htu : t.Passes u) : s.Passes u :=
  ⟨Nat.le_trans hst.start htu.start, htu.line.trans hst.line⟩

/-- From `s` to `t` the tokens `w` were accepted and counted. -/
def LinesCounted (source : Bytes) (w : List Accepted) (s t : Session) : Prop :=
  Counts source s.cursor.start s.cursor.line w t.cursor.start t.cursor.line

theorem Passes.counted (h : s.Passes t) : LinesCounted source [] s t := by
  unfold LinesCounted
  rw [h.line]
  exact .nil h.start

theorem LinesCounted.append (hst : LinesCounted source v s t) (htu : LinesCounted source w t u) :
    LinesCounted source (v ++ w) s u :=
  Counts.append hst htu

theorem LinesCounted.passes (hst : LinesCounted source w s t) (htu : t.Passes u) :
    LinesCounted source w s u := by
  rw [← List.append_nil w]
  exact hst.append htu.counted

end Session

namespace Scan

open Session

variable {α β : Type} {setup : Setup} {source : Bytes} {s : Session}

/-! ## Steps that count nothing -/

/-- The step moves on in its line. -/
def InLine (x : Scan α) : Prop := ∀ s : Session, s.Passes (after x s)

theorem after_congr {x y : Scan α} {s t : Session} (h : x s = y t) : after x s = after y t := by
  rw [after, h, ← after]

theorem InLine.after_bind {x : Scan α} {k : α → Scan β} (hk : ∀ a, InLine (k a)) (s : Session) :
    (after x s).Passes (after (x >>= k) s) := Scan.after_bind .refl hk s

theorem InLine.bind {x : Scan α} {k : α → Scan β} (hx : InLine x) (hk : ∀ a, InLine (k a)) :
    InLine (x >>= k) := fun s => (hx s).trans (after_bind hk s)

theorem InLine.pure (a : α) : InLine (pure a : Scan α) := fun s => .refl s

theorem InLine.ite {c : Prop} [Decidable c] {x y : Scan α} (hx : InLine x) (hy : InLine y) :
    InLine (if c then x else y) := by
  split
  · exact hx
  · exact hy

theorem advanceTo_inLine (pos : Nat) : InLine (advanceTo pos) := fun _ => ⟨Nat.le_add_right _ _, rfl⟩

theorem fail_inLine (kind : FaultKind) (token : TokenKind) (span : Span) :
    InLine (fail kind token span : Scan α) := fun _ => ⟨Nat.le_refl _, rfl⟩

theorem faultAt_inLine (kind : FaultKind) (token : TokenKind) (span : Span) (site : Site) :
    InLine (faultAt kind token span site) := fun _ => ⟨Nat.le_refl _, rfl⟩

theorem record_inLine (setup : Setup) (f : Fault) (c : Collected) : InLine (record setup f c) :=
  .ite (fun s => .refl s) fun _ => ⟨Nat.le_refl _, rfl⟩

theorem recorded_inLine (kind : FaultKind) (token : TokenKind) (span : Span) (site : Site)
    (c : Collected) (goesOn : Bool) :
    InLine (faultAt kind token span site >>= fun f =>
      record setup f c >>= fun c => pure (c, goesOn)) :=
  (faultAt_inLine _ _ _ _).bind fun f => (record_inLine setup f c).bind fun _ => .pure _

theorem cursor_inLine : InLine cursor := fun s => .refl s

theorem byteFrom_inLine (pos : Nat) : InLine (byteFrom pos) := fun s => .refl s

theorem site_inLine : InLine site := fun s => .refl s

theorem joinPath_inLine (head : TokenKind) (start : Nat) (segments : Block) :
    InLine (joinPath head start segments) := by
  refine cursor_inLine.bind fun c => (byteFrom_inLine _).bind fun b => ?_
  refine .ite (.pure _) ?_
  split
  · exact .ite ((advanceTo_inLine _).bind fun _ => fail_inLine _ _ _) (.pure _)
  · exact .ite ((advanceTo_inLine _).bind fun _ => .pure _) (.pure _)

theorem construct_inLine (setup : Setup) (start : Nat) (spec : Block) :
    InLine (construct setup start spec) := by
  refine InLine.bind (fun s => .refl s) fun s =>
    InLine.bind (fun _ => ⟨Nat.le_refl _, rfl⟩) fun _ => ?_
  split
  · exact .pure _
  · exact cursor_inLine.bind fun _ => fail_inLine _ _ _

theorem afterItem_inLine (setup : Setup) (level : Level) (start : Nat) (c : Collected) :
    InLine (afterItem setup level start c) := by
  cases level with
  | path =>
    refine cursor_inLine.bind fun cur => (byteFrom_inLine _).bind fun b => .ite (.pure _) ?_
    refine (advanceTo_inLine _).bind fun _ => (byteFrom_inLine _).bind fun next => .ite ?_ (.pure _)
    exact site_inLine.bind fun _ => recorded_inLine _ _ _ _ _ _
  | top | inside b => exact .pure _

theorem settle_inLine (setup : Setup) (level : Level) (start : Nat) (c : Collected)
    (out : Except Fault Outcome) : InLine (settle setup level start c out) := by
  unfold settle
  split
  · exact .pure _
  · exact .pure _
  · exact cursor_inLine.bind fun _ => .pure _
  · exact cursor_inLine.bind fun _ => afterItem_inLine _ _ _ _
  · exact (record_inLine setup _ c).bind fun _ => .ite (.pure _) (afterItem_inLine _ _ _ _)

end Scan

/-! ## What a round accepts is counted -/

namespace Element

/-- What an element takes owns the line breaks that the lexeme counts. -/
theorem Crosses.lines {source : Bytes} {start : Nat} {l : Lexeme} {r : Reading}
    (h : Crosses (source.drop start) l r) (hl : l = Lexeme.ofFront (source.drop start))
    (hpos : 1 ≤ r.taken) :
    l.lines = Token.ownBreaks source ⟨l.kind, l.malformed, start, start + r.taken⟩ := by
  cases h with
  | within hzero hs hu =>
    rw [hzero]
    exact (Token.ownBreaks_of_unbroken (Nat.lt_add_of_pos_right hpos) (unbroken_drop.1 hu)).symm
  | lineBreak | whole => exact Lexeme.ofFront_lines source start hl

/-- An element that stands for nothing of its own counts no line. -/
theorem Crosses.lines_eq_zero {text : Bytes} {l : Lexeme} {r : Reading} (h : Crosses text l r)
    (hbreak : r.element ≠ .lineBreak) (hleaf : r.element.isLeaf = false) : l.lines = 0 := by
  cases h with
  | within hzero => exact hzero
  | lineBreak => exact absurd rfl hbreak
  | whole h =>
    dsimp only at hleaf
    rw [hleaf] at h
    cases h

end Element

namespace Scan

open Session

variable {setup : Setup} {nested : Nested} {inner : Level → Session → List Accepted}
  {source : Bytes} {s t : Session} {level : Level} {opened : Site} {c : Collected}

/-- The scan is at a place of `source`. -/
def Sourced (source : Bytes) (s : Session) : Prop := s.cursor.rest = source.drop s.cursor.start

theorem Sourced.before (hs : Sourced source s) (h : s.Before t) : Sourced source t := by
  have hle := h.start
  rw [Sourced, h.rest, hs, List.drop_drop, Nat.add_sub_cancel' hle]

/-- An element that is consumed is counted. -/
theorem counted_accepts (hs : Sourced source s)
    (hc : consumes level (s.reading level).element = true) :
    LinesCounted source (accepts level s) s
      { s.looked with cursor := s.looked.cursor.advance (s.reading level).taken } := by
  have hend : (s.reading level).element ≠ .endOfInput := by
    intro he
    rw [he] at hc
    cases hc
  have hhead (kind : TokenKind) : (s.reading level).element ≠ .pathHead kind := by
    intro he
    rw [he] at hc
    cases hc
  have hlooked : s.looked.cursor.rest = source.drop s.looked.cursor.start :=
    hs.before (before_looked s)
  have hcrosses := s.crosses_reading level
  rw [hlooked] at hcrosses
  rw [accepts, if_pos hc]
  refine .cons (before_looked s).start (Nat.le_add_right _ _) ?_ (.nil (Nat.le_refl _))
  have hlines := hcrosses.lines (congrArg Lexeme.ofFront hlooked)
    ((s.reading_reads level).taken_bounds hend hhead).1
  exact congrArg (s.cursor.line + ·) hlines

/-- What is left counts nothing. -/
theorem passes_looked (hc : consumes level (s.reading level).element = false) :
    s.Passes s.looked := by
  refine ⟨(before_looked s).start, ?_⟩
  have hzero : s.lexeme.lines = 0 := by
    apply (s.crosses_reading level).lines_eq_zero
    · intro he
      rw [he] at hc
      cases hc
    · cases he : (s.reading level).element with
      | endOfInput | closer | pathHead => rfl
      | _ =>
        rw [he] at hc
        cases hc
  rw [looked_line, hzero, Nat.add_zero]

theorem accepts_of_left (hc : consumes level (s.reading level).element = false) :
    accepts level s = [] := by
  rw [accepts, hc]
  rfl

/-- What is known of the levels inside: what they accept is counted. -/
def NestedCounts (source : Bytes) (nested : Nested)
    (inner : Level → Session → List Accepted) : Prop :=
  ∀ l start s, Sourced source s → LinesCounted source (inner l s) s (after (nested l start) s)

section

variable (hn : NestedCounts source nested inner)

include hn

/-- An element that has been consumed counts what the level inside it accepts. -/
theorem carryOut_counted {r : Element.Reading} {start : Nat} (hs : Sourced source s)
    (hitem : r.element.isItem = true) (hhead : ∀ kind, r.element ≠ .pathHead kind) :
    LinesCounted source (innerAccepts setup inner r.element s) s
      (after (carryOut setup nested r start) s) := by
  unfold carryOut
  cases he : r.element with
  | endOfInput | closer =>
    rw [he] at hitem
    cases hitem
  | pathHead kind => exact absurd he (hhead kind)
  | lineBreak | word | issue => exact Passes.counted ⟨Nat.le_refl _, rfl⟩
  | slot | value | comment => exact (Passes.refl s).counted
  | invalid kind length => exact (fail_inLine _ _ _ s).counted
  | opener b =>
    dsimp only [innerAccepts, enters]
    cases setup.options.only with
    | true => exact (fail_inLine _ _ _ s).counted
    | false => exact (hn _ _ _ hs).passes (InLine.after_bind (fun _ => .pure _) s)
  | construct =>
    apply (hn (.inside .block) start s hs).passes
    exact (InLine.after_bind (fun _ => construct_inLine _ _ _) s).trans
      (InLine.after_bind (fun _ => .pure _) s)

/-- **What an element comes to is counted.** -/
theorem perform_counted (hs : Sourced source s)
    (hitem : (s.reading level).element.isItem = true) :
    LinesCounted source (turnAccepts setup inner level s) s
      (after (perform setup nested (s.reading level) s.looked.cursor.start) s.looked) := by
  have hlooked : Sourced source s.looked := hs.before (before_looked s)
  by_cases hhead : ∃ kind, (s.reading level).element = .pathHead kind
  · obtain ⟨kind, he⟩ := hhead
    have hleft : consumes level (s.reading level).element = false := by
      rw [he]
      rfl
    have haccepts : turnAccepts setup inner level s = inner .path s.looked := by
      rw [turnAccepts, accepts_of_left hleft, entered, he]
      rfl
    rw [haccepts, perform_head he]
    apply ((passes_looked hleft).counted.append (hn .path s.looked.cursor.start _ hlooked)).passes
    exact (InLine.after_bind (fun _ => joinPath_inLine _ _ _) _).trans
      (InLine.after_bind (fun _ => .pure _) _)
  · have hhead (kind : TokenKind) : (s.reading level).element ≠ .pathHead kind :=
      fun he => hhead ⟨kind, he⟩
    have hconsumes : consumes level (s.reading level).element = true := by
      cases he : (s.reading level).element with
      | endOfInput | closer =>
        rw [he] at hitem
        cases hitem
      | pathHead kind => exact absurd he (hhead kind)
      | _ => rfl
    rw [turnAccepts, entered_of_not_head hhead, perform_element hhead]
    apply (counted_accepts hs hconsumes).append
    apply carryOut_counted hn _ hitem hhead
    exact hlooked.before (advance_forward (s.reading level).taken s.looked)

end

/-- **What a round accepts is counted**, whatever it comes to. -/
theorem turn_counted (hn : NestedCounts source nested inner) (hs : Sourced source s) :
    LinesCounted source (turnAccepts setup inner level s) s
      (after (turn setup nested level opened c) s) := by
  have hturn := turn_apply setup nested level opened c s
  have hleft (hc : consumes level (s.reading level).element = false)
      (he : enters setup (s.reading level).element = none) {x : Scan (Collected × Bool)}
      (hx : InLine x) : LinesCounted source (turnAccepts setup inner level s) s (after x s.looked) := by
    rw [turnAccepts, accepts_of_left hc, innerAccepts, he]
    exact ((passes_looked hc).trans (hx s.looked)).counted
  rcases (s.reading level).element.isItem_cases with he | ⟨b, he⟩ | hitem
  · rw [he] at hleft hturn
    rw [after_congr hturn]
    cases level with
    | inside b => exact hleft rfl rfl (recorded_inLine _ _ _ _ _ _)
    | top | path => exact hleft rfl rfl (.pure _)
  · have hbyte := (s.reading_reads level).of_closer he
    have hstop : s.token.stop - s.looked.cursor.start = (s.reading level).taken := by
      have hlength : s.lexeme.length = 1 := congrArg Lexeme.length (Lexeme.ofFront_closing hbyte)
      rw [reading, Element.of_closing level hbyte, ← hlength]
      exact Nat.add_sub_cancel_left _ _
    have hclosed (hc : consumes level (.closer b) = true) {x : Scan (Collected × Bool)}
        (hx : InLine x) : LinesCounted source (turnAccepts setup inner level s) s
          (after (advanceTo s.token.stop >>= fun _ => x) s.looked) := by
      have haccepts := counted_accepts hs (by rw [he]; exact hc)
      rw [turnAccepts, he]
      rw [← hstop] at haccepts
      exact (haccepts.append (hx _).counted)
    rw [he] at hleft hturn
    rw [after_congr hturn]
    cases level with
    | path => exact hleft rfl rfl (.pure _)
    | top => exact hclosed rfl (site_inLine.bind fun _ => recorded_inLine _ _ _ _ _ _)
    | inside o =>
      unfold closer
      dsimp only
      split
      · rename_i ho
        exact hclosed ho (.pure _)
      · rename_i ho
        exact hleft ((Bool.not_eq_true _).mp ho) rfl (recorded_inLine _ _ _ _ _ _)
  · rw [after_congr (turn_item hitem)]
    apply (perform_counted hn hs hitem).passes
    rw [← after_attempt]
    exact InLine.after_bind (fun out => settle_inLine _ _ _ _ out) _

/-! ## Levels -/

/-- What the rounds of a level accept is counted. -/
theorem rounds_counted (hf : ∀ l start, Forward (nested l start))
    (hn : NestedCounts source nested inner) (fuel : Nat) (hs : Sourced source s) :
    LinesCounted source (roundsAccept setup nested inner level opened fuel c s) s
      (after (rounds setup nested level opened fuel c) s) := by
  induction fuel generalizing c s with
  | zero => exact (Passes.refl s).counted
  | succ fuel ih =>
    have hturn : LinesCounted source (turnAccepts setup inner level s) s
        (after (turn setup nested level opened c) s) := turn_counted hn hs
    rw [roundsAccept]
    cases hr : turn setup nested level opened c s with
    | error f t =>
      have hrounds : rounds setup nested level opened (fuel + 1) c s = .error f t := bind_of_error hr
      rw [after_of_error hr] at hturn
      rw [after_of_error hrounds, List.append_nil]
      exact hturn
    | ok next t =>
      obtain ⟨c', goesOn⟩ := next
      have hrounds : rounds setup nested level opened (fuel + 1) c s =
          (if goesOn then rounds setup nested level opened fuel c' else pure c') t := bind_of_ok hr
      have hbefore : s.Before t := (turn_forward hf level opened c).ok hr
      rw [after_of_ok hr] at hturn
      rw [after_congr hrounds]
      cases goesOn with
      | true => exact hturn.append (ih (hs.before hbefore))
      | false => exact hturn.append (Passes.refl t).counted

/-- **What the levels of a scan accept is counted.** -/
theorem inside_counts (source : Bytes) (setup : Setup) (fuel room : Nat) :
    NestedCounts source (inside setup fuel room) (insideAccepts setup fuel room) := by
  induction room with
  | zero => exact fun l start s _ => Passes.counted ⟨Nat.le_refl _, rfl⟩
  | succ room ih =>
    intro l start s hs
    rw [inside_succ]
    exact (rounds_counted (inside_forward setup fuel room) ih fuel hs).passes
      (InLine.after_bind (fun _ => .pure _) s)

end Scan

/-- **Each line break counts once, for the token that owns it.** Behind any number of calls the line
of a tokenizer is one more than the line breaks that the tokens taken own. Of a scan, whatever is
asked of it and however it ends, the same holds behind every token that it accepts and at its end;
and the tokens that it accepts lie one behind the other. -/
theorem lines_counted (source : Bytes) :
    (∀ n, ((Tokenizer.ofSource source).nexts n).2.cursor.line =
      1 + (((Tokenizer.ofSource source).nexts n).1.map (Token.ownBreaks source)).sum) ∧
    ∀ setup symbols,
      let accepted := Setup.accepted setup source symbols
      let owned := accepted.map fun x => x.token.ownBreaks source
      1 :: accepted.map (·.line) = owned.scanl (· + ·) 1 ∧
      (after (setup.scan source) (Session.start source symbols)).cursor.line = 1 + owned.sum ∧
      accepted.Pairwise fun x y => x.token.stop ≤ y.token.start := by
  constructor
  · intro n
    exact Tokenizer.nexts_line n (Cursor.in_afterMark source)
  · intro setup symbols
    have hcounts := inside_counts source setup (source.length + 1) (setup.options.maxDepth + 1) .top
      0 (Session.start source symbols) (Cursor.coherent_afterMark source)
    exact ⟨hcounts.scanl.symm, hcounts.sum, hcounts.ordered⟩

end RebolScan
