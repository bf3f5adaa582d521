import RebolScan.Proofs.Scan.Within
import RebolScan.Proofs.Token.Runs

/-!
# Every scan ends

The rounds of a level and the room for levels inside it are counted down by the definitions, and a
count that ran out would end a level early and say nothing. `Loop` and `Descends` tell the same
story **without a count**: a level is passes that follow one another until one leaves it, and a pass
that goes on has moved forward in the source. `scan_terminates` shows that what a scan comes to
is what they say, whatever the source, the options and the constructor.

What makes the passes move on is not the token alone. A closer that is left to a level further out
is looked at again, and so is the head of a path; but the one ends its level, and the other is read
by a level that knows no paths (`Measured`).
-/

set_option autoImplicit false

namespace RebolScan

open Ascii Scan

/-! ## The ends that an element is measured by -/

/-- What a level measures the next element by, in a scan of `source`. The byte in front of an end is
always one of the token, and what is taken or wrong ends behind the front of the token and in the
source. An element that opens a level takes bytes first, but for the head of a path: that is read
again from its front, at a level where it is a segment and no path can start. -/
structure Session.Measured (source : Bytes) (level : Level) (s : Session) : Prop where
  run : s.token.start < s.cursor.scanRun.2.stop
  runInside : (s.reading level).element ≠ .endOfInput → s.cursor.scanRun.2.stop ≤ source.length
  token : (s.reading level).element ≠ .endOfInput → s.token.start < s.token.stop
  tokenInside : s.token.stop ≤ source.length
  /-- the colon at the end of a set-word or a time can be given back -/
  colon : s.token.kind.holdsColon = true → s.token.malformed = false →
    s.token.start + 2 ≤ s.token.stop
  taken : (s.reading level).element ≠ .endOfInput →
    (∀ kind, (s.reading level).element ≠ .pathHead kind) →
      1 ≤ (s.reading level).taken ∧ s.token.start + (s.reading level).taken ≤ source.length
  invalid : ∀ kind n, (s.reading level).element = .invalid kind n →
    1 ≤ n ∧ s.token.start + n ≤ source.length
  opened : ∀ l, opens (s.reading level).element = some l → l ≠ .path →
    s.token.start < (entered level s).cursor.start
  head : opens (s.reading level).element = some .path →
    level ≠ .path ∧ (entered level s).token.start = s.token.start ∧
      ((entered level s).reading .path).element.isSegment = true ∧
      1 ≤ ((entered level s).reading .path).taken

namespace Session

variable {source : Bytes} {place : Nat} {level : Level} {s : Session}

/-- Only the end of the input has nothing of the source behind it. -/
theorem Within.run_le (h : s.Within source place)
    (hend : (s.reading level).element ≠ .endOfInput) :
    s.cursor.scanRun.2.stop ≤ source.length := by
  have hlength := h.looked.toAt.length
  have hpos := List.length_pos_iff.2 ((s.reading_reads level).ne_nil hend)
  have hrun : (runOf s.looked.cursor.rest).length ≤ s.looked.cursor.rest.length :=
    (List.takeWhile_sublist _).length_le
  rw [Cursor.scanRun_eq]
  show s.looked.cursor.start + (if (runOf s.looked.cursor.rest).isEmpty then 1
    else (runOf s.looked.cursor.rest).length) ≤ source.length
  split
  · omega
  · omega

theorem lt_run (s : Session) : s.token.start < s.cursor.scanRun.2.stop := by
  rw [Cursor.scanRun_eq]
  apply Nat.lt_add_of_pos_right
  split
  · exact Nat.one_pos
  · rename_i hrun
    exact List.length_pos_iff.2 fun h => hrun (by rw [h]; rfl)

/-- A colon that makes a set-word or a time stands behind another byte. -/
theorem colon_behind (hk : s.token.kind.holdsColon = true) (hw : s.token.malformed = false) :
    s.token.start + 2 ≤ s.token.stop := by
  apply Nat.add_le_add_left
  have hk : (Lexeme.ofFront s.looked.cursor.rest).kind.holdsColon = true := hk
  have hw : (Lexeme.ofFront s.looked.cursor.rest).malformed = false := hw
  rcases Lexeme.ofFront_cases s.looked.cursor.rest with hst | hpl
  · generalize Lexeme.ofFront s.looked.cursor.rest = l at hst hk
    cases hst with
    | opening b | closing b => cases b <;> cases hk
    | comment =>
      rw [Lexeme.comment_kind] at hk
      cases hk
    | _ => cases hk
  · exact hpl.colon hk hw

/-- **The head of a path is its first segment**, and no path starts there again. -/
theorem head_segment (h : opens (s.reading level).element = some .path) :
    level ≠ .path ∧ (entered level s).token.start = s.token.start ∧
      ((entered level s).reading .path).element.isSegment = true ∧
      1 ≤ ((entered level s).reading .path).taken := by
  have hread := s.reading_reads level
  cases he : (s.reading level).element with
  | pathHead kind =>
    have hl : level ≠ .path := by
      generalize s.reading level = r at hread he
      cases hread with
      | pathHead kind hl => exact hl
      | leaf e n hleaf =>
        dsimp only at he
        subst he
        cases hleaf
      | _ => cases he
    have hentered : entered level s = s.looked := by rw [entered, he]
    have hfront := hread.of_pathHead he
    have hlooked := looked_of_not_space (s := s.looked) (looked_not_space s)
    have hsegments := s.looked.reading_reads .path
    rw [hentered]
    rw [hlooked.2] at hsegments
    have hsegment := hsegments.of_startsSegment hfront
    have hne := Element.isItem_of_isSegment hsegment
    refine ⟨hl, hlooked.1, hsegment, ?_⟩
    refine (hsegments.taken_bounds (Element.ne_endOfInput_of_isItem hne) fun kind hk => ?_).1
    rw [hk] at hsegment
    cases hsegment
  | _ =>
    rw [he] at h
    cases h

/-- A level inside starts in the source, at its token or behind it. -/
theorem Within.entered (h : s.Within source place)
    (hend : (s.reading level).element ≠ .endOfInput) :
    (Scan.entered level s).Within source s.looked.cursor.start := by
  by_cases hhead : ∃ kind, (s.reading level).element = .pathHead kind
  · obtain ⟨kind, he⟩ := hhead
    rw [Scan.entered, he]
    exact h.looked.here
  · have hhead (kind : TokenKind) : (s.reading level).element ≠ .pathHead kind :=
      fun he => hhead ⟨kind, he⟩
    rw [entered_of_not_head hhead]
    exact h.looked.here.advance ((s.reading_reads level).taken_bounds hend hhead).2

/-- **Every end stays within the front of its token and the source.** -/
theorem Within.measured (h : s.Within source place) (level : Level) : s.Measured source level where
  run := s.lt_run
  runInside := h.run_le
  token hend := Nat.lt_add_of_pos_right
    (Lexeme.ofFront_bounds ((s.reading_reads level).ne_nil hend)).1
  tokenInside := h.looked.inside
  colon := colon_behind
  taken hend hhead := by
    obtain ⟨h1, h2⟩ := (s.reading_reads level).taken_bounds hend hhead
    have hlength := h.looked.toAt.length
    refine ⟨h1, ?_⟩
    show s.looked.cursor.start + (s.reading level).taken ≤ source.length
    omega
  invalid kind n he := by
    obtain ⟨h1, h2⟩ := Element.invalid_bounds he
    have hlength := h.looked.toAt.length
    refine ⟨h1, ?_⟩
    show s.looked.cursor.start + n ≤ source.length
    omega
  opened l he hl := by
    have hend : (s.reading level).element ≠ .endOfInput := by
      intro hend
      rw [hend] at he
      cases he
    have hhead (kind : TokenKind) : (s.reading level).element ≠ .pathHead kind := by
      intro hhead
      rw [hhead] at he
      cases he
      exact hl rfl
    rw [entered_of_not_head hhead]
    exact Nat.lt_add_of_pos_right ((s.reading_reads level).taken_bounds hend hhead).1
  head := head_segment

end Session

namespace Scan

open Session

/-! ## Passes -/

/-- How a step has ended: with what it came to, or with a fault, and in some state. -/
abbrev Ending (α : Type) : Type := EStateM.Result Fault Session α

/-- The level that an element leads into. A scan for one value only enters none at a bracket. -/
def descent (setup : Setup) (e : Element) : Option Level :=
  match e with
  | .opener b => if setup.options.only then none else some (.inside b)
  | e => opens e

/-- One pass of a level's loop, in which the level inside comes to `inner` if there is one. What the
pass comes to depends on nothing else, and it leaves the scan in the source. -/
structure Pass (setup : Setup) (source : Bytes)
    (Inner : Level → Nat → Session → Ending Block → Prop) (level : Level) (place : Nat)
    (opened : Site) (c : Collected) (s : Session) (inner : Ending Block) : Prop where
  measured : s.Measured source level
  nested : ∀ l, descent setup (s.reading level).element = some l →
    Inner l s.token.start (entered level s) inner
  within : Ends (turn setup (fun _ _ _ => inner) level opened c) s
    (fun _ => Session.Within source place) (Fault.Within source place)

/-- The loop of a level: it comes to what it has collected when a pass leaves it, or to the fault
that ends a pass, and **a pass after which it goes on has moved forward**. -/
inductive Loop (setup : Setup) (source : Bytes)
    (Inner : Level → Nat → Session → Ending Block → Prop) (level : Level) (place : Nat)
    (opened : Site) : Collected → Session → Ending Collected → Prop
  | leaves {c c' : Collected} {s t : Session} {inner : Ending Block}
      (hpass : Pass setup source Inner level place opened c s inner)
      (hturn : turn setup (fun _ _ _ => inner) level opened c s = .ok (c', false) t) :
      Loop setup source Inner level place opened c s (.ok c' t)
  | fails {c : Collected} {s t : Session} {f : Fault} {inner : Ending Block}
      (hpass : Pass setup source Inner level place opened c s inner)
      (hturn : turn setup (fun _ _ _ => inner) level opened c s = .error f t) :
      Loop setup source Inner level place opened c s (.error f t)
  | again {c c' : Collected} {s t : Session} {inner : Ending Block} {r : Ending Collected}
      (hpass : Pass setup source Inner level place opened c s inner)
      (hturn : turn setup (fun _ _ _ => inner) level opened c s = .ok (c', true) t)
      (hforward : s.cursor.start < t.cursor.start)
      (hloop : Loop setup source Inner level place opened c' t r) :
      Loop setup source Inner level place opened c s r

/-- What a level that is opened at `start` comes to, where there is room for this many levels: its
loop, or a refusal where there is room for none. -/
def Descends (setup : Setup) (source : Bytes) :
    Nat → Level → Nat → Session → Ending Block → Prop
  | 0, _, start, s, r => tooDeep start s = r
  | room + 1, level, start, s, r => ∃ loop,
      Loop setup source (Descends setup source room) level start
        ⟨s.cursor.line, s.cursor.lineStart⟩ .empty s loop ∧
      r = match loop with
        | .ok c t => .ok c.toBlock t
        | .error f t => .error f t

/-- What follows a step depends on what that came to, and on nothing else of it. -/
theorem bind_congr_left {α β : Type} {x y : Scan α} {k : α → Scan β} {s : Session} (h : x s = y s) :
    (x >>= k) s = (y >>= k) s := by
  simp only [Bind.bind, EStateM.bind, h]

theorem attempt_congr {α : Type} {x y : Scan α} {s : Session} (h : x s = y s) :
    attempt x s = attempt y s := by
  cases hx : x s with
  | ok a t => rw [attempt_of_ok hx, attempt_of_ok (h ▸ hx)]
  | error f t => rw [attempt_of_error hx, attempt_of_error (h ▸ hx)]

section

variable {setup : Setup} {nested nested' : Nested} {level : Level} {opened : Site} {c : Collected}
  {s : Session}

/-- What an element comes to depends on the levels inside only where it leads into one. -/
theorem perform_congr
    (h : ∀ l, descent setup (s.reading level).element = some l →
      nested l s.token.start (entered level s) = nested' l s.token.start (entered level s)) :
    perform setup nested (s.reading level) s.token.start s.looked =
      perform setup nested' (s.reading level) s.token.start s.looked := by
  by_cases hhead : ∃ kind, (s.reading level).element = .pathHead kind
  · obtain ⟨kind, he⟩ := hhead
    have hpath := h .path (by rw [he]; rfl)
    rw [entered, he] at hpath
    rw [perform_head he, perform_head he]
    exact bind_congr_left (bind_congr_left hpath)
  · have hhead (kind : TokenKind) : (s.reading level).element ≠ .pathHead kind :=
      fun he => hhead ⟨kind, he⟩
    have htaken : advance (s.reading level).taken s.looked = .ok () (entered level s) := by
      rw [entered_of_not_head hhead]
      rfl
    rw [perform_element hhead, perform_element hhead, bind_of_ok htaken, bind_of_ok htaken]
    unfold carryOut
    cases he : (s.reading level).element with
    | opener b =>
      dsimp only
      split
      · rfl
      · rename_i honly
        exact bind_congr_left (h (.inside b) (by rw [he, descent, if_neg honly]))
    | construct => exact bind_congr_left (bind_congr_left (h (.inside .block) (by rw [he]; rfl)))
    | pathHead kind => exact absurd he (hhead kind)
    | _ => rfl

/-- **A pass depends on the levels inside only where it enters one.** -/
theorem turn_congr
    (h : ∀ l, descent setup (s.reading level).element = some l →
      nested l s.token.start (entered level s) = nested' l s.token.start (entered level s)) :
    turn setup nested level opened c s = turn setup nested' level opened c s := by
  rw [turn_apply, turn_apply]
  rcases (s.reading level).element.isItem_cases with he | ⟨b, he⟩ | hitem
  · rw [he]
  · rw [he]
  · rw [← turn_apply setup nested, ← turn_apply setup nested', turn_item hitem, turn_item hitem]
    exact bind_congr_left (attempt_congr (perform_congr h))

end

/-! ## Scans -/

section

variable {setup : Setup} {source : Bytes} {fuel room : Nat} {level : Level} {opened : Site}
  {c : Collected} {place : Nat} {s : Session}

/-- A round is a pass, once the level inside is known to be what it comes to without a count. -/
theorem turn_pass
    (hroom : ∀ l start s, s.Within source start →
      Descends setup source room l start s (inside setup fuel room l start s))
    (hs : s.Within source place) :
    ∃ inner, Pass setup source (Descends setup source room) level place opened c s inner ∧
      turn setup (inside setup fuel room) level opened c s =
        turn setup (fun _ _ _ => inner) level opened c s := by
  have hpass {inner : Ending Block}
      (hinner : ∀ l, descent setup (s.reading level).element = some l →
        inside setup fuel room l s.token.start (entered level s) = inner) :
      Pass setup source (Descends setup source room) level place opened c s inner ∧
        turn setup (inside setup fuel room) level opened c s =
          turn setup (fun _ _ _ => inner) level opened c s := by
    have hturn : turn setup (inside setup fuel room) level opened c s =
        turn setup (fun _ _ _ => inner) level opened c s := turn_congr hinner
    refine ⟨⟨hs.measured level, ?_, ?_⟩, hturn⟩
    · intro l hl
      rw [← hinner l hl]
      refine hroom _ _ _ (hs.entered ?_)
      intro hend
      rw [hend] at hl
      cases hl
    · rw [Ends, ← hturn]
      exact turn_within (inside_within fuel room) level opened c s hs
  cases hl : descent setup (s.reading level).element with
  | some l =>
    refine ⟨inside setup fuel room l s.token.start (entered level s), hpass ?_⟩
    intro l' hl'
    rw [hl] at hl'
    cases hl'
    rfl
  | none =>
    -- No level is entered, so anything may stand for it.
    refine ⟨tooDeep 0 s, hpass ?_⟩
    intro l' hl'
    rw [hl] at hl'
    cases hl'

/-- Rounds for which there is fuel are the loop of a level. -/
theorem rounds_loop
    (hroom : ∀ l start s, s.Within source start →
      Descends setup source room l start s (inside setup (fuel + 1) room l start s))
    {n : Nat} (hs : s.Within source place) (hn : s.cursor.rest.length < n) :
    Loop setup source (Descends setup source room) level place opened c s
      (rounds setup (inside setup (fuel + 1) room) level opened n c s) := by
  induction n generalizing c s with
  | zero => exact absurd hn (Nat.not_lt_zero _)
  | succ n ih =>
    obtain ⟨inner, hpass, hturn⟩ : ∃ inner,
        Pass setup source (Descends setup source room) level place opened c s inner ∧
          turn setup (inside setup (fuel + 1) room) level opened c s =
            turn setup (fun _ _ _ => inner) level opened c s := turn_pass hroom hs
    have hforward := inside_forward setup (fuel + 1) room
    rw [rounds]
    cases h : turn setup (inside setup (fuel + 1) room) level opened c s with
    | error f t =>
      rw [bind_of_error h]
      exact .fails hpass (hturn ▸ h)
    | ok out t =>
      obtain ⟨c', goesOn⟩ := out
      rw [bind_of_ok h]
      cases goesOn with
      | false => exact .leaves hpass (hturn ▸ h)
      | true =>
        have hlt : t.cursor.rest.length < s.cursor.rest.length :=
          turn_shorter hforward (inside_consumes setup fuel room) h
        have ht := hpass.within.ok (hturn ▸ h)
        have h1 := hs.toAt.length
        have h2 := ht.toAt.length
        exact .again hpass (hturn ▸ h) (by omega) (ih ht (by omega))

/-- A level for which there is fuel comes to what its loop says, whatever room there is. -/
theorem inside_descends (hfuel : source.length ≤ fuel) (room : Nat) (l : Level) (start : Nat)
    (s : Session) (hs : s.Within source start) :
    Descends setup source room l start s (inside setup (fuel + 1) room l start s) := by
  induction room generalizing l start s with
  | zero => rfl
  | succ room ih =>
    have hlength := hs.toAt.length
    have hloop : Loop setup source (Descends setup source room) l start
        ⟨s.cursor.line, s.cursor.lineStart⟩ .empty s
        (rounds setup (inside setup (fuel + 1) room) l ⟨s.cursor.line, s.cursor.lineStart⟩ (fuel + 1)
          .empty s) := rounds_loop ih hs (by omega)
    refine ⟨_, hloop, ?_⟩
    have hlevel : inside setup (fuel + 1) (room + 1) l start s =
        (rounds setup (inside setup (fuel + 1) room) l ⟨s.cursor.line, s.cursor.lineStart⟩ (fuel + 1)
          .empty >>= fun c => pure c.toBlock) s := by
      rw [inside_succ]
      rfl
    rw [hlevel]
    cases h : rounds setup (inside setup (fuel + 1) room) l ⟨s.cursor.line, s.cursor.lineStart⟩
        (fuel + 1) .empty s with
    | ok c t => exact bind_of_ok h
    | error f t => exact bind_of_error h

end

end Scan

/-- **Every scan ends, whatever the source, the options and the constructor.** What it comes to is
what the loop of the top level comes to, and those of the levels inside it: a pass that does not
leave its loop has moved forward, a level is entered behind the token that opens it or, at the head
of a path, as a path in which no path starts there, and no end lies in front of its token or behind
the source. -/
theorem scan_terminates (setup : Setup) (source : Bytes) (symbols : SymbolTable) :
    Descends setup source (setup.options.maxDepth + 1) .top 0 (Session.start source symbols)
      (setup.scan source (Session.start source symbols)) :=
  inside_descends (Nat.le_refl _) (setup.options.maxDepth + 1) .top 0 _
    (Session.within_start source symbols)

end RebolScan
