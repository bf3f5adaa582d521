import Mathlib.Data.List.Chain
import RebolScan.Proofs.Scan.FirstFault
import RebolScan.Proofs.Scan.Round
import RebolScan.Proofs.Scan.Sighting

/-!
# No closing bracket is lost, except to a path

A level that meets the closing bracket of another kind ends in front of it and leaves it to the
levels further out. **Such a bracket is consumed by one of them, or refused at the top, unless a
path goes on behind it**, and then it is not (`left_closer_taken_iff`): what was meant to be left for
a level further out is lost when a slash follows the segment of a path that it ended, or a colon the
path (`leapt_closer_lost`).

A round keeps that the sightings so far form a chain, in which the level further out meets what a
level inside has left (`Noted`).
-/

set_option autoImplicit false

namespace RebolScan

open Ascii Scan

/-! ## Chains of sightings -/

/-- An earlier sighting of a bracket that was left, or one of a bracket further ahead. -/
def Sighting.Before (x y : Sighting) : Prop :=
  x.position < y.position ∨ (x.position = y.position ∧ x.fate.isLeft = true)

instance : Trans Sighting.Before Sighting.Before Sighting.Before where
  trans := by
    intro x y z hxy hyz
    rcases hxy with hxy | ⟨hxy, hx⟩
    · rcases hyz with hyz | ⟨hyz, -⟩
      · exact .inl (Nat.lt_trans hxy hyz)
      · exact .inl (hyz ▸ hxy)
    · rcases hyz with hyz | ⟨hyz, -⟩
      · exact .inl (hxy ▸ hyz)
      · exact .inr ⟨hxy.trans hyz, hx⟩

theorem Sighting.Follows.before {x y : Sighting} (h : x.Follows y) : x.Before y := by
  unfold Sighting.Follows at h
  split at h
  · rename_i hx
    exact .inr ⟨h.2.1.symm, hx⟩
  · exact .inl h

/-- A bracket is consumed once. -/
theorem eq_of_chain {w : List Sighting} (h : w.IsChain Sighting.Follows) {x y : Sighting}
    (hx : x ∈ w) (hy : y ∈ w) (hxy : x.position = y.position) (hl : x.fate.isLeft = false)
    (hr : y.fate.isLeft = false) : x = y := by
  have hpair : w.Pairwise Sighting.Before := (h.imp fun _ _ => Sighting.Follows.before).pairwise
  induction hpair with
  | nil => cases hx
  | @cons z w hz _ ih =>
    have hzero {v : Sighting} (hv : v ∈ w) (hp : z.position = v.position)
        (hleft : z.fate.isLeft = false) : z = v := by
      rcases hz v hv with hlt | ⟨-, h⟩
      · omega
      · rw [hleft] at h
        cases h
    rcases List.mem_cons.1 hx with rfl | hxw
    · rcases List.mem_cons.1 hy with rfl | hyw
      · rfl
      · exact hzero hyw hxy hl
    · rcases List.mem_cons.1 hy with rfl | hyw
      · exact (hzero hxw hxy.symm hr).symm
      · exact ih h.tail hxw hyw

/-- A bracket that was left is consumed further out, unless the chain ends with it. -/
theorem exists_of_chain {w : List Sighting} (h : w.IsChain Sighting.Follows)
    (hlast : ∀ x ∈ w.getLast?, x.fate.isLeft = false) {x : Sighting} (hx : x ∈ w)
    (hleft : x.fate.isLeft = true) :
    ∃ y ∈ w, y.bracket = x.bracket ∧ y.position = x.position ∧ x.room < y.room ∧
      y.fate.isLeft = false := by
  induction w generalizing x with
  | nil => cases hx
  | cons z w ih =>
    cases w with
    | nil =>
      obtain rfl := List.mem_singleton.1 hx
      rw [hlast x rfl] at hleft
      cases hleft
    | cons z' w =>
      have hlast : ∀ x ∈ (z' :: w).getLast?, x.fate.isLeft = false := hlast
      rcases List.mem_cons.1 hx with rfl | hx
      · have hfollows := h.rel
        rw [Sighting.Follows, if_pos hleft] at hfollows
        obtain ⟨hb, hp, hroom⟩ := hfollows
        cases hz : z'.fate.isLeft with
        | false => exact ⟨z', by simp, hb, hp, hroom, hz⟩
        | true =>
          obtain ⟨y, hy, hyb, hyp, hyroom, hyleft⟩ := ih h.tail hlast List.mem_cons_self hz
          exact ⟨y, List.mem_cons_of_mem _ hy, hyb.trans hb, hyp.trans hp, by omega, hyleft⟩
      · obtain ⟨y, hy, hyrest⟩ := ih h.tail hlast hx hleft
        exact ⟨y, List.mem_cons_of_mem _ hy, hyrest⟩

/-! ## Faults about closing brackets -/

/-- The closing brackets that the recorded faults are about, in the order of the faults. -/
def Session.reports (s : Session) : List (Bracket × Span × Fate) :=
  s.faults.reverse.filterMap Fault.closer?

namespace Session

variable {s t : Session}

theorem reports_congr (h : t.faults = s.faults) : t.reports = s.reports := by
  rw [reports, reports, h]

theorem reports_cons {f : Fault} (h : t.faults = f :: s.faults) :
    t.reports = s.reports ++ f.closer?.toList := by
  rw [reports, reports, h, List.reverse_cons, List.filterMap_append]
  cases hf : f.closer? <;> simp [hf]

/-- Other faults are no reports. -/
theorem reports_cons_of_none {f : Fault} (h : t.faults = f :: s.faults) (hf : f.closer? = none) :
    t.reports = s.reports := by
  rw [reports_cons h, hf]
  simp

end Session

namespace Scan

open Session

variable {setup : Setup} {nested : Nested} {source : Bytes} {s t u : Session}

/-! ## What is noted from one state to another -/

/-- `w` tells all that became of closing brackets from `s` to `t`, in levels with less than `room`
levels to spare. A bracket that was left at the end is next in `t`. -/
structure Noted (source : Bytes) (room : Nat) (w : List Sighting) (s t : Session) : Prop where
  chain : w.IsChain Sighting.Follows
  head : ∀ y ∈ w.head?, s.cursor.start ≤ y.position
  reports : t.reports = s.reports ++ w.filterMap Sighting.report?
  bytes : ∀ x ∈ w, byteAt source x.position = x.bracket.closeByte
  leapt : ∀ x ∈ w, x.fate = .leapt →
    byteAt source (x.position + 1) = slash ∨ byteAt source (x.position + 1) = colon
  left : ∀ x ∈ w.getLast?, x.fate.isLeft = true →
    x.room < room ∧ t.cursor.start = x.position ∧ t.cursor.stop = x.position + 1
  taken : ∀ x ∈ w.getLast?, x.fate.isLeft = false → x.position < t.cursor.start

theorem noted_nil {room : Nat} (h : t.reports = s.reports) : Noted source room [] s t where
  chain := .nil
  head := by simp
  reports := by simpa using h
  bytes := by simp
  leapt := by simp
  left := by simp
  taken := by simp

/-- A bracket that the scan has gone past. -/
theorem noted_taken {room : Nat} {x : Sighting} (hstart : s.cursor.start ≤ x.position)
    (hreports : t.reports = s.reports ++ x.report?.toList)
    (hbyte : byteAt source x.position = x.bracket.closeByte) (hleft : x.fate.isLeft = false)
    (hleapt : x.fate = .leapt →
      byteAt source (x.position + 1) = slash ∨ byteAt source (x.position + 1) = colon)
    (htaken : x.position < t.cursor.start) : Noted source room [x] s t where
  chain := .singleton x
  head := by simpa using hstart
  reports := by
    rw [hreports]
    cases hx : x.report? <;> simp [hx]
  bytes := by simpa using hbyte
  leapt := by simpa using hleapt
  left := by simp [hleft]
  taken := by simpa using fun _ => htaken

/-- A bracket that has been left. -/
theorem noted_left {room : Nat} {x : Sighting} (hstart : s.cursor.start ≤ x.position)
    (hreports : t.reports = s.reports ++ x.report?.toList)
    (hbyte : byteAt source x.position = x.bracket.closeByte) (hleft : x.fate.isLeft = true)
    (hroom : x.room < room)
    (hnext : t.cursor.start = x.position ∧ t.cursor.stop = x.position + 1) :
    Noted source room [x] s t where
  chain := .singleton x
  head := by simpa using hstart
  reports := by
    rw [hreports]
    cases hx : x.report? <;> simp [hx]
  bytes := by simpa using hbyte
  leapt := by
    intro y hy hleapt
    obtain rfl := List.mem_singleton.1 hy
    rw [hleapt] at hleft
    cases hleft
  left := by
    intro y hy _
    obtain rfl := Option.some.inj hy
    exact ⟨hroom, hnext⟩
  taken := by simp [hleft]

theorem Noted.mono {room room' : Nat} {w : List Sighting} (h : Noted source room w s t)
    (hroom : room ≤ room') : Noted source room' w s t := by
  refine { h with left := fun x hx hleft => ?_ }
  obtain ⟨hlt, hat⟩ := h.left x hx hleft
  exact ⟨Nat.lt_of_lt_of_le hlt hroom, hat⟩

/-- What is noted may start earlier, if no bracket is reported up to there. -/
theorem Noted.earlier {room : Nat} {w : List Sighting} (h : Noted source room w u t)
    (hstart : s.cursor.start ≤ u.cursor.start) (hreports : u.reports = s.reports) :
    Noted source room w s t := by
  refine { h with head := fun y hy => Nat.le_trans hstart (h.head y hy), reports := ?_ }
  rw [h.reports, hreports]

/-- A bracket that was left at the end of two parts was left at the end of the second. -/
theorem mem_getLast?_of_link {w v : List Sighting}
    (hlink : ∀ x ∈ w.getLast?, x.fate.isLeft = true → ∃ y, v.head? = some y ∧ x.Follows y)
    {x : Sighting} (hx : x ∈ (w ++ v).getLast?) (hleft : x.fate.isLeft = true) :
    x ∈ v.getLast? := by
  rw [List.getLast?_append] at hx
  cases hlast : v.getLast? with
  | some y =>
    rw [hlast] at hx
    exact hx
  | none =>
    rw [hlast] at hx
    obtain ⟨y, hy, -⟩ := hlink x hx hleft
    rw [List.getLast?_eq_none_iff] at hlast
    rw [hlast] at hy
    cases hy

/-- What has been noted in two parts, of which the second starts with what the first has left. -/
theorem Noted.append {room : Nat} {w v : List Sighting} (hw : Noted source room w s u)
    (hv : Noted source room v u t) (hsu : s.cursor.start ≤ u.cursor.start)
    (hstart : u.cursor.start ≤ t.cursor.start)
    (hlink : ∀ x ∈ w.getLast?, x.fate.isLeft = true → ∃ y, v.head? = some y ∧ x.Follows y) :
    Noted source room (w ++ v) s t where
  chain := by
    refine hw.chain.append hv.chain fun x hx y hy => ?_
    cases hleft : x.fate.isLeft with
    | true =>
      obtain ⟨y', hy', hfollows⟩ := hlink x hx hleft
      obtain rfl := Option.some.inj (hy'.symm.trans hy)
      exact hfollows
    | false =>
      rw [Sighting.Follows, if_neg (by simp [hleft])]
      exact Nat.lt_of_lt_of_le (hw.taken x hx hleft) (hv.head y hy)
  head := by
    intro y hy
    rw [List.head?_append] at hy
    cases hhead : w.head? with
    | some x =>
      rw [hhead] at hy
      exact hw.head y (hhead.trans hy)
    | none =>
      rw [hhead] at hy
      exact Nat.le_trans hsu (hv.head y hy)
  reports := by rw [hv.reports, hw.reports, List.append_assoc, List.filterMap_append]
  bytes := by
    intro x hx
    rcases List.mem_append.1 hx with hx | hx
    · exact hw.bytes x hx
    · exact hv.bytes x hx
  leapt := by
    intro x hx
    rcases List.mem_append.1 hx with hx | hx
    · exact hw.leapt x hx
    · exact hv.leapt x hx
  left := fun x hx hleft => hv.left x (mem_getLast?_of_link hlink hx hleft) hleft
  taken := by
    intro x hx hleft
    rw [List.getLast?_append] at hx
    cases hlast : v.getLast? with
    | some y =>
      rw [hlast] at hx
      exact hv.taken x (hlast.trans hx) hleft
    | none =>
      rw [hlast] at hx
      exact Nat.lt_of_lt_of_le (hw.taken x hx hleft) hstart

theorem leaps_next {level : Level} {e : Element} {next : UInt8}
    (h : leaps level e next = true) : next = slash ∨ next = colon := by
  unfold leaps at h
  split at h
  · exact .inl (by simpa using And.right (by simpa using h : _ ∧ _))
  · exact .inr (by simpa using And.right (by simpa using h : _ ∧ _))
  · cases h

theorem withLeap_cases (room : Nat) (level : Level) (e : Element) (source : Bytes)
    (w : List Sighting) :
    (∃ x, w.getLast? = some x ∧ x.fate.isLeft = true ∧
      leaps level e (byteAt source (x.position + 1)) = true ∧
      withLeap room level e source w = w ++ [⟨x.bracket, x.position, room, .leapt⟩]) ∨
    (withLeap room level e source w = w ∧ ∀ x ∈ w.getLast?, x.fate.isLeft = true →
      leaps level e (byteAt source (x.position + 1)) = false) := by
  unfold withLeap
  cases hlast : w.getLast? with
  | none => exact .inr ⟨by simp, by simp⟩
  | some x =>
    cases hx : x.fate.isLeft && leaps level e (byteAt source (x.position + 1)) with
    | true =>
      rw [Bool.and_eq_true] at hx
      exact .inl ⟨x, rfl, hx.1, hx.2, by simp [hx.1, hx.2]⟩
    | false =>
      refine .inr ⟨by simp [Option.filter, hx], fun y hy hleft => ?_⟩
      obtain rfl := Option.some.inj hy
      simpa [hleft] using hx

/-- What a round adds to `w`, which the level inside has noted up to `u`. -/
theorem Noted.withLeap {room : Nat} {level : Level} {e : Element} {w : List Sighting}
    (h : Noted source room w s u) (hsu : s.cursor.start ≤ u.cursor.start)
    (hut : u.cursor.start ≤ t.cursor.start) (hreports : t.reports = u.reports)
    (hstays : ∀ x ∈ w.getLast?, x.fate.isLeft = true →
      leaps level e (byteAt source (x.position + 1)) = false → t.cursor = u.cursor)
    (hleaps : ∀ x ∈ w.getLast?, x.fate.isLeft = true →
      leaps level e (byteAt source (x.position + 1)) = true → x.position < t.cursor.start) :
    Noted source (room + 1) (withLeap room level e source w) s t := by
  have hmono := h.mono (Nat.le_succ room)
  rcases withLeap_cases room level e source w with ⟨x, hlast, hleft, hnext, hw⟩ | ⟨hw, hnone⟩
  · obtain ⟨hroom, hstart, -⟩ := h.left x hlast hleft
    rw [hw]
    refine hmono.append ?_ hsu hut fun y hy hyleft => ?_
    · exact noted_taken (Nat.le_of_eq hstart) (by simpa [Sighting.report?] using hreports)
        (h.bytes x (List.mem_of_getLast? hlast)) rfl (fun _ => leaps_next hnext)
        (hleaps x hlast hleft hnext)
    · rw [hlast] at hy
      obtain rfl := Option.some.inj hy
      refine ⟨_, rfl, ?_⟩
      rw [Sighting.Follows, if_pos hyleft]
      exact ⟨rfl, rfl, hroom⟩
  · rw [hw]
    refine { hmono with reports := ?_, left := fun x hx hleft => ?_, taken := fun x hx hleft => ?_ }
    · rw [hreports, h.reports]
    · rw [hstays x hx hleft (hnone x hx hleft)]
      exact hmono.left x hx hleft
    · exact Nat.lt_of_lt_of_le (h.taken x hx hleft) hut

/-! ## What comes after an element -/

theorem closer?_of_invalid {f : Fault} {kind : TokenKind} (h : f.kind = .invalid kind) :
    f.closer? = none := by
  simp [Fault.closer?, h]

/-- The closing bracket that a level reports because of what an element came to. -/
def closerOf : Except Fault Outcome → Option (Bracket × Span × Fate)
  | .error f => f.closer?
  | .ok _ => none

section

variable {level : Level} {start : Nat} {c c' : Collected} {goesOn : Bool}

/-- Outside paths a level goes on where an element has ended. -/
theorem Settled.outside {out : Except Fault Outcome}
    (h : Settled setup level start c s out c' goesOn t)
    (hall : setup.options.stopsAfterValue = false) (hl : level ≠ .path)
    (hf : closerOf out = none) : goesOn = true ∧ t.cursor = s.cursor ∧ t.reports = s.reports := by
  cases h with
  | lineBreak => exact ⟨rfl, rfl, rfl⟩
  | comment => exact ⟨rfl, rfl, rfl⟩
  | slot => exact ⟨rfl, rfl, rfl⟩
  | value v h =>
    obtain ⟨rfl, rfl, rfl⟩ := afterItem_goesOn hall hl h
    exact ⟨rfl, rfl, rfl⟩
  | pathFault f hr hfatal hl' => exact absurd hl' hl
  | fault f hr hfatal hl' h =>
    obtain ⟨rfl, rfl, rfl⟩ := afterItem_goesOn hall hl h
    exact ⟨rfl, rfl, reports_cons_of_none rfl hf⟩

/-- A path ends behind a segment, or goes past the slash that follows. -/
theorem Settled.segment {v : Value}
    (h : Settled setup .path start c s (.ok (.value v)) c' goesOn t) :
    t.reports = s.reports ∧
      ((goesOn = false ∧ t.cursor = s.cursor ∧
        byteAt s.cursor.rest (s.cursor.stop - s.cursor.start) ≠ slash) ∨
      (byteAt s.cursor.rest (s.cursor.stop - s.cursor.start) = slash ∧
        t.cursor = s.cursor.advance (s.cursor.stop + 1 - s.cursor.start))) := by
  cases h with
  | value v h =>
    cases separator_eq_ok h with
    | last hs => exact ⟨rfl, .inl ⟨rfl, rfl, hs⟩⟩
    | slash hs ht =>
      subst ht
      exact ⟨rfl, .inr ⟨hs, rfl⟩⟩
    | fault hs hr hf ht hfaults =>
      exact ⟨reports_cons_of_none hfaults (closer?_of_invalid hf), .inr ⟨hs, ht⟩⟩

/-- A path ends at its first fault. -/
theorem Settled.pathFault_ends {f : Fault} (hf : f.closer? = none)
    (h : Settled setup .path start c s (.error f) c' goesOn t) :
    goesOn = false ∧ t.cursor = s.cursor ∧ t.reports = s.reports := by
  cases h with
  | pathFault f hr hfatal hl => exact ⟨rfl, rfl, reports_cons_of_none rfl hf⟩
  | fault f hr hfatal hl => exact absurd rfl hl

end

/-! ## Rounds -/

/-- What the round of a level with `room` levels to spare has noted. If the level goes on, what was
left was left inside it; if a level inside brackets ends in front of a bracket, it has an error at
its end. -/
structure TurnNoted (source : Bytes) (room : Nat) (level : Level) (w : List Sighting) (s : Session)
    (c' : Collected) (goesOn : Bool) (t : Session) : Prop where
  noted : Noted source (room + 1) w s t
  further : goesOn = true → ∀ x ∈ w.getLast?, x.fate.isLeft = true → level ≠ .path ∧ x.room < room
  top : goesOn = false → level = .top → t.cursor.rest = []
  broken : goesOn = false → ∀ b, level = .inside b → ∀ x ∈ w.getLast?, x.fate.isLeft = true →
    c'.items.head?.any (·.value.isError) = true

theorem TurnNoted.of_taken {room : Nat} {level : Level} {w : List Sighting} {c' : Collected}
    {goesOn : Bool} (h : Noted source (room + 1) w s t)
    (hleft : ∀ x ∈ w.getLast?, x.fate.isLeft = false)
    (htop : goesOn = false → level = .top → t.cursor.rest = []) :
    TurnNoted source room level w s c' goesOn t where
  noted := h
  further := fun _ x hx hx' => by
    rw [hleft x hx] at hx'
    cases hx'
  top := htop
  broken := fun _ _ _ x hx hx' => by
    rw [hleft x hx] at hx'
    cases hx'

theorem TurnNoted.of_withLeap {room : Nat} {level : Level} {e : Element} {w : List Sighting}
    {c' : Collected} {goesOn : Bool} (h : Noted source (room + 1) (withLeap room level e source w) s t)
    (hw : Noted source room w s u) (hgo : level ≠ .path → goesOn = true)
    (hends : level = .path → ∀ x ∈ w.getLast?, x.fate.isLeft = true →
      leaps level e (byteAt source (x.position + 1)) = false → goesOn = false) :
    TurnNoted source room level (withLeap room level e source w) s c' goesOn t where
  noted := h
  further := by
    intro hgoes x hx hleft
    rcases withLeap_cases room level e source w with ⟨y, -, -, -, hleap⟩ | ⟨hleap, hnone⟩
    · rw [hleap, List.getLast?_append] at hx
      cases hx
      cases hleft
    · rw [hleap] at hx
      refine ⟨fun hl => ?_, (hw.left x hx hleft).1⟩
      rw [hends hl x hx hleft (hnone x hx hleft)] at hgoes
      cases hgoes
  top := by
    intro hgoes hl
    rw [hgo (by rw [hl]; exact Level.noConfusion)] at hgoes
    cases hgoes
  broken := by
    intro hgoes b hl
    rw [hgo (by rw [hl]; exact Level.noConfusion)] at hgoes
    cases hgoes

theorem TurnNoted.of_nothing {room : Nat} {level : Level} {c' : Collected} {goesOn : Bool}
    (h : t.reports = s.reports) (htop : goesOn = false → level = .top → t.cursor.rest = []) :
    TurnNoted source room level [] s c' goesOn t := .of_taken (noted_nil h) (by simp) htop

section

variable {room : Nat} {level : Level} {opened : Site} {c c' : Collected} {goesOn : Bool}
  (hall : setup.options.stopsAfterValue = false) (hsource : s.cursor.source = source)
  (hcoherent : s.cursor.Coherent)

include hall hsource hcoherent

/-- The round that meets a closing bracket. -/
theorem closer_noted {b : Bracket} (hb : byteAt s.looked.cursor.rest 0 = b.closeByte)
    (h : closer setup level b s.token opened c s.looked = .ok (c', goesOn) t) :
    TurnNoted source room level
      ((fateOf level b).map fun fate => ⟨b, s.looked.cursor.start, room, fate⟩).toList s c' goesOn
      t := by
  have hle := (before_looked s).start
  have hbyte : byteAt source s.looked.cursor.start = b.closeByte := by
    rw [← hb, (before_looked s).coherent hcoherent, byteAt_drop, Nat.add_zero]
    exact congrArg (byteAt · _) hsource.symm
  have hlexeme := Lexeme.ofFront_closing hb
  have htoken : s.token = ⟨b.closeKind, false, s.looked.cursor.start, s.looked.cursor.start + 1⟩ := by
    have hstop : s.looked.cursor.stop = s.looked.cursor.start + 1 := by
      show s.looked.cursor.start + (Lexeme.ofFront s.looked.cursor.rest).length = _
      rw [hlexeme]
      rfl
    rw [Session.token, hlexeme, Lexeme.token, hstop]
    rfl
  rw [htoken] at h
  have hadvance : s.looked.cursor.start + 1 - s.looked.cursor.start = 1 :=
    Nat.add_sub_cancel_left _ _
  cases closer_eq_ok h with
  | left hl =>
    subst hl
    exact .of_nothing rfl fun _ hl => Level.noConfusion hl
  | closes hl =>
    subst hl
    simp only [fateOf, if_true, Option.map_some, Option.toList_some]
    refine .of_taken ?_ (by simp [Fate.isLeft]) fun _ hl => Level.noConfusion hl
    refine noted_taken hle ?_ hbyte rfl (by simp) ?_
    · exact (reports_congr rfl).trans (List.append_nil _).symm
    · exact Nat.lt_add_of_pos_right (by rw [hadvance]; exact Nat.one_pos)
  | @missing o f _ hl ho _ hkind hftoken hspan hcursor hfaults =>
    subst hl
    simp only [fateOf, ho, if_false, Option.map_some, Option.toList_some]
    have hreport : f.closer? = some (b, ⟨s.looked.cursor.start, s.looked.cursor.start + 1⟩,
        .left o) := by
      rw [Fault.closer?, hkind, hftoken, hspan]
      cases b <;> rfl
    have hstop : s.looked.cursor.stop = s.looked.cursor.start + 1 := congrArg Token.stop htoken
    refine ⟨?_, fun hgo => Bool.noConfusion hgo, fun _ hl => Level.noConfusion hl,
      fun _ _ _ _ _ _ => rfl⟩
    refine noted_left hle ?_ hbyte rfl (Nat.lt_succ_self room) ?_
    · rw [reports_cons (s := s) hfaults, hreport]
      rfl
    · rw [hcursor]
      exact ⟨rfl, hstop⟩
  | @extra f _ hl _ hkind hspan hcursor hfaults =>
    subst hl
    rw [hall]
    refine .of_taken ?_ (by simp [fateOf, Fate.isLeft]) fun hgo => Bool.noConfusion hgo
    refine noted_taken hle ?_ hbyte rfl (by simp) ?_
    · rw [reports_cons (s := s) hfaults, Fault.closer?, hkind, hspan]
      rfl
    · rw [hcursor]
      exact Nat.lt_add_of_pos_right (by rw [hadvance]; exact Nat.one_pos)

end

/-- What a round did after the level inside ended in `u`: it went no further, or leapt over the byte
that had been looked at. -/
def Went (level : Level) (e : Element) (u : Session) (goesOn : Bool) (t : Session) : Prop :=
  (leaps level e (byteAt u.cursor.rest (u.cursor.stop - u.cursor.start)) = false ∧
    t.cursor = u.cursor ∧ (level = .path → goesOn = false)) ∨
  (leaps level e (byteAt u.cursor.rest (u.cursor.stop - u.cursor.start)) = true ∧
    t.cursor = u.cursor.advance (u.cursor.stop + 1 - u.cursor.start))

/-- The round that enters a level, by what the level has noted and where the round went. -/
theorem TurnNoted.of_went {room : Nat} {level : Level} {e : Element} {w : List Sighting}
    {c' : Collected} {goesOn : Bool} (hw : Noted source room w s u)
    (hsource : u.cursor.source = source) (hcoherent : u.cursor.Coherent)
    (hsu : s.cursor.start ≤ u.cursor.start) (hut : u.cursor.start ≤ t.cursor.start)
    (hreports : t.reports = u.reports) (hgo : level ≠ .path → goesOn = true)
    (hwent : ∀ x ∈ w.getLast?, x.fate.isLeft = true → Went level e u goesOn t) :
    TurnNoted source room level (withLeap room level e source w) s c' goesOn t := by
  have hnext {x : Sighting} (hx : x ∈ w.getLast?) (hleft : x.fate.isLeft = true) :
      byteAt u.cursor.rest (u.cursor.stop - u.cursor.start) = byteAt source (x.position + 1) := by
    obtain ⟨-, hstart, hstop⟩ := hw.left x hx hleft
    rw [hcoherent, byteAt_drop, hsource, hstop, hstart, Nat.add_sub_cancel_left]
  refine .of_withLeap (hw.withLeap hsu hut hreports ?_ ?_) hw hgo ?_
  · intro x hx hleft hno
    rcases hwent x hx hleft with ⟨-, hcursor, -⟩ | ⟨hyes, -⟩
    · exact hcursor
    · rw [hnext hx hleft, hno] at hyes
      cases hyes
  · intro x hx hleft hyes
    obtain ⟨-, hstart, hstop⟩ := hw.left x hx hleft
    rcases hwent x hx hleft with ⟨hno, -⟩ | ⟨-, hcursor⟩
    · rw [hnext hx hleft, hyes] at hno
      cases hno
    · rw [hcursor]
      show x.position < u.cursor.start + (u.cursor.stop + 1 - u.cursor.start)
      omega
  · intro hl x hx hleft hno
    rcases hwent x hx hleft with ⟨-, -, hends⟩ | ⟨hyes, -⟩
    · exact hends hl
    · rw [hnext hx hleft, hno] at hyes
      cases hyes

/-- What the levels inside have noted of closing brackets, in levels with less than `room` levels to
spare. Between brackets a level that has left one has an error at its end. -/
structure Notes (source : Bytes) (room : Nat) (nested : Nested)
    (inner : Level → Session → List Sighting) : Prop where
  noted : ∀ {l : Level} {start : Nat} {s t : Session} {body : Block}, s.cursor.source = source →
    s.cursor.Coherent → nested l start s = .ok body t → Noted source room (inner l s) s t
  broken : ∀ {b : Bracket} {start : Nat} {s t : Session} {body : Block},
    s.cursor.source = source → s.cursor.Coherent → nested (.inside b) start s = .ok body t →
    ∀ x ∈ (inner (.inside b) s).getLast?, x.fate.isLeft = true →
      body.items.getLast?.any (·.value.isError) = true

/-- A construction that has an error at its end describes no value. -/
theorem valueOf_of_broken {items : List Item} {symbols : SymbolTable}
    (h : items.getLast?.any (·.value.isError) = true) :
    Constructor.valueOf? items symbols = none := by
  unfold Constructor.valueOf?
  split
  · rfl
  · rename_i head rest
    split
    · rename_i hword
      dsimp only
      split
      · obtain ⟨value, line, span⟩ := head
        cases value with
        | error f => cases hword
        | _ => cases h
      · rename_i body
        obtain ⟨value, line, span⟩ := body
        cases value with
        | error f =>
          split
          · rfl
          · rfl
        | _ => cases h
      · rfl
    · rfl

section

variable {room : Nat} {inner : Level → Session → List Sighting} {level : Level} {c c' : Collected}
  {goesOn : Bool} (hall : setup.options.stopsAfterValue = false)
  (honly : setup.options.only = false) (hfatal : ∀ l start, EndsFatally (nested l start))
  (hn : ∀ l start, Forward (nested l start))

theorem Settled.not_fatal {start : Nat} {f : Fault}
    (h : Settled setup level start c s (.error f) c' goesOn t) : f.isFatal = false := by
  cases h with
  | pathFault f hr hf hl => exact hf
  | fault f hr hf hl h => exact hf

include hall

/-- What a level makes of an element reports no bracket. -/
theorem Settled.reports_eq {start : Nat} {out : Except Fault Outcome}
    (h : Settled setup level start c s out c' goesOn t) (hf : closerOf out = none) :
    t.reports = s.reports := by
  by_cases hl : level = .path
  · subst hl
    match out with
    | .error f => exact (h.pathFault_ends hf).2.2
    | .ok (.value v) => exact h.segment.1
    | .ok .lineBreak =>
      cases h
      rfl
    | .ok .comment =>
      cases h
      rfl
    | .ok .slot =>
      cases h
      rfl
  · exact (h.outside hall hl hf).2.2

include honly hfatal

/-- The round that enters no level and meets no closing bracket. -/
theorem plain_noted (hitem : (s.reading level).element.isItem = true)
    (hplain : opens (s.reading level).element = none)
    (h : item setup nested level (s.reading level) s.looked.cursor.start c s.looked =
      .ok (c', goesOn) t) : TurnNoted source room level [] s c' goesOn t := by
  have htop {v : Session} {out : Except Fault Outcome}
      (hs : Settled setup level s.looked.cursor.start c v out c' goesOn t)
      (hf : closerOf out = none) (hv : v.faults = s.faults) : TurnNoted source room level [] s c' goesOn t := by
    refine .of_nothing ((hs.reports_eq hall hf).trans (reports_congr hv)) fun hgoes hl => ?_
    rw [(hs.outside hall (by rw [hl]; exact Level.noConfusion) hf).1] at hgoes
    cases hgoes
  rcases item_eq_ok hitem h with ⟨out, v, hperform, hs⟩ | ⟨f, v, hperform, hs⟩
  · refine htop hs rfl ?_
    cases hperform with
    | head he =>
      rw [he] at hplain
      cases hplain
    | consumed hc =>
      generalize (s.reading level).element = e at hc hplain
      cases hc with
      | opener => cases hplain
      | construct => cases hplain
      | _ => rfl
  · have hf := hs.not_fatal
    have hfaulted := perform_eq_error honly hperform
    generalize (s.reading level).element = e at hfaulted hplain
    cases hfaulted with
    | inner h =>
      rw [hfatal _ _ _ _ _ h] at hf
      cases hf
    | invalid hkind hfaults => exact htop hs (closer?_of_invalid hkind) hfaults
    | construct => cases hplain
    | head => cases hplain

end

/-! ### Rounds that enter a level -/

theorem before_entered (level : Level) (s : Session) : s.Before (entered level s) := by
  refine (before_looked s).trans ?_
  unfold entered
  split
  · exact .refl _
  · exact before_of_drop rfl rfl rfl (List.suffix_refl _)

theorem reports_entered (level : Level) (s : Session) : (entered level s).reports = s.reports := by
  refine reports_congr ?_
  unfold entered
  split <;> rfl

theorem Went.start_le {level : Level} {e : Element} {goesOn : Bool}
    (h : Went level e u goesOn t) : u.cursor.start ≤ t.cursor.start := by
  rcases h with ⟨-, hcursor, -⟩ | ⟨-, hcursor⟩
  · exact Nat.le_of_eq (congrArg Cursor.start hcursor.symm)
  · rw [hcursor]
    exact Nat.le_add_right _ _

/-- Behind brackets a path leaps over a slash, and nothing else does. -/
theorem Settled.went {level : Level} {start : Nat} {c c' : Collected} {goesOn : Bool} {v : Value}
    (hall : setup.options.stopsAfterValue = false) (b : Bracket)
    (h : Settled setup level start c u (.ok (.value v)) c' goesOn t) :
    Went level (.opener b) u goesOn t ∧ (level ≠ .path → goesOn = true) := by
  by_cases hl : level = .path
  · subst hl
    refine ⟨?_, fun hl => absurd rfl hl⟩
    rcases h.segment.2 with ⟨hgo, hcursor, hnext⟩ | ⟨hnext, hcursor⟩
    · exact .inl ⟨by simp [leaps, hnext], hcursor, fun _ => hgo⟩
    · exact .inr ⟨by simp [leaps, hnext], hcursor⟩
  · obtain ⟨hgo, hcursor, -⟩ := h.outside hall hl rfl
    exact ⟨.inl ⟨by simp [leaps, hl], hcursor, fun hl' => absurd hl' hl⟩, fun _ => hgo⟩

theorem Joins.went {level : Level} {head : TokenKind} {segments : Block} {v : Value}
    (hl : level ≠ .path) (h : Joins head segments s v u) (goesOn : Bool)
    (ht : t.cursor = u.cursor) : Went level (.pathHead head) s goesOn t := by
  cases h with
  | litPath hh => exact .inl ⟨by simp [leaps, hh], ht, fun hl' => absurd hl' hl⟩
  | getPath _ _ hc | path _ _ hc => exact .inl ⟨by simp [leaps, hc], ht, fun hl' => absurd hl' hl⟩
  | setPath hh _ hc => exact .inr ⟨by simp [leaps, hh, hc], ht⟩

section

variable {room : Nat} {inner : Level → Session → List Sighting} {level : Level} {c c' : Collected}
  {goesOn : Bool} (hall : setup.options.stopsAfterValue = false)
  (honly : setup.options.only = false) (hfatal : ∀ l start, EndsFatally (nested l start))
  (hn : ∀ l start, Forward (nested l start)) (hnotes : Notes source room nested inner)
  (hsource : s.cursor.source = source) (hcoherent : s.cursor.Coherent)

include hn hnotes hsource hcoherent

/-- The round that enters a level, by where it went after it. -/
theorem entered_noted {l : Level} {e : Element} {start : Nat} {body : Block}
    (hbody : nested l start (entered level s) = .ok body u) (hut : u.cursor.start ≤ t.cursor.start)
    (hreports : t.reports = u.reports) (hgo : level ≠ .path → goesOn = true)
    (hwent : ∀ x ∈ (inner l (entered level s)).getLast?, x.fate.isLeft = true →
      Went level e u goesOn t) :
    TurnNoted source room level (withLeap room level e source (inner l (entered level s))) s c'
      goesOn t := by
  have hentered := before_entered level s
  have hbefore := hentered.trans ((hn _ _).ok hbody)
  have hnoted := hnotes.noted (hentered.source.trans hsource) (hentered.coherent hcoherent) hbody
  exact .of_went (hnoted.earlier hentered.start (reports_entered level s))
    (hbefore.source.trans hsource) (hbefore.coherent hcoherent) hbefore.start hut hreports hgo hwent

include hall honly hfatal

theorem opener_noted {b : Bracket} (he : (s.reading level).element = .opener b)
    (h : item setup nested level (s.reading level) s.looked.cursor.start c s.looked =
      .ok (c', goesOn) t) :
    TurnNoted source room level
      (withLeap room level (.opener b) source (inner (.inside b) (entered level s))) s c' goesOn
      t := by
  have hentered : entered level s =
      { s.looked with cursor := s.looked.cursor.advance (s.reading level).taken } := by
    rw [entered, he]
  rcases item_eq_ok (by rw [he]; rfl) h with ⟨out, v, hperform, hs⟩ | ⟨f, v, hperform, hs⟩
  · cases hperform with
    | head he' =>
      rw [he] at he'
      cases he'
    | consumed hc =>
      rw [he, ← hentered] at hc
      cases hc with
      | opener _ hbody =>
        obtain ⟨hwent, hgo⟩ := hs.went hall b
        exact entered_noted hn hnotes hsource hcoherent hbody hwent.start_le
          (hs.reports_eq hall rfl) hgo fun _ _ _ => hwent
  · have hf := hs.not_fatal
    have hfaulted := perform_eq_error honly hperform
    rw [he] at hfaulted
    cases hfaulted with
    | inner h =>
      rw [hfatal _ _ _ _ _ h] at hf
      cases hf

theorem construct_noted (hmake : setup.construct = .standard)
    (he : (s.reading level).element = .construct)
    (h : item setup nested level (s.reading level) s.looked.cursor.start c s.looked =
      .ok (c', goesOn) t) :
    TurnNoted source room level
      (withLeap room level .construct source (inner (.inside .block) (entered level s))) s c'
      goesOn t := by
  have hentered : entered level s =
      { s.looked with cursor := s.looked.cursor.advance (s.reading level).taken } := by
    rw [entered, he]
  have hbefore := before_entered level s
  rcases item_eq_ok (by rw [he]; rfl) h with ⟨out, v, hperform, hs⟩ | ⟨f, v, hperform, hs⟩
  · cases hperform with
    | head he' =>
      rw [he] at he'
      cases he'
    | consumed hc =>
      rw [he, ← hentered] at hc
      cases hc with
      | construct hc =>
        obtain ⟨body, u, hbody, hmade⟩ := bind_eq_ok.1 hc
        obtain ⟨hv, rfl⟩ := construct_eq_ok hmade
        obtain ⟨hwent, hgo⟩ := hs.went hall .block
        have hreports : t.reports = u.reports :=
          (hs.reports_eq hall rfl).trans (reports_congr rfl)
        refine entered_noted hn hnotes hsource hcoherent hbody hwent.start_le hreports hgo
          fun x hx hleft => ?_
        -- What ended in front of a bracket of the other kind describes no value.
        have hbroken := hnotes.broken (hbefore.source.trans hsource) (hbefore.coherent hcoherent)
          hbody x hx hleft
        rw [hmake] at hv
        cases (valueOf_of_broken hbroken).symm.trans hv
  · have hf := hs.not_fatal
    have hfaulted := perform_eq_error honly hperform
    rw [he] at hfaulted
    cases hfaulted with
    | inner h =>
      rw [hfatal _ _ _ _ _ h] at hf
      cases hf
    | @construct body u hbody hv _ _ hkind hcursor hfaults =>
      rw [← hentered] at hbody
      have hnone : f.closer? = none := by simp [Fault.closer?, hkind]
      have hreports : t.reports = u.reports :=
        (hs.reports_eq hall hnone).trans (reports_congr hfaults)
      have hwent : Went level .construct u goesOn t ∧ (level ≠ .path → goesOn = true) := by
        by_cases hl : level = .path
        · subst hl
          obtain ⟨hgo, hc, -⟩ := hs.pathFault_ends hnone
          exact ⟨.inl ⟨rfl, hc.trans hcursor, fun _ => hgo⟩, fun hl => absurd rfl hl⟩
        · obtain ⟨hgo, hc, -⟩ := hs.outside hall hl hnone
          exact ⟨.inl ⟨rfl, hc.trans hcursor, fun hl' => absurd hl' hl⟩, fun _ => hgo⟩
      exact entered_noted hn hnotes hsource hcoherent hbody hwent.1.start_le hreports hwent.2
        fun _ _ _ => hwent.1

theorem head_noted {kind : TokenKind} (he : (s.reading level).element = .pathHead kind)
    (h : item setup nested level (s.reading level) s.looked.cursor.start c s.looked =
      .ok (c', goesOn) t) :
    TurnNoted source room level
      (withLeap room level (.pathHead kind) source (inner .path (entered level s))) s c' goesOn
      t := by
  have hentered : entered level s = s.looked := by
    rw [entered, he]
  have hl : level ≠ .path := by
    have hread := s.reading_reads level
    generalize s.reading level = r at hread he
    cases hread with
    | pathHead kind hl => exact hl
    | leaf e n h =>
      subst he
      cases h
    | _ => cases he
  rcases item_eq_ok (by rw [he]; rfl) h with ⟨out, v, hperform, hs⟩ | ⟨f, v, hperform, hs⟩
  · cases hperform with
    | consumed hc =>
      rw [he] at hc
      cases hc
    | head he' hpath =>
      obtain rfl := Element.pathHead.inj (he.symm.trans he')
      obtain ⟨segments, u, hbody, hjoin⟩ := bind_eq_ok.1 hpath
      rw [← hentered] at hbody
      obtain ⟨hgo, hcursor, hreports⟩ := hs.outside hall hl rfl
      have hjoined := joinPath_eq_ok hjoin
      have hwent := hjoined.went hl goesOn hcursor
      refine entered_noted hn hnotes hsource hcoherent hbody hwent.start_le ?_ (fun _ => hgo)
        fun _ _ _ => hwent
      refine hreports.trans (reports_congr ?_)
      cases hjoined <;> rfl
  · have hf := hs.not_fatal
    have hfaulted := perform_eq_error honly hperform
    rw [he] at hfaulted
    cases hfaulted with
    | inner h =>
      rw [hfatal _ _ _ _ _ h] at hf
      cases hf
    | head hbody hj =>
      rw [← hentered] at hbody
      obtain ⟨hh, hc, hkind, hfaults, hcursor⟩ := joinPath_eq_error hj
      obtain ⟨hgo, ht, hreports⟩ := hs.outside hall hl (closer?_of_invalid hkind)
      have hwent : Went level (.pathHead kind) _ goesOn t :=
        .inr ⟨by simp [leaps, hh, hc], ht.trans hcursor⟩
      exact entered_noted hn hnotes hsource hcoherent hbody hwent.start_le
        (hreports.trans (reports_congr hfaults)) (fun _ => hgo) fun _ _ _ => hwent

/-- **Every round tells what became of the closing brackets that it went past.** -/
theorem turn_noted (hmake : setup.construct = .standard) {opened : Site}
    (h : turn setup nested level opened c s = .ok (c', goesOn) t) :
    TurnNoted source room level (turnSightings room inner level s) s c' goesOn t := by
  have hread := s.reading_reads level
  cases he : (s.reading level).element with
  | endOfInput =>
    have hrest := hread.of_endOfInput he
    have hw : turnSightings room inner level s = [] := by
      rw [turnSightings, he]
      rfl
    rw [hw]
    rw [turn_apply, he] at h
    cases level with
    | inside b =>
      obtain ⟨-, rfl, f, hkind, htoken, -, -, -, hfaults⟩ := unclosed_eq_ok h
      have hnone : f.closer? = none := by
        rw [Fault.closer?, hkind, htoken, Session.token, hrest]
        rfl
      exact .of_nothing (reports_cons_of_none (s := s) hfaults hnone)
        fun _ hl => Level.noConfusion hl
    | top =>
      cases h
      exact .of_nothing rfl fun _ _ => hrest
    | path =>
      cases h
      exact .of_nothing rfl fun _ hl => Level.noConfusion hl
  | closer b =>
    rw [turn_apply, he] at h
    rw [turnSightings, he]
    exact closer_noted hall hsource hcoherent (hread.of_closer he) h
  | pathHead kind =>
    rw [turn_item (by rw [he]; rfl)] at h
    rw [turnSightings, he, hsource]
    exact head_noted hall honly hfatal hn hnotes hsource hcoherent he h
  | opener b =>
    rw [turn_item (by rw [he]; rfl)] at h
    rw [turnSightings, he, hsource]
    exact opener_noted hall honly hfatal hn hnotes hsource hcoherent he h
  | construct =>
    rw [turn_item (by rw [he]; rfl)] at h
    rw [turnSightings, he, hsource]
    exact construct_noted hall honly hfatal hn hnotes hsource hcoherent hmake he h
  | _ =>
    have hitem : (s.reading level).element.isItem = true := by
      rw [he]
      rfl
    rw [turn_item hitem] at h
    rw [turnSightings, he]
    exact plain_noted hall honly hfatal hitem (by rw [he]; rfl) h

end

/-! ## Levels -/

/-- A level that goes on meets the bracket that is next. -/
theorem turnSightings_of_closing (room : Nat) (inner : Level → Session → List Sighting)
    {level : Level} {b : Bracket} (hl : level ≠ .path)
    (hb : byteAt s.cursor.rest 0 = b.closeByte) :
    ∃ fate, turnSightings room inner level s = [⟨b, s.cursor.start, room, fate⟩] := by
  obtain ⟨hstart, hrest⟩ := looked_of_not_space (s := s) (by rw [hb]; cases b <;> decide)
  have he : (s.reading level).element = .closer b := by
    rw [reading, hrest, Element.of_closing level hb]
  rw [turnSightings, he, hstart]
  cases level with
  | path => exact absurd rfl hl
  | top => exact ⟨.extra, rfl⟩
  | inside o => exact ⟨_, rfl⟩

/-- What a level with `room` levels to spare has noted. -/
structure LevelNoted (source : Bytes) (room : Nat) (level : Level) (w : List Sighting) (s : Session)
    (c' : Collected) (t : Session) : Prop where
  noted : Noted source (room + 1) w s t
  top : level = .top → t.cursor.rest = []
  broken : ∀ b, level = .inside b → ∀ x ∈ w.getLast?, x.fate.isLeft = true →
    c'.items.head?.any (·.value.isError) = true

section

variable {room : Nat} {inner : Level → Session → List Sighting} {level : Level}
  (hall : setup.options.stopsAfterValue = false) (honly : setup.options.only = false)
  (hmake : setup.construct = .standard) (hfatal : ∀ l start, EndsFatally (nested l start))
  (hn : ∀ l start, Forward (nested l start)) (hc : Consumes nested)
  (hnotes : Notes source room nested inner)

include hall honly hmake hfatal hn hc hnotes

theorem rounds_noted {opened : Site} {fuel : Nat} {c c' : Collected} {s t : Session}
    (hfuel : s.cursor.rest.length < fuel) (hsource : s.cursor.source = source)
    (hcoherent : s.cursor.Coherent)
    (h : rounds setup nested level opened fuel c s = .ok c' t) :
    LevelNoted source room level
      (roundsSightings setup nested room inner level opened fuel c s) s c' t := by
  induction fuel generalizing c s with
  | zero => exact absurd hfuel (Nat.not_lt_zero _)
  | succ fuel ih =>
    obtain ⟨⟨c₁, goesOn⟩, s₁, hturn, h⟩ := bind_eq_ok.1 h
    have hnoted := turn_noted hall honly hfatal hn hnotes hsource hcoherent hmake hturn
    rw [roundsSightings, hturn]
    cases goesOn with
    | false =>
      cases h
      dsimp only
      rw [List.append_nil]
      exact ⟨hnoted.noted, hnoted.top rfl, hnoted.broken rfl⟩
    | true =>
      have hbefore : s.Before s₁ := (turn_forward hn level opened c).ok hturn
      have hlt : s₁.cursor.rest.length < s.cursor.rest.length := turn_shorter hn hc hturn
      have hrest : LevelNoted source room level _ s₁ c' t := ih (by omega)
        (hbefore.source.trans hsource) (hbefore.coherent hcoherent) h
      have hlink : ∀ x ∈ (turnSightings room inner level s).getLast?, x.fate.isLeft = true →
          ∃ y, (roundsSightings setup nested room inner level opened fuel c₁ s₁).head? = some y ∧
            x.Follows y := by
        intro x hx hleft
        obtain ⟨hl, hroom⟩ := hnoted.further rfl x hx hleft
        obtain ⟨-, hstart, -⟩ := hnoted.noted.left x hx hleft
        have hb : byteAt s₁.cursor.rest 0 = x.bracket.closeByte := by
          rw [hbefore.coherent hcoherent, byteAt_drop, Nat.add_zero, hbefore.source.trans hsource,
            hstart]
          exact hnoted.noted.bytes x (List.mem_of_getLast? hx)
        obtain ⟨fate, hmet⟩ := turnSightings_of_closing room inner hl hb
        obtain ⟨k, rfl⟩ : ∃ k, fuel = k + 1 := ⟨fuel - 1, by omega⟩
        refine ⟨⟨x.bracket, s₁.cursor.start, room, fate⟩, ?_, ?_⟩
        · rw [roundsSightings, hmet]
          rfl
        · rw [Sighting.Follows, if_pos hleft]
          exact ⟨rfl, hstart, hroom⟩
      refine ⟨hnoted.noted.append hrest.noted hbefore.start ?_ hlink, hrest.top, ?_⟩
      · exact ((rounds_forward hn level opened fuel c₁).ok h).start
      · exact fun b hl x hx hleft => hrest.broken b hl x (mem_getLast?_of_link hlink hx hleft) hleft

end

section

variable (hrelaxed : setup.options.relaxed = true)
  (hall : setup.options.stopsAfterValue = false) (honly : setup.options.only = false)
  (hmake : setup.construct = .standard)

include hrelaxed

theorem inside_endsFatally (fuel room : Nat) (l : Level) (start : Nat) :
    EndsFatally (inside setup fuel room l start) := by
  cases room with
  | zero =>
    intro s f t h
    cases h
    rfl
  | succ room => exact level_endsFatally hrelaxed fuel room l

include hall honly hmake

theorem level_noted {room : Nat} {level : Level} {body : Block}
    (hnotes : Notes source room (inside setup (source.length + 1) room)
      (insideSightings setup (source.length + 1) room))
    (hsource : s.cursor.source = source) (hcoherent : s.cursor.Coherent)
    (h : Scan.level setup (source.length + 1) room level s = .ok body t) :
    ∃ c, LevelNoted source room level (sightings setup (source.length + 1) room level s) s c t ∧
      c.toBlock = body := by
  have hfuel : s.cursor.rest.length < source.length + 1 := by
    rw [hcoherent, List.length_drop, hsource]
    omega
  rw [level_eq, levelWith_eq_ok] at h
  obtain ⟨c, hrun, hbody⟩ := h
  rw [sightings_eq]
  exact ⟨c, rounds_noted hall honly hmake (inside_endsFatally hrelaxed _ _) (inside_forward _ _ _)
    (inside_consumes _ _ _) hnotes hfuel hsource hcoherent hrun, hbody⟩

theorem notes_inside (source : Bytes) (room : Nat) :
    Notes source room (inside setup (source.length + 1) room)
      (insideSightings setup (source.length + 1) room) := by
  induction room with
  | zero =>
    constructor
    · intro l start s t body hsource hcoherent h
      cases h
    · intro b start s t body hsource hcoherent h
      cases h
  | succ room ih =>
    constructor
    · intro l start s t body hsource hcoherent h
      obtain ⟨c, hnoted, -⟩ := level_noted hrelaxed hall honly hmake ih hsource hcoherent h
      exact hnoted.noted
    · intro b start s t body hsource hcoherent h x hx hleft
      obtain ⟨c, hnoted, rfl⟩ := level_noted hrelaxed hall honly hmake ih hsource hcoherent h
      show c.items.reverse.getLast?.any _ = true
      rw [List.getLast?_reverse]
      exact hnoted.broken b rfl x hx hleft

end

end Scan

/-! ## Whole scans -/

/-- What is noted of a whole scan: every report is a sighting, every sighting is of a closing
bracket, and no bracket is left at the end. -/
theorem sightings_noted {source : Bytes} {symbols table : SymbolTable} {options : Options}
    {t : Transcoded} (hrelaxed : options.relaxed = true) (hnext : options.next = false)
    (honly : options.only = false) (h : transcode source symbols options = (.ok t, table)) :
    let w := Setup.sightings ⟨options, .standard⟩ source symbols
    t.faults.filterMap Fault.closer? = w.filterMap Sighting.report? ∧
      w.IsChain Sighting.Follows ∧ (∀ x ∈ w.getLast?, x.fate.isLeft = false) ∧
      (∀ x ∈ w, x.fate = .leapt →
        byteAt source (x.position + 1) = slash ∨ byteAt source (x.position + 1) = colon) := by
  intro w
  have hall : options.stopsAfterValue = false := by
    rw [Options.stopsAfterValue, hnext, honly]
    rfl
  obtain ⟨s, hs, ht, -⟩ := transcodeWith_eq_ok.1 h
  have hnotes : Notes source options.maxDepth
      (inside ⟨options, .standard⟩ (source.length + 1) options.maxDepth)
      (insideSightings ⟨options, .standard⟩ (source.length + 1) options.maxDepth) :=
    notes_inside hrelaxed hall honly rfl source options.maxDepth
  obtain ⟨c, ⟨hnoted, htop, -⟩, -⟩ : ∃ c, LevelNoted source options.maxDepth .top w
      (Session.start source symbols) c s ∧ c.toBlock = t.values :=
    level_noted hrelaxed hall honly rfl hnotes rfl (Cursor.coherent_afterMark source) hs
  have hreports : t.faults.filterMap Fault.closer? = w.filterMap Sighting.report? := by
    rw [ht]
    exact hnoted.reports
  refine ⟨hreports, hnoted.chain, fun x hx => ?_, hnoted.leapt⟩
  -- At the end of the source no bracket is next.
  cases hleft : x.fate.isLeft with
  | false => rfl
  | true =>
    obtain ⟨-, hstart, -⟩ := hnoted.left x hx hleft
    have hbyte := hnoted.bytes x (List.mem_of_getLast? hx)
    have hbefore : (Session.start source symbols).Before s := (level_forward _ _ _ _).ok hs
    have hrest := hbefore.coherent (Cursor.coherent_afterMark source)
    rw [Cursor.Coherent, htop rfl, hbefore.source, hstart] at hrest
    have hlen : source.length ≤ x.position := List.drop_eq_nil_iff.1 hrest.symm
    have hlt := lt_length_of_byteAt (s := source) (i := x.position) (by
      rw [hbyte]
      cases x.bracket <;> decide)
    omega

theorem closer?_of_missing {f : Fault} {opened b : Bracket} (hkind : f.kind = .missing opened)
    (htoken : f.token = b.closeKind) : f.closer? = some (b, f.span, .left opened) := by
  rw [Fault.closer?, hkind, htoken]
  cases b <;> rfl

theorem closer?_of_extra {f : Fault} {b : Bracket} (hkind : f.kind = .extra b) :
    f.closer? = some (b, f.span, .extra) := by
  rw [Fault.closer?, hkind]

theorem kind_of_closer? {f : Fault} {b : Bracket} {span : Span}
    (h : f.closer? = some (b, span, .extra)) : f.kind = .extra b ∧ f.span = span := by
  unfold Fault.closer? at h
  split at h
  · obtain ⟨_, -, h⟩ := Option.map_eq_some_iff.1 h
    cases h
  · rename_i hkind
    cases h
    exact ⟨hkind, rfl⟩
  · cases h

theorem of_report? {x : Sighting} {b : Bracket} {span : Span} {fate : Fate}
    (h : x.report? = some (b, span, fate)) : x.bracket = b ∧ x.span = span ∧ x.fate = fate := by
  unfold Sighting.report? at h
  split at h <;> cases h
  · exact ⟨rfl, rfl, rfl⟩
  · exact ⟨rfl, rfl, rfl⟩

end RebolScan
