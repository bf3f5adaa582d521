import RebolScan.Proofs.Scan.Progress
import RebolScan.Proofs.Scan.Written
import RebolScan.Proofs.Symbol
import RebolScan.Scan.Transcode

/-!
# Rounds that meet no fault

What one round of a strict scan comes to where the element in front of it is known and right: a
value is collected, a slash leads to the next segment of a path, a closing bracket and the end of the
input end their levels. `Left` says where that leaves the scan.

`Finishes` is said of the rounds of a level from some point on, whatever the fuel, if only it lasts;
so a level is put together from its rounds, the last one first.
-/

set_option autoImplicit false

namespace RebolScan

open Ascii

/-- `u` comes after `s` with `rest` next and nothing pending, and knows every name that `s` knows. -/
structure Session.Left (s u : Session) (rest : Bytes) : Prop where
  rest : u.cursor.rest = rest
  settled : u.cursor.stop = u.cursor.start
  symbols : s.symbols.Within u.symbols

namespace Session

variable {s t u : Session} {rest : Bytes}

theorem Left.trans {between : Bytes} (hst : s.Left t between) (htu : t.Left u rest) :
    s.Left u rest := ⟨htu.rest, htu.settled, hst.symbols.trans htu.symbols⟩

/-- Looking passes over spaces. -/
theorem looked_rest (s : Session) : s.looked.cursor.rest = s.cursor.rest.dropWhile isSpace := by
  have hsplit : s.cursor.rest.takeWhile isSpace ++ s.cursor.rest.dropWhile isSpace = s.cursor.rest :=
    List.takeWhile_append_dropWhile
  show s.cursor.rest.drop (s.cursor.rest.takeWhile isSpace).length = _
  calc s.cursor.rest.drop (s.cursor.rest.takeWhile isSpace).length
      = (s.cursor.rest.takeWhile isSpace ++ s.cursor.rest.dropWhile isSpace).drop
          (s.cursor.rest.takeWhile isSpace).length := by rw [hsplit]
    _ = s.cursor.rest.dropWhile isSpace := List.drop_left

theorem dropWhile_of_not_space {w : Bytes} (h : isSpace (byteAt w 0) = false) :
    w.dropWhile isSpace = w := by
  cases w with
  | nil => rfl
  | cons b w => exact List.dropWhile_cons_of_neg (by simpa using h)

theorem length_looked_le (s : Session) : s.looked.cursor.rest.length ≤ s.cursor.rest.length :=
  (before_looked s).length_le

/-- Looking leaves the names as they are. -/
theorem Left.of_looked (h : s.looked.Left u rest) : s.Left u rest := ⟨h.rest, h.settled, h.symbols⟩

end Session

namespace Scan

open Session

/-- A whole text, strictly, with the standard constructor. -/
abbrev standardSetup : Setup := ⟨.standard, Constructor.standard⟩

section

variable {nested : Nested} {level : Level} {opened : Site} {c : Collected} {start : Nat}
  {s t u : Session} {rest w : Bytes}

/-! ## Elements -/

/-- A value or a word takes its text and leaves the rest. -/
theorem left_advance (hs : s.cursor.rest = w ++ rest) {symbols : SymbolTable}
    (hsymbols : s.symbols.Within symbols) :
    s.Left { s with cursor := s.cursor.advance w.length, symbols } rest where
  rest := by
    show s.cursor.rest.drop w.length = rest
    rw [hs, List.drop_left]
  settled := rfl
  symbols := hsymbols

section

variable (nested : Nested) (start : Nat)

theorem perform_value (v : Value) (hs : s.cursor.rest = w ++ rest) :
    ∃ u, perform standardSetup nested ⟨.value v, w.length⟩ start s = .ok (.value v) u ∧
      s.Left u rest :=
  ⟨_, rfl, left_advance hs (.refl _)⟩

/-- A word is interned: the table knows its symbol from then on. -/
theorem perform_word (kind : WordKind) (name : String) (hs : s.cursor.rest = w ++ rest) :
    ∃ symbol u, perform standardSetup nested ⟨.word kind name, w.length⟩ start s =
        .ok (.value (.word kind symbol)) u ∧
      s.Left u rest ∧ u.symbols.get? name = some symbol :=
  ⟨_, _, rfl, left_advance hs (SymbolTable.within_intern _ _), SymbolTable.get?_intern _ _⟩

theorem perform_issue (name : String) (hs : s.cursor.rest = w ++ rest) :
    ∃ symbol u, perform standardSetup nested ⟨.issue name, w.length⟩ start s =
        .ok (.value (.issue symbol)) u ∧
      s.Left u rest ∧ u.symbols.get? name = some symbol :=
  ⟨_, _, rfl, left_advance hs (SymbolTable.within_intern _ _), SymbolTable.get?_intern _ _⟩

end

/-- A bracket is taken, and what it holds is a level of its own. -/
theorem perform_opener {b : Bracket} {body : Block}
    (h : nested (.inside b) start { s with cursor := s.cursor.advance 1 } = .ok body u) :
    perform standardSetup nested ⟨.opener b, 1⟩ start s =
      .ok (.value (.block b.blockKind body)) u := by
  have hcarry : carryOut standardSetup nested ⟨.opener b, 1⟩ start
      { s with cursor := s.cursor.advance 1 } = .ok (.value (.block b.blockKind body)) u := by
    rw [carryOut]
    exact bind_of_ok h
  rw [perform_element (fun _ => Element.noConfusion)]
  exact hcarry

/-- A construction makes a value of the items of its level. -/
theorem perform_construct {v : Value} {body : Block}
    (h : nested (.inside .block) start { s with cursor := s.cursor.advance 2 } = .ok body u)
    (hv : Constructor.valueOf? body.items u.symbols = some v) :
    perform standardSetup nested ⟨.construct, 2⟩ start s = .ok (.value v) u := by
  have hconstruct : construct standardSetup start body u = .ok v u := by
    have hmake : standardSetup.construct.make body.items u.symbols = (some v, u.symbols) :=
      congrArg (·, u.symbols) hv
    rw [construct, bind_of_ok (x := get) rfl, hmake]
    rfl
  have hcarry : carryOut standardSetup nested ⟨.construct, 2⟩ start
      { s with cursor := s.cursor.advance 2 } = .ok (.value v) u := by
    rw [carryOut]
    exact bind_of_ok ((bind_of_ok h).trans hconstruct)
  rw [perform_element (fun _ => Element.noConfusion)]
  exact hcarry

/-- The head of a path is taken with the path. -/
theorem perform_pathHead {kind : TokenKind} {v : Value} {body : Block}
    (h : nested .path start s = .ok body t) (hjoin : joinPath kind start body t = .ok v u) :
    perform standardSetup nested ⟨.pathHead kind, 0⟩ start s = .ok (.value v) u := by
  have hpath : path nested kind start s = .ok v u := (bind_of_ok h).trans hjoin
  rw [perform_head rfl]
  exact bind_of_ok hpath

/-! ## Rounds -/

/-- What came to a value was an item. -/
theorem isItem_of_perform {r : Element.Reading} {v : Value}
    (h : perform standardSetup nested r start s = .ok (.value v) u) : r.element.isItem = true := by
  obtain ⟨e, n⟩ := r
  cases e with
  | endOfInput | closer b => cases h
  | _ => rfl

/-- The level settles what an element came to. -/
theorem item_settles {setup : Setup} {r : Element.Reading} {out : Outcome}
    (h : perform setup nested r start s = .ok out u) :
    item setup nested level r start c s = settle setup level start c (.ok out) u :=
  bind_of_ok (attempt_of_ok h)

theorem item_value {r : Element.Reading} {v : Value}
    (h : perform standardSetup nested r start s = .ok (.value v) u) :
    item standardSetup nested level r start c s =
      afterItem standardSetup level start (c.push v ⟨start, u.cursor.start⟩) u := item_settles h

section

variable (opened : Site) (c : Collected)

/-- A value is collected with the bytes that it took, and a level between brackets or at the top goes
on. -/
theorem turn_pushes {v : Value} (hl : level ≠ .path)
    (h : perform standardSetup nested (s.reading level) s.looked.cursor.start s.looked =
      .ok (.value v) u) :
    turn standardSetup nested level opened c s =
      .ok (c.push v ⟨s.looked.cursor.start, u.cursor.start⟩, true) u := by
  rw [turn_item (isItem_of_perform h), item_value h]
  cases level with
  | path => exact absurd rfl hl
  | top | inside b => rfl

theorem turn_value {v : Value} (hl : level ≠ .path)
    (h : perform standardSetup nested (s.reading level) s.looked.cursor.start s.looked =
      .ok (.value v) u) :
    ∃ span, turn standardSetup nested level opened c s = .ok (c.push v span, true) u :=
  ⟨_, turn_pushes opened c hl h⟩

/-- A path ends where no slash follows. -/
theorem separator_last {setup : Setup} (start : Nat) (hsettled : u.cursor.stop = u.cursor.start)
    (hslash : byteAt u.cursor.rest 0 ≠ slash) :
    separator setup start c u = .ok (c, false) u := by
  have hbyte : (byteAt u.cursor.rest (u.cursor.stop - u.cursor.start) != slash) = true := by
    rwa [hsettled, Nat.sub_self, bne_iff_ne]
  rw [separator, bind_of_ok (x := cursor) rfl, bind_of_ok (x := byteFrom _) rfl, if_pos hbyte]
  rfl

/-- A path goes on behind a slash with a segment after it. -/
theorem separator_goes {setup : Setup} (start : Nat) (hsettled : u.cursor.stop = u.cursor.start)
    (hslash : byteAt u.cursor.rest 0 = slash)
    (hnext : byteAt u.cursor.rest 1 = parenOpen ∨ isDelimiter (byteAt u.cursor.rest 1) = false) :
    separator setup start c u = .ok (c, true) { u with cursor := u.cursor.advance 1 } := by
  have hbyte : ¬(byteAt u.cursor.rest (u.cursor.stop - u.cursor.start) != slash) = true := by
    rw [hsettled, Nat.sub_self, hslash]
    decide
  have hone : u.cursor.stop + 1 - u.cursor.start = 1 := by omega
  have hadvance : advanceTo (u.cursor.stop + 1) u =
      .ok () { u with cursor := u.cursor.advance 1 } := by
    show EStateM.Result.ok ()
      { u with cursor := u.cursor.advance (u.cursor.stop + 1 - u.cursor.start) } = _
    rw [hone]
  have hbehind : byteFrom (u.cursor.stop + 1) { u with cursor := u.cursor.advance 1 } =
      .ok (byteAt u.cursor.rest 1) { u with cursor := u.cursor.advance 1 } := by
    show EStateM.Result.ok (byteAt (u.cursor.rest.drop 1)
      (u.cursor.stop + 1 - (u.cursor.start + 1))) _ = _
    rw [hsettled, Nat.sub_self, byteAt_drop]
  have hgo : ¬(byteAt u.cursor.rest 1 != parenOpen && isDelimiter (byteAt u.cursor.rest 1)) = true := by
    rcases hnext with h | h
    · simp [h]
    · simp [h]
  rw [separator, bind_of_ok (x := cursor) rfl, bind_of_ok (x := byteFrom _) rfl, if_neg hbyte,
    bind_of_ok hadvance, bind_of_ok hbehind, if_neg hgo]
  rfl

theorem separator_slash (start : Nat) (hsettled : u.cursor.stop = u.cursor.start)
    (hrest : u.cursor.rest = slash :: w)
    (hnext : byteAt w 0 = parenOpen ∨ isDelimiter (byteAt w 0) = false) :
    ∃ t, separator standardSetup start c u = .ok (c, true) t ∧ u.Left t w := by
  refine ⟨_, separator_goes c start hsettled (by rw [hrest]; rfl) (by rwa [hrest]), ?_, rfl, .refl _⟩
  show u.cursor.rest.drop 1 = w
  rw [hrest]
  rfl

/-- A segment is collected, and the path ends where no slash follows. -/
theorem turn_last {v : Value}
    (h : perform standardSetup nested (s.reading .path) s.looked.cursor.start s.looked =
      .ok (.value v) u) (hu : s.looked.Left u rest) (hslash : byteAt rest 0 ≠ slash) :
    ∃ span, turn standardSetup nested .path opened c s = .ok (c.push v span, false) u := by
  refine ⟨⟨s.looked.cursor.start, u.cursor.start⟩, ?_⟩
  rw [turn_item (isItem_of_perform h), item_value h]
  exact separator_last _ _ hu.settled (by rwa [hu.rest])

/-- A segment is collected, and the path goes on behind a slash. -/
theorem turn_segment {v : Value}
    (h : perform standardSetup nested (s.reading .path) s.looked.cursor.start s.looked =
      .ok (.value v) u) (hu : s.looked.Left u (slash :: w))
    (hnext : byteAt w 0 = parenOpen ∨ isDelimiter (byteAt w 0) = false) :
    ∃ span t, turn standardSetup nested .path opened c s = .ok (c.push v span, true) t ∧
      s.looked.Left t w := by
  obtain ⟨t, ht, hleft⟩ := separator_slash
    (c.push v ⟨s.looked.cursor.start, u.cursor.start⟩) s.looked.cursor.start hu.settled hu.rest hnext
  refine ⟨⟨s.looked.cursor.start, u.cursor.start⟩, t, ?_, hu.trans hleft⟩
  rw [turn_item (isItem_of_perform h), item_value h]
  exact ht

/-- The empty segment in front of a path is collected, and its slash taken. -/
theorem turn_slot (nested : Nested) (hr : s.reading .path = ⟨.slot, 1⟩)
    (hs : s.looked.cursor.rest = slash :: rest) :
    ∃ span u, turn standardSetup nested .path opened c s = .ok (c.push .none span, true) u ∧
      s.looked.Left u rest := by
  have hleft : s.looked.Left { s.looked with cursor := s.looked.cursor.advance 1 } rest :=
    left_advance (w := [slash]) hs (.refl _)
  refine ⟨⟨s.looked.cursor.start, s.looked.cursor.start + 1⟩, _, ?_, hleft⟩
  rw [turn_item (by rw [hr]; rfl), hr]
  rfl

/-- A closing bracket ends its level. -/
theorem turn_closes {setup : Setup} {nested : Nested} {b : Bracket}
    (hs : byteAt s.looked.cursor.rest 0 = b.closeByte) :
    turn setup nested (.inside b) opened c s =
      .ok (c, false) { s.looked with cursor := s.looked.cursor.advance 1 } := by
  have hreading : s.reading (.inside b) = ⟨.closer b, 1⟩ := Element.of_closing (.inside b) hs
  have hlexeme : Lexeme.ofFront s.looked.cursor.rest = Lexeme.good b.closeKind 1 :=
    Lexeme.ofFront_closing hs
  have hstop : s.token.stop - s.looked.cursor.start = 1 := by
    show s.looked.cursor.start + (Lexeme.ofFront s.looked.cursor.rest).length -
      s.looked.cursor.start = 1
    rw [hlexeme, Nat.add_sub_cancel_left]
    rfl
  rw [turn_apply, hreading]
  show closer setup (.inside b) b s.token opened c s.looked = _
  rw [closer, if_pos (by simp)]
  show EStateM.Result.ok (c, false) { s.looked with
    cursor := s.looked.cursor.advance (s.token.stop - s.looked.cursor.start) } = _
  rw [hstop]

theorem turn_closer (nested : Nested) {b : Bracket}
    (hs : s.looked.cursor.rest = b.closeByte :: rest) :
    ∃ u, turn standardSetup nested (.inside b) opened c s = .ok (c, false) u ∧
      s.looked.Left u rest :=
  ⟨_, turn_closes opened c (by rw [hs]; rfl), left_advance (w := [b.closeByte]) hs (.refl _)⟩

/-- The top level ends at the end. -/
theorem turn_end {setup : Setup} (nested : Nested) (hs : s.looked.cursor.rest = []) :
    turn setup nested .top opened c s = .ok (c, false) s.looked := by
  have hreading : s.reading .top = ⟨.endOfInput, 0⟩ := by
    rw [Session.reading, hs]
    exact Element.of_end .top
  rw [turn_apply, hreading]
  rfl

end

/-! ## Runs -/

/-- From `s`, with `c` collected, the rounds of the level end in `u` with `out` collected, if only
the fuel lasts. -/
def Finishes (nested : Nested) (level : Level) (opened : Site) (c : Collected) (s : Session)
    (out : Collected) (u : Session) : Prop :=
  ∀ fuel, s.cursor.rest.length < fuel →
    rounds standardSetup nested level opened fuel c s = .ok out u

theorem Finishes.last {c' : Collected}
    (h : turn standardSetup nested level opened c s = .ok (c', false) u) :
    Finishes nested level opened c s c' u := by
  intro fuel hfuel
  obtain ⟨fuel, rfl⟩ := Nat.exists_eq_succ_of_ne_zero (Nat.ne_zero_of_lt hfuel)
  rw [rounds, bind_of_ok h]
  rfl

theorem Finishes.step {c' out : Collected}
    (h : turn standardSetup nested level opened c s = .ok (c', true) t) (hlt : s.Shorter t)
    (hrun : Finishes nested level opened c' t out u) : Finishes nested level opened c s out u := by
  intro fuel hfuel
  obtain ⟨fuel, rfl⟩ := Nat.exists_eq_succ_of_ne_zero (Nat.ne_zero_of_lt hfuel)
  rw [rounds, bind_of_ok h]
  exact hrun fuel (by unfold Shorter at hlt; omega)

/-- A level whose rounds end. -/
theorem level_of_finishes {fuel room : Nat} {out : Collected}
    (h : Finishes (inside standardSetup fuel room) level ⟨s.cursor.line, s.cursor.lineStart⟩ .empty
      s out u) (hfuel : s.cursor.rest.length < fuel) :
    Scan.level standardSetup fuel room level s = .ok out.toBlock u := by
  rw [level_eq, levelWith_eq_ok]
  exact ⟨out, h fuel hfuel, rfl⟩

end

end Scan

end RebolScan
