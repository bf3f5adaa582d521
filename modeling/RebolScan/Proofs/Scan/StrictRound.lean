import RebolScan.Proofs.Scan.Round

/-!
# Rounds of a strict scan

A strict scan records nothing, so a round of it that returns has met no fault. `turn_strict` lists all
that it can have done: it was at the end of the input or in front of a closing bracket, and the level
has ended there, or an element has come to something. In front of a segment the round of a path has
added that one (`segment_strict`), and what stands behind it says whether the path goes on (`Parted`).
-/

set_option autoImplicit false

namespace RebolScan.Scan

open Session

variable {setup : Setup} {nested : Nested} {level : Level} {opened : Site} {start : Nat}
  {c c' : Collected} {s t : Session} {goesOn : Bool}

/-- What a round of a strict level has done. -/
inductive StrictTurn (setup : Setup) (nested : Nested) (level : Level) (c : Collected) (s : Session) :
    Collected → Bool → Session → Prop
  /-- nothing is left, and no bracket is open -/
  | atEnd (he : (s.reading level).element = .endOfInput) (hl : level = .top ∨ level = .path) :
      StrictTurn setup nested level c s c false s.looked
  /-- a path leaves the bracket to the level that it stands in -/
  | left (b : Bracket) (he : (s.reading level).element = .closer b) (hl : level = .path) :
      StrictTurn setup nested level c s c false s.looked
  | closed (b : Bracket) (he : (s.reading level).element = .closer b) (hl : level = .inside b) :
      StrictTurn setup nested level c s c false
        { s.looked with cursor := s.looked.cursor.advance 1 }
  | item {c' : Collected} {goesOn : Bool} {t : Session} (out : Outcome) (u : Session)
      (hitem : (s.reading level).element.isItem = true)
      (hperform : Performed setup nested (s.reading level) s.looked.cursor.start s.looked out u)
      (hsettle : Settled setup level s.looked.cursor.start c u (.ok out) c' goesOn t) :
      StrictTurn setup nested level c s c' goesOn t

/-- What stands behind a segment that ends in `s`: a slash, which is passed over, in front of another
segment, or anything else, which ends the path. -/
inductive Parted (s : Session) : Bool → Session → Prop
  | last (h : byteAt s.cursor.rest (s.cursor.stop - s.cursor.start) ≠ Ascii.slash) : Parted s false s
  | slash {t : Session} (h : byteAt s.cursor.rest (s.cursor.stop - s.cursor.start) = Ascii.slash)
      (ht : t = { s with cursor := s.cursor.advance (s.cursor.stop + 1 - s.cursor.start) })
      (hnext : byteAt t.cursor.rest (s.cursor.stop + 1 - t.cursor.start) = Ascii.parenOpen ∨
        isDelimiter (byteAt t.cursor.rest (s.cursor.stop + 1 - t.cursor.start)) = false) :
      Parted s true t

theorem Parted.symbols (h : Parted s goesOn t) : t.symbols = s.symbols := by
  cases h with
  | last => rfl
  | slash _ ht => rw [ht]

/-- If nothing is pending, what stands behind the segment is next. -/
theorem Parted.settled (h : Parted s goesOn t) (hstop : s.cursor.stop = s.cursor.start) :
    (goesOn = false ∧ t = s ∧ byteAt s.cursor.rest 0 ≠ Ascii.slash) ∨
      (goesOn = true ∧ t = { s with cursor := s.cursor.advance 1 } ∧
        byteAt s.cursor.rest 0 = Ascii.slash ∧
        (isDelimiter (byteAt s.cursor.rest 1) = false ∨ byteAt s.cursor.rest 1 = Ascii.parenOpen)) := by
  cases h with
  | last h =>
    rw [hstop, Nat.sub_self] at h
    exact .inl ⟨rfl, rfl, h⟩
  | slash h ht hnext =>
    have hone : s.cursor.stop + 1 - s.cursor.start = 1 := by omega
    have hzero : s.cursor.stop + 1 - (s.cursor.start + 1) = 0 := by omega
    rw [hone] at ht
    subst ht
    have hnext : byteAt (s.cursor.rest.drop 1) (s.cursor.stop + 1 - (s.cursor.start + 1)) =
        Ascii.parenOpen ∨ isDelimiter (byteAt (s.cursor.rest.drop 1)
          (s.cursor.stop + 1 - (s.cursor.start + 1))) = false := hnext
    rw [hzero, byteAt_drop] at hnext
    rw [hstop, Nat.sub_self] at h
    exact .inr ⟨rfl, rfl, h, hnext.symm⟩

section

variable (hstrict : setup.options.relaxed = false)

include hstrict

/-- In a strict scan an element that a round gets past comes to something. -/
theorem item_strict {r : Element.Reading} (hitem : r.element.isItem = true)
    (h : item setup nested level r start c s = .ok (c', goesOn) t) :
    ∃ out u, Performed setup nested r start s out u ∧
      Settled setup level start c u (.ok out) c' goesOn t := by
  rcases item_eq_ok hitem h with h | ⟨f, u, -, hs⟩
  · exact h
  · cases hs with
    | pathFault _ hr =>
      rw [hstrict] at hr
      cases hr
    | fault _ hr =>
      rw [hstrict] at hr
      cases hr

/-- No bracket is missing or too many in a strict scan. -/
theorem unclosed_strict {b : Bracket} {token : Token} :
    unclosed setup b token opened c s ≠ .ok (c', goesOn) t := by
  intro h
  have hr := (unclosed_eq_ok h).1
  rw [hstrict] at hr
  cases hr

/-- A strict scan gets past a closer only where the closer ends a level, and a path leaves it. -/
theorem closer_strict {b : Bracket} (hb : byteAt s.looked.cursor.rest 0 = b.closeByte)
    (h : closer setup level b s.token opened c s.looked = .ok (c', goesOn) t) :
    c' = c ∧ goesOn = false ∧ ((level = .path ∧ t = s.looked) ∨
      (level = .inside b ∧ t = { s.looked with cursor := s.looked.cursor.advance 1 })) := by
  cases closer_eq_ok h with
  | left hl => exact ⟨rfl, rfl, .inl ⟨hl, rfl⟩⟩
  | closes hl =>
    have hstop : s.token.stop - s.looked.cursor.start = 1 := by
      show s.looked.cursor.start + (Lexeme.ofFront s.looked.cursor.rest).length -
        s.looked.cursor.start = 1
      rw [Lexeme.ofFront_closing hb]
      exact Nat.add_sub_cancel_left _ _
    rw [hstop]
    exact ⟨rfl, rfl, .inr ⟨hl, rfl⟩⟩
  | missing _ _ hr | extra _ hr =>
    rw [hstrict] at hr
    cases hr

/-- **A round of a strict scan does nothing else.** -/
theorem turn_strict (h : turn setup nested level opened c s = .ok (c', goesOn) t) :
    StrictTurn setup nested level c s c' goesOn t := by
  rcases (s.reading level).element.isItem_cases with he | ⟨b, he⟩ | hitem
  · rw [turn_apply, he] at h
    cases level with
    | inside b => exact absurd h (unclosed_strict hstrict)
    | top =>
      cases h
      exact .atEnd he (.inl rfl)
    | path =>
      cases h
      exact .atEnd he (.inr rfl)
  · rw [turn_apply, he] at h
    have hclose := (s.reading_reads level).of_closer he
    obtain ⟨rfl, rfl, ⟨hl, rfl⟩ | ⟨hl, rfl⟩⟩ := closer_strict hstrict hclose h
    · exact .left b he hl
    · exact .closed b he hl
  · rw [turn_item hitem] at h
    obtain ⟨out, u, hperform, hsettle⟩ := item_strict hstrict hitem h
    exact .item out u hitem hperform hsettle

/-! ## Paths -/

/-- A strict path adds nothing for what stands behind a segment. -/
theorem separator_strict (h : separator setup start c s = .ok (c', goesOn) t) :
    c' = c ∧ Parted s goesOn t := by
  cases separator_eq_ok h with
  | last hlast => exact ⟨rfl, .last hlast⟩
  | slash hslash ht hnext => exact ⟨rfl, .slash hslash ht hnext⟩
  | fault _ hr =>
    rw [hstrict] at hr
    cases hr

/-- Nor does any level for what comes after an item. -/
theorem afterItem_strict (h : afterItem setup level start c s = .ok (c', goesOn) t) :
    c' = c ∧ t.symbols = s.symbols := by
  cases level with
  | top | inside b =>
    cases h
    exact ⟨rfl, rfl⟩
  | path =>
    obtain ⟨hc, hparted⟩ := separator_strict hstrict h
    exact ⟨hc, hparted.symbols⟩

/-- **In front of a segment the round of a strict path adds it**: the slot in front of a slash, or a
value, and what stands behind that says whether the path goes on. -/
theorem segment_strict (hsegment : (s.reading .path).element.isSegment = true)
    (h : turn setup nested .path opened c s = .ok (c', goesOn) t) :
    (Performed setup nested (s.reading .path) s.looked.cursor.start s.looked .slot t ∧
      c' = c.push .none ⟨s.looked.cursor.start, t.cursor.start⟩ ∧ goesOn = true) ∨
    ∃ v u, Performed setup nested (s.reading .path) s.looked.cursor.start s.looked (.value v) u ∧
      c' = c.push v ⟨s.looked.cursor.start, u.cursor.start⟩ ∧ Parted u goesOn t := by
  have hitem := Element.isItem_of_isSegment hsegment
  rw [turn_item hitem] at h
  obtain ⟨out, u, hperform, hsettle⟩ := item_strict hstrict hitem h
  cases hsettle with
  | lineBreak =>
    rw [hperform.of_lineBreak.1] at hsegment
    cases hsegment
  | comment =>
    rw [hperform.of_comment.1] at hsegment
    cases hsegment
  | slot => exact .inl ⟨hperform, rfl, rfl⟩
  | value v h =>
    obtain ⟨rfl, hparted⟩ := separator_strict hstrict h
    exact .inr ⟨v, u, hperform, rfl, hparted⟩

end

end RebolScan.Scan
