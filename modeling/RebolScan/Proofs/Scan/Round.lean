import RebolScan.Proofs.Scan.Progress

/-!
# What a round did

A round that returned has done one of few things, which are listed here step by step: what was
recorded (`record_eq_ok`), what an element came to (`CarriedOut`, `Performed`), and what that did to
the level (`Settled`). An invariant of rounds takes the cases of these and does not look into the
steps. At the top `turn_top` says what all of it did to the list of values.
-/

set_option autoImplicit false

namespace RebolScan.Scan

open Session

variable {setup : Setup} {nested : Nested} {start : Nat} {s t : Session}

/-- Only a relaxed scan records faults, and none that is fatal. -/
theorem record_eq_ok {f : Fault} {c c' : Collected} (h : record setup f c s = .ok c' t) :
    setup.options.relaxed = true ∧ f.isFatal = false ∧ c' = c.push (.error f) f.span ∧
      t = { s with faults := f :: s.faults } := by
  unfold record at h
  split at h
  · cases h
  · rename_i hr
    simp only [Bool.or_eq_true, Bool.not_eq_true', not_or, Bool.not_eq_false] at hr
    cases h
    exact ⟨hr.1, by simpa using hr.2, rfl, rfl⟩

/-! ## The parts of a value -/

/-- The first segment is a get-word. -/
def StartsGet (segments : Block) : Prop :=
  ∃ name, (segments.items.head?.bind fun item => item.value.word?) = some (.getWord, name)

/-- What segments came to from `s`, in which all of them have been read and the first was a token of
kind `head`. -/
inductive Joins (head : TokenKind) (segments : Block) (s : Session) : Value → Session → Prop
  | litPath (hh : head = .litWord) :
      Joins head segments s
        (.block .litPath { segments with items := mapFirst plainWord segments.items }) s
  | getPath (hh : head ≠ .litWord) (hg : StartsGet segments)
      (hc : byteAt s.cursor.rest (s.cursor.stop - s.cursor.start) ≠ Ascii.colon) :
      Joins head segments s
        (.block .getPath { segments with items := mapFirst plainWord segments.items }) s
  | path (hh : head ≠ .litWord) (hg : ¬StartsGet segments)
      (hc : byteAt s.cursor.rest (s.cursor.stop - s.cursor.start) ≠ Ascii.colon) :
      Joins head segments s (.block .path segments) s
  | setPath (hh : head ≠ .litWord) (hg : ¬StartsGet segments)
      (hc : byteAt s.cursor.rest (s.cursor.stop - s.cursor.start) = Ascii.colon) :
      Joins head segments s (.block .setPath segments)
        { s with cursor := s.cursor.advance (s.cursor.stop + 1 - s.cursor.start) }

theorem joinPath_eq_ok {head : TokenKind} {segments : Block} {v : Value}
    (h : joinPath head start segments s = .ok v t) : Joins head segments s v t := by
  obtain ⟨cur, u, hcur, h⟩ := bind_eq_ok.1 h
  cases hcur
  obtain ⟨b, u, hb, h⟩ := bind_eq_ok.1 h
  cases hb
  have hpath (hh : head ≠ .litWord) (hg : ¬StartsGet segments)
      (hv : (if byteAt s.cursor.rest (s.cursor.stop - s.cursor.start) == Ascii.colon then
        advanceTo (s.cursor.stop + 1) >>= fun _ => pure (.block .setPath segments)
        else pure (.block .path segments) : Scan Value) s = .ok v t) : Joins head segments s v t := by
    split at hv
    · rename_i hc
      obtain ⟨_, u, hu, hv⟩ := bind_eq_ok.1 hv
      cases hu
      cases hv
      exact .setPath hh hg (eq_of_beq hc)
    · rename_i hc
      cases hv
      exact .path hh hg (by simpa using hc)
  split at h
  · rename_i hh
    cases h
    exact .litPath (eq_of_beq hh)
  · rename_i hh
    have hh : head ≠ .litWord := by simpa using hh
    cases hword : segments.items.head?.bind fun item => item.value.word? with
    | none =>
      rw [hword] at h
      exact hpath hh (by simp [StartsGet, hword]) h
    | some word =>
      obtain ⟨kind, name⟩ := word
      rw [hword] at h
      cases kind with
      | getWord =>
        dsimp only at h
        split at h
        · -- A colon behind a get-path is a fault.
          obtain ⟨_, u, -, h⟩ := bind_eq_ok.1 h
          cases h
        · rename_i hc
          cases h
          exact .getPath hh ⟨name, hword⟩ (by simpa using hc)
      | _ => exact hpath hh (by simp [StartsGet, hword]) h

/-- The one fault that a path can meet behind its segments is a colon there. -/
theorem joinPath_eq_error {head : TokenKind} {segments : Block} {f : Fault}
    (h : joinPath head start segments s = .error f t) :
    head ≠ .litWord ∧
      byteAt s.cursor.rest (s.cursor.stop - s.cursor.start) = Ascii.colon ∧
      f.kind = .invalid .path ∧ t.faults = s.faults ∧
      t.cursor = s.cursor.advance (s.cursor.stop + 1 - s.cursor.start) := by
  rcases bind_eq_error.1 h with h | ⟨cur, u, hcur, h⟩
  · cases h
  cases hcur
  rcases bind_eq_error.1 h with h | ⟨b, u, hb, h⟩
  · cases h
  cases hb
  have hpath : (if byteAt s.cursor.rest (s.cursor.stop - s.cursor.start) == Ascii.colon then
      advanceTo (s.cursor.stop + 1) >>= fun _ => pure (.block .setPath segments)
      else pure (.block .path segments) : Scan Value) s ≠ .error f t := by
    intro hv
    split at hv
    · cases hv
    · cases hv
  split at h
  · cases h
  · rename_i hh
    generalize (segments.items.head?.bind fun item => item.value.word?) = word at h
    cases word with
    | none => exact absurd h hpath
    | some word =>
      obtain ⟨kind, name⟩ := word
      cases kind with
      | getWord =>
        dsimp only at h
        split at h
        · rename_i hc
          rcases bind_eq_error.1 h with h | ⟨_, u, hu, h⟩
          · cases h
          cases hu
          cases h
          exact ⟨by simpa using hh, eq_of_beq hc, rfl, rfl, rfl⟩
        · cases h
      | _ => exact absurd h hpath

theorem construct_eq_ok {spec : Block} {v : Value} (h : construct setup start spec s = .ok v t) :
    setup.construct spec.items s.symbols = some v ∧
      t = { s with symbols := (setup.construct.make spec.items s.symbols).2 } := by
  obtain ⟨u, u', hu, h⟩ := bind_eq_ok.1 h
  cases hu
  generalize hm : setup.construct.make spec.items s.symbols = made at h
  obtain ⟨value, table⟩ := made
  obtain ⟨_, u, hu, h⟩ := bind_eq_ok.1 h
  cases hu
  cases value with
  | none => cases h
  | some v =>
    cases h
    exact ⟨congrArg (·.1) hm, rfl⟩

/-- What follows a segment of a path from `s`, where the segment ends. -/
inductive Separated (setup : Setup) (start : Nat) (c : Collected) (s : Session) :
    Collected → Bool → Session → Prop
  | last (h : byteAt s.cursor.rest (s.cursor.stop - s.cursor.start) ≠ Ascii.slash) :
      Separated setup start c s c false s
  | slash {t : Session} (h : byteAt s.cursor.rest (s.cursor.stop - s.cursor.start) = Ascii.slash)
      (ht : t = { s with cursor := s.cursor.advance (s.cursor.stop + 1 - s.cursor.start) })
      (hnext : byteAt t.cursor.rest (s.cursor.stop + 1 - t.cursor.start) = Ascii.parenOpen ∨
        isDelimiter (byteAt t.cursor.rest (s.cursor.stop + 1 - t.cursor.start)) = false) :
      Separated setup start c s c true t
  | fault {c' : Collected} {t : Session} {f : Fault}
      (h : byteAt s.cursor.rest (s.cursor.stop - s.cursor.start) = Ascii.slash)
      (hr : setup.options.relaxed = true) (hf : f.kind = .invalid .path)
      (ht : t.cursor = s.cursor.advance (s.cursor.stop + 1 - s.cursor.start))
      (hfaults : t.faults = f :: s.faults) : Separated setup start c s c' false t

theorem separator_eq_ok {c c' : Collected} {goesOn : Bool}
    (h : separator setup start c s = .ok (c', goesOn) t) :
    Separated setup start c s c' goesOn t := by
  obtain ⟨cur, u, hcur, h⟩ := bind_eq_ok.1 h
  cases hcur
  obtain ⟨b, u, hb, h⟩ := bind_eq_ok.1 h
  cases hb
  split at h
  · rename_i hs
    cases h
    exact .last (by simpa using hs)
  · rename_i hs
    have hs : byteAt s.cursor.rest (s.cursor.stop - s.cursor.start) = Ascii.slash := by
      simpa using hs
    obtain ⟨_, u, hu, h⟩ := bind_eq_ok.1 h
    cases hu
    obtain ⟨next, u, hu, h⟩ := bind_eq_ok.1 h
    cases hu
    split at h
    · obtain ⟨_, u, hu, h⟩ := bind_eq_ok.1 h
      cases hu
      obtain ⟨f, u, hu, h⟩ := bind_eq_ok.1 h
      cases hu
      obtain ⟨c₁, u, hrec, h⟩ := bind_eq_ok.1 h
      cases h
      obtain ⟨hr, -, -, rfl⟩ := record_eq_ok hrec
      exact .fault hs hr rfl rfl rfl
    · rename_i hnext
      cases h
      refine .slash hs rfl ?_
      rw [Bool.not_eq_true, Bool.and_eq_false_iff] at hnext
      rcases hnext with hp | hd
      · exact .inl (by simpa using hp)
      · exact .inr hd

/-! ## An element -/

/-- What an element came to from `s`, in which it has been consumed. -/
inductive CarriedOut (setup : Setup) (nested : Nested) (start : Nat) (s : Session) :
    Element → Outcome → Session → Prop
  | lineBreak : CarriedOut setup nested start s .lineBreak .lineBreak
      { s with cursor := { s.cursor with lineStart := s.cursor.start } }
  | slot : CarriedOut setup nested start s .slot .slot s
  | value (v : Value) : CarriedOut setup nested start s (.value v) (.value v) s
  | word (kind : WordKind) (name : String) :
      CarriedOut setup nested start s (.word kind name)
        (.value (.word kind (s.symbols.intern name).1))
        { s with symbols := (s.symbols.intern name).2 }
  | issue (name : String) :
      CarriedOut setup nested start s (.issue name) (.value (.issue (s.symbols.intern name).1))
        { s with symbols := (s.symbols.intern name).2 }
  | opener (b : Bracket) {body : Block} {t : Session}
      (h : nested (.inside b) start s = .ok body t) (honly : setup.options.only = false) :
      CarriedOut setup nested start s (.opener b) (.value (.block b.blockKind body)) t
  | construct {v : Value} {t : Session} (h : construction setup nested start s = .ok v t) :
      CarriedOut setup nested start s .construct (.value v) t
  | comment : CarriedOut setup nested start s .comment .comment s

/-- The head of a path is not consumed. -/
theorem CarriedOut.ne_pathHead {e : Element} {out : Outcome}
    (h : CarriedOut setup nested start s e out t) (kind : TokenKind) : e ≠ .pathHead kind := by
  rintro rfl
  cases h

theorem carryOut_eq_ok {r : Element.Reading} {out : Outcome} (hitem : r.element.isItem = true)
    (hhead : ∀ kind, r.element ≠ .pathHead kind)
    (h : carryOut setup nested r start s = .ok out t) :
    CarriedOut setup nested start s r.element out t := by
  unfold carryOut at h
  cases he : r.element with
  | endOfInput | closer b =>
    rw [he] at hitem
    cases hitem
  | pathHead kind => exact absurd he (hhead kind)
  | lineBreak =>
    rw [he] at h
    cases h
    exact .lineBreak
  | comment =>
    rw [he] at h
    cases h
    exact .comment
  | slot =>
    rw [he] at h
    cases h
    exact .slot
  | value v =>
    rw [he] at h
    cases h
    exact .value v
  | word kind name =>
    rw [he] at h
    cases h
    exact .word kind name
  | issue name =>
    rw [he] at h
    cases h
    exact .issue name
  | opener b =>
    rw [he] at h
    dsimp only at h
    split at h
    · cases h
    · rename_i honly
      obtain ⟨body, u, hn, h⟩ := bind_eq_ok.1 h
      cases h
      exact .opener b hn (by simpa using honly)
  | construct =>
    rw [he] at h
    obtain ⟨v, u, hc, h⟩ := bind_eq_ok.1 h
    cases h
    exact .construct hc
  | invalid kind length =>
    rw [he] at h
    cases h

/-- What an element came to from `s`, in which it is next. -/
inductive Performed (setup : Setup) (nested : Nested) (r : Element.Reading) (start : Nat)
    (s : Session) : Outcome → Session → Prop
  | head {kind : TokenKind} (he : r.element = .pathHead kind) {v : Value} {t : Session}
      (h : path nested kind start s = .ok v t) : Performed setup nested r start s (.value v) t
  | consumed {out : Outcome} {t : Session}
      (h : CarriedOut setup nested start { s with cursor := s.cursor.advance r.taken }
        r.element out t) : Performed setup nested r start s out t

theorem perform_eq_ok {r : Element.Reading} {out : Outcome} (hitem : r.element.isItem = true)
    (h : perform setup nested r start s = .ok out t) :
    Performed setup nested r start s out t := by
  by_cases hhead : ∃ kind, r.element = .pathHead kind
  · obtain ⟨kind, he⟩ := hhead
    rw [perform_head he] at h
    obtain ⟨v, u, hp, h⟩ := bind_eq_ok.1 h
    cases h
    exact .head he hp
  · have hhead (kind : TokenKind) : r.element ≠ .pathHead kind := fun he => hhead ⟨kind, he⟩
    rw [perform_element hhead] at h
    obtain ⟨_, u, ha, h⟩ := bind_eq_ok.1 h
    cases ha
    exact .consumed (carryOut_eq_ok hitem hhead h)

theorem Performed.ne_invalid {r : Element.Reading} {out : Outcome}
    (h : Performed setup nested r start s out t) (kind : TokenKind) (length : Nat) :
    r.element ≠ .invalid kind length := by
  intro he
  cases h with
  | head hhead =>
    rw [hhead] at he
    cases he
  | consumed h =>
    rw [he] at h
    cases h

theorem Performed.of_lineBreak {r : Element.Reading}
    (h : Performed setup nested r start s .lineBreak t) :
    r.element = .lineBreak ∧
      t = { s with cursor := { s.cursor.advance r.taken with lineStart := s.cursor.start + r.taken } } := by
  cases h with
  | consumed h =>
    generalize r.element = e at h
    cases h
    exact ⟨rfl, rfl⟩

theorem Performed.of_comment {r : Element.Reading} (h : Performed setup nested r start s .comment t) :
    r.element = .comment ∧ t = { s with cursor := s.cursor.advance r.taken } := by
  cases h with
  | consumed h =>
    generalize r.element = e at h
    cases h
    exact ⟨rfl, rfl⟩

theorem Performed.of_slot {r : Element.Reading} (h : Performed setup nested r start s .slot t) :
    r.element = .slot ∧ t = { s with cursor := s.cursor.advance r.taken } := by
  cases h with
  | consumed h =>
    generalize r.element = e at h
    cases h
    exact ⟨rfl, rfl⟩

/-- The fault that an element of `taken` bytes met from `s`, in which it is next: one of a level
inside, or one of its own. -/
inductive Faulted (setup : Setup) (nested : Nested) (taken start : Nat) (s : Session) :
    Element → Fault → Session → Prop
  | inner {e : Element} {l : Level} {s' t : Session} {f : Fault}
      (h : nested l start s' = .error f t) : Faulted setup nested taken start s e f t
  | invalid {kind : TokenKind} {length : Nat} {f : Fault} {t : Session}
      (hf : f.kind = .invalid kind) (hfaults : t.faults = s.faults) :
      Faulted setup nested taken start s (.invalid kind length) f t
  | construct {body : Block} {u : Session}
      (h : nested (.inside .block) start { s with cursor := s.cursor.advance taken } = .ok body u)
      (hv : setup.construct body.items u.symbols = none) {f : Fault} {t : Session}
      (hf : f.kind = .malformedConstruct) (hcursor : t.cursor = u.cursor)
      (hfaults : t.faults = u.faults) : Faulted setup nested taken start s .construct f t
  | head {kind : TokenKind} {segments : Block} {u : Session}
      (h : nested .path start s = .ok segments u) {f : Fault} {t : Session}
      (hj : joinPath kind start segments u = .error f t) :
      Faulted setup nested taken start s (.pathHead kind) f t

theorem construct_eq_error {spec : Block} {f : Fault}
    (h : construct setup start spec s = .error f t) :
    setup.construct spec.items s.symbols = none ∧ f.kind = .malformedConstruct ∧
      t.cursor = s.cursor ∧ t.faults = s.faults := by
  rcases bind_eq_error.1 h with h | ⟨u, u', hu, h⟩
  · cases h
  cases hu
  generalize hm : setup.construct.make spec.items s.symbols = made at h
  obtain ⟨value, table⟩ := made
  rcases bind_eq_error.1 h with h | ⟨_, u, hu, h⟩
  · cases h
  cases hu
  cases value with
  | some v => cases h
  | none =>
    cases h
    exact ⟨congrArg (·.1) hm, rfl, rfl, rfl⟩

theorem perform_eq_error {r : Element.Reading} {f : Fault} (honly : setup.options.only = false)
    (h : perform setup nested r start s = .error f t) :
    Faulted setup nested r.taken start s r.element f t := by
  by_cases hhead : ∃ kind, r.element = .pathHead kind
  · obtain ⟨kind, he⟩ := hhead
    rw [perform_head he] at h
    rw [he]
    rcases bind_eq_error.1 h with h | ⟨v, u, -, h⟩
    · rcases bind_eq_error.1 h with h | ⟨segments, u, hn, h⟩
      · exact .inner h
      · exact .head hn h
    · cases h
  · rw [perform_element fun kind he => hhead ⟨kind, he⟩] at h
    rcases bind_eq_error.1 h with h | ⟨_, u, ha, h⟩
    · cases h
    cases ha
    unfold carryOut at h
    cases he : r.element with
    | opener b =>
      rw [he] at h
      dsimp only at h
      rw [if_neg (by rw [honly]; exact Bool.noConfusion)] at h
      rcases bind_eq_error.1 h with h | ⟨body, u, -, h⟩
      · exact .inner h
      · cases h
    | construct =>
      rw [he] at h
      rcases bind_eq_error.1 h with h | ⟨v, u, -, h⟩
      · rcases bind_eq_error.1 h with h | ⟨body, u, hn, h⟩
        · exact .inner h
        · obtain ⟨hv, hf, hcursor, hfaults⟩ := construct_eq_error h
          exact .construct hn hv hf hcursor hfaults
      · cases h
    | invalid kind length =>
      rw [he] at h
      cases h
      exact .invalid rfl rfl
    | _ =>
      rw [he] at h
      cases h

/-- Outside paths nothing comes after an item. A scan for one value is done with it, and any other level
goes on. -/
theorem afterItem_eq_ok {level : Level} {c c' : Collected} {goesOn : Bool} (hl : level ≠ .path)
    (h : afterItem setup level start c s = .ok (c', goesOn) t) :
    c' = c ∧ t = s ∧
      ((goesOn = true ∧ (level = .top → setup.options.stopsAfterValue = false)) ∨
        (goesOn = false ∧ level = .top ∧ setup.options.stopsAfterValue = true)) := by
  cases level with
  | path => exact absurd rfl hl
  | inside b =>
    cases h
    exact ⟨rfl, rfl, .inl ⟨rfl, Level.noConfusion⟩⟩
  | top =>
    cases h
    cases setup.options.stopsAfterValue with
    | false => exact ⟨rfl, rfl, .inl ⟨rfl, fun _ => rfl⟩⟩
    | true => exact ⟨rfl, rfl, .inr ⟨rfl, rfl, rfl⟩⟩

theorem afterItem_goesOn {level : Level} {c c' : Collected} {goesOn : Bool}
    (hall : setup.options.stopsAfterValue = false) (hl : level ≠ .path)
    (h : afterItem setup level start c s = .ok (c', goesOn) t) : c' = c ∧ t = s ∧ goesOn = true := by
  obtain ⟨hc, ht, ⟨hgo, -⟩ | ⟨-, -, hstops⟩⟩ := afterItem_eq_ok hl h
  · exact ⟨hc, ht, hgo⟩
  · rw [hall] at hstops
    cases hstops

/-- What the outcome of an element did to a level, or the fault that was met there. -/
inductive Settled (setup : Setup) (level : Level) (start : Nat) (c : Collected) (s : Session) :
    Except Fault Outcome → Collected → Bool → Session → Prop
  | lineBreak : Settled setup level start c s (.ok .lineBreak) { c with newLine := true } true s
  | comment : Settled setup level start c s (.ok .comment) c true s
  | slot : Settled setup level start c s (.ok .slot) (c.push .none ⟨start, s.cursor.start⟩) true s
  | value (v : Value) {c' : Collected} {goesOn : Bool} {t : Session}
      (h : afterItem setup level start (c.push v ⟨start, s.cursor.start⟩) s = .ok (c', goesOn) t) :
      Settled setup level start c s (.ok (.value v)) c' goesOn t
  | pathFault (f : Fault) (hr : setup.options.relaxed = true) (hf : f.isFatal = false)
      (hl : level = .path) :
      Settled setup level start c s (.error f) (c.push (.error f) f.span) false
        { s with faults := f :: s.faults }
  | fault (f : Fault) (hr : setup.options.relaxed = true) (hf : f.isFatal = false)
      (hl : level ≠ .path) {c' : Collected} {goesOn : Bool} {t : Session}
      (h : afterItem setup level start (c.push (.error f) f.span) { s with faults := f :: s.faults } =
        .ok (c', goesOn) t) : Settled setup level start c s (.error f) c' goesOn t

theorem settle_eq_ok {level : Level} {c c' : Collected} {out : Except Fault Outcome} {goesOn : Bool}
    (h : settle setup level start c out s = .ok (c', goesOn) t) :
    Settled setup level start c s out c' goesOn t := by
  match out with
  | .ok .lineBreak =>
    cases h
    exact .lineBreak
  | .ok .comment =>
    cases h
    exact .comment
  | .ok .slot =>
    cases h
    exact .slot
  | .ok (.value v) => exact .value v h
  | .error f =>
    obtain ⟨c₁, u, hrec, h⟩ := bind_eq_ok.1 h
    obtain ⟨hr, hf, rfl, rfl⟩ := record_eq_ok hrec
    by_cases hl : level = .path
    · rw [if_pos (by rw [hl]; rfl)] at h
      cases h
      exact .pathFault f hr hf hl
    · rw [if_neg (by simpa using hl)] at h
      exact .fault f hr hf hl h

theorem unclosed_eq_ok {b : Bracket} {token : Token} {opened : Site} {c c' : Collected}
    {goesOn : Bool} (h : unclosed setup b token opened c s = .ok (c', goesOn) t) :
    setup.options.relaxed = true ∧ goesOn = false ∧ ∃ f : Fault, f.kind = .missing b ∧
      f.token = token.kind ∧ f.span = ⟨token.start, token.stop⟩ ∧ c' = c.push (.error f) f.span ∧
      t.cursor = s.cursor ∧ t.faults = f :: s.faults := by
  obtain ⟨f, u, hu, h⟩ := bind_eq_ok.1 h
  cases hu
  obtain ⟨c₁, u, hrec, h⟩ := bind_eq_ok.1 h
  obtain ⟨hr, -, rfl, rfl⟩ := record_eq_ok hrec
  cases h
  exact ⟨hr, rfl, _, rfl, rfl, rfl, rfl, rfl, rfl⟩

/-- What a round did with a closing bracket that it had looked at as `token`. -/
inductive Closed (setup : Setup) (level : Level) (b : Bracket) (token : Token) (c : Collected)
    (s : Session) : Collected → Bool → Session → Prop
  | left (hl : level = .path) : Closed setup level b token c s c false s
  | closes (hl : level = .inside b) :
      Closed setup level b token c s c false
        { s with cursor := s.cursor.advance (token.stop - s.cursor.start) }
  | missing {o : Bracket} {f : Fault} {t : Session} (hl : level = .inside o) (ho : o ≠ b)
      (hr : setup.options.relaxed = true) (hkind : f.kind = .missing o) (htoken : f.token = token.kind)
      (hspan : f.span = ⟨token.start, token.stop⟩) (hcursor : t.cursor = s.cursor)
      (hfaults : t.faults = f :: s.faults) :
      Closed setup level b token c s (c.push (.error f) f.span) false t
  | extra {f : Fault} {t : Session} (hl : level = .top) (hr : setup.options.relaxed = true)
      (hkind : f.kind = .extra b) (hspan : f.span = ⟨token.start, token.stop⟩)
      (hcursor : t.cursor = s.cursor.advance (token.stop - s.cursor.start))
      (hfaults : t.faults = f :: s.faults) :
      Closed setup level b token c s (c.push (.error f) f.span) (!setup.options.stopsAfterValue) t

theorem closer_eq_ok {level : Level} {b : Bracket} {token : Token} {opened : Site}
    {c c' : Collected} {goesOn : Bool}
    (h : closer setup level b token opened c s = .ok (c', goesOn) t) :
    Closed setup level b token c s c' goesOn t := by
  cases level with
  | path =>
    cases h
    exact .left rfl
  | top =>
    obtain ⟨_, u, hu, h⟩ := bind_eq_ok.1 h
    cases hu
    obtain ⟨_, u, hu, h⟩ := bind_eq_ok.1 h
    cases hu
    obtain ⟨f, u, hu, h⟩ := bind_eq_ok.1 h
    cases hu
    obtain ⟨c₁, u, hrec, h⟩ := bind_eq_ok.1 h
    obtain ⟨hr, -, rfl, rfl⟩ := record_eq_ok hrec
    cases h
    exact .extra rfl hr rfl rfl rfl rfl
  | inside o =>
    by_cases ho : o = b
    · subst ho
      simp only [closer, beq_self_eq_true, if_true] at h
      obtain ⟨_, u, hu, h⟩ := bind_eq_ok.1 h
      cases hu
      cases h
      exact .closes rfl
    · simp only [closer, beq_iff_eq, ho, if_false] at h
      obtain ⟨hr, rfl, f, hkind, htoken, hspan, rfl, hcursor, hfaults⟩ := unclosed_eq_ok h
      exact .missing rfl ho hr hkind htoken hspan hcursor hfaults

/-- An element was performed or met a fault, and the level made of that what it did. -/
theorem item_eq_ok {level : Level} {r : Element.Reading} {c c' : Collected} {goesOn : Bool}
    (hitem : r.element.isItem = true)
    (h : item setup nested level r start c s = .ok (c', goesOn) t) :
    (∃ out u, Performed setup nested r start s out u ∧
        Settled setup level start c u (.ok out) c' goesOn t) ∨
      ∃ f u, perform setup nested r start s = .error f u ∧
        Settled setup level start c u (.error f) c' goesOn t := by
  obtain ⟨out, u, hattempt, h⟩ := bind_eq_ok.1 h
  cases hp : perform setup nested r start s with
  | ok out' u' =>
    rw [attempt_of_ok hp] at hattempt
    cases hattempt
    exact .inl ⟨_, _, perform_eq_ok hitem hp, settle_eq_ok h⟩
  | error f u' =>
    rw [attempt_of_error hp] at hattempt
    cases hattempt
    exact .inr ⟨_, _, rfl, settle_eq_ok h⟩

/-! ## Rounds at the top -/

/-- What a round at the top did to the values: it was the last, it found none, or it found one and
goes on if more are asked for. -/
inductive TurnTop (setup : Setup) (s : Session) (c : Collected) :
    Collected → Bool → Session → Prop
  | last (h : s.looked.cursor.rest = []) : TurnTop setup s c c false s.looked
  | none {c' : Collected} {t : Session} (h : s.looked.cursor.rest ≠ []) (hc : c'.items = c.items) :
      TurnTop setup s c c' true t
  | one {c' : Collected} {goesOn : Bool} {t : Session} (h : s.looked.cursor.rest ≠ []) (item : Item)
      (hc : c' = ⟨item :: c.items, false⟩) (hg : goesOn = !setup.options.stopsAfterValue) :
      TurnTop setup s c c' goesOn t

theorem TurnTop.suffix {c c' : Collected} {s t : Session} {goesOn : Bool}
    (h : TurnTop setup s c c' goesOn t) : c.items <:+ c'.items := by
  cases h with
  | last h => exact List.suffix_refl _
  | none h hc => exact ⟨[], hc.symm⟩
  | one h item hc hg =>
    rw [hc]
    exact List.suffix_cons _ _

theorem turn_top {opened : Site} {c c' : Collected} {s t : Session} {goesOn : Bool}
    (h : turn setup nested .top opened c s = .ok (c', goesOn) t) :
    TurnTop setup s c c' goesOn t := by
  have hread := s.reading_reads .top
  rcases (s.reading .top).element.isItem_cases with hend | ⟨b, hb⟩ | hitem
  · rw [turn_apply, hend] at h
    cases h
    exact .last (hread.of_endOfInput hend)
  · have hne := hread.ne_nil (by rw [hb]; exact Element.noConfusion)
    rw [turn_apply, hb] at h
    cases closer_eq_ok h with
    | left hl | closes hl | missing hl => cases hl
    | extra => exact .one hne _ rfl rfl
  · have hne := hread.ne_nil (Element.ne_endOfInput_of_isItem hitem)
    rw [turn_item hitem] at h
    obtain ⟨out, u, hp, hs⟩ | ⟨f, u, -, hs⟩ := item_eq_ok hitem h
    · cases hs with
      | lineBreak => exact .none hne rfl
      | comment => exact .none hne rfl
      | slot =>
        -- At the top no path is read whose first segment could be empty.
        cases (hread.of_slot hp.of_slot.1).1
      | value v h =>
        cases h
        exact .one hne _ rfl rfl
    · cases hs with
      | pathFault _ _ _ hl => cases hl
      | fault _ _ _ hl h =>
        cases h
        exact .one hne _ rfl rfl

end RebolScan.Scan
