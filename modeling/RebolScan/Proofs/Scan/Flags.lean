import RebolScan.Proofs.Scan.Strict
import RebolScan.Proofs.Value.Flags

/-!
# The line breaks that a scan flags

A level remembers whether a line break came since its last item, and the next item takes that up. Each
level remembers for itself, so what a block holds says nothing of the item behind it. **The flags of a
strict scan are exact** (`transcode_flagged`): a value is flagged where a line breaks between it and
what stands before it, be it in white space or at the end of a comment, and the segments of a path
never are.

Between two rounds a level keeps `FlagsSoFar`, and it ends with `FlagsAtEnd`.
-/

set_option autoImplicit false

namespace RebolScan

open Ascii Scan

/-- A comment that ends without a line break takes a line. -/
theorem Element.Reads.of_comment {level : Level} {text : Bytes} {r : Reading}
    (h : Reads level text r) (he : r.element = .comment) : r.taken = lineLength text := by
  cases h with
  | comment => rfl
  | leaf e n h =>
    subst he
    cases h
  | _ => cases he

namespace Scan

open Session

variable {setup : Setup} {nested : Nested} {source : Bytes} {l : Level} {opened : Site}
  {c c' : Collected} {s t u : Session} {goesOn : Bool}

/-- What is known of the flags of a level that was opened in `s` and goes on in `u`. A path never
comes across a line break. -/
def FlagsSoFar (source : Bytes) (l : Level) (s : Session) (c : Collected) (u : Session) : Prop :=
  match l with
  | .path => c.newLine = false ∧ ∀ item ∈ c.items, item.newLine = false ∧ Item.Flagged source item
  | _ => ∃ e, Flagged source (Item.Flagged source) c.items.reverse s.cursor.start e ∧
      e ≤ u.cursor.start ∧ (c.newLine = true ↔ ¬Unbroken source e u.cursor.start)

/-- What is known of them when the level has ended in `t`. -/
def FlagsAtEnd (source : Bytes) (l : Level) (s : Session) (c : Collected) (t : Session) : Prop :=
  match l with
  | .path => ∀ item ∈ c.items, item.newLine = false ∧ Item.Flagged source item
  | .inside _ => ∃ e stop, Flagged source (Item.Flagged source) c.items.reverse s.cursor.start e ∧
      (c.newLine = true ↔ ¬Unbroken source e stop) ∧ t.cursor.start = stop + 1
  | .top => ∃ e, Flagged source (Item.Flagged source) c.items.reverse s.cursor.start e ∧
      (c.newLine = true ↔ ¬Unbroken source e source.length)

section

variable {s₀ : Session} {r : Element.Reading}

theorem flagsSoFar_iff (hl : l ≠ .path) : FlagsSoFar source l s c u ↔
    ∃ e, Flagged source (Item.Flagged source) c.items.reverse s.cursor.start e ∧
      e ≤ u.cursor.start ∧ (c.newLine = true ↔ ¬Unbroken source e u.cursor.start) := by
  cases l with
  | path => exact absurd rfl hl
  | top | inside b => exact Iff.rfl

/-- White space in front of a lexeme breaks no line. -/
theorem FlagsSoFar.looked (hl : l ≠ .path) (hs : s.At source) (h : FlagsSoFar source l s₀ c s) :
    FlagsSoFar source l s₀ c s.looked := by
  rw [flagsSoFar_iff hl] at h ⊢
  obtain ⟨e, hitems, hle, hline⟩ := h
  have hforward := (before_looked s).start
  refine ⟨e, hitems, Nat.le_trans hle hforward, hline.trans (not_congr ⟨fun h => ?_, fun h => ?_⟩)⟩
  · exact h.trans hs.unbroken_looked
  · exact h.mono (Nat.le_refl _) hforward

/-- A line break is noted. -/
theorem FlagsSoFar.lineBreak (hl : l ≠ .path) (hs : s.At source)
    (hr : Element.Reads l s.cursor.rest r) (he : r.element = .lineBreak)
    (hu : u.cursor.start = s.cursor.start + r.taken) (h : FlagsSoFar source l s₀ c s) :
    FlagsSoFar source l s₀ { c with newLine := true } u := by
  rw [flagsSoFar_iff hl] at h ⊢
  obtain ⟨e, hitems, hle, -⟩ := h
  obtain ⟨i, hi, hbreak⟩ := hr.of_lineBreak he
  rw [hs.byte] at hbreak
  rw [hu]
  refine ⟨e, hitems, by omega, iff_of_true rfl fun hunbroken => ?_⟩
  rw [hunbroken _ (by omega) (by omega)] at hbreak
  cases hbreak

/-- A comment ends in front of the line break. -/
theorem FlagsSoFar.comment (hl : l ≠ .path) (hs : s.At source)
    (hr : Element.Reads l s.cursor.rest r) (he : r.element = .comment)
    (hu : u.cursor.start = s.cursor.start + r.taken) (h : FlagsSoFar source l s₀ c s) :
    FlagsSoFar source l s₀ c u := by
  rw [flagsSoFar_iff hl] at h ⊢
  obtain ⟨e, hitems, hle, hline⟩ := h
  have htaken := Lexeme.unbroken_lineLength s.cursor.rest
  rw [hs.rest, unbroken_drop, ← hs.rest, ← hr.of_comment he] at htaken
  rw [hu]
  refine ⟨e, hitems, by omega, hline.trans (not_congr ⟨fun h => h.trans htaken, fun h => ?_⟩)⟩
  exact h.mono (Nat.le_refl _) (Nat.le_add_right _ _)

/-- A value takes up what was noted, and nothing is noted behind it. -/
theorem FlagsSoFar.push (hl : l ≠ .path) {v : Value}
    (hv : v.Flagged source ⟨s.cursor.start, u.cursor.start⟩) (h : FlagsSoFar source l s₀ c s) :
    FlagsSoFar source l s₀ (c.push v ⟨s.cursor.start, u.cursor.start⟩) u := by
  rw [flagsSoFar_iff hl] at h ⊢
  obtain ⟨e, hitems, -, hline⟩ := h
  refine ⟨u.cursor.start, ?_, Nat.le_refl _, iff_of_false Bool.noConfusion ?_⟩
  · show Flagged source _ (_ :: c.items).reverse _ u.cursor.start
    rw [List.reverse_cons]
    exact .snoc hitems hline hv
  · exact fun hbroken => hbroken (unbroken_refl _)

end

/-! ## What an element comes to -/

section

variable (hn : Known source (FlagsAtEnd source) nested)

include hn

/-- The segments of a path are never flagged, whatever path they make. -/
theorem path_flagged {kind : TokenKind} {start : Nat} {v : Value} {span : Span} (hs : s.At source)
    (hstarts : StartsSegment s.cursor.rest) (h : path nested kind start s = .ok v t) :
    v.Flagged source span := by
  obtain ⟨segments, u, hsegments, hjoin⟩ := bind_eq_ok.1 h
  obtain ⟨c, rfl, hflags⟩ := hn hs (fun _ => hstarts) hsegments
  have hall : ∀ item ∈ c.toBlock.items, item.newLine = false ∧ Item.Flagged source item :=
    fun item hitem => hflags item (List.mem_reverse.1 hitem)
  cases joinPath_eq_ok hjoin with
  | litPath | getPath =>
    have hplain := forall_mapFirst hall fun item hitem => ⟨hitem.1, hitem.2.plainWord⟩
    exact .path rfl (fun item hitem => (hplain item hitem).1) fun item hitem => (hplain item hitem).2
  | path | setPath =>
    exact .path rfl (fun item hitem => (hall item hitem).1) fun item hitem => (hall item hitem).2

/-- **The flags in what an element comes to are exact.** -/
theorem Performed.flagged (hmake : setup.construct = .standard) {r : Element.Reading} {v : Value}
    (hs : s.At source) (hr : Element.Reads l s.cursor.rest r)
    (h : Performed setup nested r s.cursor.start s (.value v) t) :
    v.Flagged source ⟨s.cursor.start, t.cursor.start⟩ := by
  cases h with
  | head he hpath => exact path_flagged hn hs (hr.of_pathHead he) hpath
  | consumed h =>
    have hu := hs.advance (h.taken_bounds hr).2
    generalize he : r.element = e at h
    cases h with
    | value => exact .scalar (hr.isScalar_of_value he)
    | word | issue => exact .scalar rfl
    | opener b hbody =>
      obtain ⟨c, rfl, e, stop, hflags, htail, hstart⟩ := hn hu Level.noConfusion hbody
      have hfrom : s.cursor.start + r.taken = s.cursor.start + 1 :=
        congrArg (s.cursor.start + ·) (hr.of_opener he).2
      rw [hstart]
      exact .bracketed b (hfrom ▸ hflags) htail
    | construct hc =>
      obtain ⟨spec, u, hspec, hc⟩ := bind_eq_ok.1 hc
      obtain ⟨hv, -⟩ := construct_eq_ok hc
      obtain ⟨c, rfl, e, stop, hflags, -⟩ := hn hu Level.noConfusion hspec
      rw [hmake] at hv
      rcases valueOf_cases hv with ⟨hscalar, -⟩ | ⟨body, hbody, block, fields, hvalue, rfl, hfields⟩
      · exact .scalar hscalar
      · have hflagged : body.Flagged source := hflags.mem body hbody
        rw [Item.Flagged, hvalue] at hflagged
        exact .object fun name item hmem => hflagged.mem item (hfields name item hmem)

end

/-! ## Rounds -/

section

variable (hstrict : setup.options.relaxed = false)

include hstrict

/-- In a path an item is added that is not flagged. -/
theorem path_turn_flags (hn : Known source (FlagsAtEnd source) nested)
    (hmake : setup.construct = .standard) {s₀ : Session} (hs : s.At source)
    (hnext : StartsSegment s.cursor.rest ∨ byteAt s.cursor.rest 0 = parenOpen)
    (hc : FlagsSoFar source .path s₀ c s)
    (h : turn setup nested .path opened c s = .ok (c', goesOn) t) :
    (goesOn = true ∧ FlagsSoFar source .path s₀ c' t) ∨
      (goesOn = false ∧ FlagsAtEnd source .path s₀ c' t) := by
  obtain ⟨hline, hitems⟩ := hc
  have hpush {v : Value} {span : Span} (hv : v.Flagged source span) :
      ∀ item ∈ (c.push v span).items, item.newLine = false ∧ Item.Flagged source item :=
    List.forall_mem_cons.2 ⟨⟨hline, hv⟩, hitems⟩
  rcases segment_strict hstrict (reading_of_segment hnext).2 h with
    ⟨-, rfl, rfl⟩ | ⟨v, u, hperform, rfl, -⟩
  · exact .inl ⟨rfl, rfl, hpush (.scalar rfl)⟩
  · have hv := hperform.flagged hn hmake hs.looked (s.reading_reads .path)
    cases goesOn with
    | true => exact .inl ⟨rfl, rfl, hpush hv⟩
    | false => exact .inr ⟨rfl, hpush hv⟩

/-- **A round of any other level flags the item that it adds as a line breaks in front of it.** -/
theorem turn_flags (hn : Known source (FlagsAtEnd source) nested)
    (hmake : setup.construct = .standard) (hall : setup.options.stopsAfterValue = false)
    {s₀ : Session} (hs : s.At source) (hl : l ≠ .path) (hc : FlagsSoFar source l s₀ c s)
    (h : turn setup nested l opened c s = .ok (c', goesOn) t) :
    (goesOn = true ∧ FlagsSoFar source l s₀ c' t) ∨
      (goesOn = false ∧ FlagsAtEnd source l s₀ c' t) := by
  have hread := s.reading_reads l
  have hlooked := hs.looked
  have hc := hc.looked hl hs
  cases turn_strict hstrict h with
  | atEnd he htop =>
    obtain ⟨e, hitems, -, hline⟩ := (flagsSoFar_iff hl).1 hc
    rw [hlooked.at_end (hread.of_endOfInput he)] at hline
    obtain rfl := htop.resolve_right hl
    exact .inr ⟨rfl, e, hitems, hline⟩
  | left b he hpath => exact absurd hpath hl
  | closed b he hb =>
    obtain ⟨e, hitems, -, hline⟩ := (flagsSoFar_iff hl).1 hc
    subst hb
    exact .inr ⟨rfl, e, _, hitems, hline, rfl⟩
  | item out u _ hperform hsettle =>
    cases hsettle with
    | lineBreak =>
      obtain ⟨he, rfl⟩ := hperform.of_lineBreak
      exact .inl ⟨rfl, hc.lineBreak hl hlooked hread he rfl⟩
    | comment =>
      obtain ⟨he, rfl⟩ := hperform.of_comment
      exact .inl ⟨rfl, hc.comment hl hlooked hread he rfl⟩
    | slot => exact absurd (hread.of_slot hperform.of_slot.1).1 hl
    | value v h =>
      obtain ⟨rfl, rfl, rfl⟩ := afterItem_goesOn hall hl h
      exact .inl ⟨rfl, hc.push hl (hperform.flagged hn hmake hlooked hread)⟩

/-- **The flags of every level are exact**, however deep it is nested. -/
theorem known_flags (hmake : setup.construct = .standard)
    (hall : setup.options.stopsAfterValue = false) (room : Nat) :
    Known source (FlagsAtEnd source) (inside setup (source.length + 1) room) := by
  apply known_inside (P := FlagsSoFar source) hmake hstrict
  · intro l s hs
    have hnone : ∃ e, Flagged source (Item.Flagged source) [] s.cursor.start e ∧ e ≤ s.cursor.start ∧
        (false = true ↔ ¬Unbroken source e s.cursor.start) :=
      ⟨_, .nil _, Nat.le_refl _, iff_of_false Bool.noConfusion fun h => h (unbroken_refl _)⟩
    cases l with
    | path => exact ⟨rfl, fun item hitem => absurd hitem List.not_mem_nil⟩
    | top | inside b => exact hnone
  · intro room l opened s c u c' t goesOn hn hu hnext hP h
    cases l with
    | path => exact path_turn_flags hstrict hn hmake hu (hnext rfl) hP h
    | top | inside b => exact turn_flags hstrict hn hmake hall hu Level.noConfusion hP h

end

end Scan

/-- **The line-break flags of a strict scan are exact**, at any depth: from behind a byte order mark
on, every value is flagged if and only if a line breaks between it and what stands before it at its
level, and so is the tail of every sequence, of the top up to the end of the source; the segments of a
path never are. -/
theorem transcode_flagged {source : Bytes} {symbols table : SymbolTable} {options : Options}
    {t : Transcoded} (hstrict : options.relaxed = false) (hnext : options.next = false)
    (honly : options.only = false) (h : transcode source symbols options = (.ok t, table)) :
    ∃ e, Flagged source (Item.Flagged source) t.values.items (byteOrderMarkLength source) e ∧
      (t.values.tailLine = true ↔ ¬Unbroken source e source.length) := by
  obtain ⟨s, hs, -, -⟩ := transcodeWith_eq_ok.1 h
  have hall : options.stopsAfterValue = false := by
    rw [Options.stopsAfterValue, hnext, honly]
    rfl
  obtain ⟨c, hc, hflags⟩ := (known_flags hstrict rfl hall _).scan hs
  rw [hc]
  exact hflags

/-- A block with a line break in it, and a path on the next line, with a comment and a line break
behind it. -/
theorem transcode_flagged_path :
    ∃ source t table, transcode source .initial .standard = (.ok t, table) ∧
      source = [0x5B, 0x0A, 0x31, 0x5D, 0x0A, 0x61, 0x2F, 0x32, 0x3B, 0x0A] ∧
      t.values.items.map (fun item => (item.newLine, item.span)) = [(false, ⟨0, 4⟩), (true, ⟨5, 8⟩)] ∧
      ∃ e, Flagged source (Item.Flagged source) t.values.items (byteOrderMarkLength source) e ∧
        (t.values.tailLine = true ↔ ¬Unbroken source e source.length) := by
  have hitems : ((transcode [0x5B, 0x0A, 0x31, 0x5D, 0x0A, 0x61, 0x2F, 0x32, 0x3B, 0x0A] .initial
      .standard).1.toOption.map fun t => t.values.items.map fun item => (item.newLine, item.span)) =
        some [(false, ⟨0, 4⟩), (true, ⟨5, 8⟩)] := by
    decide +kernel
  cases h : transcode [0x5B, 0x0A, 0x31, 0x5D, 0x0A, 0x61, 0x2F, 0x32, 0x3B, 0x0A] .initial
      .standard with
  | mk result table =>
    rw [h] at hitems
    cases result with
    | error failure => cases hitems
    | ok t => exact ⟨_, t, table, h, rfl, Option.some.inj hitems, transcode_flagged rfl rfl rfl h⟩

end RebolScan
