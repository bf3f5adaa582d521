import RebolScan.Proofs.Scan.Skipping

/-!
# What a strict round leaves behind

A round of a strict scan that goes on has moved to another place of the source, in front of the next
segment if the level is a path (`turn_place`). And **it has added one item at the most** (`turn_adds`),
which starts where the round did and ends no later than the place it leaves (`Adds.items`), so that what
a level collects from some round on starts no earlier than that round (`finish_adds`).

What all the rounds of a strict level keep is known of the level, however deep the levels inside it may
nest (`known_inside`): that is the one induction for whoever looks at the values of a strict scan.
-/

set_option autoImplicit false

namespace RebolScan.Scan

open Ascii Session

variable {setup : Setup} {nested : Nested} {source : Bytes} {level : Level} {opened : Site}
  {c c' : Collected} {s t : Session} {goesOn : Bool}

/-! ## Places -/

section

variable (hn : Tiler source nested) (hmake : setup.construct = .standard)

include hn hmake

/-- What an element comes to ends at a place of the source, and nothing behind it is pending. -/
theorem Performed.place {r : Element.Reading} {out : Outcome} (hs : s.At source)
    (hr : Element.Reads level s.cursor.rest r)
    (h : Performed setup nested r s.cursor.start s out t) :
    t.At source ∧ s.cursor.start < t.cursor.start ∧ t.cursor.stop = t.cursor.start := by
  have hvalue {v : Value} (h : Performed setup nested r s.cursor.start s (.value v) t) :
      t.At source ∧ s.cursor.start < t.cursor.start ∧ t.cursor.stop = t.cursor.start := by
    have hspelled := h.spelled hn hmake hs hr
    exact ⟨hspelled.place, hspelled.lt, hspelled.stop⟩
  cases h with
  | head he hpath => exact hvalue (.head he hpath)
  | consumed h =>
    obtain ⟨h1, h2⟩ := h.taken_bounds hr
    have ht := hs.advance h2
    have hlt : s.cursor.start < s.cursor.start + r.taken := Nat.lt_add_of_pos_right h1
    cases out with
    | value v => exact hvalue (.consumed h)
    | lineBreak | slot | comment =>
      generalize r.element = e at h
      cases h
      exact ⟨⟨ht.1, ht.2, ht.3⟩, hlt, rfl⟩

omit hn hmake in
/-- In front of a segment a path reads that and nothing else. -/
theorem reading_of_segment
    (hnext : StartsSegment s.cursor.rest ∨ byteAt s.cursor.rest 0 = parenOpen) :
    s.looked.cursor.rest = s.cursor.rest ∧ (s.reading .path).element.isSegment = true := by
  have hrest : s.looked.cursor.rest = s.cursor.rest := by
    rcases hnext with hstarts | hparen
    · exact looked_rest_of_startsSegment hstarts
    · exact (looked_of_not_space (by rw [hparen]; rfl)).2
  exact ⟨hrest, (s.reading_reads .path).of_segment (by rwa [hrest])⟩

/-- So it is in front of another one where the path goes on. -/
theorem segment_place (hstrict : setup.options.relaxed = false) (hs : s.At source)
    (hnext : StartsSegment s.cursor.rest ∨ byteAt s.cursor.rest 0 = parenOpen)
    (h : turn setup nested .path opened c s = .ok (c', true) t) :
    t.At source ∧ (StartsSegment t.cursor.rest ∨ byteAt t.cursor.rest 0 = parenOpen) := by
  have hread := s.reading_reads .path
  have hlooked := hs.looked
  obtain ⟨hrest, hsegment⟩ := reading_of_segment hnext
  rcases segment_strict hstrict hsegment h with
    ⟨hperform, -, -⟩ | ⟨v, u, hperform, -, hparted⟩
  · refine ⟨(hperform.place hn hmake hlooked hread).1, .inl (.inl ?_)⟩
    obtain ⟨he, rfl⟩ := hperform.of_slot
    obtain ⟨-, hslash, htaken⟩ := hread.of_slot he
    show isDelimiter (byteAt (s.looked.cursor.rest.drop (s.reading .path).taken) 0) = false
    rw [htaken, byteAt_drop, hrest]
    rw [hrest] at hslash
    rcases hnext with (hd | ⟨-, hd⟩) | hp
    · rw [hslash] at hd
      cases hd
    · exact hd
    · rw [hslash] at hp
      cases hp
  · obtain ⟨hu, -, hstop⟩ := hperform.place hn hmake hlooked hread
    obtain ⟨hgo, -⟩ | ⟨-, rfl, hslash, hsegment⟩ := hparted.settled hstop
    · cases hgo
    · refine ⟨hu.advance (lt_length_of_byteAt (by rw [hslash]; decide)), ?_⟩
      show StartsSegment (u.cursor.rest.drop 1) ∨ byteAt (u.cursor.rest.drop 1) 0 = parenOpen
      rw [byteAt_drop]
      exact hsegment.imp_left fun hd => .inl (by rwa [byteAt_drop])

/-- Another round of a strict level is at a place, and in a path it has a segment in front of it. -/
theorem turn_place (hstrict : setup.options.relaxed = false) (hs : s.At source)
    (hnext : level = .path → StartsSegment s.cursor.rest ∨ byteAt s.cursor.rest 0 = parenOpen)
    (h : turn setup nested level opened c s = .ok (c', true) t) :
    t.At source ∧
      (level = .path → StartsSegment t.cursor.rest ∨ byteAt t.cursor.rest 0 = parenOpen) := by
  by_cases hl : level = .path
  · subst hl
    obtain ⟨ht, hsegment⟩ := segment_place hn hmake hstrict hs (hnext rfl) h
    exact ⟨ht, fun _ => hsegment⟩
  · refine ⟨?_, fun hpath => absurd hpath hl⟩
    have hread := s.reading_reads level
    cases turn_strict hstrict h with
    | item out u _ hperform hsettle =>
      have hu := (hperform.place hn hmake hs.looked hread).1
      cases hsettle with
      | lineBreak | comment | slot => exact hu
      | value v h =>
        obtain ⟨-, rfl, -⟩ := afterItem_eq_ok hl h
        exact hu

end

/-! ## Items -/

/-- What a round from `s` to `t` adds to what a strict level has collected: nothing, a slot, or the value
of an element. The table is the one that the value left. -/
inductive Adds (setup : Setup) (nested : Nested) (level : Level) (s : Session) (c : Collected)
    (t : Session) : Collected → Prop
  | nothing {c' : Collected} (h : c'.items = c.items) (ht : t.symbols = s.symbols) :
      Adds setup nested level s c t c'
  | slot {c' : Collected}
      (h : c'.items = ⟨.none, c.newLine, ⟨s.looked.cursor.start, t.cursor.start⟩⟩ :: c.items)
      (ht : t.symbols = s.symbols) : Adds setup nested level s c t c'
  | value {c' : Collected} {v : Value} {u : Session}
      (hv : Performed setup nested (s.reading level) s.looked.cursor.start s.looked (.value v) u)
      (h : c'.items = ⟨v, c.newLine, ⟨s.looked.cursor.start, u.cursor.start⟩⟩ :: c.items)
      (hle : u.cursor.start ≤ t.cursor.start) (ht : t.symbols = u.symbols) :
      Adds setup nested level s c t c'

/-- **A round of a strict scan adds one item at the most.** -/
theorem turn_adds (hstrict : setup.options.relaxed = false)
    (h : turn setup nested level opened c s = .ok (c', goesOn) t) :
    Adds setup nested level s c t c' := by
  cases turn_strict hstrict h with
  | atEnd | left | closed => exact .nothing rfl rfl
  | item out u _ hperform hsettle =>
    cases hsettle with
    | lineBreak =>
      obtain ⟨-, rfl⟩ := hperform.of_lineBreak
      exact .nothing rfl rfl
    | comment =>
      obtain ⟨-, rfl⟩ := hperform.of_comment
      exact .nothing rfl rfl
    | slot =>
      obtain ⟨-, rfl⟩ := hperform.of_slot
      exact .slot rfl rfl
    | value v h =>
      have hle := ((afterItem_forward _ _ _ _).ok h).start
      obtain ⟨rfl, hsymbols⟩ := afterItem_strict hstrict h
      exact .value hperform rfl hle hsymbols

/-- It stands from the place where the round looked, and before the place that the round leaves. -/
theorem Adds.items (h : Adds setup nested level s c t c') :
    c'.items = c.items ∨ ∃ item : Item, c'.items = item :: c.items ∧
      item.span.start = s.looked.cursor.start ∧ item.span.stop ≤ t.cursor.start := by
  cases h with
  | nothing h => exact .inl h
  | slot h => exact .inr ⟨_, h, rfl, Nat.le_refl _⟩
  | value hv h hle => exact .inr ⟨_, h, rfl, hle⟩

/-- So nothing that has been collected ends behind the place that the round leaves. -/
theorem Adds.before (h : Adds setup nested level s c t c') (hle : s.cursor.start ≤ t.cursor.start)
    (hc : ∀ item ∈ c.items, item.span.stop ≤ s.cursor.start) :
    ∀ item ∈ c'.items, item.span.stop ≤ t.cursor.start := by
  intro item hitem
  rcases h.items with h | ⟨added, h, -, hstop⟩
  · exact Nat.le_trans (hc item (h ▸ hitem)) hle
  · rw [h] at hitem
    rcases List.mem_cons.1 hitem with rfl | hitem
    · exact hstop
    · exact Nat.le_trans (hc item hitem) hle

/-- What a level adds from a round on starts no earlier than that round. -/
theorem finish_adds (hf : ∀ l start, Forward (nested l start)) (hc : Consumes nested)
    (hstrict : setup.options.relaxed = false) {out : Collected}
    (h : finish setup nested level opened c s = .ok out t) :
    ∀ item ∈ out.items, item ∈ c.items ∨ s.cursor.start ≤ item.span.start := by
  have hstep {d d' : Collected} {u v : Session} {goesOn : Bool}
      (hd : (∀ item ∈ d.items, item ∈ c.items ∨ s.cursor.start ≤ item.span.start) ∧
        s.cursor.start ≤ u.cursor.start)
      (hturn : turn setup nested level opened d u = .ok (d', goesOn) v) :
      (∀ item ∈ d'.items, item ∈ c.items ∨ s.cursor.start ≤ item.span.start) ∧
        s.cursor.start ≤ v.cursor.start := by
    have hlooked := (before_looked u).start
    have hforward := ((turn_forward hf _ _ _).ok hturn).start
    refine ⟨fun item hitem => ?_, Nat.le_trans hd.2 hforward⟩
    rcases (turn_adds hstrict hturn).items with h | ⟨added, h, hstart, -⟩
    · exact hd.1 item (h ▸ hitem)
    · rw [h] at hitem
      rcases List.mem_cons.1 hitem with rfl | hitem
      · exact .inr (by rw [hstart]; exact Nat.le_trans hd.2 hlooked)
      · exact hd.1 item hitem
  refine (rounds_induct hf hc
    (P := fun d u => (∀ item ∈ d.items, item ∈ c.items ∨ s.cursor.start ≤ item.span.start) ∧
      s.cursor.start ≤ u.cursor.start)
    (Q := fun d u => (∀ item ∈ d.items, item ∈ c.items ∨ s.cursor.start ≤ item.span.start) ∧
      s.cursor.start ≤ u.cursor.start) (fun _ _ _ _ hd hturn => hstep hd hturn)
    (fun _ _ _ _ hd hturn => hstep hd hturn) (Nat.lt_succ_self _)
    ⟨fun item hitem => .inl hitem, Nat.le_refl _⟩ h).1

/-! ## Levels -/

/-- What is known of a level that has returned, be it the path that is next in `s` or what stands
between brackets behind `s`. -/
def Known (source : Bytes) (Q : Level → Session → Collected → Session → Prop) (nested : Nested) :
    Prop :=
  ∀ ⦃l start s t body⦄, s.At source → (l = .path → StartsSegment s.cursor.rest) →
    nested l start s = .ok body t → ∃ c, body = c.toBlock ∧ Q l s c t

/-- **What the rounds of a strict scan keep, its levels come to.** `P l s c u` is known of a level `l`
that was opened in `s` and has collected `c` in `u`, where it goes on, and `Q l s c t` of one that has
ended in `t`. -/
theorem known_inside {P Q : Level → Session → Collected → Session → Prop}
    (hmake : setup.construct = .standard) (hstrict : setup.options.relaxed = false)
    (hopen : ∀ {l s}, s.At source → P l s .empty s)
    (hturn : ∀ {room l opened s c u c' t goesOn},
      Known source Q (inside setup (source.length + 1) room) → u.At source →
      (l = .path → StartsSegment u.cursor.rest ∨ byteAt u.cursor.rest 0 = parenOpen) →
      P l s c u → turn setup (inside setup (source.length + 1) room) l opened c u = .ok (c', goesOn) t →
        (goesOn = true ∧ P l s c' t) ∨ (goesOn = false ∧ Q l s c' t))
    (room : Nat) : Known source Q (inside setup (source.length + 1) room) := by
  induction room with
  | zero =>
    intro l start s t body hs hstarts h
    cases h
  | succ room ih =>
    intro l start s t body hs hstarts h
    refine level_induct (P := fun c u => u.At source ∧
        (l = .path → StartsSegment u.cursor.rest ∨ byteAt u.cursor.rest 0 = parenOpen) ∧ P l s c u)
      (Q := fun body t => ∃ c, body = c.toBlock ∧ Q l s c t) hs h
      ⟨hs, fun hl => .inl (hstarts hl), hopen hs⟩ ?_ ?_
    · rintro opened c u c' v ⟨hu, hnext, hP⟩ hround
      obtain ⟨hv, hnext'⟩ :=
        turn_place (tiler_inside hmake hstrict source room) hmake hstrict hu hnext hround
      exact ⟨hv, hnext', ((hturn ih hu hnext hP hround).resolve_right fun h => Bool.noConfusion h.1).2⟩
    · rintro opened c u c' v ⟨hu, hnext, hP⟩ hround
      exact ⟨c', rfl, ((hturn ih hu hnext hP hround).resolve_left fun h => Bool.noConfusion h.1).2⟩

/-- What every round keeps, be it the last or not, holds of every level. -/
theorem known_always {P : Level → Session → Collected → Session → Prop}
    (hmake : setup.construct = .standard) (hstrict : setup.options.relaxed = false)
    (hopen : ∀ {l s}, s.At source → P l s .empty s)
    (hturn : ∀ {room l opened s c u c' t goesOn},
      Known source P (inside setup (source.length + 1) room) → u.At source → P l s c u →
      turn setup (inside setup (source.length + 1) room) l opened c u = .ok (c', goesOn) t →
        P l s c' t)
    (room : Nat) : Known source P (inside setup (source.length + 1) room) := by
  apply known_inside hmake hstrict hopen
  intro room l opened s c u c' t goesOn hn hu _ hP h
  have hkept := hturn hn hu hP h
  cases goesOn with
  | true => exact .inl ⟨rfl, hkept⟩
  | false => exact .inr ⟨rfl, hkept⟩

/-- The whole scan is a level too. -/
theorem Known.scan {Q : Level → Session → Collected → Session → Prop} {symbols : SymbolTable}
    {values : Block} (h : Known source Q (inside setup (source.length + 1) (setup.options.maxDepth + 1)))
    (hscan : setup.scan source (Session.start source symbols) = .ok values t) :
    ∃ c, values = c.toBlock ∧ Q .top (Session.start source symbols) c t :=
  @h .top 0 _ _ _ (at_start source symbols) Level.noConfusion hscan

end RebolScan.Scan
