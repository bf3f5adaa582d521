import RebolScan.Proofs.Scan.Run
import RebolScan.Proofs.Scan.Skipping
import RebolScan.Proofs.Value.Gaps

/-!
# Two scans abreast

Two texts start alike and end alike, and part in between in white space, of which each has its own
(`Respaced`). A scan of the one and a scan of the other are abreast while both have the same to read
before their texts part, and again when what is left is the same (`Abreast`). No test of the next byte
that is blind to white space tells them apart. And **unless the difference is next, they read the same
element**, or the first reads something across the place where the texts part (`Poised.reading`).
-/

set_option autoImplicit false

namespace RebolScan

open Ascii

/-! ## Texts that differ in their white space -/

/-- White space or a line break is next. -/
def Spaced (text : Bytes) : Prop :=
  isSpace (byteAt text 0) = true ∨ isLineBreak (byteAt text 0) = true

section

variable {g g' : Bytes}

theorem Spaced.ne_nil (h : Spaced g) : g ≠ [] := by
  rintro rfl
  rcases h with h | h <;> cases h

theorem Spaced.byteAt_append (h : Spaced g) (v : Bytes) : byteAt (g ++ v) 0 = byteAt g 0 :=
  byteAt_append_left (List.length_pos_iff.2 h.ne_nil) v

theorem Spaced.not_nul (h : Spaced g) : byteAt g 0 ≠ nul := by
  intro h0
  unfold Spaced at h
  rw [h0] at h
  rcases h with h | h <;> cases h

theorem Spaced.ended (h : Spaced g) : Ended g := by
  rcases h with h | h
  · have hclass : ByteClass.of (byteAt g 0) = .delimiter .space := eq_of_beq h
    rw [Ended, isAnySpace, hclass]
  · have hbyte : byteAt g 0 = lineFeed ∨ byteAt g 0 = carriageReturn := by
      simpa [isLineBreak] using h
    rw [Ended]
    rcases hbyte with hb | hb <;> rw [hb] <;> rfl

end

/-- `x` and `y` are one text behind white space, which is not the same in the two. -/
structure Respaced (x y : Bytes) : Prop where
  ended : Ended x
  ended' : Ended y
  not_nul : byteAt x 0 ≠ nul
  skips : ∃ z z' v, x = z ++ v ∧ y = z' ++ v ∧ Skipped z ∧ Skipped z' ∧ z ≠ [] ∧
    byteAt v 0 ≠ lineFeed

/-- Line feeds behind a gap are taken with it, since a line break at its end may reach for one. -/
theorem respaced_of_gaps {g g' : Bytes} (hg : Spaced g) (hg' : Spaced g') (hs : Skipped g)
    (hs' : Skipped g') (v : Bytes) : Respaced (g ++ v) (g' ++ v) where
  ended := by
    rw [Ended, hg.byteAt_append]
    exact hg.ended
  ended' := by
    rw [Ended, hg'.byteAt_append]
    exact hg'.ended
  not_nul := by
    rw [hg.byteAt_append]
    exact hg.not_nul
  skips := by
    have hfeeds := skipped_of_lineFeeds v
    have hsplit : v.takeWhile (· == lineFeed) ++ v.dropWhile (· == lineFeed) = v :=
      List.takeWhile_append_dropWhile
    refine ⟨g ++ v.takeWhile (· == lineFeed), g' ++ v.takeWhile (· == lineFeed),
      v.dropWhile (· == lineFeed), ?_, ?_, hs.append hfeeds, hs'.append hfeeds, ?_,
      byteAt_dropWhile_lineFeed v⟩
    · rw [List.append_assoc, hsplit]
    · rw [List.append_assoc, hsplit]
    · exact List.append_ne_nil_of_left_ne_nil hg.ne_nil _

namespace Session

variable {a : Nat} {x y w : Bytes} {s t : Session}

/-! ## Places of two scans -/

/-- Both scans have `w` in front of them, behind which their texts part, at `a` in that of `s`. -/
structure Nearing (a : Nat) (x y w : Bytes) (s t : Session) : Prop where
  rest : s.cursor.rest = w ++ x
  rest' : t.cursor.rest = w ++ y
  start : s.cursor.start + w.length = a
  symbols : t.symbols = s.symbols

/-- Both scans have the same text in front of them, and are behind where theirs parted. -/
structure Rejoined (a : Nat) (s t : Session) : Prop where
  rest : t.cursor.rest = s.cursor.rest
  start : a ≤ s.cursor.start
  symbols : t.symbols = s.symbols

/-- Two scans are in front of where their texts part, or behind it, with the same to come. -/
def Abreast (a : Nat) (x y : Bytes) (s t : Session) : Prop :=
  (∃ w, s.Nearing a x y w t) ∨ s.Rejoined a t

/-- What is next is not the white space in which the two texts differ. -/
def Poised (a : Nat) (x y : Bytes) (s t : Session) : Prop :=
  (∃ w, s.Nearing a x y w t ∧ isSpace (byteAt w 0) = false ∧ ¬Skipped w) ∨ s.Rejoined a t

theorem Poised.abreast (h : s.Poised a x y t) : s.Abreast a x y t :=
  h.imp_left fun ⟨w, hw, _⟩ => ⟨w, hw⟩

theorem Nearing.advance (h : s.Nearing a x y w t) {n : Nat} (hn : n ≤ w.length) :
    Nearing a x y (w.drop n) { s with cursor := s.cursor.advance n }
      { t with cursor := t.cursor.advance n } where
  rest := by
    show s.cursor.rest.drop n = _
    rw [h.rest, drop_append_left hn]
  rest' := by
    show t.cursor.rest.drop n = _
    rw [h.rest', drop_append_left hn]
  start := by
    have := h.start
    show s.cursor.start + n + (w.drop n).length = a
    rw [List.length_drop]
    omega
  symbols := h.symbols

theorem Rejoined.advance (h : s.Rejoined a t) (n : Nat) :
    Rejoined a { s with cursor := s.cursor.advance n }
      { t with cursor := t.cursor.advance n } where
  rest := congrArg (List.drop n) h.rest
  start := Nat.le_trans h.start (Nat.le_add_right _ n)
  symbols := h.symbols

/-- Lines and names have no part in where the scans are. -/
theorem Abreast.update {s' t' : Session} (h : s.Abreast a x y t)
    (hrest : s'.cursor.rest = s.cursor.rest) (hstart : s'.cursor.start = s.cursor.start)
    (hrest' : t'.cursor.rest = t.cursor.rest) (hsymbols : t'.symbols = s'.symbols) :
    s'.Abreast a x y t' := by
  rcases h with ⟨w, h⟩ | h
  · exact .inl ⟨w, hrest.trans h.rest, hrest'.trans h.rest', by rw [hstart]; exact h.start, hsymbols⟩
  · exact .inr ⟨hrest'.trans (h.rest.trans hrest.symm), by rw [hstart]; exact h.start, hsymbols⟩

theorem Abreast.symbols (h : s.Abreast a x y t) : t.symbols = s.symbols := by
  rcases h with ⟨w, h⟩ | h
  · exact h.symbols
  · exact h.symbols

section

variable (hxy : Respaced x y)

include hxy

/-- No test that is blind to white space tells the next bytes of the two apart. -/
theorem Abreast.byte (h : s.Abreast a x y t) {p : UInt8 → Bool} (hp : Blind p) :
    p (byteAt t.cursor.rest 0) = p (byteAt s.cursor.rest 0) := by
  rcases h with ⟨w, h⟩ | h
  · rw [h.rest, h.rest']
    exact hxy.ended.byteAt_swap hxy.ended' hp (Nat.zero_le _)
  · rw [h.rest]

/-- A byte that is no white space is the same for both. -/
theorem Abreast.byte_eq (h : s.Abreast a x y t) {b : UInt8} (hb : isAnySpace b = false) :
    byteAt t.cursor.rest 0 = b ↔ byteAt s.cursor.rest 0 = b := by
  have hbeq : (byteAt t.cursor.rest 0 == b) = (byteAt s.cursor.rest 0 == b) :=
    h.byte hxy (blind_beq hb)
  rw [← beq_iff_eq, hbeq, beq_iff_eq]

theorem Abreast.advance_one (h : s.Abreast a x y t)
    (hb : isAnySpace (byteAt s.cursor.rest 0) = false) :
    Abreast a x y { s with cursor := s.cursor.advance 1 }
      { t with cursor := t.cursor.advance 1 } := by
  rcases h with ⟨w, h⟩ | h
  · refine .inl ⟨w.drop 1, h.advance (List.length_pos_iff.2 ?_)⟩
    rintro rfl
    have hx : isAnySpace (byteAt x 0) = true := hxy.ended
    rw [h.rest, List.nil_append, hx] at hb
    cases hb
  · exact .inr (h.advance 1)

end

/-! ## Looking -/

theorem Nearing.looked (h : s.Nearing a x y w t) (hw : ¬Skipped w) :
    s.looked.Poised a x y t.looked := by
  have hsplit : w.takeWhile isSpace ++ w.dropWhile isSpace = w := List.takeWhile_append_dropWhile
  have hskip : ¬Skipped (w.dropWhile isSpace) := fun hs =>
    hw (hsplit ▸ (skipped_spaces w).append hs)
  have hne : w.dropWhile isSpace ≠ [] := fun h0 => hskip (h0 ▸ .nil)
  have hdrop (z : Bytes) : (w ++ z).dropWhile isSpace = w.dropWhile isSpace ++ z := by
    rw [List.dropWhile_append, if_neg (by rwa [List.isEmpty_iff])]
  have hrest : s.looked.cursor.rest = w.dropWhile isSpace ++ x := by
    rw [looked_rest, h.rest, hdrop]
  refine .inl ⟨w.dropWhile isSpace, ⟨hrest, ?_, ?_, h.symbols⟩, ?_, hskip⟩
  · rw [looked_rest, h.rest', hdrop]
  · have htake : ((w ++ x).takeWhile isSpace).length + (w.dropWhile isSpace ++ x).length =
        (w ++ x).length := by
      rw [← hdrop, ← List.length_append, List.takeWhile_append_dropWhile]
    have hstart := h.start
    show s.cursor.start + (s.cursor.rest.takeWhile isSpace).length + _ = a
    rw [h.rest]
    rw [List.length_append, List.length_append] at htake
    omega
  · have hspace := looked_not_space s
    rwa [hrest, byteAt_append_left (List.length_pos_iff.2 hne)] at hspace

theorem Rejoined.looked (h : s.Rejoined a t) : s.looked.Rejoined a t.looked where
  rest := by rw [looked_rest, looked_rest, h.rest]
  start := Nat.le_trans h.start (before_looked s).start
  symbols := h.symbols

/-- **Both scans read the same**, unless the first reads something flat across the place where the
texts part, or something invalid. -/
theorem Poised.reading (h : s.Poised a x y t) (hxy : Respaced x y) (level : Level)
    {r r' : Element.Reading} (hr : Element.of level s.cursor.rest (Lexeme.ofFront s.cursor.rest) = r)
    (hr' : Element.of level t.cursor.rest (Lexeme.ofFront t.cursor.rest) = r') :
    (∃ kind length, r.element = .invalid kind length) ∨
      (r.element.isFlat = true ∧ s.cursor.start < a ∧ a < s.cursor.start + r.taken) ∨
      (r' = r ∧ Abreast a x y { s with cursor := s.cursor.advance r.taken }
        { t with cursor := t.cursor.advance r.taken }) := by
  rcases h with ⟨w, hw, hspace, hskip⟩ | h
  · have hkept := Element.of_kept level hxy.ended hxy.ended' hxy.not_nul hspace hskip
    rw [← hw.rest, ← hw.rest', hr, hr'] at hkept
    have hne : w ≠ [] := fun h0 => hskip (h0 ▸ .nil)
    have hpos := List.length_pos_iff.2 hne
    have hstart := hw.start
    cases hkept with
    | invalid => exact .inl ⟨_, _, rfl⟩
    | same hle => exact .inr (.inr ⟨rfl, .inl ⟨_, hw.advance hle⟩⟩)
    | past he hlt => exact .inr (.inl ⟨he, by omega, by dsimp only; omega⟩)
  · rw [h.rest, hr] at hr'
    exact .inr (.inr ⟨hr'.symm, .inr (h.advance r.taken)⟩)

end Session

end RebolScan
