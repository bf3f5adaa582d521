import RebolScan.Proofs.Token.Layout

/-!
# The names that words have

A word is cut by its first byte and the marks of its run, in many places: behind a mark, in front of
a tag, as an operator, as a row of slashes. **Wherever it is cut, its name is of one of three forms**
(`ofFront_names`): slashes, one of the eight operators that start with an angle bracket, or a loose
name, in which no delimiter stands and no special but six, three of which may not be in front.

What is known of a run is that every special behind its first byte is marked (`Front.Covers`), so a
mark that is not there says that the special is not there either.
-/

set_option autoImplicit false

namespace RebolScan

open Ascii

/-- The specials that a name may hold. -/
def nameSpecials : List Special := [.tick, .lesser, .greater, .plus, .minus, .period]

/-- The specials that a name may start with. -/
def firstSpecials : List Special := [.plus, .minus, .period]

/-- The operators that start with an angle bracket. -/
def angleOperators : List Bytes :=
  [[lesser], [greater], [lesser, lesser], [lesser, greater], [lesser, equal], [greater, lesser],
   [greater, greater], [greater, equal]]

/-- A name that a word may have. -/
inductive IsWordName : Bytes → Prop
  | slashes (n : Nat) : IsWordName (List.replicate (n + 1) slash)
  | operator {w : Bytes} (h : w ∈ angleOperators) : IsWordName w
  | loose {b : UInt8} {w : Bytes} (hb : isSolid firstSpecials b = true) (hw : Solid nameSpecials w) :
      IsWordName (b :: w)

/-- What stands from `start` to `stop` is such a name, if anything stands there. -/
def NameAt (text : Bytes) (start stop : Nat) : Prop :=
  start < stop → IsWordName (between text start stop)

/-- A well-formed lexeme that has a name has one that a word may have, behind its mark and in front of
a colon that it ends with. -/
def Lexeme.Names (text : Bytes) (l : Lexeme) : Prop :=
  l.malformed = false → match l.kind with
    | .word => NameAt text 0 l.length
    | .setWord => NameAt text 0 (l.length - 1)
    | .getWord => byteAt text 0 = colon ∧
        NameAt text 1 (if byteAt text (l.length - 1) == colon then l.length - 1 else l.length)
    | .litWord => byteAt text 0 = tick ∧
        NameAt text 1 (if byteAt text (l.length - 1) == colon then l.length - 1 else l.length)
    | .refinement => byteAt text 0 = slash ∧ NameAt text 1 l.length
    | _ => True

theorem mem_between {text : Bytes} {start stop : Nat} {b : UInt8} (h : b ∈ between text start stop) :
    ∃ i, start ≤ i ∧ i < stop ∧ byteAt text i = b := by
  obtain ⟨i, hi, rfl⟩ := List.mem_iff_getElem.1 h
  have hlt : i < stop - start ∧ i < text.length - start := by
    simpa [between, Nat.lt_min] using hi
  have hget : start + i < text.length := by omega
  refine ⟨start + i, Nat.le_add_right _ _, by omega, ?_⟩
  rw [byteAt_eq_getElem hget]
  simp [between]

/-- A loose name, byte by byte. -/
theorem nameAt_of_solid {text : Bytes} {start stop : Nat}
    (hfirst : start < stop → isSolid firstSpecials (byteAt text start) = true)
    (h : ∀ i, start < i → i < stop → isSolid nameSpecials (byteAt text i) = true) :
    NameAt text start stop := by
  intro hlt
  have hb := hfirst hlt
  rw [between_cons hlt (lt_length_of_not_delimiter (not_delimiter_of_isSolid hb))]
  refine .loose hb fun b hmem => ?_
  obtain ⟨i, h1, h2, rfl⟩ := mem_between hmem
  exact h i h1 h2

/-- An operator of one byte or two. -/
theorem nameAt_operator {text : Bytes} {start stop : Nat}
    (hfirst : byteAt text start = lesser ∨ byteAt text start = greater)
    (hstop : stop ≤ start + 1 ∨ (stop ≤ start + 2 ∧ (byteAt text (start + 1) = lesser ∨
      byteAt text (start + 1) = greater ∨ byteAt text (start + 1) = equal))) :
    NameAt text start stop := by
  intro hlt
  have hlen : start < text.length := by
    apply lt_length_of_not_delimiter
    rcases hfirst with h | h <;> rw [h] <;> rfl
  rw [between_cons hlt hlen]
  by_cases hone : stop = start + 1
  · rw [hone, between_self]
    apply IsWordName.operator
    rcases hfirst with h | h <;> simp [h, angleOperators]
  · obtain ⟨hle, hsecond⟩ := hstop.resolve_left (by omega)
    obtain rfl : stop = start + 2 := by omega
    have hlen : start + 1 < text.length := by
      apply lt_length_of_not_delimiter
      rcases hsecond with h | h | h <;> rw [h] <;> rfl
    rw [between_cons (Nat.lt_succ_self _) hlen, between_self]
    apply IsWordName.operator
    rcases hfirst with h | h <;> rcases hsecond with h' | h' | h' <;> simp [h, h', angleOperators]

/-! ## What a front says of its run -/

/-- The run is in front of the text, no delimiter stands in it from `after` on, and behind `after`
every special in it is marked. -/
structure Front.Covers (f : Front) (after : Nat) : Prop where
  inside : ∀ i, after ≤ i → i < f.stop → isDelimiter (f.byte i) = false
  marked : ∀ i s, after < i → i < f.stop → ByteClass.of (f.byte i) = .special s → f.has s = true
  found : ∀ i, i < f.stop → byteAt f.run i = f.byte i

namespace Front

theorem byteAt_runOf {text : Bytes} {i : Nat} (h : i < (runOf text).length) :
    byteAt (runOf text) i = byteAt text i := by
  obtain ⟨rest, hrest⟩ := List.takeWhile_prefix (l := text) fun b => !isDelimiter b
  have happend : runOf text ++ rest = text := hrest
  have hleft := byteAt_append_left h rest
  rw [happend] at hleft
  exact hleft.symm

/-- A special in the run is marked, if it is not the first byte. -/
theorem covers_of (text : Bytes) : (Front.of text).Covers 0 where
  inside i _ hi := by
    have hmem : byteAt (runOf text) i ∈ runOf text := byteAt_mem hi
    have hstop := List.all_eq_true.1 List.all_takeWhile _ hmem
    show isDelimiter (byteAt text i) = false
    rw [← byteAt_runOf hi]
    simpa using hstop
  marked i s hpos hi hclass := by
    have hi : i < (runOf text).length := hi
    have hbyte := byteAt_runOf hi
    show (Marks.ofRun (runOf text)).has s = true
    generalize runOf text = run at hi hbyte
    obtain ⟨j, rfl⟩ := Nat.exists_eq_succ_of_ne_zero (Nat.ne_of_gt hpos)
    cases run with
    | nil => cases hi
    | cons b run =>
      rw [Marks.has_ofRun, List.any_eq_true]
      refine ⟨byteAt run j, byteAt_mem (Nat.lt_of_succ_lt_succ hi), ?_⟩
      rw [byteAt_cons_succ] at hbyte
      rw [hbyte]
      exact decide_eq_true hclass
  found _ hi := byteAt_runOf hi

variable {f : Front} {after start i : Nat} {b : UInt8}

/-- One more mark changes nothing. -/
theorem Covers.insert (h : f.Covers after) (s : Special) :
    Covers { f with marks := f.marks.insert s } after where
  inside := h.inside
  found := h.found
  marked i t hpos hi hclass := by
    show (f.marks.insert s).has t = true
    rw [Marks.has_insert, Bool.or_eq_true]
    exact .inl (h.marked i t hpos hi hclass)

/-- A byte is not found before the first place where it is. -/
theorem Covers.not_found (h : f.Covers after) (hstart : start ≤ i)
    (hi : i < (f.find? start b).getD f.stop) (hstop : i < f.stop) : f.byte i ≠ b := by
  rw [← h.found i hstop]
  intro hb
  have hget : (f.run.drop start)[i - start]? = some b := by
    have hlt : i < f.run.length := hstop
    rw [List.getElem?_drop, Nat.add_sub_cancel' hstart, List.getElem?_eq_getElem hlt, ← hb,
      byteAt_eq_getElem hlt]
  cases hfind : (f.run.drop start).idxOf? b with
  | none =>
    rw [List.idxOf?_eq_none_iff] at hfind
    exact hfind (List.mem_of_getElem? hget)
  | some j =>
    rw [find?, hfind] at hi
    have hij : i - start < j := by
      simp only [Option.map_some, Option.getD_some] at hi
      omega
    obtain ⟨hj, hbj, hfirst⟩ := List.idxOf?_eq_some_iff.1 hfind
    have hlt := Nat.lt_trans hij hj
    apply hfirst (i - start) hij
    rw [List.getElem?_eq_getElem hlt] at hget
    simpa using Option.some.inj hget

/-- **Where no mark is against it, a byte is one of a name.** A colon may have been struck from the
marks. -/
theorem Covers.solid (h : f.Covers after) {m : Marks} (hm : m.hasAny Marks.illegalInWord = false)
    (hsub : ∀ s, s ≠ .colon → f.has s = true → m.has s = true) (hpos : after < i) (hi : i < f.stop)
    (hcolon : f.byte i = colon → m.has .colon = true) : isSolid nameSpecials (f.byte i) = true := by
  have hinside := h.inside i (Nat.le_of_lt hpos) hi
  unfold isDelimiter at hinside
  unfold isSolid
  split
  · rename_i d hd
    rw [hd] at hinside
    cases hinside
  · rename_i s hs
    have hhas : m.has s = true := by
      by_cases hc : s = .colon
      · subst hc
        exact hcolon (eq_byte_of_class hs)
      · exact hsub s hc (h.marked i s hpos hi hs)
    have hlegal : s ∉ Marks.illegalInWord := by
      intro hmem
      rw [Marks.hasAny, List.any_eq_false] at hm
      exact hm s hmem hhas
    cases s with
    | tick | lesser | greater | plus | minus | period => rfl
    | _ => simp [Marks.illegalInWord] at hlegal
  · rfl

end Front

namespace Lexeme

/-- The kinds of lexeme that have a name. -/
def hasName : TokenKind → Bool
  | .word | .setWord | .getWord | .litWord | .refinement => true
  | _ => false

variable {f : Front} {kind : TokenKind} {start n : Nat} {text : Bytes}

theorem names_bad : Names text (bad kind n) := fun h => Bool.noConfusion h

theorem names_other {l : Lexeme} (h : hasName l.kind = false) : Names text l := by
  intro _
  split
  all_goals first
    | trivial
    | (rename_i hk; rw [hk] at h; cases h)

/-! ## Words -/

/-- A word that is marked for one takes its run, or what is in front of a tag. -/
theorem marked_cases (kind : TokenKind) (start : Nat) (f : Front) (m : Marks) :
    (wordTail.marked kind start f m).malformed = true ∨
      hasName (wordTail.marked kind start f m).kind = false ∨
        (m.hasAny Marks.illegalInWord = false ∧
          ∃ e, e ≤ f.stop ∧ wordTail.marked kind start f m = good kind e) := by
  unfold wordTail.marked
  split
  · exact .inr (.inl rfl)
  · split
    · exact .inr (.inl rfl)
    · split
      · exact .inl rfl
      · rename_i hlegal
        have hlegal : m.hasAny Marks.illegalInWord = false := by simpa using hlegal
        split
        · dsimp only
          split
          · exact .inl rfl
          · refine .inr (.inr ⟨hlegal, _, ?_, rfl⟩)
            cases hfind : f.find? start lesser with
            | none => exact Nat.le_refl _
            | some i => exact Nat.le_of_lt (Front.find?_bounds hfind).2
        · split
          · exact .inl rfl
          · exact .inr (.inr ⟨hlegal, _, Nat.le_refl _, rfl⟩)

/-- Where no colon is marked, a word is a name from `after` on. -/
theorem nameAt_marked {after e : Nat} (hf : f.Covers after)
    (hfirst : isSolid firstSpecials (f.byte after) = true)
    (hlegal : f.marks.hasAny Marks.illegalInWord = false) (he : e ≤ f.stop) :
    NameAt f.text after e := by
  refine nameAt_of_solid (fun _ => hfirst) fun i hpos hi => ?_
  have hstop := Nat.lt_of_lt_of_le hi he
  refine hf.solid hlegal (fun _ _ h => h) hpos hstop fun hc => ?_
  exact hf.marked i .colon hpos hstop (by rw [hc]; rfl)

theorem names_wordTail_word (hf : f.Covers 0) (hfirst : isSolid firstSpecials (f.byte 0) = true)
    (hstart : start ≤ 1) : Names f.text (wordTail .word start f) := by
  unfold wordTail
  split
  · simp only [beq_self_eq_true, if_true]
    split
    · rename_i hafter
      split
      · exact names_bad
      · rename_i hlegal
        simp only [Bool.and_eq_true] at hafter
        -- The colon that was found first ends the run.
        have hlast : f.stop ≤ (f.find? start colon).getD f.stop + 1 := by
          refine Nat.le_of_not_lt fun hlt => ?_
          rw [hf.inside _ (Nat.zero_le _) hlt] at hafter
          cases hafter.2
        intro _
        show NameAt f.text 0 (f.stop - 1)
        refine nameAt_of_solid (fun _ => hfirst) fun i hpos hi => ?_
        have hstop : i < f.stop := by omega
        have hbefore : i < (f.find? start colon).getD f.stop := by omega
        refine hf.solid (by simpa using hlegal) (fun s hs h => ?_) hpos hstop fun hc => ?_
        · rw [Marks.has_erase, decide_eq_true hs.symm, Bool.and_true]
          exact h
        · exact absurd hc (hf.not_found (Nat.le_trans hstart hpos) hbefore hstop)
    · exact names_other rfl
  · rcases marked_cases .word start f f.marks with h | h | ⟨hlegal, e, he, h⟩
    · intro hw
      rw [h] at hw
      cases hw
    · exact names_other h
    · rw [h]
      exact fun _ => nameAt_marked hf hfirst hlegal he

theorem names_wordTail_refinement (hf : f.Covers 1) (hslash : byteAt f.text 0 = slash)
    (hfirst : isSolid firstSpecials (f.byte 1) = true) :
    Names f.text (wordTail .refinement start f) := by
  unfold wordTail
  split
  · exact names_bad
  · rcases marked_cases .refinement start f f.marks with h | h | ⟨hlegal, e, he, h⟩
    · intro hw
      rw [h] at hw
      cases hw
    · exact names_other h
    · rw [h]
      exact fun _ => ⟨hslash, nameAt_marked hf hfirst hlegal he⟩

/-! ## Words behind a mark -/

/-- Three specials may stand in a name and not in front of it. -/
theorem isSolid_first {b : UInt8} (h : isSolid nameSpecials b = true) (h1 : b ≠ tick)
    (h2 : b ≠ lesser) (h3 : b ≠ greater) : isSolid firstSpecials b = true := by
  unfold isSolid at h ⊢
  cases hc : ByteClass.of b with
  | delimiter d =>
    rw [hc] at h
    cases h
  | special s =>
    have hb := eq_byte_of_class hc
    rw [hc] at h
    cases s with
    | tick => exact absurd hb h1
    | lesser => exact absurd hb h2
    | greater => exact absurd hb h3
    | plus | minus | period => rfl
    | _ => cases h
  | word | number => rfl

/-- The kind of word that a mark in front makes. -/
def marks : TokenKind → UInt8 → Prop
  | .getWord, b => b = colon
  | .litWord, b => b = tick
  | _, _ => False

theorem names_good_marked {e : Nat} (hk : marks kind (byteAt text 0))
    (h : NameAt text 1 (if byteAt text (e - 1) == colon then e - 1 else e)) :
    Names text (good kind e) := by
  intro _
  cases kind with
  | getWord => exact ⟨hk, h⟩
  | litWord => exact ⟨hk, h⟩
  | _ => cases hk

/-- Behind a mark a colon may end the run, and then it ends the name. -/
theorem nameAt_behind_mark {m : Marks} {e : Nat} (hf : f.Covers 0)
    (hfirst : 1 < f.stop → f.byte 1 ≠ tick ∧ f.byte 1 ≠ lesser ∧ f.byte 1 ≠ greater)
    (hlegal : m.hasAny Marks.illegalInWord = false)
    (hsub : ∀ s, s ≠ .colon → f.has s = true → m.has s = true)
    (hcolon : ∀ i, 0 < i → i + 1 < f.stop → f.byte i ≠ colon) (he : e ≤ f.stop) :
    NameAt f.text 1 (if byteAt f.text (e - 1) == colon then e - 1 else e) := by
  have hsolid (i : Nat) (hpos : 0 < i)
      (hi : i < if byteAt f.text (e - 1) == colon then e - 1 else e) :
      i < f.stop ∧ isSolid nameSpecials (f.byte i) = true := by
    have hne : i < f.stop ∧ f.byte i ≠ colon := by
      split at hi
      · exact ⟨by omega, hcolon i hpos (by omega)⟩
      · rename_i hlast
        refine ⟨by omega, fun hc => ?_⟩
        by_cases hend : i + 1 = e
        · subst hend
          exact hlast (beq_iff_eq.2 hc)
        · exact hcolon i hpos (by omega) hc
    exact ⟨hne.1, hf.solid hlegal hsub hpos hne.1 fun hc => absurd hc hne.2⟩
  refine nameAt_of_solid (fun hlt => ?_) fun i hpos hi => (hsolid i (Nat.lt_of_succ_lt hpos) hi).2
  obtain ⟨hstop, hnames⟩ := hsolid 1 Nat.zero_lt_one hlt
  obtain ⟨h1, h2, h3⟩ := hfirst hstop
  exact isSolid_first hnames h1 h2 h3

theorem names_wordTail_marked (hf : f.Covers 0) (hk : marks kind (byteAt f.text 0))
    (hfirst : f.byte 1 ≠ tick ∧ f.byte 1 ≠ lesser ∧ f.byte 1 ≠ greater) (hstart : start ≤ 1) :
    Names f.text (wordTail kind start f) := by
  have hword : (kind == .word) = false := by
    cases kind with
    | word => cases hk
    | _ => rfl
  have hend {m : Marks} (hsub : ∀ s, s ≠ .colon → f.has s = true → m.has s = true)
      (hcolon : ∀ i, 0 < i → i + 1 < f.stop → f.byte i ≠ colon) :
      Names f.text (wordTail.marked kind start f m) := by
    rcases marked_cases kind start f m with h | h | ⟨hlegal, e, he, h⟩
    · intro hw
      rw [h] at hw
      cases hw
    · exact names_other h
    · rw [h]
      exact names_good_marked hk (nameAt_behind_mark hf (fun _ => hfirst) hlegal hsub hcolon he)
  unfold wordTail
  split
  · rw [hword]
    split
    · rename_i h
      cases h
    · split
      · exact names_bad
      · rename_i hfind
        simp only [Bool.or_eq_true, bne_iff_ne, ne_eq, not_or, Decidable.not_not] at hfind
        refine hend (fun s hs h => ?_) fun i hpos hi => ?_
        · rw [Marks.has_erase, decide_eq_true hs.symm, Bool.and_true]
          exact h
        · have hbefore : i < (f.find? start colon).getD f.stop := by
            rw [hfind.2, Option.getD_some]
            omega
          exact hf.not_found (by omega) hbefore (by omega)
  · rename_i hnone
    refine hend (fun _ _ h => h) fun i hpos hi hc => hnone ?_
    exact hf.marked i .colon hpos (by omega) (by rw [hc]; rfl)

/-- Where only word bytes are marked, nothing is illegal. -/
theorem legal_of_isOnlyWord {m : Marks} (h : m.isOnlyWord = true) :
    m.hasAny Marks.illegalInWord = false := by
  rw [Marks.hasAny, List.any_eq_false]
  intro s _ hs
  rw [Marks.has_of_isOnlyWord h] at hs
  cases hs

/-- Word bytes behind a mark. -/
theorem names_onlyWord (hf : f.Covers 0) (hk : marks kind (byteAt f.text 0))
    (honly : f.marks.isOnlyWord = true) : Names f.text (good kind f.stop) := by
  have hnone {i : Nat} {s : Special} (hpos : 0 < i) (hi : i < f.stop) :
      ByteClass.of (f.byte i) ≠ .special s := by
    intro hclass
    have hhas := hf.marked i s hpos hi hclass
    rw [Front.has, Marks.has_of_isOnlyWord honly] at hhas
    cases hhas
  refine names_good_marked hk (nameAt_behind_mark hf (fun hi => ?_) (legal_of_isOnlyWord honly)
    (fun _ _ h => h) (fun i hpos hi hc => ?_) (Nat.le_refl _))
  · refine ⟨fun h => ?_, fun h => ?_, fun h => ?_⟩
    · exact hnone (s := .tick) Nat.zero_lt_one hi (by rw [h]; rfl)
    · exact hnone (s := .lesser) Nat.zero_lt_one hi (by rw [h]; rfl)
    · exact hnone (s := .greater) Nat.zero_lt_one hi (by rw [h]; rfl)
  · exact hnone (s := .colon) hpos (Nat.lt_of_succ_lt hi) (by rw [hc]; rfl)

theorem names_operatorWord (hk : marks kind (byteAt f.text 0))
    (h1 : f.byte 1 = lesser ∨ f.byte 1 = greater) : Names f.text (operatorWord kind f) := by
  -- The name is one byte or two, and none of them is a colon.
  have hname {last : Nat} (hcolon : f.byte last ≠ colon)
      (hend : last ≤ 1 ∨ (last ≤ 2 ∧ (f.byte 2 = lesser ∨ f.byte 2 = greater ∨ f.byte 2 = equal))) :
      Names f.text (good kind (last + 1)) := by
    refine names_good_marked hk ?_
    have hne : ¬(byteAt f.text last == colon) = true := fun h => hcolon (eq_of_beq h)
    rw [Nat.add_sub_cancel, if_neg hne]
    exact nameAt_operator h1 (hend.imp Nat.succ_le_succ fun h => ⟨Nat.succ_le_succ h.1, h.2⟩)
  unfold operatorWord
  dsimp only
  split
  · rename_i hsecond
    simp only [Bool.or_eq_true, beq_iff_eq] at hsecond
    split
    · refine hname ?_ (.inr ⟨Nat.le_refl _, or_assoc.1 hsecond⟩)
      rcases hsecond with (h | h) | h <;> rw [h] <;> exact of_decide_eq_true rfl
    · exact names_bad
  · split
    · refine hname ?_ (.inl (Nat.le_refl _))
      rcases h1 with h | h <;> rw [h] <;> exact of_decide_eq_true rfl
    · exact names_bad

/-- What a mark makes of the bytes behind it that are not all of a word. -/
theorem names_mark (hf : f.Covers 0) (hk : marks kind (byteAt f.text 0)) (hstart : start ≤ 1) :
    Names f.text (if f.byte 1 == tick then bad .word f.stop
      else if f.byte 1 == lesser || f.byte 1 == greater then operatorWord kind f
      else wordTail kind start f) := by
  split
  · exact names_bad
  · split
    · rename_i h
      simp only [Bool.or_eq_true, beq_iff_eq] at h
      exact names_operatorWord hk h
    · rename_i htick hangle
      simp only [Bool.or_eq_true, beq_iff_eq, not_or] at htick hangle
      exact names_wordTail_marked hf hk ⟨htick, hangle.1, hangle.2⟩ hstart

/-! ## Slashes and angle brackets -/

/-- Behind a slash the run is that of what follows it. -/
theorem covers_slash (rest : Bytes) : Front.Covers
    ⟨slash :: rest, slash :: (Front.of rest).run, (Front.of rest).marks⟩ 1 where
  inside i hpos hi := by
    obtain ⟨j, rfl⟩ := Nat.exists_eq_succ_of_ne_zero (Nat.ne_of_gt hpos)
    exact (Front.covers_of rest).inside j (Nat.zero_le _) (Nat.lt_of_succ_lt_succ hi)
  marked i s hpos hi hclass := by
    obtain ⟨j, rfl⟩ := Nat.exists_eq_succ_of_ne_zero (Nat.ne_of_gt (Nat.lt_of_succ_lt hpos))
    exact (Front.covers_of rest).marked j s (Nat.lt_of_succ_lt_succ hpos)
      (Nat.lt_of_succ_lt_succ hi) hclass
  found i hi := by
    cases i with
    | zero => rfl
    | succ i => exact (Front.covers_of rest).found i (Nat.lt_of_succ_lt_succ hi)

theorem names_slashes (rest : Bytes) : Names (slash :: rest) (slashes (slash :: rest)) := by
  unfold slashes
  dsimp only
  split
  · rename_i hnext
    split
    · rename_i hone
      have hone := eq_of_beq hone
      rw [hone] at hnext
      have hfirst : isSolid firstSpecials (byteAt (slash :: rest) 1) = true := by
        simp only [Bool.or_eq_true, beq_iff_eq] at hnext
        rcases hnext with ((h | h) | h) | h
        · exact isSolid_of_isWordOrNumber h
        all_goals rw [h]; rfl
      split
      · rename_i honly
        refine fun _ => ⟨rfl, ?_⟩
        show NameAt (slash :: rest) 1 (1 + (Front.of rest).stop)
        rw [Nat.add_comm]
        exact nameAt_marked (covers_slash rest) hfirst (legal_of_isOnlyWord honly) (Nat.le_refl _)
      · exact names_wordTail_refinement (covers_slash rest) rfl hfirst
    · exact names_bad
  · split
    · exact names_bad
    · intro _ hpos
      show IsWordName (between (slash :: rest) 0 (List.takeWhile (· == slash) (slash :: rest)).length)
      have hpre := List.prefix_iff_eq_take.1 (List.takeWhile_prefix (l := slash :: rest) (· == slash))
      have hall : List.takeWhile (· == slash) (slash :: rest) =
          List.replicate (List.takeWhile (· == slash) (slash :: rest)).length slash := by
        refine List.eq_replicate_iff.2 ⟨rfl, fun b hb => ?_⟩
        simpa using List.all_eq_true.1 List.all_takeWhile b hb
      rw [between, List.drop_zero, Nat.sub_zero, ← hpre, hall, List.takeWhile_cons_of_pos rfl]
      exact .slashes _

theorem names_angle {s : Special} (hf : f.Covers 0) (h0 : f.byte 0 = lesser ∨ f.byte 0 = greater) :
    Names f.text (angle s f) := by
  -- A delimiter ends the run.
  have hends {i : Nat} (h : isDelimiter (f.byte i) = true) : f.stop ≤ i := by
    refine Nat.le_of_not_lt fun hlt => ?_
    rw [hf.inside i (Nat.zero_le _) hlt] at h
    cases h
  have hone (h : isDelimiter (f.byte 1) = true) : Names f.text (good .word f.stop) :=
    fun _ => nameAt_operator h0 (.inl (hends h))
  have htwo (h : f.byte 1 = lesser ∨ f.byte 1 = greater ∨ f.byte 1 = equal) :
      Names f.text (if isDelimiter (f.byte 2) then good .word f.stop else bad .word f.stop) := by
    split
    · rename_i hd
      exact fun _ => nameAt_operator h0 (.inr ⟨hends hd, h⟩)
    · exact names_bad
  unfold angle
  dsimp only
  split
  · rename_i h
    simp only [Bool.and_eq_true] at h
    exact hone h.2
  · split
    · rename_i h
      simp only [Bool.and_eq_true, beq_iff_eq] at h
      exact htwo (.inr (.inl h.2))
    · split
      · rename_i h
        simp only [Bool.or_eq_true, beq_iff_eq] at h
        rcases h with h | h
        · exact hone (isDelimiter_of_isAnySpace h)
        · exact hone (by rw [h]; rfl)
      · split
        · rename_i h
          simp only [Bool.or_eq_true, Bool.and_eq_true, beq_iff_eq] at h
          rcases h with (h | h) | h
          · exact htwo (.inl h.2)
          · exact htwo (.inr (.inr h))
          · exact htwo (.inr (.inl h))
        · split
          · exact names_bad
          · split
            · exact names_other rfl
            · exact names_other rfl

/-! ## Numbers -/

theorem hasName_poundForm : hasName (poundForm start f).kind = false := by
  unfold poundForm
  dsimp only
  split
  · rfl
  · split
    · rw [character_kind]
      rfl
    · split
      · rw [quoted_kind]
        rfl
      · split <;> rfl

theorem hasName_numberBySign : hasName (numberBySign start f).kind = false := by
  unfold numberBySign
  dsimp only
  repeat' split
  all_goals rfl

/-- What starts like a number is never a word. -/
theorem hasName_number : hasName (number start f).kind = false := by
  unfold number
  dsimp only
  repeat' split
  all_goals first
    | exact hasName_poundForm
    | exact hasName_numberBySign
    | rfl

theorem names_radixPoint {s : Special} (hf : f.Covers 0) (hstart : start ≤ 1)
    (hfirst : s = .period → isSolid firstSpecials (f.byte 0) = true) (hs : s = .comma ∨ s = .period) :
    Names f.text (radixPoint s start f) := by
  unfold radixPoint
  dsimp only
  split
  · exact names_other hasName_number
  · rcases hs with rfl | rfl
    · exact names_bad
    · exact names_wordTail_word (f := { f with marks := f.marks.insert .period }) (hf.insert .period)
        (hfirst rfl) hstart

/-! ## The first byte -/

theorem names_signed (hf : f.Covers 0) (hfirst : isSolid firstSpecials (f.byte 0) = true) :
    Names f.text (signed f) := by
  unfold signed
  dsimp only
  split
  · exact names_other rfl
  · split
    · split
      · exact names_other rfl
      · split
        · exact names_wordTail_word hf hfirst (Nat.zero_le _)
        · exact names_bad
    · split
      · exact names_other hasName_number
      · exact names_radixPoint hf (Nat.le_refl _) (fun _ => hfirst) (.inr rfl)
      · exact names_radixPoint hf (Nat.le_refl _) Special.noConfusion (.inl rfl)
      · exact names_other hasName_poundForm
      · exact names_wordTail_word hf hfirst (Nat.le_refl _)
      · exact names_wordTail_word hf hfirst (Nat.le_refl _)
      · exact names_bad
      · exact names_wordTail_word hf hfirst (Nat.le_refl _)

theorem names_colonForm (hf : f.Covers 0) (h0 : byteAt f.text 0 = colon) :
    Names f.text (colonForm f) := by
  have hk : marks .getWord (byteAt f.text 0) := h0
  unfold colonForm
  dsimp only
  split
  · exact names_other rfl
  · split
    · rename_i honly
      exact names_onlyWord hf hk honly
    · exact names_mark hf hk (Nat.le_refl _)

theorem names_tickForm (hf : f.Covers 0) (h0 : byteAt f.text 0 = tick) :
    Names f.text (tickForm f) := by
  have hk : marks .litWord (byteAt f.text 0) := h0
  unfold tickForm
  dsimp only
  split
  · exact names_bad
  · split
    · rename_i honly
      exact names_onlyWord hf hk honly
    · exact names_mark hf hk (Nat.zero_le _)

theorem names_special {s : Special} (hf : f.Covers 0)
    (hs : ByteClass.of (byteAt f.text 0) = .special s) :
    Names f.text (special s f) := by
  have hsolid (h : s ∈ firstSpecials) : isSolid firstSpecials (f.byte 0) = true := isSolid_of_mem hs h
  unfold special
  split
  · exact names_other rfl
  · cases s with
    | atSign => exact names_bad
    | percent =>
      refine names_other ?_
      unfold file
      dsimp only
      split
      · split <;> rfl
      · rfl
    | colon => exact names_colonForm hf (eq_byte_of_class hs)
    | tick => exact names_tickForm hf (eq_byte_of_class hs)
    | comma => exact names_radixPoint hf (Nat.zero_le _) Special.noConfusion (.inl rfl)
    | period =>
      exact names_radixPoint hf (Nat.zero_le _) (fun _ => hsolid (by simp [firstSpecials])) (.inr rfl)
    | lesser => exact names_angle hf (.inl (eq_byte_of_class hs))
    | greater => exact names_angle hf (.inr (eq_byte_of_class hs))
    | plus => exact names_signed hf (hsolid (by simp [firstSpecials]))
    | minus => exact names_signed hf (hsolid (by simp [firstSpecials]))
    | pound => exact names_other hasName_poundForm
    | dollar => exact names_other rfl
    | backslash => exact names_bad

/-- **Whatever word a lexeme is, its name is of one of three forms.** -/
theorem ofFront_names (text : Bytes) : Names text (ofFront text) := by
  unfold ofFront
  split
  · rename_i d hd
    unfold delimited
    split
    · exact names_other (by rw [comment_kind]; rfl)
    · exact names_other (by rw [comment_kind]; rfl)
    · exact names_other rfl
    · exact names_other rfl
    · exact names_other rfl
    · exact names_other rfl
    · exact names_other rfl
    · exact names_other rfl
    · exact names_other (by rw [quoted_kind]; rfl)
    · exact names_other (by rw [quoted_kind]; rfl)
    · exact names_bad
    · have h0 : byteAt text 0 = slash := by simpa [delimiterTable] using mem_delimiterTable hd (by decide)
      cases text with
      | nil => cases h0
      | cons b rest =>
        obtain rfl : b = slash := h0
        exact names_slashes rest
    · split
      · exact names_other rfl
      · exact names_bad
    · exact names_bad
  · rename_i s hs
    exact names_special (Front.covers_of text) hs
  · rename_i v hv
    have hfirst : isSolid firstSpecials ((Front.of text).byte 0) = true := by
      show isSolid firstSpecials (byteAt text 0) = true
      rw [isSolid, hv]
    dsimp only
    split
    · rename_i honly
      exact fun _ => nameAt_marked (Front.covers_of text) hfirst (legal_of_isOnlyWord honly)
        (Nat.le_refl _)
    · exact names_wordTail_word (Front.covers_of text) hfirst (Nat.zero_le _)
  · exact names_other hasName_number

end Lexeme

end RebolScan
