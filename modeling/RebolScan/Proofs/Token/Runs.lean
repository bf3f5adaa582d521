import Mathlib.Order.Bounds.Basic
import RebolScan.Proofs.Text.LineBreaks
import RebolScan.Proofs.Token.Names
import RebolScan.Proofs.Token.Numeral
import RebolScan.Token.Cursor

/-!
# The run at a place

The marks of a run are said byte by byte (`Marks.note`), and the pass that finds them takes word bytes
and digits many at a time. **It comes to the same** (`Marks.pass_eq`), since each byte adds to the pass
what it adds alone (`Marks.pass_cons`). So a run can be read off the source: it starts at the first byte
that is no space, ends at the first delimiter behind, and its marks are those of the specials behind
its first byte, with the word mark if a word byte is among all of them (`scanRun_bytewise`).
-/

set_option autoImplicit false

namespace RebolScan

open Ascii

theorem exists_mem_iff_byteAt {w : Bytes} {p : UInt8 → Prop} :
    (∃ b ∈ w, p b) ↔ ∃ i, i < w.length ∧ p (byteAt w i) := by
  constructor
  · rintro ⟨b, hb, hp⟩
    obtain ⟨i, hi, rfl⟩ := List.mem_iff_getElem.1 hb
    exact ⟨i, hi, by rwa [byteAt_eq_getElem hi]⟩
  · rintro ⟨i, hi, hp⟩
    exact ⟨byteAt w i, byteAt_mem hi, hp⟩

theorem runOf_cons (b : UInt8) (rest : Bytes) :
    runOf (b :: rest) = if isDelimiter b then [] else b :: runOf rest := by
  unfold runOf
  rw [List.takeWhile_cons]
  cases isDelimiter b <;> rfl

theorem runOf_of_delimiter {text : Bytes} (h : isDelimiter (byteAt text 0) = true) :
    runOf text = [] := by
  cases text with
  | nil => rfl
  | cons b rest =>
    rw [byteAt_cons_zero] at h
    rw [runOf_cons, if_pos h]

/-! ## One pass, byte by byte -/

namespace Marks

variable {b : UInt8} {rest text : Bytes} {n : Nat} {m : Marks}

/-- Digits are passed together, and so is what is left of them. -/
theorem pass_numbers (text : Bytes) (n : Nat) (m : Marks) :
    pass (text.drop (text.takeWhile isNumber).length) (n + (text.takeWhile isNumber).length) m =
      pass text n m := by
  cases text with
  | nil => rfl
  | cons b rest =>
    cases hb : isNumber b with
    | false => rw [List.takeWhile_cons_of_neg (by rw [hb]; decide)]; rfl
    | true =>
      obtain ⟨d, hd⟩ : ∃ d, ByteClass.of b = .number d := by
        unfold isNumber at hb
        split at hb
        case h_1 d hd => exact ⟨d, hd⟩
        case h_2 => cases hb
      rw [List.takeWhile_cons_of_pos hb, pass.eq_def (b :: rest)]
      simp only [hd]
      rw [List.length_cons, List.drop_succ_cons, Nat.add_assoc n 1, Nat.add_comm 1]

/-- Behind a word byte, word bytes and digits are passed together. -/
theorem pass_words (text : Bytes) (n : Nat) (hm : m.word = true) :
    pass (text.drop (text.takeWhile isWordOrNumber).length)
      (n + (text.takeWhile isWordOrNumber).length) m = pass text n m := by
  have hword : { m with word := true } = m := by rw [← hm]
  induction text generalizing n with
  | nil => rfl
  | cons b rest ih =>
    have htaken (hb : isWordOrNumber b = true) :
        (b :: rest).takeWhile isWordOrNumber = b :: rest.takeWhile isWordOrNumber :=
      List.takeWhile_cons_of_pos hb
    have hleft (hb : isWordOrNumber b = false) : (b :: rest).takeWhile isWordOrNumber = [] :=
      List.takeWhile_cons_of_neg (by rw [hb]; decide)
    cases hclass : ByteClass.of b with
    | delimiter d | special s =>
      rw [hleft (by rw [isWordOrNumber, isWord, isNumber, hclass]; rfl)]
      rfl
    | word v =>
      rw [htaken (by rw [isWordOrNumber, isWord, hclass]; rfl), List.length_cons,
        List.drop_succ_cons, Nat.add_comm _ 1, ← Nat.add_assoc, pass.eq_def (b :: rest)]
      simp only [hclass, hword]
    | number d =>
      rw [htaken (by rw [isWordOrNumber, isWord, isNumber, hclass]; rfl), List.length_cons,
        List.drop_succ_cons, Nat.add_comm _ 1, ← Nat.add_assoc, ih (n + 1), pass.eq_def (b :: rest)]
      simp only [hclass]
      exact (pass_numbers rest (n + 1) m).symm

/-- **Each byte adds to the pass what it adds alone**, the first one as a word byte only. -/
theorem pass_cons (hb : isDelimiter b = false) : pass (b :: rest) n m =
    pass rest (n + 1) (if n = 0 then { m with word := m.word || isWord b } else m.note b) := by
  rw [pass.eq_def (b :: rest)]
  cases hclass : ByteClass.of b with
  | delimiter d =>
    rw [isDelimiter, hclass] at hb
    cases hb
  | special s =>
    simp only [note, isWord, hclass, Bool.or_false]
  | word v =>
    simp only [note, isWord, hclass, Bool.or_true, ite_self]
    exact pass_words rest (n + 1) rfl
  | number d =>
    simp only [note, isWord, hclass, Bool.or_false, ite_self]
    exact pass_numbers rest (n + 1) m

theorem pass_delimiter (hb : isDelimiter b = true) : pass (b :: rest) n m = (m, n) := by
  rw [pass.eq_def (b :: rest)]
  cases hclass : ByteClass.of b with
  | delimiter d => simp only [hclass]
  | special s | word v | number d =>
    rw [isDelimiter, hclass] at hb
    cases hb

/-- Behind the first byte, the pass notes what each byte of the run marks. -/
theorem pass_behind (hn : 0 < n) :
    pass text n m = ((runOf text).foldl note m, n + (runOf text).length) := by
  induction text generalizing n m with
  | nil => rw [pass]; rfl
  | cons b rest ih =>
    rw [runOf_cons]
    cases hb : isDelimiter b with
    | true => exact pass_delimiter hb
    | false =>
      rw [pass_cons hb, if_neg (Nat.ne_of_gt hn), ih (Nat.succ_pos n), if_neg Bool.false_ne_true,
        List.foldl_cons, List.length_cons, Nat.succ_add_eq_add_succ]

/-- **A pass finds the marks of the run and its length.** -/
theorem pass_eq (text : Bytes) : pass text 0 none = (ofRun (runOf text), (runOf text).length) := by
  cases text with
  | nil => rw [pass]; rfl
  | cons b rest =>
    rw [runOf_cons]
    cases hb : isDelimiter b with
    | true => exact pass_delimiter hb
    | false =>
      rw [pass_cons hb, if_pos rfl, pass_behind Nat.one_pos, if_neg Bool.false_ne_true, ofRun,
        List.length_cons, Nat.add_comm]
      rfl

/-! ## What the marks of a run say of its bytes -/

variable {run : Bytes} {s : Special}

theorem has_ofRun_iff_byteAt : (ofRun run).has s = true ↔
    ∃ i, 0 < i ∧ i < run.length ∧ ByteClass.of (byteAt run i) = .special s := by
  cases run with
  | nil =>
    have hnone : none.has s = false := by simp [none, has]
    rw [ofRun, hnone]
    refine ⟨fun h => absurd h Bool.false_ne_true, ?_⟩
    rintro ⟨i, -, hi, -⟩
    exact absurd hi (Nat.not_lt_zero i)
  | cons b run =>
    simp only [has_ofRun, List.any_eq_true, decide_eq_true_eq, exists_mem_iff_byteAt]
    constructor
    · rintro ⟨i, hi, hclass⟩
      exact ⟨i + 1, Nat.succ_pos i, Nat.succ_lt_succ hi, by rwa [byteAt_cons_succ]⟩
    · rintro ⟨i, hpos, hi, hclass⟩
      obtain ⟨j, rfl⟩ := Nat.exists_eq_succ_of_ne_zero (Nat.ne_of_gt hpos)
      exact ⟨j, Nat.lt_of_succ_lt_succ hi, by rwa [byteAt_cons_succ] at hclass⟩

theorem word_ofRun_iff_byteAt :
    (ofRun run).word = true ↔ ∃ i, i < run.length ∧ isWord (byteAt run i) = true := by
  have hany : (ofRun run).word = run.any isWord := by
    cases run with
    | nil => rfl
    | cons b run => rw [ofRun, word_foldl_note, List.any_cons]
  rw [hany, List.any_eq_true]
  exact exists_mem_iff_byteAt

theorem free_note (m : Marks) (b : UInt8) :
    (m.note b).specials.getLsbD 9 = m.specials.getLsbD 9 := by
  unfold note
  split
  case h_1 s _ => cases s <;> simp [insert, Special.rank]
  case h_2 => rfl
  case h_3 => rfl

/-- The place that no special has is never marked. -/
theorem free_ofRun (run : Bytes) : (ofRun run).specials.getLsbD 9 = false := by
  have hfold (w : Bytes) (m : Marks) :
      (w.foldl note m).specials.getLsbD 9 = m.specials.getLsbD 9 := by
    induction w generalizing m with
    | nil => rfl
    | cons b w ih => rw [List.foldl_cons, ih, free_note]
  cases run with
  | nil => rfl
  | cons b run => exact (hfold run ⟨0, isWord b⟩).trans (BitVec.getLsbD_zero)

/-- Marks are the specials and the word mark, when the free place is not marked. -/
theorem ext_of_has {m m' : Marks} (hspecial : ∀ s, m.has s = m'.has s) (hword : m.word = m'.word)
    (hfree : m.specials.getLsbD 9 = m'.specials.getLsbD 9) : m = m' := by
  have hrank : ∀ i : Fin 14, i.val = 9 ∨ ∃ row ∈ specialTable, row.2.rank = i.val := by decide
  have hspecials : m.specials = m'.specials := by
    refine BitVec.eq_of_getLsbD_eq fun i hi => ?_
    obtain h | ⟨row, -, h⟩ := hrank ⟨i, hi⟩
    · obtain rfl : i = 9 := h
      exact hfree
    · obtain rfl : row.2.rank = i := h
      exact hspecial row.2
  obtain ⟨specials, word⟩ := m
  obtain ⟨specials', word'⟩ := m'
  cases hspecials
  cases hword
  rfl

end Marks

/-! ## The run at a place -/

/-- The run behind `pos`, as the bytes of the source say: it goes from the first byte that is no space
to the first delimiter behind that, a delimiter is one by itself, and it has the mark of each special
behind its first byte and the word mark if it has a word byte, and no other. -/
structure RunAt (source : Bytes) (pos : Nat) (marks : Marks) (start stop : Nat) : Prop where
  first : IsLeast {i | pos ≤ i ∧ isSpace (byteAt source i) = false} start
  delimiter : isDelimiter (byteAt source start) = true → stop = start + 1
  ends : isDelimiter (byteAt source start) = false →
    IsLeast {i | start < i ∧ isDelimiter (byteAt source i) = true} stop
  special : ∀ s, marks.has s = true ↔
    ∃ i, start < i ∧ i < stop ∧ ByteClass.of (byteAt source i) = .special s
  word : marks.word = true ↔ ∃ i, start ≤ i ∧ i < stop ∧ isWord (byteAt source i) = true
  free : marks.specials.getLsbD 9 = false

/-- There is one such run. -/
theorem RunAt.unique {source : Bytes} {pos start stop start' stop' : Nat} {marks marks' : Marks}
    (h : RunAt source pos marks start stop) (h' : RunAt source pos marks' start' stop') :
    marks = marks' ∧ start = start' ∧ stop = stop' := by
  obtain rfl : start = start' := h.first.unique h'.first
  have hstop : stop = stop' := by
    cases hd : isDelimiter (byteAt source start) with
    | true => rw [h.delimiter hd, h'.delimiter hd]
    | false => exact (h.ends hd).unique (h'.ends hd)
  subst hstop
  refine ⟨Marks.ext_of_has (fun s => ?_) ?_ (h.free.trans h'.free.symm), rfl, rfl⟩
  · rw [Bool.eq_iff_iff, h.special, h'.special]
  · rw [Bool.eq_iff_iff, h.word, h'.word]

/-- What is taken from `pos` on while a test is met ends at the first byte that fails it. -/
theorem isLeast_takeWhile {p : UInt8 → Bool} (hp : p nul = false) (source : Bytes) (pos : Nat) :
    IsLeast {i | pos ≤ i ∧ p (byteAt source i) = false}
      (pos + ((source.drop pos).takeWhile p).length) := by
  constructor
  · refine ⟨Nat.le_add_right _ _, ?_⟩
    rw [← byteAt_drop]
    exact byteAt_length_takeWhile p hp _
  · rintro i ⟨hi, hfails⟩
    refine Nat.not_lt.1 fun hlt => ?_
    obtain ⟨k, rfl⟩ := Nat.exists_eq_add_of_le hi
    have htaken := byteAt_takeWhile (Nat.lt_of_add_lt_add_left hlt)
    rw [byteAt_drop, hfails] at htaken
    cases htaken

namespace Cursor

variable {source : Bytes} {start : Nat}

/-- **What a lexeme is cut by is what the pass finds**, and a delimiter is a run of one byte. -/
theorem scanRun_eq (c : Cursor) : c.scanRun =
    (Marks.ofRun (runOf c.skipSpace.rest), { c.skipSpace with
      stop := c.skipSpace.start + if (runOf c.skipSpace.rest).isEmpty then 1
        else (runOf c.skipSpace.rest).length }) := by
  rw [scanRun, Marks.pass_eq]
  simp only [List.isEmpty_iff_length_eq_zero, List.length_eq_zero_iff]

/-- A delimiter is a run of its own, and has no mark. -/
theorem runAt_delimiter {pos : Nat}
    (hfirst : IsLeast {i | pos ≤ i ∧ isSpace (byteAt source i) = false} start)
    (hd : isDelimiter (byteAt source start) = true) :
    RunAt source pos .none start (start + 1) where
  first := hfirst
  delimiter _ := rfl
  ends h := by
    rw [hd] at h
    cases h
  special s := by
    have hnone : Marks.none.has s = false := by simp [Marks.none, Marks.has]
    rw [hnone]
    refine ⟨fun h => absurd h Bool.false_ne_true, ?_⟩
    rintro ⟨i, hi, hstop, -⟩
    omega
  word := by
    refine ⟨fun h => absurd h Bool.false_ne_true, ?_⟩
    rintro ⟨i, hi, hstop, hword⟩
    obtain rfl : start = i := by omega
    rw [not_delimiter_of_isWord hword] at hd
    cases hd
  free := rfl

/-- What stands behind the first byte and in front of the first delimiter is the run. -/
theorem runAt_run {pos : Nat}
    (hfirst : IsLeast {i | pos ≤ i ∧ isSpace (byteAt source i) = false} start)
    (hd : isDelimiter (byteAt source start) = false) :
    RunAt source pos (Marks.ofRun (runOf (source.drop start))) start
      (start + (runOf (source.drop start)).length) := by
  have hpos : 0 < (runOf (source.drop start)).length :=
    length_runOf_pos (by rwa [byteAt_drop, Nat.add_zero])
  obtain ⟨⟨-, hstop⟩, hleast⟩ : IsLeast {i | start ≤ i ∧ (!isDelimiter (byteAt source i)) = false}
      (start + (runOf (source.drop start)).length) :=
    isLeast_takeWhile (p := fun b => !isDelimiter b) (by decide) source start
  have hbyte {i : Nat} (hi : i < (runOf (source.drop start)).length) :
      byteAt (runOf (source.drop start)) i = byteAt source (start + i) := by
    rw [Front.byteAt_runOf hi, byteAt_drop]
  refine ⟨hfirst, fun h => ?_, fun _ => ⟨⟨Nat.lt_add_of_pos_right hpos, ?_⟩, ?_⟩, fun s => ?_, ?_,
    Marks.free_ofRun _⟩
  · rw [hd] at h
    cases h
  · simpa using hstop
  · rintro i ⟨hi, hdelimiter⟩
    exact hleast ⟨Nat.le_of_lt hi, by rw [hdelimiter]; rfl⟩
  · rw [Marks.has_ofRun_iff_byteAt]
    constructor
    · rintro ⟨i, hi, hlt, hclass⟩
      exact ⟨start + i, Nat.lt_add_of_pos_right hi, Nat.add_lt_add_left hlt start, hbyte hlt ▸ hclass⟩
    · rintro ⟨i, hi, hlt, hclass⟩
      obtain ⟨k, rfl⟩ := Nat.exists_eq_add_of_le (Nat.le_of_lt hi)
      have hk := Nat.lt_of_add_lt_add_left hlt
      exact ⟨k, Nat.pos_of_lt_add_right hi, hk, (hbyte hk).symm ▸ hclass⟩
  · rw [Marks.word_ofRun_iff_byteAt]
    constructor
    · rintro ⟨i, hlt, hword⟩
      exact ⟨start + i, Nat.le_add_right _ _, Nat.add_lt_add_left hlt start, hbyte hlt ▸ hword⟩
    · rintro ⟨i, hi, hlt, hword⟩
      obtain ⟨k, rfl⟩ := Nat.exists_eq_add_of_le hi
      have hk := Nat.lt_of_add_lt_add_left hlt
      exact ⟨k, hk, (hbyte hk).symm ▸ hword⟩

/-- The pass from a place on finds the run there. -/
theorem runAt_scanRun (c : Cursor) (pos : Nat) :
    RunAt c.source pos (c.setStart pos).scanRun.1 (c.setStart pos).scanRun.2.start
      (c.setStart pos).scanRun.2.stop := by
  rw [scanRun_eq]
  dsimp only
  have hrest : (c.setStart pos).skipSpace.rest = c.source.drop (c.setStart pos).skipSpace.start :=
    List.drop_drop
  have hfirst : IsLeast _ (c.setStart pos).skipSpace.start :=
    isLeast_takeWhile (p := isSpace) (by decide) c.source pos
  rw [hrest]
  generalize (c.setStart pos).skipSpace.start = start at hfirst
  cases hd : isDelimiter (byteAt c.source start) with
  | true =>
    rw [runOf_of_delimiter (by rwa [byteAt_drop, Nat.add_zero])]
    exact runAt_delimiter hfirst hd
  | false =>
    have hrun := runAt_run hfirst hd
    have hpos : 1 ≤ (runOf (c.source.drop start)).length :=
      length_runOf_pos (by rwa [byteAt_drop, Nat.add_zero])
    rwa [if_neg (by rw [List.isEmpty_iff_length_eq_zero]; omega)]

/-- The run that is found at a place is the one that the bytes there say, whatever the source and the
place: it starts at the first byte that is no space, ends at the first delimiter behind, or behind its
one byte if that is a delimiter, and has the marks of the bytes between and no others. No line is
counted. -/
theorem scanRun_bytewise (c : Cursor) (pos : Nat) :
    (∀ marks start stop, RunAt c.source pos marks start stop ↔
      marks = (c.setStart pos).scanRun.1 ∧ start = (c.setStart pos).scanRun.2.start ∧
        stop = (c.setStart pos).scanRun.2.stop) ∧
    (c.setStart pos).scanRun.2.source = c.source ∧
    (c.setStart pos).scanRun.2.line = c.line ∧
    (c.setStart pos).scanRun.2.lineStart = c.lineStart := by
  have hrun := runAt_scanRun c pos
  refine ⟨fun marks start stop => ⟨fun h => h.unique hrun, ?_⟩, ?_⟩
  · rintro ⟨rfl, rfl, rfl⟩
    exact hrun
  · rw [scanRun_eq]
    exact ⟨rfl, rfl, rfl⟩

end Cursor

end RebolScan
