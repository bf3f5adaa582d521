import RebolScan.Proofs.Token.Extent

/-!
# Texts with a known run

A text that is put together of a word and something that ends it has that word for its run, and the
marks of the run can be read off the word. `Solid allowed w` says that no delimiter stands in `w`
and no special but those allowed, which is all that is said of a word here: **a special that is not
allowed is no mark** (`Solid.has`). Digits and letters are always solid, and the digits of base 16
with them; these and white space are ASCII (`ascii_of_isAnySpace`).
-/

set_option autoImplicit false

namespace RebolScan

open Ascii

/-- What is true of every byte by its number is true of every byte. -/
theorem forall_byte {P : UInt8 → Prop} (h : ∀ n : Fin 256, P (UInt8.ofNat n)) (b : UInt8) : P b := by
  have hb := h ⟨b.toNat, b.toNat_lt⟩
  rwa [UInt8.ofNat_toNat] at hb

/-- The byte is no delimiter, and no special but those allowed. -/
def isSolid (allowed : List Special) (b : UInt8) : Bool :=
  match ByteClass.of b with
  | .delimiter _ => false
  | .special s => allowed.contains s
  | _ => true

/-- No delimiter stands in `w`, and no special but those allowed. -/
def Solid (allowed : List Special) (w : Bytes) : Prop := ∀ b ∈ w, isSolid allowed b = true

section

variable {allowed : List Special} {w rest : Bytes} {b : UInt8} {s : Special}

theorem not_delimiter_of_isSolid (h : isSolid allowed b = true) : isDelimiter b = false := by
  unfold isSolid at h
  unfold isDelimiter
  split at h
  · cases h
  · rename_i s hs
    rw [hs]
  · rename_i hd _
    split
    · rename_i d hd'
      exact absurd hd' (hd d)
    · rfl

theorem class_of_isDigit (h : isDigit b = true) : ByteClass.of b = .number (digitValue b) := by
  rw [ByteClass.of, if_pos h]

theorem isSolid_of_isDigit (h : isDigit b = true) : isSolid allowed b = true := by
  rw [isSolid, class_of_isDigit h]

/-- A digit is neither space nor the first byte of a byte order mark. -/
theorem plain_of_isDigit (h : isDigit b = true) : b ≠ 0xEF ∧ isSpace b = false := by
  constructor
  · rintro rfl
    cases h
  · rw [isSpace, class_of_isDigit h]
    rfl

theorem not_digit_of_isLetter (h : isLetter b = true) : isDigit b = false := by
  simp only [isLetter, isUpper, isLower, isDigit, Bool.or_eq_true, Bool.and_eq_true, decide_eq_true_eq,
    Bool.and_eq_false_iff, decide_eq_false_iff_not, UInt8.le_iff_toNat_le, UInt8.reduceToNat] at h ⊢
  omega

theorem class_of_isLetter (h : isLetter b = true) : ∃ v, ByteClass.of b = .word v := by
  rw [ByteClass.of, not_digit_of_isLetter h, h, Bool.true_or, if_neg Bool.false_ne_true, if_pos rfl]
  split
  · exact ⟨_, rfl⟩
  · split <;> exact ⟨_, rfl⟩

/-- What has a value in base 16 is a digit or a letter. -/
theorem isDigit_or_isLetter_of_hexDigit? (h : (hexDigit? b).isSome = true) :
    isDigit b = true ∨ isLetter b = true := by
  have hletter {lo hi : UInt8} (hb : (lo ≤ b && b ≤ hi) = true)
      (hrange : 0x41 ≤ lo ∧ hi ≤ 0x5A ∨ 0x61 ≤ lo ∧ hi ≤ 0x7A) : isLetter b = true := by
    rw [Bool.and_eq_true, decide_eq_true_eq, decide_eq_true_eq] at hb
    rw [isLetter, isUpper, isLower]
    rcases hrange with ⟨hlo, hhi⟩ | ⟨hlo, hhi⟩ <;>
      rw [decide_eq_true (UInt8.le_trans hlo hb.1), decide_eq_true (UInt8.le_trans hb.2 hhi)]
    · rfl
    · exact Bool.or_true _
  unfold hexDigit? ByteClass.of at h
  split at h
  case isTrue hdigit => exact .inl hdigit
  case isFalse =>
    right
    split at h
    case isTrue hupper => exact hletter hupper (by decide)
    case isFalse =>
      split at h
      case isTrue hlower => exact hletter hlower (by decide)
      case isFalse =>
        -- no other class has a value
        repeat' split at h
        all_goals cases h

theorem isSolid_of_isLetter (h : isLetter b = true) : isSolid allowed b = true := by
  obtain ⟨v, hv⟩ := class_of_isLetter h
  rw [isSolid, hv]

theorem isSolid_of_isWordOrNumber (h : isWordOrNumber b = true) : isSolid allowed b = true := by
  unfold isSolid
  cases hc : ByteClass.of b with
  | word | number => rfl
  | delimiter | special => simp [isWordOrNumber, isWord, isNumber, hc] at h

theorem not_space_of_isSolid (h : isSolid allowed b = true) : isSpace b = false := by
  rw [isSolid] at h
  cases hc : ByteClass.of b with
  | delimiter d =>
    rw [hc] at h
    cases h
  | _ =>
    rw [isSpace, hc]
    rfl

theorem not_anySpace_of_isSolid (h : isSolid allowed b = true) : isAnySpace b = false := by
  rw [isSolid] at h
  cases hc : ByteClass.of b with
  | delimiter d =>
    rw [hc] at h
    cases h
  | _ => rw [isAnySpace, hc]

theorem isSolid_of_mem {b : UInt8} {s : Special} (hb : ByteClass.of b = .special s)
    (hs : s ∈ allowed) : isSolid allowed b = true := by
  rw [isSolid, hb]
  simpa using hs

theorem isSolid_of_hexDigit? (h : (hexDigit? b).isSome = true) : isSolid allowed b = true :=
  (isDigit_or_isLetter_of_hexDigit? h).elim isSolid_of_isDigit isSolid_of_isLetter

/-! ### Bytes of ASCII -/

theorem ascii_of_isDigit (h : isDigit b = true) : b < 0x80 :=
  UInt8.lt_of_le_of_lt (of_decide_eq_true (Bool.and_eq_true_iff.1 h).2) (by decide)

theorem ascii_of_isLetter (h : isLetter b = true) : b < 0x80 := by
  rcases Bool.or_eq_true_iff.1 h with h | h <;>
    exact UInt8.lt_of_le_of_lt (of_decide_eq_true (Bool.and_eq_true_iff.1 h).2) (by decide)

theorem ascii_of_hexDigit? (h : (hexDigit? b).isSome = true) : b < 0x80 :=
  (isDigit_or_isLetter_of_hexDigit? h).elim ascii_of_isDigit ascii_of_isLetter

/-- Plain space has no row in the table: it is what the table leaves of ASCII. -/
theorem ascii_of_class_space (h : ByteClass.of b = .delimiter .space) : b < 0x80 := by
  unfold ByteClass.of at h
  repeat' split at h
  all_goals simp only [ByteClass.delimiter.injEq, reduceCtorEq] at h
  case isFalse hwide => exact UInt8.not_le.1 hwide
  case h_1 hlookup =>
    rw [h] at hlookup
    obtain ⟨l₁, l₂, hl, -⟩ := List.lookup_eq_some_iff.1 hlookup
    have hrow : (b, Delimiter.space) ∈ delimiterTable := by simp [hl]
    simp [delimiterTable] at hrow

theorem ascii_of_isAnySpace (h : isAnySpace b = true) : b < 0x80 := by
  have hall : ∀ row ∈ delimiterTable, row.1 < 0x80 ∨ row.2 = .utf8Error := by decide
  cases hc : ByteClass.of b with
  | delimiter d =>
    by_cases hd : d = .space
    case pos => exact ascii_of_class_space (hd ▸ hc)
    case neg =>
      refine (hall _ (mem_delimiterTable hc hd)).resolve_right fun herror => ?_
      rw [isAnySpace, hc, show d = .utf8Error from herror] at h
      cases h
  | _ =>
    rw [isAnySpace, hc] at h
    cases h

/-! ### Solid texts -/

theorem Solid.append {v : Bytes} (hw : Solid allowed w) (hv : Solid allowed v) :
    Solid allowed (w ++ v) := by
  intro b hb
  rcases List.mem_append.1 hb with hb | hb
  · exact hw b hb
  · exact hv b hb

theorem Solid.cons (hb : isSolid allowed b = true) (hw : Solid allowed w) : Solid allowed (b :: w) :=
  List.forall_mem_cons.2 ⟨hb, hw⟩

theorem Solid.mono {more : List Special} (hw : Solid allowed w) (h : ∀ s ∈ allowed, s ∈ more) :
    Solid more w := by
  intro b hb
  have hsolid := hw b hb
  unfold isSolid at hsolid ⊢
  split
  · rename_i d hd
    rw [hd] at hsolid
    cases hsolid
  · rename_i s hs
    rw [hs] at hsolid
    simp only [List.contains_eq_mem, decide_eq_true_eq] at hsolid ⊢
    exact h s hsolid
  · rfl

theorem Solid.tail (hw : Solid allowed (b :: w)) : Solid allowed w :=
  (List.forall_mem_cons.1 hw).2

theorem solid_of_isDigit (h : ∀ b ∈ w, isDigit b = true) : Solid allowed w :=
  fun b hb => isSolid_of_isDigit (h b hb)

/-! ## The run -/

/-- **The run is the word in front** when a delimiter follows it. -/
theorem Solid.runOf_append (hw : Solid allowed w) (hrest : isDelimiter (byteAt rest 0) = true) :
    runOf (w ++ rest) = w := by
  have hnone : runOf rest = [] := by
    cases rest with
    | nil => rfl
    | cons b rest =>
      rw [byteAt_cons_zero] at hrest
      simp [runOf, hrest]
  have hpos : ∀ b ∈ w, (!isDelimiter b) = true := by
    intro b hb
    rw [not_delimiter_of_isSolid (hw b hb)]
    rfl
  rw [runOf, List.takeWhile_append_of_pos hpos]
  exact (congrArg (w ++ ·) hnone).trans (List.append_nil w)

theorem Solid.front (hw : Solid allowed w) (hrest : isDelimiter (byteAt rest 0) = true) :
    Front.of (w ++ rest) = ⟨w ++ rest, w, Marks.ofRun w⟩ := by
  rw [Front.of, hw.runOf_append hrest]

/-- Behind the word what follows it is next. -/
theorem byteAt_append_length (w rest : Bytes) (i : Nat) :
    byteAt (w ++ rest) (w.length + i) = byteAt rest i := by
  rw [← byteAt_drop, List.drop_left]

theorem byteAt_append_zero (w rest : Bytes) : byteAt (w ++ rest) w.length = byteAt rest 0 :=
  byteAt_append_length w rest 0

/-! ## The marks -/

theorem Marks.has_note (m : Marks) (b : UInt8) (s : Special) :
    (m.note b).has s = (m.has s || decide (ByteClass.of b = .special s)) := by
  unfold note
  split
  · rename_i t ht
    rw [ht, has_insert]
    simp
  · rename_i hb
    rw [hb]
    simp [has]
  · rename_i hb _
    rw [decide_eq_false (hb s), Bool.or_false]

theorem Marks.has_foldl_note (m : Marks) (w : Bytes) (s : Special) :
    (w.foldl note m).has s = (m.has s || w.any fun b => decide (ByteClass.of b = .special s)) := by
  induction w generalizing m with
  | nil => simp
  | cons b w ih => rw [List.foldl_cons, ih, has_note, List.any_cons, Bool.or_assoc]

/-- A special is marked when it stands behind the first byte. -/
theorem Marks.has_ofRun (b : UInt8) (w : Bytes) (s : Special) :
    (Marks.ofRun (b :: w)).has s = w.any fun b => decide (ByteClass.of b = .special s) := by
  have hnone : Marks.has ⟨0, isWord b⟩ s = false := by simp [Marks.has]
  rw [ofRun, has_foldl_note, hnone, Bool.false_or]

theorem class_byte (s : Special) : ByteClass.of s.byte = .special s := by cases s <;> rfl

theorem Marks.has_ofRun_iff : (Marks.ofRun (b :: w)).has s = true ↔ s.byte ∈ w := by
  rw [has_ofRun, List.any_eq_true]
  constructor
  · rintro ⟨b, hb, hclass⟩
    rwa [← eq_byte_of_class (of_decide_eq_true hclass)]
  · intro hb
    exact ⟨s.byte, hb, decide_eq_true (class_byte s)⟩

/-- **A special that is not allowed is no mark.** -/
theorem Solid.has (hw : Solid allowed w) (hs : s ∉ allowed) :
    (Marks.ofRun (b :: w)).has s = false := by
  rw [Marks.has_ofRun, List.any_eq_false]
  intro c hc
  rw [decide_eq_true_eq]
  intro hclass
  have hsolid := hw c hc
  rw [isSolid, hclass] at hsolid
  exact hs (by simpa using hsolid)

theorem Solid.has_run (hw : Solid allowed w) (hs : s ∉ allowed) : (Marks.ofRun w).has s = false := by
  cases w with
  | nil => simp [Marks.ofRun, Marks.none, Marks.has]
  | cons b w => exact hw.tail.has hs

theorem Marks.has_of_isOnlyWord {m : Marks} (h : m.isOnlyWord = true) (s : Special) :
    m.has s = false := by
  rw [eq_of_beq h]
  simp [has]

theorem Marks.has_of_isEmpty {m : Marks} (h : m.isEmpty = true) (s : Special) :
    m.has s = false := by
  rw [eq_of_beq h]
  simp [has, none]

/-- Digits leave no mark. -/
theorem ofRun_digits (h : ∀ c ∈ w, isDigit c = true) : Marks.ofRun (b :: w) = ⟨0, isWord b⟩ := by
  rw [Marks.ofRun]
  induction w with
  | nil => rfl
  | cons c w ih =>
    rw [List.foldl_cons, Marks.note, class_of_isDigit (h c List.mem_cons_self)]
    exact ih fun d hd => h d (List.mem_cons_of_mem c hd)

end

/-! ## Finding a byte in the run -/

theorem Front.find?_append {text u v : Bytes} {m : Marks} {b : UInt8} (h : b ∉ u) :
    Front.find? ⟨text, u ++ b :: v, m⟩ 0 b = some u.length := by
  have hnone : List.findIdx? (· == b) u = none := List.idxOf?_eq_none_iff.2 h
  simp [find?, List.idxOf?, List.findIdx?_append, hnone, List.findIdx?_cons]

theorem Front.isSome_find? {f : Front} {start : Nat} {b : UInt8} (h : b ∈ f.run.drop start) :
    (f.find? start b).isSome = true := by
  rw [find?, Option.isSome_map]
  exact List.isSome_idxOf?.2 h

end RebolScan
