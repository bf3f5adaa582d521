import RebolScan.Proofs.Text.LineBreaks
import RebolScan.Proofs.Text.Utf8
import RebolScan.Proofs.Token.Enclosed

/-!
# The line breaks that a quoted text counts

Between braces a line break is a character like any other, and the braces count it; behind a caret it
is a part of an escape, and they do not. `unescapedBreaks` goes through the bytes and skips the one
behind each caret. That is less than what an escape may take, but nothing else in an escape is a caret
or breaks a line (`Caret.readEscape_inert`). So **a quoted text counts each line break that no caret
escapes, and no other** (`Quoted.read_lines`), however its characters are spelled.
-/

set_option autoImplicit false

namespace RebolScan

open Ascii

/-- A byte that neither breaks a line nor escapes the byte behind it. -/
def isInert (b : UInt8) : Bool := b != caret && !isLineBreak b

/-- The line breaks in a text of which no caret escapes the first byte; a carriage return and the line
feed behind it are one. -/
def unescapedBreaks : Bytes → Nat
  | [] => 0
  | [b] => if isLineBreak b then 1 else 0
  | b :: c :: rest =>
    if b == caret then unescapedBreaks rest
    else if b == carriageReturn && c == lineFeed then 1 + unescapedBreaks rest
    else (if isLineBreak b then 1 else 0) + unescapedBreaks (c :: rest)

/-- The byte behind an escaped caret is not escaped, and of three line breaks two are: by the first
caret, and by none. -/
example : unescapedBreaks [caret, caret, lineFeed, caret, lineFeed, carriageReturn, lineFeed] = 2 := rfl

/-! ## Bytes that are inert -/

section

variable {b : UInt8}

/-- A class that the three other bytes are not of is one of inert bytes. -/
theorem isInert_of_class {p : UInt8 → Bool} (h : p b = true) (hcaret : p caret = false)
    (hlf : p lineFeed = false) (hcr : p carriageReturn = false) : isInert b = true := by
  have hne {d : UInt8} (hd : p d = false) : (b == d) = false := beq_false_of_class h hd
  rw [isInert, isLineBreak, bne, hne hcaret, hne hlf, hne hcr]
  rfl

theorem isInert_of_le (h : 0x80 ≤ b) : isInert b = true :=
  isInert_of_class (p := fun b => decide (0x80 ≤ b)) (decide_eq_true h) rfl rfl rfl

/-- The case of a letter makes no difference. -/
theorem isInert_of_toUpper (h : isInert (toUpper b) = true) : isInert b = true :=
  isInert_of_class (p := fun b => isInert (toUpper b)) h rfl rfl rfl

end

/-! ## Counting -/

variable {text : Bytes} {n : Nat}

theorem unescapedBreaks_cons {b : UInt8} (h : isInert b = true) (rest : Bytes) :
    unescapedBreaks (b :: rest) = unescapedBreaks rest := by
  rw [isInert, Bool.and_eq_true, bne_iff_ne, Bool.not_eq_true'] at h
  obtain ⟨hcaret, hbreak⟩ := h
  have hcr : (b == carriageReturn) = false := (Bool.or_eq_false_iff.1 hbreak).2
  cases rest with
  | nil => simp [unescapedBreaks, hbreak]
  | cons c rest => simp [unescapedBreaks, hbreak, hcaret, hcr]

/-- Inert bytes in front count nothing. -/
theorem unescapedBreaks_take (h : ∀ i, i < n → isInert (byteAt text i) = true) (m : Nat) :
    unescapedBreaks (text.take (n + m)) = unescapedBreaks ((text.drop n).take m) := by
  induction n generalizing text with
  | zero => rw [Nat.zero_add, List.drop_zero]
  | succ n ih =>
    cases text with
    | nil => simp
    | cons b text =>
      have hfirst : isInert b = true := h 0 (Nat.succ_pos n)
      have hrest : ∀ i, i < n → isInert (byteAt text i) = true :=
        fun i hi => h (i + 1) (Nat.succ_lt_succ hi)
      rw [Nat.succ_add, List.take_succ_cons, unescapedBreaks_cons hfirst, ih hrest,
        List.drop_succ_cons]

/-- The bytes at the front of a text in which no line breaks. -/
theorem Unbroken.of_mem_take (h : Unbroken text 0 n) {b : UInt8} (hb : b ∈ text.take n) :
    isLineBreak b = false := by
  obtain ⟨i, hi, rfl⟩ := List.mem_iff_getElem.1 hb
  have hlt : i < n := Nat.lt_of_lt_of_le hi (List.length_take_le _ _)
  rw [← byteAt_eq_getElem hi, byteAt_take hlt]
  exact h i (Nat.zero_le i) hlt

/-- Where no line breaks, none is counted. -/
theorem unescapedBreaks_of_unbroken (h : Unbroken text 0 n) : unescapedBreaks (text.take n) = 0 := by
  have hmem : ∀ b ∈ text.take n, isLineBreak b = false := fun b => h.of_mem_take
  generalize text.take n = stretch at hmem
  fun_induction unescapedBreaks stretch with
  | case1 => rfl
  | case2 b hb => exact absurd hb (by simpa using hmem)
  | case3 b hb => rfl
  | case4 b c rest hcaret ih =>
    exact ih fun d hd => hmem d (List.mem_cons_of_mem _ (List.mem_cons_of_mem _ hd))
  | case5 b c rest hcaret hcrlf ih =>
    have hb := hmem b List.mem_cons_self
    rw [Bool.and_eq_true] at hcrlf
    rw [eq_of_beq hcrlf.1] at hb
    cases hb
  | case6 b c rest hcaret hcrlf ih =>
    rw [hmem b List.mem_cons_self, ih fun d hd => hmem d (List.mem_cons_of_mem _ hd)]
    rfl

/-- A line break in front counts as one, be it of one byte or two. -/
theorem unescapedBreaks_lineBreak (h : isLineBreak (byteAt text 0) = true) (m : Nat) :
    unescapedBreaks (text.take (lineBreakLength text + m)) =
      1 + unescapedBreaks ((text.drop (lineBreakLength text)).take m) := by
  cases text with
  | nil => exact absurd h (by decide)
  | cons b text =>
    rw [byteAt_cons_zero] at h
    have hcaret : b ≠ caret := by
      rintro rfl
      cases h
    unfold lineBreakLength
    split
    · rename_i hcrlf
      rw [byteAt_cons_zero, byteAt_cons_succ, Bool.and_eq_true] at hcrlf
      cases text with
      | nil => exact absurd hcrlf.2 (by decide)
      | cons c text =>
        have hcr : b = carriageReturn := eq_of_beq hcrlf.1
        have hlf : c = lineFeed := eq_of_beq hcrlf.2
        subst hcr hlf
        rw [Nat.add_comm 2 m, List.take_succ_cons, List.take_succ_cons, unescapedBreaks]
        rfl
    · rename_i hone
      rw [byteAt_cons_zero, byteAt_cons_succ] at hone
      rw [Nat.add_comm 1 m, List.take_succ_cons, List.drop_succ_cons, List.drop_zero]
      cases htake : text.take m with
      | nil => simp [unescapedBreaks, h]
      | cons c rest =>
        -- What is left starts with the byte that was seen behind the break.
        have hc : byteAt text 0 = c := by
          cases m with
          | zero => cases htake
          | succ m =>
            cases text with
            | nil => cases htake
            | cons c' text => exact (List.cons.inj htake).1
        rw [hc] at hone
        simp [unescapedBreaks, hcaret, hone, h]

/-! ## Escapes -/

/-- The bytes behind the first of a character are no ASCII bytes. -/
theorem Utf8.le_of_decodeChar {c : Char} (h : decodeChar text = some (c, n)) {i : Nat} (hpos : 0 < i)
    (hi : i < n) : 0x80 ≤ byteAt text i :=
  UInt8.le_iff_toNat_le.2 (bounds_of_isContinuation ((sequenced_of_decodeChar h).continued i hpos hi)).1

namespace Caret

variable {c : Char}

/-- The names of escapes are letters. -/
theorem escapeNames_inert :
    ∀ name ∈ escapeNames, ∀ b ∈ (Utf8.encode name.1).map toUpper, isInert b = true := by
  have hall : (escapeNames.all fun name => ((Utf8.encode name.1).map toUpper).all isInert) = true := by
    decide +kernel
  exact fun name hname => List.all_eq_true.1 (List.all_eq_true.1 hall name hname)

theorem readName_inert (h : readName text = some (c, n)) {i : Nat} (hi : i < n) :
    isInert (byteAt text i) = true := by
  obtain ⟨name, hname, hread⟩ := List.exists_of_findSome?_eq_some h
  obtain ⟨rfl, hsame, hclose⟩ := readAs_eq_some hread
  by_cases hlast : i = (Utf8.encode name.1).length
  · rw [hlast, hclose]
    rfl
  · have hmap : (text.take (Utf8.encode name.1).length).map toUpper =
        (Utf8.encode name.1).map toUpper := eq_of_beq hsame
    have hlength := congrArg List.length hmap
    rw [List.length_map, List.length_map] at hlength
    have hmem : byteAt text i ∈ text.take (Utf8.encode name.1).length := by
      have hlt : i < (Utf8.encode name.1).length := by omega
      rw [← byteAt_take hlt]
      exact byteAt_mem (by omega)
    apply isInert_of_toUpper
    apply escapeNames_inert name hname
    rw [← hmap]
    exact List.mem_map_of_mem hmem

theorem readParenthesized_inert (h : readParenthesized text = some (c, n)) {i : Nat} (hi : i < n) :
    isInert (byteAt text i) = true := by
  unfold readParenthesized at h
  dsimp only at h
  split at h
  · cases h
  · split at h
    · rename_i hd
      rw [Bool.and_eq_true, beq_iff_eq] at hd
      split at h
      · cases h
        rcases Nat.lt_or_eq_of_le (Nat.le_of_lt_succ hi) with hlt | rfl
        · exact isInert_of_class (p := fun b => (hexDigit? b).isSome) (byteAt_takeWhile hlt) rfl rfl
            rfl
        · rw [hd.2]
          rfl
      · cases h
    · exact readName_inert h hi

/-- An escape is of no byte at the end, of one byte, between parentheses, or a character that is not
ASCII. -/
theorem readEscape_cases (h : readEscape text = some (c, n)) :
    (n = 0 ∧ byteAt text 0 = nul) ∨ n = 1 ∨
      (∃ m, n = m + 1 ∧ readParenthesized (text.drop 1) = some (c, m)) ∨
        Utf8.decodeChar text = some (c, n) := by
  have hone {d : Char} (h : some (d, 1) = some (c, n)) : n = 1 := (Prod.mk.inj (Option.some.inj h)).2.symm
  unfold readEscape at h
  dsimp only at h
  split at h
  · rename_i hnul
    cases h
    exact .inl ⟨rfl, eq_of_beq hnul⟩
  · right
    split at h
    · exact .inl (hone h)
    · split at h
      · exact .inl (hone h)
      · split at h
        · exact .inl (hone h)
        · split at h
          · exact .inl (hone h)
          · split at h
            · obtain ⟨⟨d, m⟩, hread, he⟩ := Option.map_eq_some_iff.1 h
              obtain ⟨rfl, rfl⟩ := Prod.mk.inj he
              exact .inr (.inl ⟨m, rfl, hread⟩)
            · split at h
              · exact .inl (hone h)
              · split at h
                · exact .inl (hone h)
                · split at h
                  · exact .inr (.inr h)
                  · exact .inl (hone h)

/-- **Behind the byte that a caret escapes nothing in the escape is a caret or breaks a line.** -/
theorem readEscape_inert (h : readEscape text = some (c, n)) {i : Nat} (hpos : 0 < i) (hi : i < n) :
    isInert (byteAt text i) = true := by
  rcases readEscape_cases h with ⟨hn, -⟩ | hn | ⟨m, hn, hread⟩ | hdecode
  · omega
  · omega
  · have hinert := readParenthesized_inert hread (i := i - 1) (by omega)
    rwa [byteAt_drop, show 1 + (i - 1) = i by omega] at hinert
  · exact isInert_of_le (Utf8.le_of_decodeChar hdecode hpos hi)

/-- An escape counts nothing, the byte behind the caret included. -/
theorem unescapedBreaks_escape (h : readEscape text = some (c, n)) (m : Nat) :
    unescapedBreaks ((caret :: text).take (n + 1 + m)) = unescapedBreaks ((text.drop n).take m) := by
  rw [Nat.add_right_comm, List.take_succ_cons]
  cases text with
  | nil =>
    rw [List.take_nil, List.drop_nil, List.take_nil]
    rfl
  | cons b rest =>
    cases n with
    | zero =>
      -- The caret stands alone in front of NUL, which counts as little as it does escaped.
      have hnul : b = nul := ((readEscape_cases h).elim (·.2) fun h => by
        rcases h with h | ⟨m, h, -⟩ | h
        · cases h
        · cases h
        · exact absurd (Utf8.decodeChar_width h).1 (by decide))
      subst hnul
      cases m with
      | zero => rfl
      | succ m =>
        have hnext := unescapedBreaks_cons (b := nul) rfl (rest.take m)
        rw [Nat.zero_add, List.drop_zero, List.take_succ_cons, hnext]
        rfl
    | succ n =>
      have hrest : ∀ i, i < n → isInert (byteAt rest i) = true := fun i hi =>
        readEscape_inert h (i := i + 1) (Nat.succ_pos i) (Nat.succ_lt_succ hi)
      rw [Nat.succ_add, List.take_succ_cons, unescapedBreaks, if_pos (by rfl),
        unescapedBreaks_take hrest, List.drop_succ_cons]

/-- A character that breaks no line counts nothing, however it is spelled. -/
theorem unescapedBreaks_read (h : read text = some (c, n))
    (hbreak : isLineBreak (byteAt text 0) = false) (m : Nat) :
    unescapedBreaks (text.take (n + m)) = unescapedBreaks ((text.drop n).take m) := by
  unfold read at h
  dsimp only at h
  split at h
  · rename_i hwide
    apply unescapedBreaks_take
    intro i hi
    apply isInert_of_le
    cases i with
    | zero => exact hwide
    | succ i => exact Utf8.le_of_decodeChar h (Nat.succ_pos i) hi
  · split at h
    · rename_i hcaret
      obtain ⟨⟨d, k⟩, hread, he⟩ := Option.map_eq_some_iff.1 h
      obtain ⟨rfl, rfl⟩ := Prod.mk.inj he
      cases text with
      | nil => cases hcaret
      | cons b text =>
        obtain rfl : b = caret := eq_of_beq hcaret
        exact unescapedBreaks_escape hread m
    · rename_i hcaret
      cases h
      apply unescapedBreaks_take
      intro i hi
      obtain rfl : i = 0 := by omega
      rw [isInert, hbreak, bne, (Bool.not_eq_true _).mp hcaret]
      rfl

end Caret

/-! ## Quoted text -/

namespace Quoted

/-- The next character of a quoted text is a line break between braces, or it is read. -/
theorem next?_cases {braced : Bool} {c : Char} (h : next? braced text = some (c, n)) :
    (isLineBreak (byteAt text 0) = true ∧ braced = true ∧ n = lineBreakLength text) ∨
      (isLineBreak (byteAt text 0) = false ∧ Caret.read text = some (c, n)) := by
  unfold next? at h
  dsimp only at h
  split at h
  · cases h
  · split at h
    · rename_i hbreak
      split at h
      · rename_i hbraced
        cases h
        exact .inl ⟨hbreak, hbraced, rfl⟩
      · cases h
    · rename_i hbreak
      exact .inr ⟨(Bool.not_eq_true _).mp hbreak, h⟩

/-- What has been counted up to `pos` is counted on from there, if the text is in braces. -/
theorem readFrom_lines {braced : Bool} {rest : Bytes} {pos nest lines lineStart : Nat}
    {found : List Char} {e : Extent}
    (h : (readFrom braced rest pos nest lines lineStart found).2 = some e) :
    e.lines = lines + if braced then unescapedBreaks (rest.take (e.length - pos)) else 0 := by
  fun_induction readFrom braced rest pos nest lines lineStart found with
  | case1 rest pos nest lines lineStart found hc =>
    cases h
    have hfirst : ∀ i, i < 1 → isInert (byteAt rest i) = true := by
      intro i hi
      obtain rfl : i = 0 := by omega
      rw [eq_of_beq (Bool.and_eq_true_iff.1 hc).1]
      cases braced <;> rfl
    have hnone := unescapedBreaks_take hfirst 0
    rw [Nat.add_sub_cancel_left, hnone, List.take_zero]
    cases braced <;> rfl
  | case2 => cases h
  | case3 rest pos nest lines lineStart found hc c n hn b crosses ih =>
    have hcount := ih h
    have hpos := (readFrom_extent h).1
    rw [show e.length - pos = n + (e.length - (pos + n)) by omega]
    rcases next?_cases hn with ⟨hbreak, rfl, rfl⟩ | ⟨hbreak, hread⟩
    · rw [if_pos rfl] at hcount ⊢
      rw [unescapedBreaks_lineBreak hbreak, hcount, dif_pos hbreak]
      omega
    · have hcrosses : ¬crosses = true := by
        rw [Bool.not_eq_true]
        exact hbreak
      rw [Caret.unescapedBreaks_read hread hbreak, hcount, dif_neg hcrosses]

/-- **A quoted text counts the line breaks that no caret escapes**, and outside of braces there are
none to count. -/
theorem read_lines {e : Extent} (h : (read text).extent = some e) :
    e.lines = if byteAt text 0 == braceOpen then unescapedBreaks (text.take e.length) else 0 := by
  have hlines := readFrom_lines (show (readFrom _ (text.drop 1) 1 0 0 0 []).2 = some e from h)
  have hlength := (read_extent h).1
  rw [hlines, Nat.zero_add]
  split
  · rename_i hbrace
    have hfirst : ∀ i, i < 1 → isInert (byteAt text i) = true := by
      intro i hi
      obtain rfl : i = 0 := by omega
      rw [eq_of_beq hbrace]
      rfl
    rw [← unescapedBreaks_take hfirst, Nat.add_sub_cancel' (Nat.le_of_lt hlength)]
  · rfl

end Quoted

end RebolScan
