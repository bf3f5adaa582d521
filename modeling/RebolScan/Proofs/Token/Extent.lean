import RebolScan.Token.Lexeme
import RebolScan.Value.Fault

/-!
# How far a lexeme reaches

A lexeme is cut from the front of some text, so it takes **at least one byte and no more than there
are** (`ofFront_plain`, and `ofFront_nil` for the one exception, the end of the input). Everything
that is said later about progress and about places in the source rests on these two bounds.

The second thing said here is which first bytes lead to brackets, line breaks and the end of input:
no lexeme that starts with anything but a delimiter is of such a kind.
-/

set_option autoImplicit false

namespace RebolScan

open Ascii

/-! ## Bytes and runs -/

theorem byteAt_eq_getElem {s : Bytes} {i : Nat} (h : i < s.length) : byteAt s i = s[i] := by
  rw [byteAt, List.getD_eq_getElem?_getD, List.getElem?_eq_getElem h, Option.getD_some]

theorem between_self (text : Bytes) (n : Nat) : between text n n = [] := by
  rw [between, Nat.sub_self, List.take_zero]

theorem between_cons {text : Bytes} {start stop : Nat} (h : start < stop) (hlen : start < text.length) :
    between text start stop = byteAt text start :: between text (start + 1) stop := by
  rw [between, between, List.drop_eq_getElem_cons hlen, ← Nat.sub_add_cancel (Nat.sub_pos_of_lt h),
    List.take_succ_cons, Nat.sub_sub, byteAt_eq_getElem hlen]

theorem between_append {source : Bytes} {a b c : Nat} (hab : a ≤ b) (hbc : b ≤ c) :
    between source a c = between source a b ++ between source b c := by
  unfold between
  rw [show c - a = (b - a) + (c - b) by omega, List.take_add, List.drop_drop,
    show a + (b - a) = b by omega]

theorem byteAt_mem {s : Bytes} {i : Nat} (h : i < s.length) : byteAt s i ∈ s := by
  rw [byteAt_eq_getElem h]
  exact List.getElem_mem h

theorem byteAt_append_left {s : Bytes} {i : Nat} (h : i < s.length) (x : Bytes) :
    byteAt (s ++ x) i = byteAt s i := by
  simp [byteAt, List.getD_eq_getElem?_getD, List.getElem?_append_left h]

theorem byteAt_take {s : Bytes} {i n : Nat} (h : i < n) : byteAt (s.take n) i = byteAt s i := by
  simp [byteAt, List.getD_eq_getElem?_getD, h]

/-- Past the end of a text every byte reads as NUL. -/
theorem lt_length_of_byteAt {s : Bytes} {i : Nat} (h : byteAt s i ≠ nul) : i < s.length := by
  rcases Nat.lt_or_ge i s.length with hi | hi
  · exact hi
  · exact absurd (by simp [byteAt, List.getD_eq_getElem?_getD, List.getElem?_eq_none hi]) h

theorem lt_length_of_byteAt_eq {s : Bytes} {i : Nat} {b : UInt8} (h : (byteAt s i == b) = true)
    (hb : b ≠ nul) : i < s.length :=
  lt_length_of_byteAt (by rw [eq_of_beq h]; exact hb)

theorem ne_nil_of_byteAt {s : Bytes} {i : Nat} (h : byteAt s i ≠ nul) : s ≠ [] :=
  List.ne_nil_of_length_pos (Nat.zero_lt_of_lt (lt_length_of_byteAt h))

/-- A byte that is no delimiter is there. -/
theorem lt_length_of_not_delimiter {s : Bytes} {i : Nat} (h : isDelimiter (byteAt s i) = false) :
    i < s.length :=
  lt_length_of_byteAt fun h0 => by rw [h0] at h; exact absurd h (by decide)

/-- No byte order mark is in front of a text that starts with another byte. -/
theorem byteOrderMarkLength_of_ne {source : Bytes} (h : byteAt source 0 ≠ 0xEF) :
    byteOrderMarkLength source = 0 := by
  cases source with
  | nil => rfl
  | cons b rest =>
    have hb : b ≠ 0xEF := h
    have hmark : byteOrderMark.isPrefixOf (b :: rest) = false := by
      show (0xEF == b && _) = false
      rw [beq_false_of_ne hb.symm, Bool.false_and]
    rw [byteOrderMarkLength, hmark]
    rfl

theorem byteOrderMarkLength_le (source : Bytes) : byteOrderMarkLength source ≤ source.length := by
  unfold byteOrderMarkLength
  split
  · rename_i h
    exact (List.isPrefixOf_iff_prefix.1 h).length_le
  · exact Nat.zero_le _

/-- A front byte that meets the test is taken. -/
theorem length_takeWhile_pos {p : UInt8 → Bool} {s : Bytes} (hs : s ≠ [])
    (h : p (byteAt s 0) = true) : 1 ≤ (s.takeWhile p).length := by
  cases s with
  | nil => exact absurd rfl hs
  | cons b rest =>
    rw [byteAt_cons_zero] at h
    simp [h]

/-- The byte behind the longest front that meets a test fails it, or is past the end. -/
theorem byteAt_length_takeWhile (p : UInt8 → Bool) (hp : p nul = false) (s : Bytes) :
    p (byteAt s (s.takeWhile p).length) = false := by
  induction s with
  | nil => simpa using hp
  | cons b rest ih =>
    cases hb : p b with
    | true => simpa [hb] using ih
    | false => simp [hb]

theorem not_delimiter_of_isNumber {b : UInt8} (h : isNumber b = true) : isDelimiter b = false := by
  unfold isNumber at h
  unfold isDelimiter
  split at h
  · rename_i d hd
    rw [hd]
  · exact absurd h (by decide)

theorem not_delimiter_of_isWord {b : UInt8} (h : isWord b = true) : isDelimiter b = false := by
  unfold isWord at h
  unfold isDelimiter
  split at h
  · rename_i d hd
    rw [hd]
  · exact absurd h (by decide)

theorem length_runOf_pos {text : Bytes} (h : isDelimiter (byteAt text 0) = false) :
    1 ≤ (runOf text).length :=
  length_takeWhile_pos (List.ne_nil_of_length_pos (lt_length_of_not_delimiter h)) (by simp [h])

/-- A delimiting byte that is no space has its row in the table. -/
theorem mem_delimiterTable {b : UInt8} {d : Delimiter} (h : ByteClass.of b = .delimiter d)
    (hd : d ≠ .space) : (b, d) ∈ delimiterTable := by
  unfold ByteClass.of at h
  repeat' split at h
  all_goals simp only [ByteClass.delimiter.injEq, reduceCtorEq] at h
  · rename_i hl
    subst h
    obtain ⟨l₁, l₂, hl, -⟩ := List.lookup_eq_some_iff.1 hl
    simp [hl]
  · exact absurd h.symm hd

/-- The byte that is the special. -/
def Special.byte : Special → UInt8
  | .atSign => Ascii.atSign
  | .percent => Ascii.percent
  | .backslash => Ascii.backslash
  | .colon => Ascii.colon
  | .tick => Ascii.tick
  | .lesser => Ascii.lesser
  | .greater => Ascii.greater
  | .plus => Ascii.plus
  | .minus => Ascii.minus
  | .period => Ascii.period
  | .comma => Ascii.comma
  | .pound => Ascii.pound
  | .dollar => Ascii.dollar

/-- A special is one byte. -/
theorem eq_byte_of_class {b : UInt8} {s : Special} (h : ByteClass.of b = .special s) : b = s.byte := by
  unfold ByteClass.of at h
  repeat' split at h
  all_goals simp only [ByteClass.special.injEq, reduceCtorEq] at h
  rename_i hl
  rw [h] at hl
  obtain ⟨l₁, l₂, hl, -⟩ := List.lookup_eq_some_iff.1 hl
  have hrow : (b, s) ∈ specialTable := by simp [hl]
  cases s with
  | _ => simpa [specialTable, Special.byte] using hrow

theorem head?_runOf {text : Bytes} {b : UInt8} (h : (runOf text).head? = some b) :
    byteAt text 0 = b := by
  cases text with
  | nil => simp [runOf] at h
  | cons a rest =>
    simp only [runOf, List.takeWhile_cons] at h
    split at h
    · simpa using h
    · simp at h

theorem lineLength_le (text : Bytes) : lineLength text ≤ text.length :=
  (List.takeWhile_sublist _).length_le

/-- The marks come from the bytes after the first. -/
theorem Marks.two_le_of_has {run : Bytes} {s : Special} (h : (Marks.ofRun run).has s = true) :
    2 ≤ run.length := by
  match run with
  | [] => cases s <;> simp [Marks.ofRun, Marks.none, Marks.has] at h
  | [b] => cases s <;> simp [Marks.ofRun, Marks.has] at h
  | _ :: _ :: _ => simp

/-! ## Brackets -/

/-- The byte that opens a pair of brackets. -/
def Bracket.openByte : Bracket → UInt8
  | .block => bracketOpen
  | .paren => parenOpen

/-- The byte that closes a pair of brackets. -/
def Bracket.closeByte : Bracket → UInt8
  | .block => bracketClose
  | .paren => parenClose

/-! ## Quoted forms and tags -/

theorem Quoted.closing_ne_nul (braced : Bool) : closing braced ≠ nul := by cases braced <;> decide

/-- Reading goes on behind a character that does not close the text. -/
theorem Quoted.readFrom_next {braced : Bool} {rest : Bytes} {pos nest lines lineStart : Nat}
    {found : List Char} {c : Char} {n : Nat}
    (hclose : ¬(byteAt rest 0 == closing braced && nest == 0) = true)
    (hnext : next? braced rest = some (c, n)) :
    readFrom braced rest pos nest lines lineStart found =
      readFrom braced (rest.drop n) (pos + n) (nestAfter braced (byteAt rest 0) nest)
        (if isLineBreak (byteAt rest 0) then lines + 1 else lines)
        (if isLineBreak (byteAt rest 0) then pos + n else lineStart) (c :: found) := by
  conv => lhs; rw [readFrom]
  rw [if_neg hclose]
  split
  · rename_i he
    rw [hnext] at he
    cases he
  · rename_i d m he
    rw [hnext] at he
    cases he
    rfl

/-- The extent of a quoted text counts on from where reading started, and ends in the text. -/
theorem Quoted.readFrom_extent {braced : Bool} {rest : Bytes} {pos nest lines lineStart : Nat}
    {found : List Char} {e : Extent}
    (h : (readFrom braced rest pos nest lines lineStart found).2 = some e) :
    pos < e.length ∧ e.length ≤ pos + rest.length := by
  fun_induction readFrom braced rest pos nest lines lineStart found with
  | case1 rest pos nest lines lineStart found hc =>
    simp only [Bool.and_eq_true] at hc
    have := lt_length_of_byteAt_eq hc.1 (closing_ne_nul braced)
    simp only [Option.some.injEq] at h
    subst h
    exact ⟨by simp, by simp; omega⟩
  | case2 => simp at h
  | case3 rest pos nest lines lineStart found hc c n hn b crosses ih =>
    obtain ⟨h1, h2⟩ := ih h
    -- Nothing is found past the end, so the width of a character never leads there.
    rw [List.length_drop] at h2
    exact ⟨by omega, by omega⟩

theorem Quoted.read_extent {text : Bytes} {e : Extent} (h : (read text).extent = some e) :
    1 < e.length ∧ e.length ≤ text.length := by
  obtain ⟨h1, h2⟩ := readFrom_extent (show (readFrom _ (text.drop 1) 1 0 0 0 []).2 = some e from h)
  rw [List.length_drop] at h2
  exact ⟨h1, by omega⟩

theorem Tag.lengthFrom_bounds {quoted : Bool} {pos n : Nat} {rest : Bytes}
    (h : lengthFrom quoted pos rest = some n) : pos < n ∧ n ≤ pos + rest.length := by
  induction rest generalizing quoted pos with
  | nil => simp [lengthFrom] at h
  | cons b rest ih =>
    unfold lengthFrom at h
    rw [List.length_cons]
    split at h
    · simp at h
    · split at h
      · have := ih h; omega
      · split at h
        · simp only [Option.some.injEq] at h; omega
        · have := ih h; omega

theorem Tag.length?_bounds {text : Bytes} {n : Nat} (h : length? text = some n) :
    1 ≤ n ∧ n ≤ text.length := by
  unfold length? at h
  split at h
  · have := lengthFrom_bounds h
    rw [List.length_drop] at this
    omega
  · have := lengthFrom_bounds h
    omega

/-! ## Lexemes that start with anything but a bracket or a line break -/

/-- The kinds that brackets, line breaks and the end of the input have to themselves. -/
def TokenKind.isStructural : TokenKind → Bool
  | .endOfScript | .line | .blockBegin | .blockEnd | .parenBegin | .parenEnd => true
  | _ => false

/-- The kinds that a colon behind the first byte makes. -/
def TokenKind.holdsColon : TokenKind → Bool
  | .time | .setWord => true
  | _ => false

namespace Lexeme

/-- A lexeme of some text that is no bracket, line break or end of input. One that holds a colon has
it behind its first byte, so it takes two bytes. -/
structure Plain (text : Bytes) (l : Lexeme) : Prop where
  pos : 1 ≤ l.length
  le : l.length ≤ text.length
  kind : l.kind.isStructural = false
  colon : l.kind.holdsColon = true → l.malformed = false → 2 ≤ l.length

theorem plain_good {text : Bytes} {kind : TokenKind} {n : Nat} (h1 : 1 ≤ n) (h2 : n ≤ text.length)
    (hk : kind.isStructural = false) (ht : kind.holdsColon = false) :
    Plain text (good kind n) :=
  ⟨h1, h2, hk, fun h => absurd h (by simp [good, ht])⟩

theorem plain_bad {text : Bytes} {kind : TokenKind} {n : Nat} (h1 : 1 ≤ n) (h2 : n ≤ text.length)
    (hk : kind.isStructural = false) : Plain text (bad kind n) :=
  ⟨h1, h2, hk, fun _ h => absurd h (by simp [bad])⟩

theorem plain_colon {text : Bytes} {kind : TokenKind} {n : Nat} (h1 : 2 ≤ n) (h2 : n ≤ text.length)
    (hk : kind.isStructural = false) : Plain text (good kind n) :=
  ⟨by simp [good]; omega, h2, hk, fun _ _ => h1⟩

/-- What a quoted form spells has no part in its extent. -/
theorem Plain.withText {text : Bytes} {l : Lexeme} (h : Plain text l) (t : Option String) :
    Plain text { l with text := t } :=
  ⟨h.pos, h.le, h.kind, h.colon⟩

theorem plain_badLine {text : Bytes} {kind : TokenKind} (h : text ≠ [])
    (hk : kind.isStructural = false) : Plain text (badLine kind text) := by
  have hl := List.length_pos_iff.2 h
  have hn := lineLength_le (text.drop 1)
  rw [List.length_drop] at hn
  exact plain_bad (by omega) (by omega) hk

theorem plain_quoted {text : Bytes} {kind : TokenKind} {skip : Nat} (h : text ≠ [])
    (hk : kind.isStructural = false) (ht : kind.holdsColon = false) :
    Plain text (quoted kind text skip) := by
  unfold quoted
  dsimp only
  split
  · rename_i e he
    obtain ⟨h1, h2⟩ := Quoted.read_extent he
    rw [List.length_drop] at h2
    exact ⟨by dsimp only; omega, by dsimp only; omega, hk, fun h => absurd h (by simp [ht])⟩
  · exact (plain_badLine h hk).withText _

theorem plain_character {text : Bytes} {skip : Nat} (h : text ≠ []) :
    Plain text (character text skip) := by
  unfold character
  split
  · split
    · rename_i hq
      exact plain_good (by omega) (lt_length_of_byteAt_eq hq (by decide)) rfl rfl
    · exact plain_badLine h rfl
  · exact plain_badLine h rfl

end Lexeme

/-! ## The front of a text -/

namespace Front

/-- The run holds a byte, all of it comes from the text, and a colon is marked only behind its first
byte. -/
structure Fits (f : Front) : Prop where
  pos : 1 ≤ f.stop
  le : f.stop ≤ f.text.length
  colon : f.has .colon = true → 2 ≤ f.stop
  /-- The run goes on over a second byte that is no delimiter. -/
  second : isDelimiter (f.byte 1) = false → 2 ≤ f.stop

theorem fits_of {text : Bytes} (h : isDelimiter (byteAt text 0) = false) : (of text).Fits := by
  refine ⟨length_runOf_pos h, (List.takeWhile_sublist _).length_le, Marks.two_le_of_has, ?_⟩
  intro h1
  match text with
  | [] => exact absurd h1 (by simp [byte, of]; decide)
  | [_] => exact absurd h1 (by simp [byte, of]; decide)
  | a :: b :: rest =>
    simp only [byte, of, byteAt_cons_succ, byteAt_cons_zero] at h h1
    simp [stop, of, runOf, h, h1]

/-- A mark for a point or comma that made the front a number changes nothing. -/
theorem Fits.insert {f : Front} (hf : f.Fits) {s : Special} (hs : s ≠ .colon) :
    Fits { f with marks := f.marks.insert s } :=
  ⟨hf.pos, hf.le, fun h => hf.colon (by simpa [has, Marks.has_insert, hs] using h), hf.second⟩

theorem find?_bounds {f : Front} {start i : Nat} {b : UInt8} (h : f.find? start b = some i) :
    start ≤ i ∧ i < f.stop := by
  obtain ⟨j, hj, rfl⟩ := Option.map_eq_some_iff.1 h
  obtain ⟨hlt, -⟩ := List.idxOf?_eq_some_iff.1 hj
  rw [List.length_drop] at hlt
  simp only [stop]
  omega

/-- What is found at the front is what stands there. -/
theorem find?_ne_zero {f : Front} {b : UInt8} (h : f.run.head? ≠ some b) :
    f.find? 0 b ≠ some 0 := by
  intro hf
  obtain ⟨j, hj, hj0⟩ := Option.map_eq_some_iff.1 hf
  obtain ⟨hlt, hb, -⟩ := List.idxOf?_eq_some_iff.1 hj
  obtain rfl : j = 0 := by omega
  exact h (by rw [List.head?_eq_getElem?, ← hb]; simp)

end Front

namespace Lexeme

theorem pathEnd_bounds {text : Bytes} {start : Nat} (h : start ≤ text.length) :
    start ≤ pathEnd text start ∧ pathEnd text start ≤ text.length := by
  have hn : ((text.drop start).takeWhile fun b => b == slash || !isDelimiter b).length ≤
      (text.drop start).length := (List.takeWhile_sublist _).length_le
  rw [List.length_drop] at hn
  simp only [pathEnd]
  omega

variable {f : Front}

theorem plain_file (hf : f.Fits) : Plain f.text (file f) := by
  have hs := hf.pos
  unfold file
  dsimp only
  split
  · split
    · rename_i e he
      obtain ⟨h1, h2⟩ := Quoted.read_extent he
      rw [List.length_drop] at h2
      have hg : Plain f.text (good .file (f.stop + e.length)) :=
        plain_good (by omega) (by omega) rfl rfl
      exact hg.withText _
    · have hb : Plain f.text (bad .file f.stop) := plain_bad hf.pos hf.le rfl
      exact hb.withText _
  · obtain ⟨h1, h2⟩ := pathEnd_bounds hf.le
    exact plain_good (by omega) h2 rfl rfl

/-! ### Words -/

theorem plain_marked {kind : TokenKind} {start : Nat} {m : Marks} (hf : f.Fits)
    (hlt : f.find? start lesser ≠ some 0) (hk : kind.isStructural = false) (ht : kind.holdsColon = false) :
    Plain f.text (wordTail.marked kind start f m) := by
  unfold wordTail.marked
  split
  · exact plain_good hf.pos hf.le rfl rfl
  · split
    · exact plain_good hf.pos hf.le rfl rfl
    · split
      · exact plain_bad hf.pos hf.le hk
      · split
        · dsimp only
          split
          · exact plain_bad hf.pos hf.le hk
          · -- The word ends at the `<` behind it, which is not its first byte.
            cases hi : f.find? start lesser with
            | none => exact plain_good hf.pos hf.le hk ht
            | some i =>
              have := (Front.find?_bounds hi).2
              have h0 : i ≠ 0 := fun h0 => hlt (by rw [hi, h0])
              have := hf.le
              exact plain_good (by simp; omega) (by simp; omega) hk ht
        · split
          · exact plain_bad hf.pos hf.le hk
          · exact plain_good hf.pos hf.le hk ht

theorem plain_wordTail {kind : TokenKind} {start : Nat} (hf : f.Fits)
    (hlt : f.find? start lesser ≠ some 0) (hk : kind.isStructural = false) (ht : kind.holdsColon = false) :
    Plain f.text (wordTail kind start f) := by
  have hurl : Plain f.text (good .url (pathEnd f.text f.stop)) := by
    obtain ⟨h1, h2⟩ := pathEnd_bounds hf.le
    exact plain_good (Nat.le_trans hf.pos h1) h2 rfl rfl
  unfold wordTail
  split
  · rename_i hc
    split
    · dsimp only
      split
      · split
        · exact plain_bad hf.pos hf.le rfl
        · exact plain_colon (hf.colon hc) hf.le rfl
      · exact hurl
    · split
      · exact plain_bad hf.pos hf.le hk
      · exact plain_marked hf hlt hk ht
  · exact plain_marked hf hlt hk ht

/-- Where the name starts behind the first byte, no `<` is found at the first byte. -/
theorem find?_succ_ne_zero {start : Nat} {b : UInt8} : f.find? (start + 1) b ≠ some 0 :=
  fun h => absurd (Front.find?_bounds h).1 (by omega)

theorem plain_operatorWord {kind : TokenKind} (hf : f.Fits) (h1 : f.byte 1 ≠ nul)
    (hk : kind.isStructural = false) (ht : kind.holdsColon = false) :
    Plain f.text (operatorWord kind f) := by
  have hlen : 1 < f.text.length := lt_length_of_byteAt h1
  unfold operatorWord
  dsimp only
  split
  · rename_i h2
    -- The second sign is there, whichever of the three it is.
    have hlen2 : 2 < f.text.length := by
      simp only [Bool.or_eq_true] at h2
      rcases h2 with (h2 | h2) | h2 <;> exact lt_length_of_byteAt_eq h2 (by decide)
    split
    · exact plain_good (by omega) hlen2 hk ht
    · exact plain_bad hf.pos hf.le hk
  · split
    · exact plain_good (by omega) hlen hk ht
    · exact plain_bad hf.pos hf.le hk

theorem plain_slashes {text : Bytes} (h : (byteAt text 0 == slash) = true) :
    Plain text (slashes text) := by
  have hne : text ≠ [] := ne_nil_of_byteAt (by rw [eq_of_beq h]; decide)
  have hn1 : 1 ≤ (text.takeWhile (· == slash)).length := length_takeWhile_pos hne h
  have hn2 : (text.takeWhile (· == slash)).length ≤ text.length :=
    (List.takeWhile_sublist _).length_le
  unfold slashes
  dsimp only
  split
  · rename_i hnext
    split
    · rename_i hone
      -- One slash: what stands behind it is a run of its own.
      have hin : (Front.of (text.drop 1)).stop ≤ text.length - 1 := by
        rw [← List.length_drop]
        exact (List.takeWhile_sublist _).length_le
      have hpos : 1 ≤ text.length := List.length_pos_iff.2 hne
      split
      · exact plain_good (by omega) (by omega) rfl rfl
      · refine plain_wordTail (f := ⟨text, slash :: (Front.of (text.drop 1)).run, _⟩) ⟨?_, ?_, ?_, ?_⟩
          find?_succ_ne_zero rfl rfl
        · simp [Front.stop]
        · simp only [Front.stop, List.length_cons] at hin ⊢
          omega
        · intro hc
          have : 2 ≤ (Front.of (text.drop 1)).run.length := Marks.two_le_of_has hc
          simp only [Front.stop, List.length_cons]
          omega
        · intro h1
          have hb : isDelimiter (byteAt (text.drop 1) 0) = false := by rwa [byteAt_drop]
          have := length_runOf_pos hb
          simp only [Front.stop, List.length_cons, Front.of]
          omega
    · exact plain_bad hn1 hn2 rfl
  · split
    · rename_i hnext
      have hlt : (text.takeWhile (· == slash)).length < text.length := by
        simp only [Bool.or_eq_true] at hnext
        rcases hnext with hnext | hnext <;> exact lt_length_of_byteAt_eq hnext (by decide)
      exact plain_bad (by omega) hlt rfl
    · exact plain_good hn1 hn2 rfl rfl

theorem plain_angle {s : Special} (hf : f.Fits) : Plain f.text (angle s f) := by
  have hop : Plain f.text
      (if isDelimiter (f.byte 2) then good .word f.stop else bad .word f.stop) := by
    split
    · exact plain_good hf.pos hf.le rfl rfl
    · exact plain_bad hf.pos hf.le rfl
  unfold angle
  dsimp only
  split
  · exact plain_good hf.pos hf.le rfl rfl
  · split
    · exact hop
    · split
      · exact plain_good hf.pos hf.le rfl rfl
      · split
        · exact hop
        · split
          · exact plain_bad hf.pos hf.le rfl
          · split
            · rename_i n hn
              obtain ⟨h1, h2⟩ := Tag.length?_bounds hn
              exact plain_good h1 h2 rfl rfl
            · exact plain_bad hf.pos hf.le rfl

/-! ### Numbers and what starts with a pound sign -/

theorem plain_poundForm {start : Nat} (hf : f.Fits) : Plain f.text (poundForm start f) := by
  have hne : f.text ≠ [] := List.ne_nil_of_length_pos (Nat.lt_of_lt_of_le hf.pos hf.le)
  unfold poundForm
  dsimp only
  split
  · rename_i hb
    exact plain_good (by omega) (lt_length_of_byteAt_eq hb (by decide)) rfl rfl
  · split
    · exact plain_character hne
    · split
      · exact plain_quoted hne rfl rfl
      · split
        · exact plain_good hf.pos hf.le rfl rfl
        · exact plain_bad hf.pos hf.le rfl

theorem plain_numberBySign {start : Nat} (hf : f.Fits) : Plain f.text (numberBySign start f) := by
  unfold numberBySign
  dsimp only
  split
  · repeat' split
    all_goals exact plain_good hf.pos hf.le rfl rfl
  · split
    · exact plain_good hf.pos hf.le rfl rfl
    · exact plain_bad hf.pos hf.le rfl

theorem plain_number {start : Nat} (hf : f.Fits) : Plain f.text (number start f) := by
  have hgood (kind : TokenKind) (hk : kind.isStructural = false) (ht : kind.holdsColon = false) :
      Plain f.text (good kind f.stop) := plain_good hf.pos hf.le hk ht
  unfold number
  split
  · exact hgood _ rfl rfl
  · split
    · exact hgood _ rfl rfl
    · split
      · split
        · exact plain_poundForm hf
        · exact plain_bad hf.pos hf.le rfl
      · split
        · rename_i hc
          exact plain_colon (hf.colon hc) hf.le rfl
        · split
          · dsimp only
            repeat' split
            all_goals exact hgood _ rfl rfl
          · repeat' split
            · exact hgood _ rfl rfl
            · exact hgood _ rfl rfl
            · exact plain_numberBySign hf

theorem plain_radixPoint {s : Special} {start : Nat} (hf : f.Fits) (hs : s ≠ .colon)
    (hlt : f.find? start lesser ≠ some 0) : Plain f.text (radixPoint s start f) := by
  have hi : Front.Fits { f with marks := f.marks.insert s } := hf.insert hs
  unfold radixPoint
  dsimp only
  split
  · exact plain_number hi
  · split
    · exact plain_bad hf.pos hf.le rfl
    · exact plain_wordTail hi hlt rfl rfl

/-! ### The first byte -/

theorem plain_signed (hf : f.Fits) (h0 : f.run.head? ≠ some lesser) :
    Plain f.text (signed f) := by
  unfold signed
  dsimp only
  split
  · exact plain_good hf.pos hf.le rfl rfl
  · split
    · rename_i hc
      split
      · exact plain_colon (hf.colon hc) hf.le rfl
      · split
        · exact plain_wordTail hf (Front.find?_ne_zero h0) rfl rfl
        · exact plain_bad hf.pos hf.le rfl
    · split
      · exact plain_number hf
      · exact plain_radixPoint hf (by decide) find?_succ_ne_zero
      · exact plain_radixPoint hf (by decide) find?_succ_ne_zero
      · exact plain_poundForm hf
      · exact plain_wordTail hf find?_succ_ne_zero rfl rfl
      · exact plain_wordTail hf find?_succ_ne_zero rfl rfl
      · exact plain_bad hf.pos hf.le rfl
      · exact plain_wordTail hf find?_succ_ne_zero rfl rfl

theorem plain_colonForm (hf : f.Fits) : Plain f.text (colonForm f) := by
  unfold colonForm
  dsimp only
  split
  · rename_i hn
    exact plain_colon (hf.second (not_delimiter_of_isNumber hn)) hf.le rfl
  · split
    · exact plain_good hf.pos hf.le rfl rfl
    · split
      · exact plain_bad hf.pos hf.le rfl
      · split
        · rename_i hs
          refine plain_operatorWord hf (fun h0 => ?_) rfl rfl
          rw [h0] at hs
          exact absurd hs (by decide)
        · exact plain_wordTail hf find?_succ_ne_zero rfl rfl

theorem plain_tickForm (hf : f.Fits) (h0 : f.run.head? ≠ some lesser) :
    Plain f.text (tickForm f) := by
  unfold tickForm
  dsimp only
  split
  · exact plain_bad hf.pos hf.le rfl
  · split
    · exact plain_good hf.pos hf.le rfl rfl
    · split
      · exact plain_bad hf.pos hf.le rfl
      · split
        · rename_i hs
          refine plain_operatorWord hf (fun h0 => ?_) rfl rfl
          rw [h0] at hs
          exact absurd hs (by decide)
        · exact plain_wordTail hf (Front.find?_ne_zero h0) rfl rfl

theorem plain_special {s : Special} (hf : f.Fits)
    (h0 : s ≠ .lesser → f.run.head? ≠ some lesser) : Plain f.text (special s f) := by
  unfold special
  split
  · exact plain_good hf.pos hf.le rfl rfl
  · cases s with
    | atSign => exact plain_bad hf.pos hf.le rfl
    | percent => exact plain_file hf
    | colon => exact plain_colonForm hf
    | tick => exact plain_tickForm hf (h0 (by decide))
    | comma => exact plain_radixPoint hf (by decide) (Front.find?_ne_zero (h0 (by decide)))
    | period => exact plain_radixPoint hf (by decide) (Front.find?_ne_zero (h0 (by decide)))
    | greater => exact plain_angle hf
    | lesser => exact plain_angle hf
    | plus => exact plain_signed hf (h0 (by decide))
    | minus => exact plain_signed hf (h0 (by decide))
    | pound => exact plain_poundForm hf
    | dollar => exact plain_good hf.pos hf.le rfl rfl
    | backslash => exact plain_bad hf.pos hf.le rfl

/-- **A lexeme that starts with no delimiter is plain.** -/
theorem ofFront_plain {text : Bytes} (h : isDelimiter (byteAt text 0) = false) :
    Plain text (ofFront text) := by
  have hf := Front.fits_of h
  unfold ofFront
  split
  · rename_i d hd
    simp [isDelimiter, hd] at h
  · rename_i s hs
    refine plain_special hf fun hne hl => hne ?_
    rw [head?_runOf hl] at hs
    exact (ByteClass.special.inj hs).symm
  · dsimp only
    split
    · exact plain_good hf.pos hf.le rfl rfl
    · refine plain_wordTail hf (Front.find?_ne_zero fun hl => ?_) rfl rfl
      rename_i hw _
      rw [head?_runOf hl] at hw
      exact absurd (hw.symm.trans (show ByteClass.of lesser = .special .lesser by decide)) (by simp)
  · exact plain_number hf

/-! ### Brackets, line breaks and the end of input -/

/-- The lexemes that delimiters make, quoted forms and slashes apart. -/
inductive Structural (text : Bytes) : Lexeme → Prop
  | endOfScript (h : text = []) : Structural text (good .endOfScript 0)
  | opening (b : Bracket) (h : byteAt text 0 = b.openByte) : Structural text (good b.openKind 1)
  | closing (b : Bracket) (h : byteAt text 0 = b.closeByte) : Structural text (good b.closeKind 1)
  | lineBreak (h : isLineBreak (byteAt text 0) = true) : Structural text (lineBreak text 0)
  | comment (h : byteAt text 0 = semicolon ∨ isSpace (byteAt text 0) = true) :
      Structural text (comment text)

/-- **Every lexeme is either plain or one of the structural ones.** -/
theorem ofFront_cases (text : Bytes) :
    Structural text (ofFront text) ∨ Plain text (ofFront text) := by
  cases hd : isDelimiter (byteAt text 0) with
  | false => exact .inr (ofFront_plain hd)
  | true =>
    unfold isDelimiter at hd
    split at hd
    · rename_i d hc
      have hrow (hs : d ≠ .space) : (byteAt text 0, d) ∈ delimiterTable := mem_delimiterTable hc hs
      have hpos (hs : byteAt text 0 ≠ nul) : 1 ≤ text.length :=
        Nat.succ_le_of_lt (Nat.zero_lt_of_lt (lt_length_of_byteAt hs))
      have hof : ofFront text = delimited d text := by
        unfold ofFront
        rw [hc]
      rw [hof]
      cases d with
      | space => exact .inl (.comment (.inr (by simp [isSpace, hc])))
      | semicolon => exact .inl (.comment (.inl (by simpa [delimiterTable] using hrow)))
      | lineFeed =>
        have hb : byteAt text 0 = lineFeed := by simpa [delimiterTable] using hrow
        exact .inl (.lineBreak (by simp [isLineBreak, hb]))
      | carriageReturn =>
        have hb : byteAt text 0 = carriageReturn := by simpa [delimiterTable] using hrow
        exact .inl (.lineBreak (by simp [isLineBreak, hb]))
      | leftBracket =>
        have hb : byteAt text 0 = bracketOpen := by simpa [delimiterTable] using hrow
        exact .inl (.opening .block hb)
      | leftParen =>
        have hb : byteAt text 0 = parenOpen := by simpa [delimiterTable] using hrow
        exact .inl (.opening .paren hb)
      | rightBracket =>
        have hb : byteAt text 0 = bracketClose := by simpa [delimiterTable] using hrow
        exact .inl (.closing .block hb)
      | rightParen =>
        have hb : byteAt text 0 = parenClose := by simpa [delimiterTable] using hrow
        exact .inl (.closing .paren hb)
      | quote =>
        have hb : byteAt text 0 = quote := by simpa [delimiterTable] using hrow
        exact .inr (plain_quoted (ne_nil_of_byteAt (by rw [hb]; decide)) rfl rfl)
      | leftBrace =>
        have hb : byteAt text 0 = braceOpen := by simpa [delimiterTable] using hrow
        exact .inr (plain_quoted (ne_nil_of_byteAt (by rw [hb]; decide)) rfl rfl)
      | rightBrace =>
        have hb : byteAt text 0 = braceClose := by simpa [delimiterTable] using hrow
        exact .inr (plain_bad (by omega) (hpos (by rw [hb]; decide)) rfl)
      | slash =>
        have hb : byteAt text 0 = slash := by simpa [delimiterTable] using hrow
        exact .inr (plain_slashes (by simp [hb]))
      | endOfInput =>
        cases text with
        | nil => exact .inl (.endOfScript rfl)
        | cons a rest => exact .inr (plain_bad (by omega) (by simp) rfl)
      | utf8Error =>
        refine .inr (plain_bad (by omega) (hpos fun h0 => ?_) rfl)
        rw [h0] at hrow
        exact absurd (hrow (by decide)) (by decide)
    · simp at hd

/-- A line ends at a line break, at NUL or with the text, which reads as NUL. -/
theorem isLineEnd_byteAt_lineLength (text : Bytes) :
    isLineEnd (byteAt text (lineLength text)) = true := by
  simpa [lineLength] using byteAt_length_takeWhile (fun b => !isLineEnd b) (by decide) text

/-- No byte before the end of a line ends it. -/
theorem not_lineEnd_of_lt {text : Bytes} {i : Nat} (h : i < lineLength text) :
    isLineEnd (byteAt text i) = false := by
  unfold lineLength at h
  induction text generalizing i with
  | nil => simp at h
  | cons b rest ih =>
    cases hb : isLineEnd b with
    | true => simp [hb] at h
    | false =>
      simp only [List.takeWhile_cons, hb, Bool.not_false, if_true, List.length_cons] at h
      cases i with
      | zero => simpa using hb
      | succ i => simpa using ih (Nat.lt_of_succ_lt_succ h)

/-- A line break ends in a line feed or a carriage return. -/
theorem isLineBreak_last {text : Bytes} (h : isLineBreak (byteAt text 0) = true) :
    isLineBreak (byteAt text (lineBreakLength text - 1)) = true := by
  unfold lineBreakLength
  split
  · rename_i hc
    simp only [Bool.and_eq_true] at hc
    simp [isLineBreak, hc.2]
  · exact h

theorem lineBreakLength_bounds {text : Bytes} (h : byteAt text 0 ≠ nul) :
    1 ≤ lineBreakLength text ∧ lineBreakLength text ≤ text.length := by
  have h0 := lt_length_of_byteAt h
  unfold lineBreakLength
  split
  · rename_i hc
    simp only [Bool.and_eq_true] at hc
    have := lt_length_of_byteAt_eq hc.2 (by decide)
    omega
  · omega

theorem lineBreak_bounds {text : Bytes} {skip : Nat} (h : byteAt text skip ≠ nul) :
    1 ≤ (lineBreak text skip).length ∧ (lineBreak text skip).length ≤ text.length := by
  have hlt := lt_length_of_byteAt h
  have h0 : byteAt (text.drop skip) 0 ≠ nul := by rwa [byteAt_drop]
  obtain ⟨h1, h2⟩ := lineBreakLength_bounds h0
  rw [List.length_drop] at h2
  simp only [lineBreak, good]
  omega

theorem comment_kind (text : Bytes) : (comment text).kind = .line := by
  unfold comment
  dsimp only
  split <;> rfl

theorem quoted_kind (kind : TokenKind) (text : Bytes) (skip : Nat) :
    (quoted kind text skip).kind = kind := by
  unfold quoted
  dsimp only
  split <;> rfl

theorem comment_bounds {text : Bytes} (hne : text ≠ []) (h : isLineEnd (byteAt text 0) = false) :
    1 ≤ (comment text).length ∧ (comment text).length ≤ text.length := by
  unfold comment
  dsimp only
  split
  · exact ⟨length_takeWhile_pos hne (by simp [h]), lineLength_le text⟩
  · rename_i hn
    exact lineBreak_bounds (by simpa using hn)

/-- Neither space nor a semicolon ends a line. -/
theorem not_lineEnd_of_comment {b : UInt8} (h : b = semicolon ∨ isSpace b = true) :
    isLineEnd b = false := by
  rcases h with rfl | h
  · decide
  · have hne (c : UInt8) (hc : isSpace c = false) : b ≠ c := fun hb => by simp [hb, hc] at h
    simp [isLineEnd, isLineBreak, hne lineFeed (by decide), hne carriageReturn (by decide),
      hne nul (by decide)]

/-- **A lexeme takes at least a byte, and no more than there are.** -/
theorem ofFront_bounds {text : Bytes} (h : text ≠ []) :
    1 ≤ (ofFront text).length ∧ (ofFront text).length ≤ text.length := by
  have hl := List.length_pos_iff.2 h
  rcases ofFront_cases text with hs | hp
  · generalize ofFront text = l at hs
    cases hs with
    | endOfScript h0 => exact absurd h0 h
    | opening b hb => exact ⟨by simp [good], hl⟩
    | closing b hb => exact ⟨by simp [good], hl⟩
    | lineBreak hb =>
      refine lineBreak_bounds fun h0 => ?_
      rw [h0] at hb
      exact absurd hb (by decide)
    | comment hb => exact comment_bounds h (not_lineEnd_of_comment hb)
  · exact ⟨hp.pos, hp.le⟩

theorem ofFront_closing {text : Bytes} {b : Bracket} (h : byteAt text 0 = b.closeByte) :
    ofFront text = good b.closeKind 1 := by
  unfold ofFront
  rw [h]
  cases b <;> rfl

end Lexeme

end RebolScan
