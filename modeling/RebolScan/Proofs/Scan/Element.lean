import RebolScan.Proofs.Token.Extent
import RebolScan.Scan.Element

/-!
# What an element says about the text it was read from

`Element.of` answers for a whole lexeme, and its answer fixes what stands at the front of the text:
a closer is a closing bracket of one byte, a line break ends in one, a path head is followed by a
slash. `of_reads` says this **once, for every level and every text**; whoever wants to know what a
round of the scanner met takes its cases and never opens `Element.of`.
-/

set_option autoImplicit false

namespace RebolScan

open Ascii

/-- The elements that stand for themselves: no level opens, closes or breaks off at them. -/
def Element.isLeaf : Element → Bool
  | .value v => v.isScalar
  | .word _ _ | .issue _ | .invalid _ _ => true
  | _ => false

/-- The elements that a path can have for a segment. -/
def Element.isSegment : Element → Bool
  | .slot | .construct | .opener .paren => true
  | e => e.isLeaf

/-- The elements that a round turns into an item or passes over: nothing ends at them. -/
def Element.isItem : Element → Bool
  | .endOfInput | .closer _ => false
  | _ => true

/-- A path starts with a byte of a word, or with a slash before one. -/
def StartsSegment (text : Bytes) : Prop :=
  isDelimiter (byteAt text 0) = false ∨
    (byteAt text 0 = slash ∧ isDelimiter (byteAt text 1) = false)

theorem StartsSegment.ne_nil {text : Bytes} (h : StartsSegment text) : text ≠ [] := by
  rintro rfl
  rcases h with h | ⟨h, -⟩
  · exact absurd h (by decide)
  · exact absurd h (by decide)

namespace Element

theorem isItem_cases (e : Element) : e = .endOfInput ∨ (∃ b, e = .closer b) ∨ e.isItem = true := by
  cases e with
  | endOfInput => exact .inl rfl
  | closer b => exact .inr (.inl ⟨b, rfl⟩)
  | _ => exact .inr (.inr rfl)

theorem isItem_of_isSegment {e : Element} (h : e.isSegment = true) : e.isItem = true := by
  cases e with
  | endOfInput | closer b => cases h
  | _ => rfl

theorem isSegment_of_isLeaf {e : Element} (h : e.isLeaf = true) : e.isSegment = true := by
  cases e with
  | value v => exact h
  | word | issue | invalid => rfl
  | _ => cases h

theorem ne_endOfInput_of_isItem {e : Element} (h : e.isItem = true) : e ≠ .endOfInput := by
  rintro rfl
  cases h

/-- What a reading at a level says about the text in front of which it was made. -/
inductive Reads (level : Level) (text : Bytes) : Reading → Prop
  | endOfInput (h : text = []) : Reads level text ⟨.endOfInput, 0⟩
  | closer (b : Bracket) (h : byteAt text 0 = b.closeByte) : Reads level text ⟨.closer b, 1⟩
  | opener (b : Bracket) (h : byteAt text 0 = b.openByte) : Reads level text ⟨.opener b, 1⟩
  | lineBreak (h : isLineBreak (byteAt text 0) = true) :
      Reads level text ⟨.lineBreak, lineBreakLength text⟩
  | commentLine (h : byteAt text 0 = semicolon ∨ isSpace (byteAt text 0) = true)
      (hb : isLineBreak (byteAt text (lineLength text)) = true) :
      Reads level text
        ⟨.lineBreak, lineLength text + lineBreakLength (text.drop (lineLength text))⟩
  | comment (h : byteAt text 0 = semicolon ∨ isSpace (byteAt text 0) = true)
      (hb : byteAt text (lineLength text) = nul) : Reads level text ⟨.comment, lineLength text⟩
  | pathHead (kind : TokenKind) (hl : level ≠ .path)
      (hw : (Lexeme.ofFront text).malformed = false) (hs : startsPath kind = true)
      (hk : (Lexeme.ofFront text).kind = kind) (hf : StartsSegment text)
      (hslash : byteAt text (Lexeme.ofFront text).length = slash) :
      Reads level text ⟨.pathHead kind, 0⟩
  | slot (hl : level = .path) (h : byteAt text 0 = slash) : Reads level text ⟨.slot, 1⟩
  | construct (n : Nat) (h1 : 1 ≤ n) (h2 : n ≤ text.length) : Reads level text ⟨.construct, n⟩
  | leaf (e : Element) (n : Nat) (h : e.isLeaf = true) (h1 : 1 ≤ n) (h2 : n ≤ text.length) :
      Reads level text ⟨e, n⟩

section

variable {level : Level} {text : Bytes}

theorem reads_bad {kind : TokenKind} {n : Nat} (h1 : 1 ≤ n) (h2 : n ≤ text.length) :
    Reads level text (bad kind n) := .leaf _ _ rfl h1 h2

theorem isScalar_of_map {α : Type} {f : α → Value} (hf : ∀ a, (f a).isScalar = true)
    (o : Option α) : ∀ v, o.map f = some v → v.isScalar = true := by
  intro v h
  obtain ⟨a, -, rfl⟩ := Option.map_eq_some_iff.1 h
  exact hf a

theorem reads_valueOr {kind : TokenKind} {n : Nat} {v : Option Value} (h1 : 1 ≤ n)
    (h2 : n ≤ text.length) (hv : ∀ w, v = some w → w.isScalar = true) :
    Reads level text (valueOr kind n v) := by
  cases v with
  | none => exact reads_bad h1 h2
  | some v => exact .leaf _ _ (hv v rfl) h1 h2

theorem reads_wordFrom {wordKind : WordKind} {kind : TokenKind} {start stop taken : Nat}
    (h1 : 1 ≤ taken) (h2 : taken ≤ text.length) :
    Reads level text (wordFrom wordKind kind text start stop taken) := by
  unfold wordFrom
  split
  · exact .leaf _ _ rfl h1 h2
  · split
    · exact .leaf _ _ rfl h1 h2
    · exact .leaf _ _ rfl h1 h2

theorem reads_markedWord {wordKind : WordKind} {kind : TokenKind} {n : Nat} (h1 : 1 ≤ n)
    (h2 : n ≤ text.length) : Reads level text (markedWord wordKind kind level text n) := by
  unfold markedWord
  split
  · split
    · exact reads_bad h1 h2
    · rename_i hn
      simp only [Bool.or_eq_true, beq_iff_eq, not_or] at hn
      exact reads_wordFrom (by omega) (by omega)
  · exact reads_wordFrom h1 h2

theorem reads_issueFrom {n : Nat} (h1 : 1 ≤ n) (h2 : n ≤ text.length) :
    Reads level text (issueFrom text n) := by
  unfold issueFrom
  split
  · split
    · exact .leaf _ _ rfl (by omega) (by omega)
    · exact .leaf _ _ rfl (by omega) (by omega)
  · dsimp only
    split
    · exact reads_bad h1 h2
    · split
      · exact .leaf _ _ rfl h1 h2
      · exact reads_bad h1 h2

/-- What slashes hold together after a date lies in the text. -/
theorem dateEnd_bounds {stop : Nat} (h : stop ≤ text.length) :
    stop ≤ dateEnd text stop ∧ dateEnd text stop ≤ text.length := by
  fun_induction dateEnd text stop with
  | case1 stop hs next hn => exact ⟨Nat.le_refl _, h⟩
  | case2 stop hs next hn ih =>
    have hlt := lt_length_of_byteAt_eq hs (by decide)
    have hr : (runOf (text.drop (stop + 1))).length ≤ text.length - (stop + 1) := by
      rw [← List.length_drop]
      exact (List.takeWhile_sublist _).length_le
    obtain ⟨h1, h2⟩ := ih (by omega)
    exact ⟨by omega, h2⟩
  | case3 stop hs => exact ⟨Nat.le_refl _, h⟩

theorem reads_dateFrom {n : Nat} (h1 : 1 ≤ n) (h2 : n ≤ text.length) :
    Reads level text (dateFrom level text n) := by
  obtain ⟨h3, h4⟩ := dateEnd_bounds h2
  unfold dateFrom
  dsimp only
  split
  · exact reads_valueOr h1 h2 (isScalar_of_map (fun _ => rfl) _)
  · exact reads_valueOr (by omega) h4 (isScalar_of_map (fun _ => rfl) _)

theorem reads_integerFrom {n : Nat} (h1 : 1 ≤ n) (h2 : n ≤ text.length) :
    Reads level text (integerFrom level text n) := by
  obtain ⟨h3, h4⟩ := Lexeme.pathEnd_bounds h2
  unfold integerFrom
  split
  · exact reads_dateFrom (by omega) h4
  · exact reads_valueOr h1 h2 (isScalar_of_map (fun _ => rfl) _)

theorem reads_numberFrom {kind : TokenKind} {n : Nat} {v : Option Value} (h1 : 1 ≤ n)
    (h2 : n ≤ text.length) (hv : ∀ w, v = some w → w.isScalar = true) :
    Reads level text (numberFrom kind text n v) := by
  unfold numberFrom
  split
  · rename_i hs
    exact reads_bad (by omega) (lt_length_of_byteAt_eq hs (by decide))
  · exact reads_valueOr h1 h2 hv

theorem reads_timeFrom {n : Nat} (h1 : 2 ≤ n) (h2 : n ≤ text.length) :
    Reads level text (timeFrom level text n) := by
  unfold timeFrom
  split
  · exact reads_valueOr (by omega) (by omega) (isScalar_of_map (fun _ => rfl) _)
  · exact reads_valueOr (by omega) h2 (isScalar_of_map (fun _ => rfl) _)

theorem reads_lineBreak (h : isLineBreak (byteAt text 0) = true) :
    Reads level text (lineFrom text (Lexeme.lineBreak text 0).length) := by
  have hlen : (Lexeme.lineBreak text 0).length = lineBreakLength text := by
    simp [Lexeme.lineBreak, Lexeme.good]
  rw [hlen, lineFrom, if_pos (Lexeme.isLineBreak_last h)]
  exact .lineBreak h

theorem reads_comment (h : byteAt text 0 = semicolon ∨ isSpace (byteAt text 0) = true)
    (hne : text ≠ []) : Reads level text (lineFrom text (Lexeme.comment text).length) := by
  have hn : 1 ≤ lineLength text :=
    length_takeWhile_pos hne (by simp [Lexeme.not_lineEnd_of_comment h])
  unfold Lexeme.comment
  dsimp only
  split
  · rename_i hnul
    -- The last byte of a comment is no line break, so what ends here is the input.
    have hlast : isLineBreak (byteAt text (lineLength text - 1)) = false := by
      have he := Lexeme.not_lineEnd_of_lt (show lineLength text - 1 < lineLength text by omega)
      simp only [isLineEnd, Bool.or_eq_false_iff] at he
      exact he.1
    simp only [Lexeme.good, lineFrom, hlast]
    exact .comment h (eq_of_beq hnul)
  · rename_i hnul
    have hb : isLineBreak (byteAt text (lineLength text)) = true := by
      have he := Lexeme.isLineEnd_byteAt_lineLength text
      simpa [isLineEnd, hnul] using he
    have hlen : (Lexeme.lineBreak text (lineLength text)).length =
        lineLength text + lineBreakLength (text.drop (lineLength text)) := rfl
    have hd : isLineBreak (byteAt (text.drop (lineLength text)) 0) = true := by
      rwa [byteAt_drop]
    have h1 := Lexeme.lineBreakLength_bounds fun h0 => absurd (h0 ▸ hd) (by decide)
    have hl := Lexeme.isLineBreak_last hd
    rw [byteAt_drop, ← Nat.add_sub_assoc h1.1] at hl
    rw [hlen, lineFrom, if_pos hl]
    exact .commentLine h hb

/-- A plain lexeme makes a leaf or opens a construction. -/
theorem reads_plain {l : Lexeme} (h : Lexeme.Plain text l) (hw : l.malformed = false) :
    Reads level text (ofLexeme level text l) := by
  obtain ⟨h1, h2, hk, hc⟩ := h
  unfold ofLexeme
  dsimp only
  split <;> rename_i hkind <;> simp only [hkind, TokenKind.isStructural, Bool.true_eq_false] at hk
  · exact reads_wordFrom h1 h2
  · have := hc (by rw [hkind]; rfl) hw
    split
    · exact reads_wordFrom (by omega) (by omega)
    · exact reads_wordFrom h1 h2
  · exact reads_markedWord h1 h2
  · exact reads_markedWord h1 h2
  · exact reads_wordFrom h1 h2
  · exact reads_issueFrom h1 h2
  · exact .construct _ h1 h2
  · exact reads_integerFrom h1 h2
  · exact reads_dateFrom h1 h2
  · exact reads_numberFrom h1 h2 (isScalar_of_map (fun _ => rfl) _)
  · exact reads_numberFrom h1 h2 (isScalar_of_map (fun _ => rfl) _)
  · exact reads_numberFrom h1 h2 (isScalar_of_map (fun _ => rfl) _)
  · exact reads_timeFrom (hc (by rw [hkind]; rfl) hw) h2
  · exact reads_valueOr h1 h2 (isScalar_of_map (fun _ => rfl) _)
  · exact reads_valueOr h1 h2 (isScalar_of_map (fun _ => rfl) _)
  · exact .leaf _ _ rfl h1 h2
  · exact reads_valueOr h1 h2 (isScalar_of_map (fun _ => rfl) _)
  · exact reads_valueOr h1 h2 (isScalar_of_map (fun _ => rfl) _)
  · exact reads_valueOr h1 h2 (isScalar_of_map (fun _ => rfl) _)
  · exact reads_valueOr h1 h2 (isScalar_of_map (fun _ => rfl) _)
  · exact reads_valueOr h1 h2 (isScalar_of_map (fun _ => rfl) _)
  · exact reads_valueOr h1 h2 (isScalar_of_map (fun _ => rfl) _)
  · exact reads_bad h1 h2

/-- After slashes that a word byte follows, a lexeme is a refinement or malformed. -/
theorem startsSegment_of_slashes (h0 : byteAt text 0 = slash)
    (hw : (Lexeme.slashes text).malformed = false)
    (hs : byteAt text (Lexeme.slashes text).length = slash) : StartsSegment text := by
  have hstop : byteAt text (text.takeWhile (· == slash)).length ≠ slash := by
    simpa using byteAt_length_takeWhile (· == slash) (by decide) text
  unfold Lexeme.slashes at hw hs
  dsimp only at hw hs
  split at hw
  · rename_i hnext
    split at hw
    · rename_i hone
      refine .inr ⟨h0, ?_⟩
      rw [eq_of_beq hone] at hnext
      simp only [isWordOrNumber, Bool.or_eq_true] at hnext
      rcases hnext with ((((hn | hn) | hn) | hn) | hn)
      · exact not_delimiter_of_isWord hn
      · exact not_delimiter_of_isNumber hn
      all_goals rw [eq_of_beq hn]; decide
    · simp [Lexeme.bad] at hw
  · rename_i hnext
    rw [if_neg hnext] at hs
    split at hw
    · simp [Lexeme.bad] at hw
    · rename_i hnext
      rw [if_neg hnext] at hs
      exact absurd hs hstop

theorem startsSegment_of_head (hw : (Lexeme.ofFront text).malformed = false)
    (hk : startsPath (Lexeme.ofFront text).kind = true)
    (hs : byteAt text (Lexeme.ofFront text).length = slash) : StartsSegment text := by
  cases hd : isDelimiter (byteAt text 0) with
  | false => exact .inl hd
  | true =>
    unfold isDelimiter at hd
    split at hd
    · rename_i d hc
      have hof : Lexeme.ofFront text = Lexeme.delimited d text := by
        unfold Lexeme.ofFront
        rw [hc]
      rw [hof] at hw hk hs
      -- Of the delimiters only a slash starts a word.
      cases d with
      | slash =>
        have h0 : byteAt text 0 = slash := by
          simpa [delimiterTable] using mem_delimiterTable hc (by decide)
        exact startsSegment_of_slashes h0 hw hs
      | endOfInput =>
        cases text with
        | nil => exact absurd hk (by decide)
        | cons b rest => exact absurd hw (by simp [Lexeme.delimited, Lexeme.bad])
      | space => exact absurd hk (by rw [Lexeme.delimited, Lexeme.comment_kind]; decide)
      | semicolon => exact absurd hk (by rw [Lexeme.delimited, Lexeme.comment_kind]; decide)
      | quote => exact absurd hk (by rw [Lexeme.delimited, Lexeme.quoted_kind]; decide)
      | leftBrace => exact absurd hk (by rw [Lexeme.delimited, Lexeme.quoted_kind]; decide)
      | utf8Error => exact absurd hw (by simp [Lexeme.delimited, Lexeme.bad])
      | _ =>
        exact absurd hk (by
          simp [Lexeme.delimited, Lexeme.good, Lexeme.bad, Lexeme.lineBreak, startsPath])
    · simp at hd

/-- **What an element says about its text**, whatever the level. -/
theorem of_reads (level : Level) (text : Bytes) :
    Reads level text (of level text (Lexeme.ofFront text)) := by
  unfold of
  split
  · rename_i hm
    have hne : text ≠ [] := fun h0 => by simp [h0] at hm; exact absurd hm (by decide)
    obtain ⟨h1, h2⟩ := Lexeme.ofFront_bounds hne
    exact reads_bad (by omega) (by omega)
  · rename_i hm
    have hw : (Lexeme.ofFront text).malformed = false := by simpa using hm
    split
    · rename_i hp
      simp only [Bool.and_eq_true, bne_iff_ne, ne_eq, beq_iff_eq] at hp
      obtain ⟨⟨hl, hk⟩, hs⟩ := hp
      exact .pathHead _ hl hw hk rfl (startsSegment_of_head hw hk hs) hs
    · split
      · rename_i hp
        simp only [Bool.and_eq_true, beq_iff_eq] at hp
        exact .slot hp.1 hp.2
      · rcases Lexeme.ofFront_cases text with hst | hpl
        · generalize Lexeme.ofFront text = l at hst hw
          cases hst with
          | endOfScript h => exact .endOfInput h
          | opening b h => cases b <;> exact .opener _ h
          | closing b h => cases b <;> exact .closer _ h
          | lineBreak h => exact reads_lineBreak h
          | comment h =>
            have hof : ofLexeme level text (Lexeme.comment text) =
                lineFrom text (Lexeme.comment text).length := by
              unfold ofLexeme
              rw [Lexeme.comment_kind]
            rw [hof]
            refine reads_comment h fun h0 => ?_
            rw [h0] at h
            exact absurd h (by decide)
        · exact reads_plain hpl hw

/-! ## What every reading has in common -/

/-- **An element takes at least a byte, and no more than there are**, unless it is the end or the
head of a path. -/
theorem Reads.taken_bounds {r : Reading} (h : Reads level text r) (hend : r.element ≠ .endOfInput)
    (hhead : ∀ kind, r.element ≠ .pathHead kind) : 1 ≤ r.taken ∧ r.taken ≤ text.length := by
  have one {b : UInt8} (hb : byteAt text 0 = b) (hne : b ≠ nul) : 1 ≤ text.length :=
    Nat.succ_le_of_lt (Nat.zero_lt_of_lt (lt_length_of_byteAt (hb ▸ hne)))
  cases h with
  | endOfInput h => exact absurd rfl hend
  | closer b h => exact ⟨Nat.le_refl _, one h (by cases b <;> decide)⟩
  | opener b h => exact ⟨Nat.le_refl _, one h (by cases b <;> decide)⟩
  | lineBreak h =>
    refine Lexeme.lineBreakLength_bounds fun h0 => ?_
    rw [h0] at h
    exact absurd h (by decide)
  | commentLine h hb =>
    have hd : byteAt (text.drop (lineLength text)) 0 ≠ nul := by
      intro h0
      rw [byteAt_drop] at h0
      rw [Nat.add_zero] at h0
      rw [h0] at hb
      exact absurd hb (by decide)
    have h1 := Lexeme.lineBreakLength_bounds hd
    rw [List.length_drop] at h1
    exact ⟨by dsimp only; omega, by dsimp only; omega⟩
  | comment h hb =>
    refine ⟨length_takeWhile_pos ?_ (by simp [Lexeme.not_lineEnd_of_comment h]), lineLength_le text⟩
    rintro rfl
    exact absurd h (by decide)
  | pathHead kind => exact absurd rfl (hhead kind)
  | slot hl h => exact ⟨Nat.le_refl _, one h (by decide)⟩
  | construct n h1 h2 => exact ⟨h1, h2⟩
  | leaf e n h h1 h2 => exact ⟨h1, h2⟩

theorem Reads.of_closer {r : Reading} {b : Bracket} (h : Reads level text r)
    (he : r.element = .closer b) : byteAt text 0 = b.closeByte := by
  cases h with
  | closer b' h =>
    cases he
    exact h
  | leaf e n h =>
    subst he
    cases h
  | _ => cases he

theorem Reads.of_opener {r : Reading} {b : Bracket} (h : Reads level text r)
    (he : r.element = .opener b) : byteAt text 0 = b.openByte ∧ r.taken = 1 := by
  cases h with
  | opener b' h =>
    cases he
    exact ⟨h, rfl⟩
  | leaf e n h =>
    subst he
    cases h
  | _ => cases he

theorem Reads.isScalar_of_value {r : Reading} {v : Value} (h : Reads level text r)
    (he : r.element = .value v) : v.isScalar = true := by
  cases h with
  | leaf e n h =>
    subst he
    exact h
  | _ => cases he

theorem Reads.of_endOfInput {r : Reading} (h : Reads level text r)
    (he : r.element = .endOfInput) : text = [] := by
  cases h with
  | endOfInput h => exact h
  | leaf e n h =>
    subst he
    cases h
  | _ => cases he

theorem Reads.of_slot {r : Reading} (h : Reads level text r) (he : r.element = .slot) :
    level = .path ∧ byteAt text 0 = slash ∧ r.taken = 1 := by
  cases h with
  | slot hl h => exact ⟨hl, h, rfl⟩
  | leaf e n h =>
    subst he
    cases h
  | _ => cases he

theorem Reads.of_pathHead {r : Reading} {kind : TokenKind} (h : Reads level text r)
    (he : r.element = .pathHead kind) : StartsSegment text := by
  cases h with
  | pathHead kind' hl hw hs hk hf => exact hf
  | leaf e n h =>
    subst he
    cases h
  | _ => cases he

theorem Reads.startsPath_of_pathHead {r : Reading} {kind : TokenKind} (h : Reads level text r)
    (he : r.element = .pathHead kind) : startsPath (Lexeme.ofFront text).kind = true := by
  cases h with
  | pathHead kind' hl hw hs hk hf =>
    rw [hk]
    exact hs
  | leaf e n h =>
    subst he
    cases h
  | _ => cases he

/-- A line break is a part of what is taken for one. -/
theorem Reads.of_lineBreak {r : Reading} (h : Reads level text r) (he : r.element = .lineBreak) :
    ∃ i, i < r.taken ∧ isLineBreak (byteAt text i) = true := by
  have first {text : Bytes} (h : isLineBreak (byteAt text 0) = true) :
      1 ≤ lineBreakLength text :=
    (Lexeme.lineBreakLength_bounds fun h0 => absurd (h0 ▸ h) (by decide)).1
  cases h with
  | lineBreak h => exact ⟨0, first h, h⟩
  | commentLine h hb =>
    have hd : isLineBreak (byteAt (text.drop (lineLength text)) 0) = true := by
      rwa [byteAt_drop]
    exact ⟨lineLength text, Nat.lt_add_of_pos_right (first hd), hb⟩
  | leaf e n h =>
    subst he
    cases h
  | _ => cases he

/-- Only at the end of the input is there nothing to read. -/
theorem Reads.ne_nil {r : Reading} (h : Reads level text r) (he : r.element ≠ .endOfInput) :
    text ≠ [] := by
  by_cases hhead : ∃ kind, r.element = .pathHead kind
  · obtain ⟨kind, hk⟩ := hhead
    exact (h.of_pathHead hk).ne_nil
  · obtain ⟨h1, h2⟩ := h.taken_bounds he fun kind hk => hhead ⟨kind, hk⟩
    exact List.ne_nil_of_length_pos (by omega)

theorem not_startsSegment (hd : isDelimiter (byteAt text 0) = true) (hs : byteAt text 0 ≠ slash) :
    ¬StartsSegment text := by
  rintro (h0 | ⟨h0, -⟩)
  · rw [hd] at h0
    cases h0
  · exact hs h0

theorem not_startsSegment_of_isLineBreak (h : isLineBreak (byteAt text 0) = true) :
    ¬StartsSegment text := by
  simp only [isLineBreak, Bool.or_eq_true, beq_iff_eq] at h
  rcases h with h | h <;> exact not_startsSegment (by rw [h]; decide) (by rw [h]; decide)

theorem not_startsSegment_of_isSpace (h : isSpace (byteAt text 0) = true) :
    ¬StartsSegment text := by
  refine not_startsSegment ?_ fun h0 => ?_
  · simp only [isSpace, beq_iff_eq] at h
    simp [isDelimiter, h]
  · rw [h0] at h
    exact absurd h (by decide)

theorem not_startsSegment_of_comment
    (h : byteAt text 0 = semicolon ∨ isSpace (byteAt text 0) = true) : ¬StartsSegment text := by
  rcases h with h | h
  · exact not_startsSegment (by rw [h]; decide) (by rw [h]; decide)
  · exact not_startsSegment_of_isSpace h

theorem Reads.of_startsSegment {r : Reading} (h : Reads .path text r) (hs : StartsSegment text) :
    r.element.isSegment = true := by
  cases h with
  | endOfInput h =>
    subst h
    exact absurd hs (not_startsSegment (by decide) (by decide))
  | closer b h =>
    refine absurd hs (not_startsSegment ?_ ?_) <;> rw [h] <;> cases b <;> decide
  | opener b h =>
    refine absurd hs (not_startsSegment ?_ ?_) <;> rw [h] <;> cases b <;> decide
  | lineBreak h => exact absurd hs (not_startsSegment_of_isLineBreak h)
  | commentLine h hb => exact absurd hs (not_startsSegment_of_comment h)
  | comment h hb => exact absurd hs (not_startsSegment_of_comment h)
  | pathHead kind hl => exact absurd rfl hl
  | slot hl h => rfl
  | construct n h1 h2 => rfl
  | leaf e n h h1 h2 => exact isSegment_of_isLeaf h

/-- A later segment of a path may be a paren as well. -/
theorem Reads.of_segment {r : Reading} (h : Reads .path text r)
    (hs : StartsSegment text ∨ byteAt text 0 = parenOpen) :
    r.element.isSegment = true := by
  rcases hs with hs | hp
  · exact h.of_startsSegment hs
  · cases h with
    | opener b h =>
      cases b with
      | block =>
        rw [hp] at h
        exact absurd h (by decide)
      | paren => rfl
    | closer b h =>
      rw [hp] at h
      cases b <;> exact absurd h (by decide)
    | endOfInput h =>
      rw [h] at hp
      exact absurd hp (by decide)
    | lineBreak h =>
      rw [hp] at h
      exact absurd h (by decide)
    | commentLine h hb =>
      rw [hp] at h
      exact absurd h (by decide)
    | comment h hb =>
      rw [hp] at h
      exact absurd h (by decide)
    | pathHead kind hl => exact absurd rfl hl
    | slot hl h => rfl
    | construct n h1 h2 => rfl
    | leaf e n h h1 h2 => exact isSegment_of_isLeaf h

theorem of_closing {b : Bracket} (level : Level) (h : byteAt text 0 = b.closeByte) :
    of level text (Lexeme.ofFront text) = ⟨.closer b, 1⟩ := by
  rw [Lexeme.ofFront_closing h]
  have hslash : (b.closeByte == slash) = false := by cases b <;> rfl
  unfold of
  rw [h, hslash, Bool.and_false]
  cases b <;> cases level <;> rfl

/-- NUL ends the input only where the input ends; before that it is refused. -/
theorem of_nul (level : Level) (rest : Bytes) :
    (of level (nul :: rest) (Lexeme.ofFront (nul :: rest))).element = .invalid .word 1 := rfl

end

end Element

end RebolScan
