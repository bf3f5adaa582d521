import RebolScan.Proofs.Scan.Element
import RebolScan.Proofs.Token.OneLine

/-!
# Lines that an element crosses

An element takes its lexeme, or less of it, or more: but **where it does not take the lexeme as it
was cut, it stays on its line**. So the lines that the lexeme counts are the element's, whatever the
level: `Crosses` is what an element does to the count of lines, and `of_crosses` says it of all.
-/

set_option autoImplicit false

namespace RebolScan.Element

open Ascii

/-- What a reading that was made of the lexeme `l` does to the count of lines. -/
inductive Crosses (text : Bytes) (l : Lexeme) : Reading → Prop
  | within {r : Reading} (hl : l.lines = 0) (hs : l.lineStart = none)
      (h : Unbroken text 0 r.taken) : Crosses text l r
  | lineBreak (ht : Tallies text l.length l.lines (some l.length)) :
      Crosses text l ⟨.lineBreak, l.length⟩
  | whole {e : Element} (hleaf : e.isLeaf = true)
      (he : ∀ kind n, e = .invalid kind n → n = l.length)
      (ht : Tallies text l.length l.lines l.lineStart) : Crosses text l ⟨e, l.length⟩

variable {level : Level} {text : Bytes} {n : Nat}

/-! ## Readings that stay on their line -/

theorem taken_valueOr (kind : TokenKind) (n : Nat) (v : Option Value) :
    (valueOr kind n v).taken = n := by
  cases v <;> rfl

theorem taken_wordFrom (wordKind : WordKind) (kind : TokenKind) (start stop taken : Nat) :
    (wordFrom wordKind kind text start stop taken).taken = taken := by
  unfold wordFrom
  split
  · rfl
  · split
    · rfl
    · rfl

theorem taken_markedWord_le (wordKind : WordKind) (kind : TokenKind) (n : Nat) :
    (markedWord wordKind kind level text n).taken ≤ n := by
  unfold markedWord
  split
  · split
    · exact Nat.le_refl n
    · rw [taken_wordFrom]
      exact Nat.sub_le n 1
  · exact Nat.le_of_eq (taken_wordFrom _ _ _ _ _)

theorem taken_issueFrom_le (h1 : 1 ≤ n) : (issueFrom text n).taken ≤ n := by
  unfold issueFrom
  split
  · split
    · exact h1
    · exact h1
  · dsimp only
    split
    · exact Nat.le_refl n
    · split
      · exact Nat.le_refl n
      · exact Nat.le_refl n

theorem unbroken_dateEnd (h : Unbroken text 0 n) : Unbroken text 0 (dateEnd text n) := by
  fun_induction dateEnd text n with
  | case1 stop hs next hn => exact h
  | case2 stop hs next hn ih =>
    apply ih
    apply h.trans
    apply (unbroken_succ _).trans
    · exact unbroken_drop.1 (unbroken_runOf _)
    · rw [eq_of_beq hs]
      decide
  | case3 stop hs => exact h

theorem unbroken_dateFrom (h : Unbroken text 0 n) :
    Unbroken text 0 (dateFrom level text n).taken := by
  unfold dateFrom
  dsimp only
  rw [taken_valueOr]
  split
  · exact h
  · exact unbroken_dateEnd h

theorem unbroken_integerFrom (h : Unbroken text 0 n) :
    Unbroken text 0 (integerFrom level text n).taken := by
  unfold integerFrom
  split
  · exact unbroken_dateFrom (Lexeme.unbroken_pathEnd h)
  · rw [taken_valueOr]
    exact h

theorem unbroken_numberFrom {kind : TokenKind} {v : Option Value} (h : Unbroken text 0 n) :
    Unbroken text 0 (numberFrom kind text n v).taken := by
  unfold numberFrom
  split
  · rename_i hs
    apply h.trans
    apply unbroken_succ
    rw [eq_of_beq hs]
    decide
  · rw [taken_valueOr]
    exact h

theorem unbroken_timeFrom (h : Unbroken text 0 n) :
    Unbroken text 0 (timeFrom level text n).taken := by
  unfold timeFrom
  split
  · rw [taken_valueOr]
    exact h.mono (Nat.le_refl 0) (Nat.sub_le n 1)
  · rw [taken_valueOr]
    exact h

/-- A lexeme on one line makes an element on that line. -/
theorem unbroken_ofLexeme {l : Lexeme} (h1 : l.kind = .issue → 1 ≤ l.length)
    (h : Unbroken text 0 l.length) : Unbroken text 0 (ofLexeme level text l).taken := by
  have hle {n : Nat} (hn : n ≤ l.length) : Unbroken text 0 n := h.mono (Nat.le_refl 0) hn
  cases hkind : l.kind with
  | word | refinement =>
    simp only [ofLexeme, hkind, taken_wordFrom]
    exact h
  | setWord =>
    simp only [ofLexeme, hkind]
    split
    · rw [taken_wordFrom]
      exact hle (Nat.sub_le _ 1)
    · rw [taken_wordFrom]
      exact h
  | getWord | litWord =>
    simp only [ofLexeme, hkind]
    exact hle (taken_markedWord_le _ _ _)
  | issue =>
    simp only [ofLexeme, hkind]
    exact hle (taken_issueFrom_le (h1 hkind))
  | integer =>
    simp only [ofLexeme, hkind]
    exact unbroken_integerFrom h
  | date =>
    simp only [ofLexeme, hkind]
    exact unbroken_dateFrom h
  | decimal | percent | money =>
    simp only [ofLexeme, hkind]
    exact unbroken_numberFrom h
  | time =>
    simp only [ofLexeme, hkind]
    exact unbroken_timeFrom h
  | pair | tuple | binary | char | file | email | url | tag =>
    simp only [ofLexeme, hkind, taken_valueOr]
    exact h
  | _ =>
    simp only [ofLexeme, hkind]
    exact h

/-! ## Readings of whole lexemes -/

/-- A form that may be on more lines than one is taken as it was cut. -/
theorem crosses_valueOr {l : Lexeme} {kind : TokenKind} {v : Option Value}
    (hv : ∀ w, v = some w → w.isScalar = true)
    (ht : Tallies text l.length l.lines l.lineStart) :
    Crosses text l (valueOr kind l.length v) := by
  cases v with
  | none =>
    apply Crosses.whole rfl _ ht
    intro kind' n he
    cases he
    rfl
  | some v =>
    apply Crosses.whole (show (Element.value v).isLeaf = true from hv v rfl) _ ht
    intro kind' n he
    cases he

theorem crosses_ofLexeme {l : Lexeme} (hk : l.kind.mayCross = true)
    (hline : l.kind ≠ .line) (h : Lexeme.Lined text l) :
    Crosses text l (ofLexeme level text l) := by
  have ht := h.tallied
  rw [Lexeme.lastLine_of_kind hline] at ht
  cases hkind : l.kind with
  | string =>
    simp only [ofLexeme, hkind]
    apply Crosses.whole rfl _ ht
    intro kind' n he
    cases he
  | binary | char | file | tag =>
    simp only [ofLexeme, hkind]
    exact crosses_valueOr (isScalar_of_map (fun _ => rfl) _) ht
  | line => exact absurd hkind hline
  | _ =>
    rw [hkind] at hk
    cases hk

/-! ## What starts with slashes -/

theorem marked_lines (kind : TokenKind) (start : Nat) (f : Front) (m : Marks) :
    (Lexeme.wordTail.marked kind start f m).lines = 0 ∧
      (Lexeme.wordTail.marked kind start f m).lineStart = none := by
  simp only [Lexeme.wordTail.marked, apply_ite Lexeme.lines, apply_ite Lexeme.lineStart,
    Lexeme.good, Lexeme.bad, ite_self, and_self]

theorem wordTail_lines (kind : TokenKind) (start : Nat) (f : Front) :
    (Lexeme.wordTail kind start f).lines = 0 ∧ (Lexeme.wordTail kind start f).lineStart = none := by
  unfold Lexeme.wordTail
  split
  · split
    · dsimp only
      split
      · split
        · exact ⟨rfl, rfl⟩
        · exact ⟨rfl, rfl⟩
      · exact ⟨rfl, rfl⟩
    · split
      · exact ⟨rfl, rfl⟩
      · exact marked_lines _ _ _ _
  · exact marked_lines _ _ _ _

theorem slashes_lines (text : Bytes) :
    (Lexeme.slashes text).lines = 0 ∧ (Lexeme.slashes text).lineStart = none := by
  unfold Lexeme.slashes
  dsimp only
  split
  · split
    · split
      · exact ⟨rfl, rfl⟩
      · exact wordTail_lines _ _ _
    · exact ⟨rfl, rfl⟩
  · split
    · exact ⟨rfl, rfl⟩
    · exact ⟨rfl, rfl⟩

theorem ofFront_slash (h : byteAt text 0 = slash) : Lexeme.ofFront text = Lexeme.slashes text := by
  unfold Lexeme.ofFront
  rw [h]
  rfl

theorem mayCross_of_startsPath {kind : TokenKind} (h : startsPath kind = true) :
    kind.mayCross = false := by
  cases kind with
  | word | litWord | getWord | refinement => rfl
  | _ => cases h

/-! ## All elements -/

theorem lineFrom_lineBreak {skip : Nat} (h : isLineBreak (byteAt text skip) = true) :
    lineFrom text (Lexeme.lineBreak text skip).length =
      ⟨.lineBreak, (Lexeme.lineBreak text skip).length⟩ := by
  have hd : isLineBreak (byteAt (text.drop skip) 0) = true := by
    rwa [byteAt_drop]
  have hlen := Lexeme.lineBreakLength_bounds fun h0 => absurd (h0 ▸ hd) (by decide)
  have hl := Lexeme.isLineBreak_last hd
  rw [byteAt_drop, ← Nat.add_sub_assoc hlen.1] at hl
  exact congrArg (Reading.mk · _) (if_pos hl)

theorem crosses_lineBreak {skip : Nat} (h : isLineBreak (byteAt text skip) = true) :
    Crosses text (Lexeme.lineBreak text skip) (ofLexeme level text (Lexeme.lineBreak text skip)) := by
  have hof : ofLexeme level text (Lexeme.lineBreak text skip) =
      lineFrom text (Lexeme.lineBreak text skip).length := rfl
  rw [hof, lineFrom_lineBreak h]
  exact .lineBreak (Lexeme.lined_lineBreak h).tallied

/-- A comment that ends without a line break is on one line. -/
theorem crosses_comment : Crosses text (Lexeme.comment text)
    (ofLexeme level text (Lexeme.comment text)) := by
  unfold Lexeme.comment
  dsimp only
  split
  · exact .within rfl rfl (Lexeme.unbroken_lineLength text)
  · rename_i hnul
    apply crosses_lineBreak
    have he := Lexeme.isLineEnd_byteAt_lineLength text
    simpa [isLineEnd, hnul] using he

/-- **What an element does to the count of lines**, whatever the level. -/
theorem of_crosses (level : Level) (text : Bytes) :
    Crosses text (Lexeme.ofFront text) (of level text (Lexeme.ofFront text)) := by
  have hlined := Lexeme.ofFront_lined text
  unfold of
  split
  · rename_i hm
    have hne : text ≠ [] := by
      rintro rfl
      cases hm
    obtain ⟨hl, hs, hu⟩ := hlined.oneLine (.inl hm)
    apply Crosses.within hl hs
    show Unbroken text 0 (max (Lexeme.ofFront text).length 1)
    rwa [Nat.max_eq_left (Lexeme.ofFront_bounds hne).1]
  · rename_i hm
    split
    · rename_i hp
      simp only [Bool.and_eq_true] at hp
      obtain ⟨hl, hs, -⟩ := hlined.oneLine (.inr (mayCross_of_startsPath hp.1.2))
      exact .within hl hs (unbroken_refl 0)
    · split
      · rename_i hp
        rw [Bool.and_eq_true] at hp
        have h0 : byteAt text 0 = slash := eq_of_beq hp.2
        rw [ofFront_slash h0]
        obtain ⟨hl, hs⟩ := slashes_lines text
        apply Crosses.within hl hs
        apply unbroken_succ
        rw [h0]
        decide
      · cases hk : (Lexeme.ofFront text).kind.mayCross with
        | false =>
          obtain ⟨hl, hs, hu⟩ := hlined.oneLine (.inr hk)
          apply Crosses.within hl hs
          apply unbroken_ofLexeme _ hu
          intro hissue
          apply (Lexeme.ofFront_bounds _).1
          rintro rfl
          cases hissue
        | true =>
          by_cases hline : (Lexeme.ofFront text).kind = .line
          · rcases Lexeme.ofFront_cases text with hst | hpl
            · generalize Lexeme.ofFront text = l at hst hline
              cases hst with
              | endOfScript h => cases hline
              | opening b h => cases b <;> cases hline
              | closing b h => cases b <;> cases hline
              | lineBreak h => exact crosses_lineBreak h
              | comment h => exact crosses_comment
            · have hplain := hpl.kind
              rw [hline] at hplain
              cases hplain
          · exact crosses_ofLexeme hk hline hlined

end RebolScan.Element
