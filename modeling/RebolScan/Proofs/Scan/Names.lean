import RebolScan.Proofs.Scan.Element
import RebolScan.Proofs.Text.Utf8
import RebolScan.Proofs.Token.Names

/-!
# The words that elements are

An element that is a word takes its name from the lexeme, without the mark in front and without a
colon that ends it. So **the name is one that a word may have, and in a path no word is a set-word**
(`named_of`). What the head of a path is when it is read again, as the first segment, is told by the
kind of its lexeme (`firstReads_of`).
-/

set_option autoImplicit false

namespace RebolScan.Element

open Ascii

/-- The elements that have a name, which is still to be interned. -/
def hasName : Element → Bool
  | .word _ _ | .issue _ => true
  | _ => false

/-- Where the name of a word stands in its lexeme, from which place to which, and how many bytes the
word takes. In a path a colon at the end is the path's. -/
inductive WordCut (level : Level) (text : Bytes) (l : Lexeme) : WordKind → Nat → Nat → Nat → Prop
  | word (hk : l.kind = .word) : WordCut level text l .word 0 l.length l.length
  | pathEnd (hk : l.kind = .setWord) (hl : level = .path) :
      WordCut level text l .word 0 (l.length - 1) (l.length - 1)
  | setWord (hk : l.kind = .setWord) (hl : level ≠ .path) :
      WordCut level text l .setWord 0 (l.length - 1) l.length
  | marked {kind : WordKind}
      (hk : (l.kind = .getWord ∧ kind = .getWord) ∨ (l.kind = .litWord ∧ kind = .litWord))
      (hcolon : byteAt text (l.length - 1) ≠ colon) : WordCut level text l kind 1 l.length l.length
  | markedEnd {kind : WordKind}
      (hk : (l.kind = .getWord ∧ kind = .getWord) ∨ (l.kind = .litWord ∧ kind = .litWord))
      (hcolon : byteAt text (l.length - 1) = colon) (hl : level = .path) :
      WordCut level text l kind 1 (l.length - 1) (l.length - 1)
  | refinement (hk : l.kind = .refinement) : WordCut level text l .refinement 1 l.length l.length

/-- What a reading that has a name says of its lexeme. -/
inductive NameOf (level : Level) (text : Bytes) (l : Lexeme) : Reading → Prop
  | word {kind : WordKind} {start stop taken : Nat} {name : String} (hw : l.malformed = false)
      (hcut : WordCut level text l kind start stop taken) (hlt : start < stop)
      (hname : Utf8.encode name = between text start stop) :
      NameOf level text l ⟨.word kind name, taken⟩
  | issue {name : String} (hw : l.malformed = false) (hk : l.kind = .issue)
      (htext : Literal.isIssueText (between text 1 l.length) = true)
      (hname : Utf8.encode name = between text 1 l.length) :
      NameOf level text l ⟨.issue name, l.length⟩
  | other {r : Reading} (h : r.element.hasName = false) : NameOf level text l r

section

variable {level : Level} {text : Bytes} {kind : TokenKind} {n : Nat} {l : Lexeme}

theorem nameOf_bad : NameOf level text l (bad kind n) := .other rfl

theorem nameOf_valueOr {v : Option Value} : NameOf level text l (valueOr kind n v) := by
  cases v with
  | none => exact nameOf_bad
  | some v => exact .other rfl

theorem nameOf_numberFrom {v : Option Value} : NameOf level text l (numberFrom kind text n v) := by
  unfold numberFrom
  split
  · exact nameOf_bad
  · exact nameOf_valueOr

/-- The name of a word is what the bytes spell. -/
theorem wordFrom_cases (wordKind : WordKind) (kind : TokenKind) (text : Bytes) (start stop taken : Nat) :
    (∃ length, wordFrom wordKind kind text start stop taken = ⟨.invalid kind length, taken⟩) ∨
      ∃ name, wordFrom wordKind kind text start stop taken = ⟨.word wordKind name, taken⟩ ∧
        start < stop ∧ Utf8.encode name = between text start stop := by
  unfold wordFrom
  split
  · exact .inl ⟨_, rfl⟩
  · rename_i hlt
    split
    · rename_i name hname
      exact .inr ⟨name, rfl, Nat.lt_of_not_le hlt, Utf8.encode_of_decode? hname⟩
    · exact .inl ⟨_, rfl⟩

section

variable (hw : l.malformed = false)

include hw

theorem nameOf_wordFrom {wordKind : WordKind} {start stop taken : Nat}
    (hcut : WordCut level text l wordKind start stop taken) :
    NameOf level text l (wordFrom wordKind kind text start stop taken) := by
  rcases wordFrom_cases wordKind kind text start stop taken with ⟨_, hr⟩ | ⟨name, hr, hlt, hname⟩
  · rw [hr]
    exact .other rfl
  · rw [hr]
    exact .word hw hcut hlt hname

theorem nameOf_markedWord {wordKind : WordKind}
    (hk : (l.kind = .getWord ∧ wordKind = .getWord) ∨ (l.kind = .litWord ∧ wordKind = .litWord)) :
    NameOf level text l (markedWord wordKind kind level text l.length) := by
  unfold markedWord
  split
  · rename_i hcolon
    split
    · exact nameOf_bad
    · rename_i hl
      have hl : ¬(l.length = 1) ∧ level = .path := by simpa using hl
      exact nameOf_wordFrom hw (.markedEnd hk (eq_of_beq hcolon) hl.2)
  · rename_i hcolon
    exact nameOf_wordFrom hw (.marked hk (by simpa using hcolon))

theorem nameOf_issueFrom (hk : l.kind = .issue) :
    NameOf level text l (issueFrom text l.length) := by
  unfold issueFrom
  split
  · split <;> exact .other rfl
  · dsimp only
    split
    · exact nameOf_bad
    · rename_i htext
      split
      · rename_i name hname
        exact .issue hw hk (by simpa using htext) (Utf8.encode_of_decode? hname)
      · exact nameOf_bad

theorem nameOf_ofLexeme : NameOf level text l (ofLexeme level text l) := by
  unfold ofLexeme
  dsimp only
  cases hk : l.kind with
  | word => exact nameOf_wordFrom hw (.word hk)
  | setWord =>
    dsimp only
    split
    · rename_i hl
      exact nameOf_wordFrom hw (.pathEnd hk (eq_of_beq hl))
    · rename_i hl
      exact nameOf_wordFrom hw (.setWord hk (by simpa using hl))
  | getWord => exact nameOf_markedWord hw (.inl ⟨hk, rfl⟩)
  | litWord => exact nameOf_markedWord hw (.inr ⟨hk, rfl⟩)
  | refinement => exact nameOf_wordFrom hw (.refinement hk)
  | issue => exact nameOf_issueFrom hw hk
  | endOfScript | blockEnd | parenEnd | blockBegin | parenBegin | construct | string | path =>
    exact .other rfl
  | line =>
    refine .other ?_
    dsimp only [lineFrom]
    split <;> rfl
  | integer =>
    dsimp only [integerFrom]
    split <;> exact nameOf_valueOr
  | time =>
    dsimp only [timeFrom]
    split <;> exact nameOf_valueOr
  | decimal | percent | money => exact nameOf_numberFrom
  | date | pair | tuple | binary | char | file | email | url | tag => exact nameOf_valueOr

end

/-- **Only a word and an issue have a name**, and it stands in their lexeme. -/
theorem nameOf_of (level : Level) (text : Bytes) (l : Lexeme) :
    NameOf level text l (of level text l) := by
  unfold of
  split
  · exact nameOf_bad
  · rename_i hw
    split
    · exact .other rfl
    · split
      · exact .other rfl
      · exact nameOf_ofLexeme (by simpa using hw)

/-! ## Which names words have -/

/-- A word in it has a name that a word may have, and at the level of a path it is no set-word. -/
def Named (level : Level) (r : Reading) : Prop :=
  ∀ kind name, r.element = .word kind name →
    IsWordName (Utf8.encode name) ∧ (kind = .setWord → level ≠ .path)

/-- What stands where the name of a word is cut out is a name that a word may have. -/
theorem WordCut.nameAt {kind : WordKind} {start stop taken : Nat} (hw : l.malformed = false)
    (hnames : Lexeme.Names text l) (h : WordCut level text l kind start stop taken) :
    NameAt text start stop := by
  have hname := hnames hw
  cases h with
  | word hk | pathEnd hk | setWord hk =>
    rw [hk] at hname
    exact hname
  | marked hk hcolon =>
    rcases hk with ⟨hk, -⟩ | ⟨hk, -⟩ <;>
    · rw [hk] at hname
      have hname := hname.2
      rwa [beq_false_of_ne hcolon] at hname
  | markedEnd hk hcolon =>
    rcases hk with ⟨hk, -⟩ | ⟨hk, -⟩ <;>
    · rw [hk] at hname
      have hname := hname.2
      rwa [hcolon] at hname
  | refinement hk =>
    rw [hk] at hname
    exact hname.2

/-- **A word has a name that a word may have, and in a path it is no set-word.** -/
theorem named_of (level : Level) (text : Bytes) :
    Named level (of level text (Lexeme.ofFront text)) := by
  intro kind name he
  have hnames := Lexeme.ofFront_names text
  have hof := nameOf_of level text (Lexeme.ofFront text)
  generalize of level text (Lexeme.ofFront text) = r at he hof
  cases hof with
  | word hw hcut hlt hname =>
    cases he
    rw [hname]
    refine ⟨hcut.nameAt hw hnames hlt, fun hset => ?_⟩
    subst hset
    cases hcut with
    | setWord hk hl => exact hl
    | marked hk | markedEnd hk => simp at hk
  | issue => cases he
  | other h =>
    rw [he] at h
    cases h

end

/-! ## The head of a path -/

/-- What the first segment of a path is read as, when the path starts with a token of `kind`. A colon
between a marked word and the slash belongs to neither. -/
inductive FirstReads (text : Bytes) : TokenKind → Reading → Prop
  | slot {kind : TokenKind} (h : kind = .word ∨ kind = .refinement) : FirstReads text kind ⟨.slot, 1⟩
  | word (name : String) (n : Nat) (hslash : byteAt text n = slash) :
      FirstReads text .word ⟨.word .word name, n⟩
  | getWord (name : String) (n : Nat)
      (h : byteAt text n = slash ∨ (byteAt text n = colon ∧ byteAt text (n + 1) = slash)) :
      FirstReads text .getWord ⟨.word .getWord name, n⟩
  | litWord (name : String) (n : Nat)
      (h : byteAt text n = slash ∨ (byteAt text n = colon ∧ byteAt text (n + 1) = slash)) :
      FirstReads text .litWord ⟨.word .litWord name, n⟩
  | invalid {kind kind' : TokenKind} (length n : Nat) : FirstReads text kind ⟨.invalid kind' length, n⟩

/-- A marked word in front of a slash, without the colon that it may end with. -/
theorem markedWord_first {text : Bytes} {wordKind : WordKind} {kind : TokenKind} {n : Nat}
    {P : Reading → Prop} (hslash : byteAt text n = slash)
    (hinvalid : ∀ length m, P ⟨.invalid kind length, m⟩)
    (hword : ∀ name m, byteAt text m = slash ∨ (byteAt text m = colon ∧ byteAt text (m + 1) = slash) →
      P ⟨.word wordKind name, m⟩) : P (markedWord wordKind kind .path text n) := by
  have hfrom (stop taken : Nat)
      (h : byteAt text taken = slash ∨ (byteAt text taken = colon ∧ byteAt text (taken + 1) = slash)) :
      P (wordFrom wordKind kind text 1 stop taken) := by
    rcases wordFrom_cases wordKind kind text 1 stop taken with ⟨_, hr⟩ | ⟨name, hr, -⟩
    · rw [hr]
      exact hinvalid _ _
    · rw [hr]
      exact hword _ _ h
  unfold markedWord
  split
  · rename_i hcolon
    have hcolon := eq_of_beq hcolon
    split
    · exact hinvalid _ _
    · refine hfrom _ _ (.inr ⟨hcolon, ?_⟩)
      have hpos : n ≠ 0 := by
        rintro rfl
        rw [hslash] at hcolon
        cases hcolon
      rwa [Nat.sub_add_cancel (Nat.one_le_iff_ne_zero.2 hpos)]
  · exact hfrom _ _ (.inl hslash)

/-- **The head of a path, read again as its first segment.** -/
theorem firstReads_of {level : Level} {text : Bytes} {r : Reading} {kind : TokenKind}
    (h : Reads level text r) (he : r.element = .pathHead kind) :
    FirstReads text kind (of .path text (Lexeme.ofFront text)) := by
  cases h with
  | pathHead kind' hl hw hs hk hf hslash =>
    cases he
    have hnames := Lexeme.ofFront_names text hw
    rw [hk] at hnames
    generalize Lexeme.ofFront text = l at hw hk hslash hnames
    unfold of
    rw [hw, if_neg Bool.noConfusion, if_neg (by simp)]
    split
    · rename_i hslot
      simp only [Bool.and_eq_true, beq_iff_eq] at hslot
      have hmark {b : UInt8} (hb : byteAt text 0 = b) (hne : b ≠ slash) :
          FirstReads text kind ⟨.slot, 1⟩ := absurd (hb.symm.trans hslot.2) hne
      cases kind with
      | word => exact .slot (.inl rfl)
      | refinement => exact .slot (.inr rfl)
      | getWord => exact hmark hnames.1 (of_decide_eq_true rfl)
      | litWord => exact hmark hnames.1 (of_decide_eq_true rfl)
      | _ => cases hs
    · rename_i hslot
      unfold ofLexeme
      dsimp only
      rw [hk]
      cases kind with
      | word =>
        rcases wordFrom_cases .word .word text 0 l.length l.length with ⟨_, hr⟩ | ⟨name, hr, -⟩
        · show FirstReads text _ (wordFrom .word .word text 0 l.length l.length)
          rw [hr]
          exact .invalid _ _
        · show FirstReads text _ (wordFrom .word .word text 0 l.length l.length)
          rw [hr]
          exact .word _ _ hslash
      | refinement => exact absurd (by simpa using hnames.1) hslot
      | getWord => exact markedWord_first hslash (fun _ _ => .invalid _ _) fun _ _ => .getWord _ _
      | litWord => exact markedWord_first hslash (fun _ _ => .invalid _ _) fun _ _ => .litWord _ _
      | _ => cases hs
  | leaf e n h =>
    subst he
    cases h
  | _ => cases he

end RebolScan.Element
