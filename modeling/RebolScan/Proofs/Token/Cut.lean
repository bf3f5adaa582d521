import RebolScan.Proofs.Token.Names
import RebolScan.Proofs.Token.Unescaped

/-!
# What a lexeme tells of its bytes

Of most lexemes the bytes say no more than their kind does. Of five kinds more is known (`Cut`), and
**there is no other way to come by a lexeme of such a kind** (`ofFront_cut`): a string and a binary
are cut by the reader of quoted text, behind bytes that are inert; a file name is cut behind a run that
no delimiter stands in; a set-word ends with a colon; and an issue starts with a pound sign. All other
lexemes count no lines but line breaks do.
-/

set_option autoImplicit false

namespace RebolScan

open Ascii

/-- The kinds of lexeme of whose bytes more is known. -/
def TokenKind.isTold : TokenKind → Bool
  | .line | .string | .binary | .file | .setWord | .issue => true
  | _ => false

namespace Lexeme

/-- How a lexeme was cut from the front of `text`, where its kind does not say all. -/
inductive Cut (text : Bytes) : Lexeme → Prop
  | line {l : Lexeme} (h : l.kind = .line) : Cut text l
  | string : Cut text (quoted .string text 0)
  | binary {skip : Nat} (hlead : ∀ i, i < skip → isInert (byteAt text i) = true)
      (hbrace : byteAt text skip = braceOpen) : Cut text (quoted .binary text skip)
  | file {f : Front} (htext : f.text = text) (h : f.Covers 0) : Cut text (file f)
  | setWord {n : Nat} (h : byteAt text (n - 1) = colon) : Cut text (good .setWord n)
  | issue {n : Nat} (h : byteAt text 0 = pound) : Cut text (good .issue n)
  | other {l : Lexeme} (hl : l.lines = 0) (hk : l.malformed = false → l.kind.isTold = false) :
      Cut text l

variable {f : Front} {text : Bytes} {kind : TokenKind} {start : Nat}

theorem file_kind (f : Front) : (file f).kind = .file := by
  unfold file
  dsimp only
  repeat' split
  all_goals rfl

/-- A file name counts no lines. -/
theorem file_lines (f : Front) : (file f).lines = 0 := by
  unfold file
  dsimp only
  repeat' split
  all_goals rfl

/-- A set-word ends with a colon, and an issue starts with a pound sign. -/
theorem Cut.byte {l : Lexeme} (h : Cut text l) (hw : l.malformed = false) :
    (l.kind = .setWord → byteAt text (l.length - 1) = colon) ∧
      (l.kind = .issue → byteAt text 0 = pound) := by
  cases h with
  | setWord h => exact ⟨fun _ => h, TokenKind.noConfusion⟩
  | issue h => exact ⟨TokenKind.noConfusion, fun _ => h⟩
  | line h =>
    rw [h]
    exact ⟨TokenKind.noConfusion, TokenKind.noConfusion⟩
  | string | binary =>
    rw [quoted_kind]
    exact ⟨TokenKind.noConfusion, TokenKind.noConfusion⟩
  | file htext hf =>
    rw [file_kind]
    exact ⟨TokenKind.noConfusion, TokenKind.noConfusion⟩
  | other hl hother =>
    have htold := hother hw
    constructor <;>
    · intro hk
      rw [hk] at htold
      cases htold

theorem cut_good (hk : kind.isTold = false) (n : Nat) : Cut text (good kind n) :=
  .other rfl fun _ => hk

theorem cut_bad (kind : TokenKind) (n : Nat) : Cut text (bad kind n) :=
  .other rfl Bool.noConfusion

theorem cut_character {skip : Nat} : Cut text (character text skip) := by
  unfold character
  repeat' split
  all_goals first
    | exact cut_good rfl _
    | exact cut_bad _ _

/-! ## Words -/

theorem cut_marked {m : Marks} (hk : kind.isTold = false) :
    Cut text (wordTail.marked kind start f m) := by
  unfold wordTail.marked
  dsimp only
  repeat' split
  all_goals first
    | exact cut_bad _ _
    | exact cut_good hk _
    | exact cut_good rfl _

theorem cut_operatorWord (hk : kind.isTold = false) : Cut text (operatorWord kind f) := by
  unfold operatorWord
  dsimp only
  repeat' split
  all_goals first
    | exact cut_good hk _
    | exact cut_bad _ _

/-- Behind a mark there is no set-word. -/
theorem cut_wordTail (hk : kind.isTold = false) (hword : kind ≠ .word) :
    Cut text (wordTail kind start f) := by
  unfold wordTail
  dsimp only
  rw [beq_false_of_ne hword]
  repeat' split
  all_goals first
    | exact cut_marked hk
    | exact cut_bad _ _
    | contradiction

/-- What is found in the run stands there. -/
theorem byte_of_find? {after i : Nat} {b : UInt8} (h : f.Covers after)
    (hfind : f.find? start b = some i) : f.byte i = b := by
  rw [← h.found i (Front.find?_bounds hfind).2]
  obtain ⟨j, hj, rfl⟩ := Option.map_eq_some_iff.1 hfind
  obtain ⟨hlt, hb, -⟩ := List.idxOf?_eq_some_iff.1 hj
  rw [List.length_drop] at hlt
  rw [byteAt_eq_getElem (by omega)]
  rw [List.getElem_drop] at hb
  simpa [Nat.add_comm] using hb

/-- The colon that is found first ends a set-word, for a delimiter stands behind it. -/
theorem cut_word (hf : f.Covers 0) (hcolon : f.has .colon = true → colon ∈ f.run.drop start) :
    Cut f.text (wordTail .word start f) := by
  unfold wordTail
  split
  · rename_i hhas
    obtain ⟨i, hi⟩ := Option.isSome_iff_exists.1 (Front.isSome_find? (hcolon hhas))
    have hlt := (Front.find?_bounds hi).2
    rw [if_pos (beq_self_eq_true _), hi, Option.getD_some]
    dsimp only
    split
    · rename_i hafter
      rw [Bool.and_eq_true] at hafter
      split
      · exact cut_bad _ _
      · have hlast : f.stop - 1 = i := by
          refine Nat.le_antisymm (Nat.le_of_not_lt fun h => ?_) (Nat.le_sub_one_of_lt hlt)
          rw [hf.inside (i + 1) (Nat.zero_le _) (by omega)] at hafter
          cases hafter.2
        refine .setWord ?_
        rw [hlast]
        exact byte_of_find? hf hi
    · exact cut_good rfl _
  · exact cut_marked rfl

theorem cut_slashes : Cut text (slashes text) := by
  unfold slashes
  dsimp only
  repeat' split
  all_goals first
    | exact cut_wordTail rfl TokenKind.noConfusion
    | exact cut_good rfl _
    | exact cut_bad _ _

theorem cut_angle {s : Special} : Cut text (angle s f) := by
  unfold angle
  dsimp only
  repeat' split
  all_goals first
    | exact cut_good rfl _
    | exact cut_bad _ _

theorem cut_colonForm : Cut text (colonForm f) := by
  unfold colonForm
  dsimp only
  repeat' split
  all_goals first
    | exact cut_good rfl _
    | exact cut_bad _ _
    | exact cut_operatorWord rfl
    | exact cut_wordTail rfl TokenKind.noConfusion

theorem cut_tickForm : Cut text (tickForm f) := by
  unfold tickForm
  dsimp only
  repeat' split
  all_goals first
    | exact cut_good rfl _
    | exact cut_bad _ _
    | exact cut_operatorWord rfl
    | exact cut_wordTail rfl TokenKind.noConfusion

/-! ## Numbers and what starts with a pound sign -/

/-- Only a pound sign without a sign in front makes an issue. -/
theorem cut_poundForm (hlead : ∀ i, i < start → isInert (f.byte i) = true)
    (hpound : f.byte start = pound) : Cut f.text (poundForm start f) := by
  unfold poundForm
  dsimp only
  split
  · exact cut_good rfl _
  · split
    · exact cut_character
    · split
      · rename_i hbrace
        refine .binary (fun i hi => ?_) (eq_of_beq hbrace)
        rcases Nat.lt_or_eq_of_le (Nat.le_of_lt_succ hi) with hlt | rfl
        · exact hlead i hlt
        · show isInert (f.byte i) = true
          rw [hpound]
          rfl
      · split
        · rename_i hzero
          obtain rfl : start = 0 := eq_of_beq hzero
          exact .issue hpound
        · exact cut_bad _ _

/-- The base in front of a binary is digits. -/
theorem cut_basePound {p : Nat} (h : basePound? f = some p) : Cut f.text (poundForm p f) := by
  have hdigit {i : Nat} {b : UInt8} (hb : f.byte i = b) (hinert : isInert b = true) :
      isInert (f.byte i) = true := by rwa [hb]
  unfold basePound? at h
  split at h
  · rename_i hb
    cases h
    simp only [Bool.and_eq_true, beq_iff_eq] at hb
    obtain ⟨⟨htwo, hpound⟩, -⟩ := hb
    refine cut_poundForm (fun i hi => ?_) hpound
    obtain rfl : i = 0 := by omega
    exact hdigit htwo rfl
  · split at h
    · rename_i hb
      cases h
      simp only [Bool.and_eq_true, Bool.or_eq_true, beq_iff_eq] at hb
      obtain ⟨⟨hdigits, hpound⟩, -⟩ := hb
      refine cut_poundForm (fun i hi => ?_) hpound
      obtain rfl | rfl : i = 0 ∨ i = 1 := by omega
      · rcases hdigits with ⟨h0, -⟩ | ⟨h0, -⟩
        · exact hdigit h0 rfl
        · exact hdigit h0 rfl
      · rcases hdigits with ⟨-, h1⟩ | ⟨-, h1⟩
        · exact hdigit h1 rfl
        · exact hdigit h1 rfl
    · cases h

theorem cut_numberBySign : Cut text (numberBySign start f) := by
  unfold numberBySign
  dsimp only
  repeat' split
  all_goals first
    | exact cut_good rfl _
    | exact cut_bad _ _

theorem cut_number : Cut f.text (number start f) := by
  unfold number
  dsimp only
  repeat' split
  all_goals first
    | exact cut_good rfl _
    | exact cut_bad _ _
    | exact cut_numberBySign
    | skip
  -- What is left is the binary whose base is written in front.
  rename_i p hp
  split at hp
  · exact cut_basePound hp
  · cases hp

theorem cut_radixPoint {s : Special} (hs : s ≠ .colon) (hf : f.Covers 0)
    (hcolon : f.has .colon = true → colon ∈ f.run.drop start) :
    Cut f.text (radixPoint s start f) := by
  unfold radixPoint
  dsimp only
  split
  · exact cut_number (f := { f with marks := f.marks.insert s })
  · split
    · exact cut_bad _ _
    · refine cut_word (f := { f with marks := f.marks.insert s }) (hf.insert s) fun hhas => hcolon ?_
      have hinsert : (f.marks.insert s).has .colon = true := hhas
      rwa [Marks.has_insert, decide_eq_false hs, Bool.or_false] at hinsert

/-! ## The first byte -/

theorem cut_signed (hf : f.Covers 0) (hsign : isInert (f.byte 0) = true)
    (hcolon : f.has .colon = true → colon ∈ f.run.drop 1) : Cut f.text (signed f) := by
  have hall (h : f.has .colon = true) : colon ∈ f.run.drop 0 := List.mem_of_mem_drop (hcolon h)
  unfold signed
  dsimp only
  split
  · exact cut_good rfl _
  · split
    · repeat' split
      all_goals first
        | exact cut_good rfl _
        | exact cut_bad _ _
        | exact cut_word hf hall
    · split
      · exact cut_number
      · exact cut_radixPoint Special.noConfusion hf hcolon
      · exact cut_radixPoint Special.noConfusion hf hcolon
      · rename_i hpound
        refine cut_poundForm (fun i hi => ?_) (eq_byte_of_class hpound)
        obtain rfl : i = 0 := by omega
        exact hsign
      all_goals first
        | exact cut_word hf hcolon
        | exact cut_bad _ _

theorem cut_special {s : Special} (hf : f.Covers 0) (hs : f.byte 0 = s.byte)
    (hcolon : f.has .colon = true → colon ∈ f.run.drop 1) : Cut f.text (special s f) := by
  have hall (h : f.has .colon = true) : colon ∈ f.run.drop 0 := List.mem_of_mem_drop (hcolon h)
  unfold special
  split
  · exact cut_good rfl _
  · cases s with
    | atSign | backslash => exact cut_bad _ _
    | percent => exact .file rfl hf
    | colon => exact cut_colonForm
    | tick => exact cut_tickForm
    | comma | period => exact cut_radixPoint Special.noConfusion hf hall
    | greater | lesser => exact cut_angle
    | plus | minus => exact cut_signed hf (by rw [hs]; rfl) hcolon
    | pound => exact cut_poundForm (fun i hi => absurd hi (Nat.not_lt_zero i)) hs
    | dollar => exact cut_good rfl _

theorem cut_delimited (d : Delimiter) : Cut text (delimited d text) := by
  cases d with
  | space | semicolon => exact .line (comment_kind text)
  | lineFeed | carriageReturn => exact .line rfl
  | leftBracket | rightBracket | leftParen | rightParen => exact cut_good rfl _
  | quote | leftBrace => exact .string
  | rightBrace | utf8Error => exact cut_bad _ _
  | slash => exact cut_slashes
  | endOfInput =>
    unfold delimited
    dsimp only
    split
    · exact cut_good rfl _
    · exact cut_bad _ _

/-- **How a lexeme was cut**, whatever the text. -/
theorem ofFront_cut (text : Bytes) : Cut text (ofFront text) := by
  have hf := Front.covers_of text
  have hcolon : (Front.of text).has .colon = true → colon ∈ (Front.of text).run.drop 1 :=
    (Marks.in_ofRun (runOf text)).colon
  unfold ofFront
  split
  · exact cut_delimited _
  · rename_i s hs
    exact cut_special hf (eq_byte_of_class hs) hcolon
  · dsimp only
    split
    · exact cut_good rfl _
    · exact cut_word hf fun h => List.mem_of_mem_drop (hcolon h)
  · exact cut_number (f := Front.of text)

end Lexeme

end RebolScan
