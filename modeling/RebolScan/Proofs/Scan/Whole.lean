import RebolScan.Proofs.Scan.Element
import RebolScan.Proofs.Token.Delimiters
import RebolScan.Proofs.Value.Pieces

/-!
# Elements that take their lexeme as it was cut

An element may take less than its lexeme, or more: a colon at its end is left to the path, what
slashes hold together is read as one date. All of this is about paths and slashes. **Where there is
no slash and no construction, an element outside of paths takes the whole lexeme**, and what kind of
value it comes to is told by the kind of the lexeme, or else it is refused (`of_whole`).
-/

set_option autoImplicit false

namespace RebolScan

open Ascii

/-- The text has no slash and opens no construction. -/
structure Flat (text : Bytes) : Prop where
  slash : Ascii.slash ∉ text
  construct : ¬[pound, bracketOpen] <:+: text

theorem Flat.drop {text : Bytes} (h : Flat text) (n : Nat) : Flat (text.drop n) :=
  ⟨fun hs => h.slash (List.mem_of_mem_drop hs),
    fun hc => h.construct (hc.trans (List.drop_suffix n text).isInfix)⟩

theorem Flat.byteAt_ne_slash {text : Bytes} (h : Flat text) (i : Nat) :
    (byteAt text i == Ascii.slash) = false := by
  apply beq_false_of_ne
  intro hs
  have hi : i < text.length := lt_length_of_byteAt (by rw [hs]; decide)
  rw [byteAt_eq_getElem hi] at hs
  exact h.slash (List.mem_of_getElem hs)

theorem Flat.kind_ne_construct {text : Bytes} (h : Flat text) :
    (Lexeme.ofFront text).kind ≠ .construct :=
  fun hk => h.construct (Lexeme.construct_of_kind hk)

namespace Element

/-- The type of the value that an element stands for by itself. -/
def typeName? : Element → Option String
  | .value v => some v.typeName
  | .word .word _ => some "word"
  | .word .setWord _ => some "set-word"
  | .word .getWord _ => some "get-word"
  | .word .litWord _ => some "lit-word"
  | .word .refinement _ => some "refinement"
  | .issue _ => some "issue"
  | _ => none

/-- The element takes the lexeme as it was cut and is of its kind. -/
inductive Whole (l : Lexeme) : Reading → Prop
  | endOfInput (hk : l.kind = .endOfScript) : Whole l ⟨.endOfInput, l.length⟩
  | line {e : Element} (he : e = .lineBreak ∨ e = .comment) (hk : l.kind = .line) :
      Whole l ⟨e, l.length⟩
  | opener (b : Bracket) (hm : l.kind.mark? l.length = some (.opens b)) :
      Whole l ⟨.opener b, l.length⟩
  | closer (b : Bracket) (hm : l.kind.mark? l.length = some (.closes b)) :
      Whole l ⟨.closer b, l.length⟩
  | leaf {e : Element} {type : String} (he : e.typeName? = some type)
      (hm : l.kind.mark? l.length = some (.leaf type)) : Whole l ⟨e, l.length⟩

/-- The head of a path is no lexeme taken whole. -/
theorem Whole.ne_pathHead {l : Lexeme} {r : Reading} (h : Whole l r) (kind : TokenKind) :
    r.element ≠ .pathHead kind := by
  cases h with
  | line he =>
    rintro rfl
    rcases he with he | he <;> cases he
  | leaf he =>
    rintro rfl
    cases he
  | _ => exact Element.noConfusion

/-- The text is refused. -/
def Refused (r : Reading) : Prop := ∃ kind length, r.element = .invalid kind length

variable {l : Lexeme}

/-- Refused, or taken whole. -/
def Settles (l : Lexeme) (r : Reading) : Prop := Refused r ∨ Whole l r

theorem settles_valueOr {α : Type} {kind : TokenKind} {f : α → Value} {o : Option α} {type : String}
    (hm : l.kind.mark? l.length = some (.leaf type)) (hf : ∀ a, (f a).typeName = type) :
    Settles l (valueOr kind l.length (o.map f)) := by
  cases o with
  | none => exact .inl ⟨_, _, rfl⟩
  | some a => exact .inr (.leaf (congrArg some (hf a)) hm)

theorem settles_wordFrom {wordKind : WordKind} {kind : TokenKind} {text : Bytes} {start stop : Nat}
    {type : String} (hm : l.kind.mark? l.length = some (.leaf type))
    (ht : ∀ name, typeName? (.word wordKind name) = some type) :
    Settles l (wordFrom wordKind kind text start stop l.length) := by
  unfold wordFrom
  split
  · exact .inl ⟨_, _, rfl⟩
  · split
    · exact .inr (.leaf (ht _) hm)
    · exact .inl ⟨_, _, rfl⟩

theorem settles_markedWord {wordKind : WordKind} {kind : TokenKind} {level : Level} {text : Bytes}
    {type : String} (hl : level ≠ .path) (hm : l.kind.mark? l.length = some (.leaf type))
    (ht : ∀ name, typeName? (.word wordKind name) = some type) :
    Settles l (markedWord wordKind kind level text l.length) := by
  unfold markedWord
  split
  · rw [if_pos (by simp [hl])]
    exact .inl ⟨_, _, rfl⟩
  · exact settles_wordFrom hm ht

theorem settles_issueFrom {text : Bytes} (hk : l.kind = .issue) :
    Settles l (issueFrom text l.length) := by
  unfold issueFrom
  split
  · rename_i hone
    have hone : l.length = 1 := eq_of_beq hone
    split
    · exact .inl ⟨_, _, rfl⟩
    · rw [← hone]
      exact .inr (.leaf rfl (by rw [hk, TokenKind.mark?, if_pos hone]; rfl))
  · rename_i hone
    have hone : l.length ≠ 1 := by simpa using hone
    have hm : l.kind.mark? l.length = some (.leaf "issue") := by
      rw [hk, TokenKind.mark?, if_neg hone]
    dsimp only
    split
    · exact .inl ⟨_, _, rfl⟩
    · split
      · exact .inr (.leaf rfl hm)
      · exact .inl ⟨_, _, rfl⟩

variable {level : Level} {text : Bytes}

theorem dateEnd_of_flat (h : Flat text) (stop : Nat) : dateEnd text stop = stop := by
  rw [dateEnd, h.byteAt_ne_slash]
  rfl

/-- **An element takes its whole lexeme** where there is no slash, or it is refused. -/
theorem of_whole (hl : level ≠ .path) (h : Flat text) :
    Refused (of level text (Lexeme.ofFront text)) ∨
      ((Lexeme.ofFront text).malformed = false ∧
        Whole (Lexeme.ofFront text) (of level text (Lexeme.ofFront text))) := by
  have hconstruct := h.kind_ne_construct
  generalize Lexeme.ofFront text = l at hconstruct
  unfold of
  split
  · exact .inl ⟨_, _, rfl⟩
  · rename_i hw
    have hlevel : (level == .path) = false := by simpa using hl
    rw [h.byteAt_ne_slash, h.byteAt_ne_slash, Bool.and_false, Bool.and_false]
    refine Or.imp_right (fun hwhole => ⟨by simpa using hw, hwhole⟩) ?_
    show Settles l (ofLexeme level text l)
    unfold ofLexeme
    dsimp only
    have hslash := h.byteAt_ne_slash l.length
    split <;> rename_i hk
    · exact .inr (.endOfInput hk)
    · exact .inr (.closer .block (by rw [hk]; rfl))
    · exact .inr (.closer .paren (by rw [hk]; rfl))
    · refine .inr (.line ?_ hk)
      split
      · exact .inl rfl
      · exact .inr rfl
    · exact settles_wordFrom (by rw [hk]; rfl) fun _ => rfl
    · rw [hlevel]
      exact settles_wordFrom (by rw [hk]; rfl) fun _ => rfl
    · exact settles_markedWord hl (by rw [hk]; rfl) fun _ => rfl
    · exact settles_markedWord hl (by rw [hk]; rfl) fun _ => rfl
    · exact settles_wordFrom (by rw [hk]; rfl) fun _ => rfl
    · exact settles_issueFrom hk
    · exact .inr (.opener .block (by rw [hk]; rfl))
    · exact .inr (.opener .paren (by rw [hk]; rfl))
    · exact absurd hk hconstruct
    · rw [integerFrom, hslash]
      exact settles_valueOr (by rw [hk]; rfl) fun _ => rfl
    · rw [dateFrom, hlevel, dateEnd_of_flat h]
      exact settles_valueOr (by rw [hk]; rfl) fun _ => rfl
    · rw [numberFrom, hslash]
      exact settles_valueOr (by rw [hk]; rfl) fun _ => rfl
    · rw [numberFrom, hslash]
      exact settles_valueOr (by rw [hk]; rfl) fun _ => rfl
    · rw [numberFrom, hslash]
      exact settles_valueOr (by rw [hk]; rfl) fun _ => rfl
    · rw [timeFrom, hlevel, Bool.and_false]
      exact settles_valueOr (by rw [hk]; rfl) fun _ => rfl
    · exact settles_valueOr (by rw [hk]; rfl) fun _ => rfl
    · exact settles_valueOr (by rw [hk]; rfl) fun _ => rfl
    · exact .inr (.leaf rfl (by rw [hk]; rfl))
    · exact settles_valueOr (by rw [hk]; rfl) fun _ => rfl
    · exact settles_valueOr (by rw [hk]; rfl) fun _ => rfl
    · exact settles_valueOr (by rw [hk]; rfl) fun _ => rfl
    · exact settles_valueOr (by rw [hk]; rfl) fun _ => rfl
    · exact settles_valueOr (by rw [hk]; rfl) fun _ => rfl
    · exact settles_valueOr (by rw [hk]; rfl) fun _ => rfl
    · exact .inl ⟨_, _, rfl⟩

end Element

end RebolScan
