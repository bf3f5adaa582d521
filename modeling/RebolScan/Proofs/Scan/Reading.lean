import RebolScan.Proofs.Value.Found

/-!
# What holds of every reading

Whatever a text holds and whoever reads it, a value that an element is has no symbol in it, since a
name is interned only when the element is consumed; and what is invalid in an element **reaches at
most one byte beyond what the element takes**. That one byte is the bracket in `#(`.

`Element.of` puts readings together from few parts, and `Proper` is shown of each of them.
-/

set_option autoImplicit false

namespace RebolScan.Element

open Finder

/-- A value in it is a literal, and a fault in it ends at most a byte behind it. -/
structure Proper (r : Reading) : Prop where
  literal : ∀ v, r.element = .value v → symbols.value v = []
  extent : ∀ kind n, r.element = .invalid kind n → n ≤ r.taken + 1

section

variable {α : Type} {level : Level} {text : Bytes} {kind : TokenKind} {n : Nat}

/-! ## The parts -/

/-- It is neither a value nor a fault. -/
theorem proper_other {r : Reading} (hv : ∀ v, r.element ≠ .value v)
    (hi : ∀ kind n, r.element ≠ .invalid kind n) : Proper r :=
  ⟨fun v h => absurd h (hv v), fun kind n h => absurd h (hi kind n)⟩

theorem proper_value {v : Value} (h : symbols.value v = []) : Proper ⟨.value v, n⟩ where
  literal w hw := by
    cases hw
    exact h
  extent _ _ := Element.noConfusion

theorem proper_invalid {length taken : Nat} (h : length ≤ taken + 1) :
    Proper ⟨.invalid kind length, taken⟩ where
  literal _ := Element.noConfusion
  extent _ _ he := by
    cases he
    exact h

theorem proper_bad : Proper (bad kind n) := proper_invalid (Nat.le_succ n)

theorem proper_valueOr {f : α → Value} (hf : ∀ a, symbols.value (f a) = []) (o : Option α) :
    Proper (valueOr kind n (o.map f)) := by
  cases o with
  | none => exact proper_bad
  | some a => exact proper_value (hf a)

theorem proper_wordFrom {wordKind : WordKind} {start stop taken : Nat} (h : stop ≤ taken) :
    Proper (wordFrom wordKind kind text start stop taken) := by
  unfold wordFrom
  split
  · exact proper_invalid (by omega)
  · split
    · exact proper_other (fun _ => Element.noConfusion) fun _ _ => Element.noConfusion
    · exact proper_invalid (by omega)

theorem proper_markedWord {wordKind : WordKind} :
    Proper (markedWord wordKind kind level text n) := by
  unfold markedWord
  split
  · split
    · exact proper_bad
    · exact proper_wordFrom (Nat.le_refl _)
  · exact proper_wordFrom (Nat.le_refl _)

theorem proper_issueFrom : Proper (issueFrom text n) := by
  unfold issueFrom
  split
  · split
    · exact proper_invalid (Nat.le_refl _)
    · exact proper_value rfl
  · dsimp only
    split
    · exact proper_bad
    · split
      · exact proper_other (fun _ => Element.noConfusion) fun _ _ => Element.noConfusion
      · exact proper_bad

theorem proper_dateFrom : Proper (dateFrom level text n) := proper_valueOr (fun _ => rfl) _

theorem proper_integerFrom : Proper (integerFrom level text n) := by
  unfold integerFrom
  split
  · exact proper_dateFrom
  · exact proper_valueOr (fun _ => rfl) _

theorem proper_numberFrom {f : α → Value} (hf : ∀ a, symbols.value (f a) = []) (o : Option α) :
    Proper (numberFrom kind text n (o.map f)) := by
  unfold numberFrom
  split
  · exact proper_bad
  · exact proper_valueOr hf o

theorem proper_timeFrom : Proper (timeFrom level text n) := by
  unfold timeFrom
  split
  · exact proper_valueOr (fun _ => rfl) _
  · exact proper_valueOr (fun _ => rfl) _

theorem proper_lineFrom : Proper (lineFrom text n) := by
  unfold lineFrom
  split
  · exact proper_other (fun _ => Element.noConfusion) fun _ _ => Element.noConfusion
  · exact proper_other (fun _ => Element.noConfusion) fun _ _ => Element.noConfusion

/-! ## The whole -/

theorem proper_ofLexeme {l : Lexeme} : Proper (ofLexeme level text l) := by
  have hother {e : Element} (hv : ∀ v, e ≠ .value v) (hi : ∀ kind n, e ≠ .invalid kind n) :
      Proper ⟨e, l.length⟩ := proper_other hv hi
  unfold ofLexeme
  dsimp only
  cases l.kind with
  | endOfScript | blockEnd | parenEnd | blockBegin | parenBegin | construct =>
    exact hother (fun _ => Element.noConfusion) fun _ _ => Element.noConfusion
  | line => exact proper_lineFrom
  | word | refinement => exact proper_wordFrom (Nat.le_refl _)
  | setWord =>
    dsimp only
    split
    · exact proper_wordFrom (Nat.le_refl _)
    · exact proper_wordFrom (Nat.sub_le _ _)
  | getWord | litWord => exact proper_markedWord
  | issue => exact proper_issueFrom
  | integer => exact proper_integerFrom
  | date => exact proper_dateFrom
  | decimal | percent | money => exact proper_numberFrom (fun _ => rfl) _
  | time => exact proper_timeFrom
  | string => exact proper_value rfl
  | pair | tuple | binary | char | file | email | url | tag =>
    exact proper_valueOr (fun _ => rfl) _
  | path => exact proper_bad

/-- **Every reading is proper.** -/
theorem proper_of {l : Lexeme} : Proper (of level text l) := by
  unfold of
  split
  · exact proper_bad
  · split
    · exact proper_other (fun _ => Element.noConfusion) fun _ _ => Element.noConfusion
    · split
      · exact proper_other (fun _ => Element.noConfusion) fun _ _ => Element.noConfusion
      · exact proper_ofLexeme

end

end RebolScan.Element
