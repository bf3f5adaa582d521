import RebolScan.Proofs.Token.Pieces

/-!
# Text in braces ends at its matching brace

Braces count their inner braces while they are read. Said without counting as one goes, the text in
them is a row of pieces whose unescaped braces are **balanced**: no front of it closes more than it
opens, and the whole closes all that it opens. `inside_iff_closes` is where the two meet. So braces
around a balanced text are read to the matching brace, whatever follows it, and what is read in braces
is balanced (`braces_match`).

What the text in braces says is what its pieces say, with each line break that is not escaped as one
line feed. An escape is not touched: a carriage return that is spelled as one stays one
(`escaped_return_kept`).
-/

set_option autoImplicit false

namespace RebolScan

open Ascii

namespace Quoted

variable {n : Nat} {p : Piece} {ps : List Piece} {c : Char}

/-! ## Balance -/

/-- Where `n` braces are open, the pieces close them all and those that they open themselves, and
close none before it is opened. -/
structure Closes (n : Nat) (ps : List Piece) : Prop where
  within : ∀ qs, qs <+: ps → qs.countP (·.stands '}') ≤ n + qs.countP (·.stands '{')
  all : ps.countP (·.stands '}') = n + ps.countP (·.stands '{')

/-- The unescaped braces of the pieces are balanced. -/
def Balanced (ps : List Piece) : Prop := Closes 0 ps

theorem closes_nil : Closes n [] ↔ n = 0 := by
  constructor
  · intro h
    exact h.all.symm
  · rintro rfl
    refine ⟨fun qs hqs => ?_, rfl⟩
    rw [List.prefix_nil.1 hqs]
    exact Nat.le_refl 0

/-- One piece changes how many braces are open, and may close one only if there is one. -/
theorem closes_cons :
    Closes n (p :: ps) ↔ ¬(p.stands '}' = true ∧ n = 0) ∧ Closes (p.nest true n) ps := by
  -- Both counts of pieces behind `p`, against the braces that are open there.
  have hcount (hclose : ¬(p.stands '}' = true ∧ n = 0)) (qs : List Piece) :
      (((p :: qs).countP (·.stands '}') ≤ n + (p :: qs).countP (·.stands '{') ↔
        qs.countP (·.stands '}') ≤ p.nest true n + qs.countP (·.stands '{')) ∧
      ((p :: qs).countP (·.stands '}') = n + (p :: qs).countP (·.stands '{') ↔
        qs.countP (·.stands '}') = p.nest true n + qs.countP (·.stands '{'))) := by
    rw [List.countP_cons, List.countP_cons, Piece.nest]
    cases hopens : p.stands '{' with
    | true =>
      have hcloses : p.stands '}' = false := Piece.not_stands hopens (by decide)
      simp only [hcloses]
      simp
      omega
    | false =>
      cases hcloses : p.stands '}' with
      | true =>
        have hpos : n ≠ 0 := fun h => hclose ⟨hcloses, h⟩
        simp
        omega
      | false => simp
  constructor
  · intro h
    have hclose : ¬(p.stands '}' = true ∧ n = 0) := by
      rintro ⟨hcloses, rfl⟩
      have hone := h.within [p] ⟨ps, rfl⟩
      have hopens : p.stands '{' = false := Piece.not_stands hcloses (by decide)
      rw [List.countP_singleton, List.countP_singleton, hcloses, hopens] at hone
      cases hone
    refine ⟨hclose, fun qs hqs => ?_, ((hcount hclose ps).2).1 h.all⟩
    exact ((hcount hclose qs).1).1 (h.within _ (List.prefix_cons_inj p |>.2 hqs))
  · rintro ⟨hclose, h⟩
    refine ⟨fun qs hqs => ?_, ((hcount hclose ps).2).2 h.all⟩
    rcases List.prefix_cons_iff.1 hqs with rfl | ⟨front, rfl, hfront⟩
    · exact Nat.zero_le _
    · exact ((hcount hclose front).1).2 (h.within front hfront)

/-- **Counting as one goes** is the same as counting each front. -/
theorem inside_iff_closes : Inside true n ps ↔ Closes n ps := by
  induction ps generalizing n with
  | nil => rw [inside_nil, closes_nil]
  | cons p ps ih =>
    rw [inside_cons, closes_cons, ih]
    exact and_congr_right fun _ => and_iff_right fun _ => rfl

instance : Decidable (Balanced ps) := decidable_of_iff (Inside true 0 ps) inside_iff_closes

/-! ## What is read -/

/-- **Text in braces ends exactly at the matching brace.** Braces around balanced pieces are read to
their end, whatever follows: they count the line breaks that no caret escapes, know where the last of
them ends, and say the characters of the pieces with each such line break as one line feed. And all
that is read in braces is of this form. -/
theorem braces_match :
    (∀ ps rest, Balanced ps →
      read (braceOpen :: (spelled ps ++ braceClose :: rest)) =
        ⟨String.ofList (characters ps), some ⟨(spelled ps).length + 2, breaks ps,
          ((lastBreak? ps).map (1 + ·)).getD 0⟩⟩) ∧
    ∀ text e, byteAt text 0 = braceOpen → (read text).extent = some e →
      e.length ≤ text.length ∧
        ∃ ps, Balanced ps ∧ text.take e.length = braceOpen :: (spelled ps ++ [braceClose]) := by
  refine ⟨fun ps rest h => ?_, fun text e hopen h => ?_⟩
  · have hin : Inside (braceOpen == braceOpen) 0 ps := inside_iff_closes.2 h
    exact read_inside hin rest
  · obtain ⟨ps, hin, htake⟩ := inside_of_read h
    rw [hopen] at hin htake
    exact ⟨(read_extent h).2, ps, inside_iff_closes.1 hin, htake⟩

theorem isEscape_brace : IsEscape [caret, braceClose] '}' := ⟨rfl, by decide, by decide +kernel⟩

theorem isEscape_return : IsEscape [caret, 0x4D] '\r' := ⟨rfl, by decide, by decide +kernel⟩

/-- An inner pair of braces with an escaped one in it, and a line break of two bytes. -/
def nestedPieces : List Piece :=
  [.plain 'a' (by decide), .plain '{' (by decide), .escape _ _ isEscape_brace, .plain '}' (by decide),
    .plain '\r' (by decide), .plain '\n' (by decide), .escape _ _ isEscape_return]

theorem braces_match_nested :
    Balanced nestedPieces ∧ spelled nestedPieces = Utf8.encode "a\x7b^\x7d\x7d\r\n^M" ∧
      read (braceOpen :: (spelled nestedPieces ++ braceClose :: Utf8.encode "\x7d\n")) =
        ⟨"a\x7b\x7d\x7d\n\r", some ⟨11, 1, 8⟩⟩ ∧
      byteAt (Utf8.encode "\x7ba\x7b\x7d\x7d\x7d") 0 = braceOpen ∧
      (read (Utf8.encode "\x7ba\x7b\x7d\x7d\x7d")).extent = some ⟨5, 0, 0⟩ ∧
      ∃ ps, Balanced ps ∧
        Utf8.encode "\x7ba\x7b\x7d\x7d" = braceOpen :: (spelled ps ++ [braceClose]) := by
  have hbalanced : Balanced nestedPieces := by decide +kernel
  have hopen : byteAt (Utf8.encode "\x7ba\x7b\x7d\x7d\x7d") 0 = braceOpen := by decide +kernel
  have hread : (read (Utf8.encode "\x7ba\x7b\x7d\x7d\x7d")).extent = some ⟨5, 0, 0⟩ := by
    decide +kernel
  obtain ⟨-, ps, hps, htake⟩ := braces_match.2 _ _ hopen hread
  exact ⟨hbalanced, by decide +kernel, braces_match.1 _ _ hbalanced, hopen, hread, ps, hps, htake⟩

/-! ## Characters that are spelled as escapes -/

/-- A text with each of its line breaks as one line feed. -/
def unifyBreaks : List Char → List Char
  | [] => []
  | '\r' :: '\n' :: cs => '\n' :: unifyBreaks cs
  | '\r' :: cs => '\n' :: unifyBreaks cs
  | c :: cs => c :: unifyBreaks cs

theorem unifyBreaks_cons (h : c ≠ '\r') (cs : List Char) :
    unifyBreaks (c :: cs) = c :: unifyBreaks cs := by
  rw [unifyBreaks]
  · rintro _ rfl
    exact fun _ => h rfl
  · exact h

theorem unifyBreaks_return {cs : List Char} (h : cs.head? ≠ some '\n') :
    unifyBreaks ('\r' :: cs) = '\n' :: unifyBreaks cs := by
  rw [unifyBreaks]
  rintro cs rfl
  exact h rfl

/-- No escape spells a line break, so the character of the piece tells whether it stands for one. -/
theorem Piece.stands_eq (h : p.char = '\n' ∨ p.char = '\r' → p.isBreak = true)
    (hc : c = '\n' ∨ c = '\r') : p.stands c = (p.char == c) := by
  cases p with
  | escape bytes d he =>
    have hne : d ≠ c := by
      rintro rfl
      cases h hc
    exact (beq_false_of_ne hne).symm
  | plain d hd => rfl

/-- Where the line breaks stand for themselves, the characters that are read are those that the pieces
spell, with each line break as one line feed. -/
theorem characters_of_stands (h : ∀ p ∈ ps, p.char = '\n' ∨ p.char = '\r' → p.isBreak = true) :
    characters ps = unifyBreaks (ps.map Piece.char) := by
  induction ps with
  | nil => rfl
  | cons p ps ih =>
    have hfirst := h p List.mem_cons_self
    have hrest := ih fun q hq => h q (List.mem_cons_of_mem p hq)
    have hhead : ps.head?.any (·.stands '\n') = ((ps.map Piece.char).head? == some '\n') := by
      cases ps with
      | nil => rfl
      | cons q ps => exact Piece.stands_eq (h q (List.mem_cons_of_mem p List.mem_cons_self)) (.inl rfl)
    rw [characters, endsBreakBefore, hhead, hrest, List.map_cons, Piece.stands_eq hfirst (.inl rfl),
      Piece.stands_eq hfirst (.inr rfl)]
    by_cases hreturn : p.char = '\r'
    · rw [hreturn]
      cases hnext : (ps.map Piece.char).head? == some '\n' with
      | false =>
        rw [unifyBreaks_return (by simpa using hnext)]
        rfl
      | true =>
        obtain ⟨cs, hcs⟩ := List.head?_eq_some_iff.1 (eq_of_beq hnext)
        rw [hcs, unifyBreaks_cons (by decide)]
        rfl
    · rw [beq_false_of_ne hreturn, unifyBreaks_cons hreturn]
      by_cases hfeed : p.char = '\n'
      · rw [hfeed]
        rfl
      · rw [beq_false_of_ne hfeed]
        rfl

/-- **An escaped carriage return is read as one**: what is read in braces is not the text that the
pieces spell with each of its line breaks as one line feed. -/
theorem escaped_return_kept :
    ¬∀ ps rest, Balanced ps → (read (braceOpen :: (spelled ps ++ braceClose :: rest))).text =
      String.ofList (unifyBreaks (ps.map Piece.char)) := by
  intro h
  have hread := h [.escape _ _ isEscape_return] [] (by decide +kernel)
  revert hread
  decide +kernel

end Quoted

end RebolScan
