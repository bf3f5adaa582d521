import RebolScan.Proofs.Header
import RebolScan.Proofs.Token.Layout

/-!
# Headers behind other text

A script may stand behind any text. A search goes by what is left of the source and by nothing in
front of it (`findFrom_moved`), it comes to an end within one turn for each byte (`findFrom_fuel`), and
it passes over a line that starts neither with a bracket nor with the word. So **lines in front of a
text move what is found in it, and change nothing else** (`findHeader_behind`). A search keeps what it
has come across over a gap, so that a script at the front is found, be it in a block or not
(`findHeader_front`, `findHeader_embedded`).

Two line breaks may be one where a text is put behind another: a carriage return at the end of a line
that a line feed follows. `Preamble` and its lemmas take such pairs for one break throughout.
-/

set_option autoImplicit false

namespace RebolScan

open Ascii Lexeme

namespace Header

/-! ## Fuel -/

/-- A search that has a turn for each byte is the same with more of them. -/
theorem findFrom_fuel {fuel fuel' : Nat} {rest : Bytes} (h : rest.length < fuel)
    (h' : rest.length < fuel') (pos line : Nat) (c : Candidates) :
    findFrom fuel rest pos line c = findFrom fuel' rest pos line c := by
  induction fuel generalizing fuel' rest pos line c with
  | zero => exact absurd h (Nat.not_lt_zero _)
  | succ fuel ih =>
    obtain ⟨fuel', rfl⟩ : ∃ n, fuel' = n + 1 := ⟨fuel' - 1, by omega⟩
    -- Every turn that goes on takes a byte, so that fewer of them have a turn each.
    have hshorter {n : Nat} (hn : 1 ≤ n) (hle : n ≤ (rest.drop (margin rest)).length) :
        ((rest.drop (margin rest)).drop n).length < fuel ∧
          ((rest.drop (margin rest)).drop n).length < fuel' := by
      rw [List.length_drop] at hle ⊢
      rw [List.length_drop]
      omega
    rw [findFrom_succ, findFrom_succ]
    generalize rest.drop (margin rest) = text at hshorter
    have hsees := sees text
    generalize sight text = what at hsees
    cases hsees with
    | ending => rfl
    | bracket hb =>
      have hlt : 0 < text.length := lt_length_of_byteAt (by rw [hb]; decide)
      obtain ⟨h₁, h₂⟩ := hshorter (Nat.le_refl 1) hlt
      dsimp only
      split
      · rfl
      · exact ih h₁ h₂ _ _ _
    | word _ hw =>
      have hlength := length_of_keyword hw
      rw [List.length_take] at hlength
      obtain ⟨h₁, h₂⟩ := hshorter (n := keyword.length) (by decide) (by omega)
      exact ih h₁ h₂ _ _ _
    | blank hnul | text hnul =>
      obtain ⟨hpos, hle⟩ := lineWithBreak_bounds hnul
      obtain ⟨h₁, h₂⟩ := hshorter hpos hle
      exact ih h₁ h₂ _ _ _

/-! ## Where a search starts -/

/-- The same header `bytes` bytes and `lines` lines further on. -/
def moved (bytes lines : Nat) (h : Header) : Header :=
  { h with offset := h.offset + bytes, block := h.block + bytes, line := h.line + lines }

/-- The same candidates `bytes` bytes further on. -/
def Candidates.moved (bytes : Nat) (c : Candidates) : Candidates :=
  ⟨c.word.map (· + bytes), c.bracket.map (· + bytes)⟩

theorem header?_moved (bytes lines pos line : Nat) (c : Candidates) :
    (c.moved bytes).header? (pos + bytes) (line + lines) =
      (c.header? pos line).map (moved bytes lines) := by
  obtain ⟨word, bracket⟩ := c
  cases word <;> cases bracket <;> rfl

/-- A search goes by what is left of the text and by nothing in front of it. -/
theorem findFrom_moved (bytes lines fuel : Nat) (rest : Bytes) (pos line : Nat) (c : Candidates) :
    findFrom fuel rest (pos + bytes) (line + lines) (c.moved bytes) =
      (findFrom fuel rest pos line c).map (moved bytes lines) := by
  induction fuel generalizing rest pos line c with
  | zero => rfl
  | succ fuel ih =>
    rw [findFrom_succ, findFrom_succ]
    have hpos (p n : Nat) : p + bytes + n = p + n + bytes := Nat.add_right_comm p bytes n
    have hline : line + lines + 1 = line + 1 + lines := Nat.add_right_comm line lines 1
    rw [hpos, header?_moved]
    generalize pos + margin rest = pos
    generalize rest.drop (margin rest) = text
    cases sight text with
    | ending => rfl
    | bracket =>
      cases hm : c.header? pos line with
      | some m => rfl
      | none =>
        dsimp only [Option.map_none]
        rw [hpos]
        exact ih _ _ _ { c with bracket := some pos }
    | word =>
      dsimp only
      rw [hpos]
      exact ih _ _ _ { c with word := some pos }
    | blank =>
      dsimp only
      rw [hpos, hline]
      exact ih _ _ _ _
    | text =>
      dsimp only
      rw [hpos, hline]
      exact ih _ _ _ .none

/-! ## Lines -/

/-- A line with its line break in front of `rest`. A carriage return and a line feed behind it are
one line break. -/
structure Line (text lineBreak rest : Bytes) : Prop where
  plain : ∀ b ∈ text, isLineEnd b = false
  ends : lineBreak ∈ [[lineFeed], [carriageReturn], [carriageReturn, lineFeed]]
  whole : lineBreak = [carriageReturn] → byteAt rest 0 ≠ lineFeed

/-- White space, and a comment perhaps. -/
def isBlank (text : Bytes) : Bool :=
  (text.dropWhile isSpace).isEmpty || byteAt (text.dropWhile isSpace) 0 == semicolon

/-- The text starts with a bracket or with the word. -/
def opens (text : Bytes) : Bool :=
  byteAt text 0 == bracketOpen || sameIgnoringCase (text.take keyword.length) keyword

section

variable {text lineBreak rest : Bytes} (h : Line text lineBreak rest)

include h

theorem Line.lineBreak_cases :
    lineBreak = [lineFeed] ∨ lineBreak = [carriageReturn] ∨ lineBreak = [carriageReturn, lineFeed] := by
  simpa using h.ends

theorem Line.isLineBreak_first : isLineBreak (byteAt (lineBreak ++ rest) 0) = true := by
  rcases h.lineBreak_cases with rfl | rfl | rfl <;> rfl

theorem Line.lineBreakLength : RebolScan.lineBreakLength (lineBreak ++ rest) = lineBreak.length := by
  rcases h.lineBreak_cases with rfl | rfl | rfl
  · rfl
  · have hfeed : (byteAt rest 0 == lineFeed) = false := beq_false_of_ne (h.whole rfl)
    show (if _ && (byteAt rest 0 == lineFeed) then 2 else 1) = 1
    rw [hfeed, Bool.and_false]
    rfl
  · rfl

theorem Line.lineLength : RebolScan.lineLength (text ++ (lineBreak ++ rest)) = text.length := by
  have hnone : (lineBreak ++ rest).takeWhile (fun b => !isLineEnd b) = [] := by
    have hfirst := h.isLineBreak_first
    cases hr : lineBreak ++ rest with
    | nil => rfl
    | cons b more =>
      rw [hr, byteAt_cons_zero] at hfirst
      exact List.takeWhile_cons_of_neg (by simp [isLineEnd, hfirst])
  rw [RebolScan.lineLength, List.takeWhile_append_of_pos (by simpa using h.plain), hnone,
    List.append_nil]

omit h in
theorem drop_line : (text ++ (lineBreak ++ rest)).drop (text.length + lineBreak.length) = rest := by
  rw [← List.append_assoc, ← List.length_append, List.drop_left]

/-- A line is skipped with its line break, and that is one. -/
theorem Line.lineWithBreak :
    Header.lineWithBreak (text ++ (lineBreak ++ rest)) = text.length + lineBreak.length ∧
      breaksBefore (text ++ (lineBreak ++ rest)) (text.length + lineBreak.length) = 1 := by
  have hlength := h.lineLength
  have hdrop : (text ++ (lineBreak ++ rest)).drop text.length = lineBreak ++ rest := List.drop_left
  have hat : isLineBreak (byteAt (text ++ (lineBreak ++ rest)) text.length) = true := by
    rw [byteAt_append_zero]
    exact h.isLineBreak_first
  have hend : isLineBreak (byteAt (text ++ (lineBreak ++ rest))
      (RebolScan.lineLength (text ++ (lineBreak ++ rest)))) = true := by
    rw [hlength]
    exact hat
  have hone := breaksBefore_lineWithBreak hend
  rw [hlength, hdrop, h.lineBreakLength] at hone
  refine ⟨?_, hone⟩
  rcases lineWithBreak_cases (text ++ (lineBreak ++ rest)) with ⟨hnul, -⟩ | ⟨-, hline⟩
  · rw [hlength] at hnul
    rw [hnul] at hat
    cases hat
  · rw [hline, hlength, hdrop, h.lineBreakLength]

/-- Behind its white space a line is a line. -/
theorem Line.dropWhile : Line (text.dropWhile isSpace) lineBreak rest :=
  ⟨fun b hb => h.plain b ((List.dropWhile_sublist _).subset hb), h.ends, h.whole⟩

theorem Line.byteAt_ne_nul : byteAt (text ++ (lineBreak ++ rest)) 0 ≠ nul := by
  intro h0
  cases text with
  | nil =>
    have hfirst := h.isLineBreak_first
    rw [List.nil_append] at h0
    rw [h0] at hfirst
    cases hfirst
  | cons b text =>
    obtain rfl : b = nul := h0
    have hend := h.plain nul List.mem_cons_self
    cases hend

/-- White space in front of a line ends in the line. -/
theorem Line.drop_margin :
    (text ++ (lineBreak ++ rest)).drop (margin (text ++ (lineBreak ++ rest))) =
        text.dropWhile isSpace ++ (lineBreak ++ rest) ∧
      margin (text ++ (lineBreak ++ rest)) + (text.dropWhile isSpace).length = text.length := by
  have hx := h.isLineBreak_first
  clear h
  generalize lineBreak ++ rest = x at hx
  induction text with
  | nil =>
    have hmargin : margin x = 0 := by
      cases x with
      | nil => rfl
      | cons b x =>
        have hb : isSpace b = false := by
          rw [byteAt_cons_zero, isLineBreak, Bool.or_eq_true, beq_iff_eq, beq_iff_eq] at hx
          rcases hx with rfl | rfl <;> rfl
        rw [margin, List.takeWhile_cons_of_neg (by simp [hb])]
        rfl
    rw [List.nil_append, hmargin]
    exact ⟨rfl, rfl⟩
  | cons b text ih =>
    by_cases hb : isSpace b = true
    · have hmargin : margin (b :: text ++ x) = margin (text ++ x) + 1 := by
        rw [margin, List.cons_append, List.takeWhile_cons_of_pos hb]
        rfl
      rw [hmargin, List.dropWhile_cons_of_pos hb, List.length_cons]
      exact ⟨ih.1, by omega⟩
    · have hmargin : margin (b :: text ++ x) = 0 := by
        rw [margin, List.cons_append, List.takeWhile_cons_of_neg hb]
        rfl
      rw [hmargin, List.dropWhile_cons_of_neg hb]
      exact ⟨rfl, Nat.zero_add _⟩

/-- What ends a line is no part of what it starts with. -/
theorem Line.opens_append : opens (text ++ (lineBreak ++ rest)) = opens text := by
  have hx := h.isLineBreak_first
  generalize lineBreak ++ rest = x at hx
  have hbracket : (byteAt (text ++ x) 0 == bracketOpen) = (byteAt text 0 == bracketOpen) := by
    cases text with
    | nil =>
      rw [List.nil_append, beq_false_of_class hx rfl]
      rfl
    | cons b text => rfl
  have hword : sameIgnoringCase ((text ++ x).take keyword.length) keyword =
      sameIgnoringCase (text.take keyword.length) keyword := by
    rcases Nat.lt_or_ge text.length keyword.length with hlt | hle
    · -- A word that is not whole in the line would have the line break in it.
      have hleft : ¬sameIgnoringCase ((text ++ x).take keyword.length) keyword = true := by
        intro hword
        have hin : text.length < ((text ++ x).take keyword.length).length := by
          rwa [length_of_keyword hword]
        have hend := not_lineEnd_of_keyword hword (byteAt_mem hin)
        rw [byteAt_take hlt, byteAt_append_zero, isLineEnd, hx] at hend
        cases hend
      have hright : ¬sameIgnoringCase (text.take keyword.length) keyword = true := by
        intro hword
        have hlength := length_of_keyword hword
        rw [List.length_take] at hlength
        omega
      rw [Bool.eq_false_iff.2 hleft, Bool.eq_false_iff.2 hright]
    · rw [List.take_append_of_le_length hle]
  rw [opens, opens, hbracket, hword]

/-- **A search passes over a line** that does not start with a bracket or with the word. A blank one
keeps the candidates. -/
theorem Line.findFrom (hopens : opens (text.dropWhile isSpace) = false) (fuel pos line : Nat)
    (c : Candidates) :
    Header.findFrom (fuel + 1) (text ++ (lineBreak ++ rest)) pos line c =
      Header.findFrom fuel rest (pos + (text.length + lineBreak.length)) (line + 1)
        (if isBlank text then c else .none) := by
  obtain ⟨hdrop, hlength⟩ := h.drop_margin
  have hpos : pos + margin (text ++ (lineBreak ++ rest)) +
      ((text.dropWhile isSpace).length + lineBreak.length) =
        pos + (text.length + lineBreak.length) := by omega
  have h := h.dropWhile
  have hopens' := h.opens_append
  rw [hopens, opens, Bool.or_eq_false_iff] at hopens'
  rw [findFrom_succ, hdrop, h.lineWithBreak.1, drop_line, hpos]
  have hblank : isBlank text = (byteAt (text.dropWhile isSpace ++ (lineBreak ++ rest)) 0 == semicolon ||
      isLineBreak (byteAt (text.dropWhile isSpace ++ (lineBreak ++ rest)) 0)) := by
    rw [isBlank]
    cases hu : text.dropWhile isSpace with
    | nil =>
      have hfirst := h.isLineBreak_first
      rw [List.nil_append, hfirst, Bool.or_true]
      rfl
    | cons b u =>
      have hend := h.plain b (by rw [hu]; exact List.mem_cons_self)
      rw [isLineEnd, Bool.or_eq_false_iff] at hend
      show (false || b == semicolon) = (b == semicolon || isLineBreak b)
      rw [hend.1, Bool.or_false, Bool.false_or]
  have hnul := beq_false_of_ne h.byteAt_ne_nul
  rw [sight, hnul, hopens'.1, hopens'.2, hblank]
  cases byteAt (text.dropWhile isSpace ++ (lineBreak ++ rest)) 0 == semicolon ||
    isLineBreak (byteAt (text.dropWhile isSpace ++ (lineBreak ++ rest)) 0) <;> rfl

/-- The line breaks of a line and what is behind it. -/
theorem Line.breaksBefore : RebolScan.breaksBefore (text ++ (lineBreak ++ rest))
    (text ++ (lineBreak ++ rest)).length = 1 + RebolScan.breaksBefore rest rest.length := by
  rw [List.length_append, List.length_append, ← Nat.add_assoc, breaksBefore_add, h.lineWithBreak.2,
    drop_line]

end

/-! ## Lines in front -/

/-- Complete lines without NUL, none of which starts with a bracket or with the word behind white
space. -/
inductive Preamble : Bytes → Prop
  | nil : Preamble []
  | line {text lineBreak rest : Bytes} (h : Line text lineBreak rest)
      (hopens : opens (text.dropWhile isSpace) = false) (hrest : Preamble rest) :
      Preamble (text ++ (lineBreak ++ rest))

/-- **A search passes over a preamble.** -/
theorem Preamble.findFrom {p s : Bytes} (hp : Preamble p)
    (hs : p.getLast? = some carriageReturn → byteAt s 0 ≠ lineFeed) {fuel : Nat}
    (hfuel : (p ++ s).length < fuel) (pos line : Nat) :
    Header.findFrom fuel (p ++ s) pos line .none =
      Header.findFrom fuel s (pos + p.length) (line + breaksBefore p p.length) .none := by
  induction hp generalizing fuel pos line with
  | nil => rfl
  | @line text lineBreak rest h hopens hrest ih =>
    obtain ⟨fuel, rfl⟩ : ∃ n, fuel = n + 1 := ⟨fuel - 1, by omega⟩
    have hline : Line text lineBreak (rest ++ s) := by
      refine ⟨h.plain, h.ends, fun hcr => ?_⟩
      cases rest with
      | nil => exact hs (by rw [hcr, List.append_nil]; exact List.getLast?_concat)
      | cons b rest => exact h.whole hcr
    have hlast (hcr : rest.getLast? = some carriageReturn) : byteAt s 0 ≠ lineFeed := by
      refine hs ?_
      rw [List.getLast?_append, List.getLast?_append, hcr]
      rfl
    have hpos : 0 < lineBreak.length := by
      rcases h.lineBreak_cases with rfl | rfl | rfl <;> decide
    simp only [List.append_assoc, List.length_append] at hfuel
    calc Header.findFrom (fuel + 1) (text ++ (lineBreak ++ rest) ++ s) pos line .none
        = Header.findFrom fuel (rest ++ s) (pos + (text.length + lineBreak.length)) (line + 1) .none := by
          rw [List.append_assoc, List.append_assoc, hline.findFrom hopens, ite_self]
      _ = Header.findFrom fuel s (pos + (text.length + lineBreak.length) + rest.length)
            (line + 1 + breaksBefore rest rest.length) .none :=
          ih hlast (by rw [List.length_append]; omega) _ _
      _ = Header.findFrom (fuel + 1) s (pos + (text.length + lineBreak.length) + rest.length)
            (line + 1 + breaksBefore rest rest.length) .none :=
          findFrom_fuel (by omega) (by omega) _ _ _
      _ = _ := by
          rw [h.breaksBefore, List.length_append, List.length_append]
          simp only [Nat.add_assoc]

/-- The last byte of a preamble ends a line. -/
theorem Preamble.last {p : Bytes} (hp : Preamble p) (hne : p ≠ []) :
    ∃ u b, p = u ++ [b] ∧ isLineBreak b = true := by
  induction hp with
  | nil => exact absurd rfl hne
  | @line text lineBreak rest h _ _ ih =>
    cases rest with
    | nil =>
      rcases h.lineBreak_cases with rfl | rfl | rfl
      · exact ⟨text, lineFeed, rfl, rfl⟩
      · exact ⟨text, carriageReturn, rfl, rfl⟩
      · exact ⟨text ++ [carriageReturn], lineFeed, by simp, rfl⟩
    | cons b rest =>
      obtain ⟨u, c, hu, hc⟩ := ih (List.cons_ne_nil b rest)
      exact ⟨text ++ (lineBreak ++ u), c, by rw [hu]; simp, hc⟩

/-! ## Gaps in front -/

/-- A gap in front of `x` by its lines: blank ones, and white space behind the last. -/
inductive BlankLines (x : Bytes) : Bytes → Prop
  | spaces {g : Bytes} (h : ∀ b ∈ g, isSpace b = true) : BlankLines x g
  | line {text lineBreak rest : Bytes} (h : Line text lineBreak (rest ++ x))
      (hblank : isBlank text = true) (hrest : BlankLines x rest) :
      BlankLines x (text ++ (lineBreak ++ rest))

section

variable {text rest g x : Bytes}

theorem not_opens_of_isBlank (h : isBlank text = true) :
    opens (text.dropWhile isSpace) = false := by
  rw [isBlank, Bool.or_eq_true, List.isEmpty_iff, beq_iff_eq] at h
  rcases h with h | h
  · rw [h]
    rfl
  · have hword : ¬sameIgnoringCase ((text.dropWhile isSpace).take keyword.length) keyword = true := by
      intro hword
      have hupper := congrArg (fun w => byteAt w 0) (eq_of_beq hword)
      cases hu : text.dropWhile isSpace with
      | nil =>
        rw [hu] at h
        cases h
      | cons b u =>
        rw [hu, byteAt_cons_zero] at h
        rw [hu, h] at hupper
        cases hupper
    rw [opens, h, Bool.eq_false_iff.2 hword]
    rfl

/-- A line break behind what is blank makes a line of it, with the line feed behind it if that is
one. -/
theorem BlankLines.cons {b : UInt8} (hx : byteAt x 0 ≠ lineFeed)
    (htext : ∀ c ∈ text, isLineEnd c = false) (hblank : isBlank text = true)
    (hb : isLineBreak b = true) (hrest : BlankLines x rest) : BlankLines x (text ++ b :: rest) := by
  rw [isLineBreak, Bool.or_eq_true, beq_iff_eq, beq_iff_eq] at hb
  -- A carriage return here and a line feed that starts the rest are one line break, and the empty
  -- line that the line feed ended is none any more.
  by_cases hpair : b = carriageReturn ∧ byteAt (rest ++ x) 0 = lineFeed
  · obtain ⟨rfl, hfeed⟩ := hpair
    cases hrest with
    | spaces h =>
      cases rest with
      | nil => exact absurd hfeed hx
      | cons c rest =>
        obtain rfl : c = lineFeed := hfeed
        have hspace := h lineFeed List.mem_cons_self
        cases hspace
    | @line text' lineBreak rest h hblank' hrest =>
      have hempty : text' = [] := by
        cases text' with
        | nil => rfl
        | cons c text' =>
          obtain rfl : c = lineFeed := hfeed
          have hend := h.plain lineFeed List.mem_cons_self
          cases hend
      subst hempty
      rcases h.lineBreak_cases with rfl | rfl | rfl
      · have hline : Line text [carriageReturn, lineFeed] (rest ++ x) := by
          refine ⟨htext, by simp, fun hcr => ?_⟩
          exact absurd (List.cons.inj hcr).2 (List.cons_ne_nil lineFeed [])
        exact .line hline hblank hrest
      · cases hfeed
      · cases hfeed
  · have hline : Line text [b] (rest ++ x) := by
      refine ⟨htext, ?_, fun hcr hfeed => hpair ⟨(List.cons.inj hcr).1, hfeed⟩⟩
      rcases hb with rfl | rfl <;> simp
    exact .line hline hblank hrest

theorem isBlank_cons {b : UInt8} (hb : isSpace b = true) (text : Bytes) :
    isBlank (b :: text) = isBlank text := by
  rw [isBlank, isBlank, List.dropWhile_cons_of_pos hb]

theorem blankLines (hg : Skipped g) (hx : byteAt x 0 ≠ lineFeed) : BlankLines x g := by
  induction hg with
  | nil => exact .spaces nofun
  | @space b rest hb _ ih =>
    cases ih with
    | spaces h => exact .spaces (List.forall_mem_cons.2 ⟨hb, h⟩)
    | @line text lineBreak rest h hblank hrest =>
      have hline : Line (b :: text) lineBreak (rest ++ x) := by
        refine ⟨List.forall_mem_cons.2 ⟨?_, h.plain⟩, h.ends, h.whole⟩
        exact Lexeme.not_lineEnd_of_comment (.inr hb)
      exact .line hline (by rwa [isBlank_cons hb]) hrest
  | lineBreak hb _ ih =>
    have hempty : ∀ c ∈ ([] : Bytes), isLineEnd c = false := nofun
    exact ih.cons hx hempty rfl hb
  | @comment text b rest htext hb _ ih =>
    have hline : ∀ c ∈ semicolon :: text, isLineEnd c = false :=
      List.forall_mem_cons.2 ⟨rfl, htext⟩
    exact ih.cons hx hline rfl hb

/-- White space in front is passed over. -/
theorem findFrom_spaces (hg : ∀ b ∈ g, isSpace b = true) (fuel : Nat) (x : Bytes) (pos line : Nat)
    (c : Candidates) :
    findFrom fuel (g ++ x) pos line c = findFrom fuel x (pos + g.length) line c := by
  cases fuel with
  | zero => rfl
  | succ fuel =>
    have hmargin : margin (g ++ x) = g.length + margin x := by
      rw [margin, List.takeWhile_append_of_pos hg, List.length_append]
      rfl
    rw [findFrom_succ, findFrom_succ, hmargin, List.drop_length_add_append, ← Nat.add_assoc]

/-- **A search keeps its candidates over a gap.** -/
theorem BlankLines.findFrom (hg : BlankLines x g) {fuel : Nat} (hfuel : (g ++ x).length < fuel)
    (pos line : Nat) (c : Candidates) : ∃ line', Header.findFrom fuel (g ++ x) pos line c =
      Header.findFrom fuel x (pos + g.length) line' c := by
  induction hg generalizing fuel pos line with
  | spaces h => exact ⟨line, findFrom_spaces h fuel x pos line c⟩
  | @line text lineBreak rest h hblank _ ih =>
    obtain ⟨fuel, rfl⟩ : ∃ n, fuel = n + 1 := ⟨fuel - 1, by omega⟩
    have hpos : 0 < lineBreak.length := by
      rcases h.lineBreak_cases with rfl | rfl | rfl <;> decide
    simp only [List.append_assoc, List.length_append] at hfuel
    have hrest : (rest ++ x).length < fuel := by
      rw [List.length_append]
      omega
    obtain ⟨line', hline'⟩ := ih hrest (pos + (text.length + lineBreak.length)) (line + 1)
    have hmore (at' : Nat) : Header.findFrom fuel x at' line' c =
        Header.findFrom (fuel + 1) x at' line' c := findFrom_fuel (by omega) (by omega) _ _ _
    refine ⟨line', ?_⟩
    rw [List.append_assoc, List.append_assoc, h.findFrom (not_opens_of_isBlank hblank), hblank,
      if_pos rfl, hline', hmore, List.length_append, List.length_append]
    simp only [Nat.add_assoc]

end

/-- A mark in front of a preamble and a text is a mark in front of either. -/
theorem Preamble.byteOrderMarkLength {p s : Bytes} (hp : Preamble p)
    (h : RebolScan.byteOrderMarkLength p = 0) (hs : RebolScan.byteOrderMarkLength s = 0) :
    RebolScan.byteOrderMarkLength (p ++ s) = 0 := by
  by_cases hne : p = []
  · rw [hne]
    exact hs
  · obtain ⟨u, b, rfl, hb⟩ := hp.last hne
    have hended (x : Bytes) : Ended (b :: x) := by
      rw [isLineBreak, Bool.or_eq_true, beq_iff_eq, beq_iff_eq] at hb
      rcases hb with rfl | rfl <;> rfl
    rw [byteOrderMarkLength_append (hended [])] at h
    rw [List.append_assoc, List.singleton_append, byteOrderMarkLength_append (hended s), h]

/-- **Behind a preamble a search finds what it finds without it.** -/
theorem findHeader_behind {p s : Bytes} (hp : Preamble p) (hmark : RebolScan.byteOrderMarkLength p = 0)
    (hmark' : RebolScan.byteOrderMarkLength s = 0)
    (hs : p.getLast? = some carriageReturn → byteAt s 0 ≠ lineFeed) :
    findHeader (p ++ s) = (findHeader s).map (moved p.length (breaksBefore p p.length)) := by
  have hfuel : (p ++ s).length < (p ++ s).length + 1 := Nat.lt_succ_self _
  have hlength : s.length < (p ++ s).length + 1 := by
    rw [List.length_append]
    omega
  rw [findHeader, findHeader, hp.byteOrderMarkLength hmark hmark', hmark']
  show Header.findFrom ((p ++ s).length + 1) (p ++ s) 0 1 .none = _
  rw [hp.findFrom hs hfuel, findFrom_fuel hlength (Nat.lt_succ_self s.length)]
  exact findFrom_moved _ _ _ s 0 1 .none

/-! ## Headers in front -/

section

variable {w g g' : Bytes}

/-- The word starts with its first letter. -/
theorem byteAt_keyword (hw : sameIgnoringCase w keyword = true) (x : Bytes) :
    byteAt (w ++ x) 0 = 0x52 ∨ byteAt (w ++ x) 0 = 0x72 := by
  have hupper := eq_of_beq hw
  cases w with
  | nil => cases hupper
  | cons b u =>
    have hb : toUpper b = 0x52 := (List.cons.inj hupper).1
    rw [List.cons_append, byteAt_cons_zero]
    rw [toUpper] at hb
    split at hb
    · right
      rw [← UInt8.sub_add_cancel b 0x20, hb]
      rfl
    · exact .inl hb

theorem findFrom_word (hw : sameIgnoringCase w keyword = true) (fuel : Nat) (x : Bytes)
    (pos line : Nat) (c : Candidates) : findFrom (fuel + 1) (w ++ x) pos line c =
      findFrom fuel x (pos + keyword.length) line { c with word := some pos } := by
  have hlength := length_of_keyword hw
  have htake : (w ++ x).take keyword.length = w := by rw [← hlength, List.take_left]
  have hdrop : (w ++ x).drop keyword.length = x := by rw [← hlength, List.drop_left]
  obtain ⟨hmargin, hnul, hbracket⟩ : margin (w ++ x) = 0 ∧ byteAt (w ++ x) 0 ≠ nul ∧
      byteAt (w ++ x) 0 ≠ bracketOpen := by
    have hfirst := byteAt_keyword hw x
    generalize w ++ x = text at hfirst
    cases text with
    | nil => rcases hfirst with h | h <;> cases h
    | cons b text =>
      rw [byteAt_cons_zero] at hfirst ⊢
      rcases hfirst with rfl | rfl
      · exact ⟨rfl, by decide, by decide⟩
      · exact ⟨rfl, by decide, by decide⟩
  have hsight : sight (w ++ x) = .word := by
    rw [sight, beq_false_of_ne hnul, beq_false_of_ne hbracket, htake, hw]
    rfl
  rw [findFrom_succ, hmargin, List.drop_zero, hsight]
  dsimp only
  rw [hdrop, Nat.add_zero]

theorem findFrom_bracket (fuel : Nat) (v : Bytes) (pos line : Nat) (c : Candidates) :
    findFrom (fuel + 1) (bracketOpen :: v) pos line c =
      match c.header? pos line with
      | some h => some h
      | none => findFrom fuel v (pos + 1) line { c with bracket := some pos } := rfl

/-- The word, a gap and a bracket complete a header. -/
theorem findFrom_completed (hw : sameIgnoringCase w keyword = true) (hg : Skipped g) (v : Bytes)
    {fuel : Nat} (hfuel : (w ++ (g ++ bracketOpen :: v)).length < fuel) (pos line : Nat)
    (c : Candidates) : ∃ line', findFrom fuel (w ++ (g ++ bracketOpen :: v)) pos line c =
      Candidates.header? ⟨some pos, c.bracket⟩ (pos + w.length + g.length) line' := by
  have hlength := length_of_keyword hw
  rw [List.length_append] at hfuel
  obtain ⟨fuel, rfl⟩ : ∃ n, fuel = n + 2 := ⟨fuel - 2, by simp at hfuel; omega⟩
  have hlines : BlankLines (bracketOpen :: v) g := blankLines hg (show bracketOpen ≠ _ by decide)
  have hkeyword : 0 < keyword.length := by decide
  have hgap : (g ++ bracketOpen :: v).length < fuel + 1 := by omega
  obtain ⟨line', hline'⟩ := hlines.findFrom hgap (pos + keyword.length) line ⟨some pos, c.bracket⟩
  refine ⟨line', ?_⟩
  rw [findFrom_word hw, hline', findFrom_bracket, hlength]
  obtain ⟨_, bracket⟩ := c
  cases bracket <;> rfl

/-- **A script at the front is found.** -/
theorem findHeader_front (hw : sameIgnoringCase w keyword = true) (hg : Skipped g) (v : Bytes) :
    ∃ line, findHeader (w ++ (g ++ bracketOpen :: v)) =
      some ⟨.header, 0, w.length + g.length, line⟩ := by
  have hmark : RebolScan.byteOrderMarkLength (w ++ (g ++ bracketOpen :: v)) = 0 := by
    refine byteOrderMarkLength_of_ne ?_
    rcases byteAt_keyword hw (g ++ bracketOpen :: v) with h | h <;> rw [h] <;> decide
  obtain ⟨line, hline⟩ := findFrom_completed hw hg v (Nat.lt_succ_self _) 0 1 .none
  refine ⟨line, ?_⟩
  rw [findHeader, hmark, List.drop_zero, hline, Nat.zero_add]
  rfl

/-- **And so is one in a block.** -/
theorem findHeader_embedded (hg' : Skipped g') (hw : sameIgnoringCase w keyword = true)
    (hg : Skipped g) (v : Bytes) :
    ∃ line, findHeader (bracketOpen :: (g' ++ (w ++ (g ++ bracketOpen :: v)))) =
      some ⟨.embedded, 0, 1 + g'.length + w.length + g.length, line⟩ := by
  have hx : byteAt (w ++ (g ++ bracketOpen :: v)) 0 ≠ lineFeed := by
    rcases byteAt_keyword hw (g ++ bracketOpen :: v) with h | h <;> rw [h] <;> decide
  obtain ⟨line, hline⟩ := (blankLines hg' hx).findFrom (Nat.lt_succ_self _) (0 + 1) 1 ⟨none, some 0⟩
  have hfuel : (w ++ (g ++ bracketOpen :: v)).length <
      (g' ++ (w ++ (g ++ bracketOpen :: v))).length + 1 :=
    Nat.lt_succ_of_le (List.sublist_append_right g' _).length_le
  obtain ⟨line', hline'⟩ := findFrom_completed hw hg v hfuel (0 + 1 + g'.length) line ⟨none, some 0⟩
  refine ⟨line', ?_⟩
  rw [findHeader]
  show findFrom _ (bracketOpen :: (g' ++ (w ++ (g ++ bracketOpen :: v)))) 0 1 .none = _
  rw [List.length_cons, findFrom_bracket]
  show findFrom _ _ (0 + 1) 1 ⟨none, some 0⟩ = _
  rw [hline, hline', Nat.zero_add]
  rfl

end

end Header

/-- **The search for a header.** A header that is found is one, and its line is that of its bracket. A
script at the front is found, be it in a block or not, and behind a preamble the search finds what it
finds without it, so many bytes and lines further on. -/
theorem headers_found :
    (∀ source h, findHeader source = some h → h.FoundIn source) ∧
    (∀ w g v, sameIgnoringCase w Header.keyword = true → Skipped g →
      ∃ line, findHeader (w ++ (g ++ bracketOpen :: v)) =
        some ⟨.header, 0, w.length + g.length, line⟩) ∧
    (∀ g' w g v, Skipped g' → sameIgnoringCase w Header.keyword = true → Skipped g →
      ∃ line, findHeader (bracketOpen :: (g' ++ (w ++ (g ++ bracketOpen :: v)))) =
        some ⟨.embedded, 0, 1 + g'.length + w.length + g.length, line⟩) ∧
    (∀ p s, Header.Preamble p → byteOrderMarkLength p = 0 → byteOrderMarkLength s = 0 →
      (p.getLast? = some carriageReturn → byteAt s 0 ≠ lineFeed) →
      findHeader (p ++ s) =
        (findHeader s).map (Header.moved p.length (breaksBefore p p.length))) :=
  ⟨fun _ _ => Header.findHeader_sound, fun _ _ v hw hg => Header.findHeader_front hw hg v,
    fun _ _ _ v hg' hw hg => Header.findHeader_embedded hg' hw hg v,
    fun _ _ hp => Header.findHeader_behind hp⟩

/-- `[Rebol;x⏎[` holds an embedded header, and it is found behind the line `x [⏎`. -/
theorem headers_found_behind_line :
    Header.FoundIn [0x5B, 0x52, 0x65, 0x62, 0x6F, 0x6C, 0x3B, 0x78, 0x0A, 0x5B]
      ⟨.embedded, 0, 9, 2⟩ ∧
    sameIgnoringCase [0x52, 0x65, 0x62, 0x6F, 0x6C] Header.keyword = true ∧
    Skipped [0x3B, 0x78, 0x0A] ∧
    (∃ line, findHeader ([0x52, 0x65, 0x62, 0x6F, 0x6C] ++ ([0x3B, 0x78, 0x0A] ++ [0x5B])) =
      some ⟨.header, 0, 8, line⟩) ∧
    (∃ line, findHeader (0x5B :: ([] ++ ([0x52, 0x65, 0x62, 0x6F, 0x6C] ++
      ([0x3B, 0x78, 0x0A] ++ [0x5B])))) = some ⟨.embedded, 0, 9, line⟩) ∧
    Header.Preamble [0x78, 0x20, 0x5B, 0x0D, 0x0A] ∧
    findHeader ([0x78, 0x20, 0x5B, 0x0D, 0x0A] ++
      [0x5B, 0x52, 0x65, 0x62, 0x6F, 0x6C, 0x3B, 0x78, 0x0A, 0x5B]) =
      some ⟨.embedded, 5, 14, 3⟩ := by
  have hfind : findHeader [0x5B, 0x52, 0x65, 0x62, 0x6F, 0x6C, 0x3B, 0x78, 0x0A, 0x5B] =
      some ⟨.embedded, 0, 9, 2⟩ := by decide
  have hgap : Skipped ([semicolon, 0x78] ++ [lineFeed]) :=
    .comment (List.forall_mem_singleton.2 rfl) rfl .nil
  have hplain : ∀ b ∈ ([0x78, 0x20, 0x5B] : Bytes), isLineEnd b = false :=
    List.forall_mem_cons.2 ⟨rfl, List.forall_mem_cons.2 ⟨rfl, List.forall_mem_singleton.2 rfl⟩⟩
  have hline : Header.Line [0x78, 0x20, 0x5B] [carriageReturn, lineFeed] [] :=
    ⟨hplain, by simp, nofun⟩
  have hlines : Header.Preamble ([0x78, 0x20, 0x5B] ++ ([carriageReturn, lineFeed] ++ [])) :=
    .line hline rfl .nil
  obtain ⟨hsound, hfront, hembedded, hbehind⟩ := headers_found
  have hmoved := hbehind _ [0x5B, 0x52, 0x65, 0x62, 0x6F, 0x6C, 0x3B, 0x78, 0x0A, 0x5B] hlines rfl rfl
    (by decide)
  rw [hfind] at hmoved
  exact ⟨hsound _ _ hfind, rfl, hgap,
    hfront [0x52, 0x65, 0x62, 0x6F, 0x6C] [0x3B, 0x78, 0x0A] [] rfl hgap,
    hembedded [] [0x52, 0x65, 0x62, 0x6F, 0x6C] [0x3B, 0x78, 0x0A] [] .nil rfl hgap, hlines, hmoved⟩

end RebolScan
