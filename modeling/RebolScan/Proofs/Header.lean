import RebolScan.Header
import RebolScan.Proofs.Token.OneLine
import RebolScan.Proofs.Value.Tiled

/-!
# The search for a header

A search goes on by turns: it passes over white space and does what the byte behind it asks for
(`findFrom_succ`, with `Sight` for what there is to see). `Searched` is what it knows at a place: how
many line breaks lie behind, and what stands between each of its candidates and here. A gap keeps
that, a bracket or a word adds to it, and a line of other text does away with the candidates. So
**what a search finds is there** (`Searched.found`): a bracket, a word `REBOL` with nothing but a gap
in between, and in front of that the bracket of a block that embeds the script, or nothing.
-/

set_option autoImplicit false

namespace RebolScan

open Ascii Lexeme

namespace Header

/-! ## Lines -/

/-- A line ends at NUL or the end of the text, or takes its line break with it. -/
theorem lineWithBreak_cases (text : Bytes) :
    (byteAt text (lineLength text) = nul ∧ lineWithBreak text = lineLength text) ∨
    (isLineBreak (byteAt text (lineLength text)) = true ∧
      lineWithBreak text = lineLength text + lineBreakLength (text.drop (lineLength text))) := by
  have hend := isLineEnd_byteAt_lineLength text
  unfold lineWithBreak
  dsimp only
  split
  · rename_i h
    exact .inl ⟨eq_of_beq h, rfl⟩
  · rename_i h
    rw [isLineEnd, Bool.or_eq_true] at hend
    exact .inr ⟨hend.resolve_right h, rfl⟩

theorem lineWithBreak_bounds {text : Bytes} (h : byteAt text 0 ≠ nul) :
    1 ≤ lineWithBreak text ∧ lineWithBreak text ≤ text.length := by
  have hle := lineLength_le text
  rcases lineWithBreak_cases text with ⟨hnul, hline⟩ | ⟨hbreak, hline⟩
  · have hne : lineLength text ≠ 0 := by
      intro h0
      rw [h0] at hnul
      exact h hnul
    omega
  · have hnul : byteAt (text.drop (lineLength text)) 0 ≠ nul := by
      rw [byteAt_drop, Nat.add_zero]
      intro h0
      rw [h0] at hbreak
      cases hbreak
    have hbounds := lineBreakLength_bounds hnul
    rw [List.length_drop] at hbounds
    omega

/-- There is one line break in a line, and it is at the end. -/
theorem breaksBefore_lineWithBreak {text : Bytes}
    (h : isLineBreak (byteAt text (lineLength text)) = true) :
    breaksBefore text (lineLength text + lineBreakLength (text.drop (lineLength text))) = 1 := by
  rw [← Nat.add_zero (lineLength text), ← byteAt_drop] at h
  rw [breaksBefore_add, breaksBefore_of_unbroken (unbroken_lineLength text), (tallies_lineBreak h).1]

/-! ## Turns of the search -/

/-- What a search sees behind white space. -/
inductive Sight
  | ending
  | bracket
  | word
  | blank
  | text

/-- What stands at the front of a text: its end, a bracket, the word, a comment or an empty line, or
any other text. -/
def sight (text : Bytes) : Sight :=
  if byteAt text 0 == nul then .ending
  else if byteAt text 0 == bracketOpen then .bracket
  else if sameIgnoringCase (text.take keyword.length) keyword then .word
  else if byteAt text 0 == semicolon || isLineBreak (byteAt text 0) then .blank
  else .text

/-- What is known of a text by the sight of it. -/
inductive Sees (text : Bytes) : Sight → Prop
  | ending (h : byteAt text 0 = nul) : Sees text .ending
  | bracket (h : byteAt text 0 = bracketOpen) : Sees text .bracket
  | word (hnul : byteAt text 0 ≠ nul)
      (h : sameIgnoringCase (text.take keyword.length) keyword = true) : Sees text .word
  | blank (hnul : byteAt text 0 ≠ nul)
      (h : byteAt text 0 = semicolon ∨ isLineBreak (byteAt text 0) = true) : Sees text .blank
  | text (hnul : byteAt text 0 ≠ nul) : Sees text .text

theorem sees (text : Bytes) : Sees text (sight text) := by
  unfold sight
  split
  · rename_i h
    exact .ending (eq_of_beq h)
  rename_i hnul
  rw [beq_iff_eq] at hnul
  split
  · rename_i h
    exact .bracket (eq_of_beq h)
  split
  · rename_i h
    exact .word hnul h
  split
  · rename_i h
    rw [Bool.or_eq_true, beq_iff_eq] at h
    exact .blank hnul h
  · exact .text hnul

/-- How many bytes of white space are in front. -/
def margin (text : Bytes) : Nat := (text.takeWhile isSpace).length

/-- **A turn of the search** passes over white space and goes by what it sees. -/
theorem findFrom_succ (fuel : Nat) (rest : Bytes) (pos line : Nat) (c : Candidates) :
    findFrom (fuel + 1) rest pos line c =
      match sight (rest.drop (margin rest)) with
      | .ending => none
      | .bracket =>
        match c.header? (pos + margin rest) line with
        | some h => some h
        | none => findFrom fuel ((rest.drop (margin rest)).drop 1) (pos + margin rest + 1) line
            { c with bracket := some (pos + margin rest) }
      | .word => findFrom fuel ((rest.drop (margin rest)).drop keyword.length)
          (pos + margin rest + keyword.length) line { c with word := some (pos + margin rest) }
      | .blank => findFrom fuel
          ((rest.drop (margin rest)).drop (lineWithBreak (rest.drop (margin rest))))
          (pos + margin rest + lineWithBreak (rest.drop (margin rest))) (line + 1) c
      | .text => findFrom fuel
          ((rest.drop (margin rest)).drop (lineWithBreak (rest.drop (margin rest))))
          (pos + margin rest + lineWithBreak (rest.drop (margin rest))) (line + 1) .none := by
  rw [findFrom]
  unfold sight margin
  dsimp only
  split
  · rfl
  split
  · rfl
  split
  · rfl
  split <;> rfl

/-- Nothing is found at NUL. -/
theorem findFrom_nul {rest : Bytes} (h : byteAt rest 0 = nul) (fuel pos line : Nat) (c : Candidates) :
    findFrom fuel rest pos line c = none := by
  have hmargin : margin rest = 0 := by
    cases rest with
    | nil => rfl
    | cons b rest =>
      obtain rfl : b = nul := h
      rfl
  have hsight : sight rest = .ending := by rw [sight, h]; rfl
  cases fuel with
  | zero => rfl
  | succ fuel => rw [findFrom_succ, hmargin, List.drop_zero, hsight]

/-! ## What a search knows -/

/-- What may stand between a bracket and the word of the script that it embeds: what says nothing,
and more such words. -/
inductive Filler : Bytes → Prop
  | skipped {x : Bytes} (h : Skipped x) : Filler x
  | word {x w y : Bytes} (hx : Filler x) (hw : sameIgnoringCase w keyword = true) (hy : Skipped y) :
      Filler (x ++ (w ++ y))

theorem Filler.append {x y : Bytes} (hx : Filler x) (hy : Skipped y) : Filler (x ++ y) := by
  cases hx with
  | skipped h => exact .skipped (h.append hy)
  | word hx hw h =>
    rw [List.append_assoc, List.append_assoc]
    exact .word hx hw (h.append hy)

/-- From `a` to `b` there are words and gaps. -/
structure Leads (source : Bytes) (a b : Nat) : Prop where
  le : a ≤ b
  filler : Filler (between source a b)

/-- The word stands at `w`, and no more than a gap is between it and `pos`. -/
structure Announced (source : Bytes) (w pos : Nat) : Prop where
  word : sameIgnoringCase (between source w (w + keyword.length)) keyword = true
  gap : Gap source (w + keyword.length) pos

/-- What a search knows when it has come to `pos`. -/
structure Searched (source : Bytes) (pos line : Nat) (c : Candidates) : Prop where
  le : pos ≤ source.length
  line : line = 1 + breaksBefore source pos
  word : ∀ w, c.word = some w → Announced source w pos
  bracket : ∀ b, c.bracket = some b →
    byteAt source b = bracketOpen ∧ Leads source (b + 1) (c.word.getD pos)

/-- What a header says of the source in which it was found. -/
structure FoundIn (source : Bytes) (h : Header) : Prop where
  block : byteAt source h.block = bracketOpen
  line : h.line = 1 + breaksBefore source h.block
  word : ∃ w, Announced source w h.block ∧ (h.kind = .header → h.offset = w) ∧
    (h.kind = .embedded → byteAt source h.offset = bracketOpen ∧ Leads source (h.offset + 1) w)

section

variable {source : Bytes} {pos line : Nat} {c : Candidates}

theorem gap_of_take {n : Nat} (hle : pos + n ≤ source.length)
    (h : Skipped ((source.drop pos).take n)) : Gap source pos (pos + n) := by
  refine ⟨Nat.le_add_right _ _, hle, ?_⟩
  rwa [between, Nat.add_sub_cancel_left]

theorem Leads.gap {a b d : Nat} (h : Leads source a b) (hg : Gap source b d) : Leads source a d := by
  refine ⟨Nat.le_trans h.le hg.le, ?_⟩
  rw [between_append h.le hg.le]
  exact h.filler.append hg.skipped

theorem Announced.trans {w q : Nat} (h : Announced source w pos) (hg : Gap source pos q) :
    Announced source w q := ⟨h.word, h.gap.trans hg⟩

/-- Over a gap candidates stay what they are. -/
theorem Searched.gap {n breaks : Nat} (h : Searched source pos line c)
    (hg : Gap source pos (pos + n)) (hb : breaksBefore (source.drop pos) n = breaks) :
    Searched source (pos + n) (line + breaks) c where
  le := hg.length
  line := by rw [h.line, breaksBefore_add, hb, Nat.add_assoc]
  word w hw := (h.word w hw).trans hg
  bracket b hb := by
    obtain ⟨hopen, hleads⟩ := h.bracket b hb
    refine ⟨hopen, ?_⟩
    cases hw : c.word with
    | none =>
      rw [hw] at hleads
      exact hleads.gap hg
    | some w =>
      rw [hw] at hleads
      exact hleads

theorem Searched.space (h : Searched source pos line c) :
    Searched source (pos + margin (source.drop pos)) line c := by
  have hpre : (source.drop pos).takeWhile isSpace <+: source.drop pos := List.takeWhile_prefix _
  have hlength := hpre.length_le
  have hle := h.le
  rw [List.length_drop] at hlength
  have hskipped : Skipped ((source.drop pos).take (margin (source.drop pos))) := by
    rw [margin, ← List.prefix_iff_eq_take.1 hpre]
    exact skipped_spaces _
  have hunbroken : Unbroken (source.drop pos) 0 (margin (source.drop pos)) := by
    refine unbroken_takeWhile (fun b hb => ?_) _
    rw [isSpace, beq_iff_eq] at hb
    exact not_lineBreak_of_delimiter hb Delimiter.noConfusion Delimiter.noConfusion
  exact h.gap (gap_of_take (by rw [margin]; omega) hskipped) (breaksBefore_of_unbroken hunbroken)

theorem Searched.open (h : Searched source pos line c) (hb : byteAt source pos = bracketOpen)
    (hnone : c.word = none) : Searched source (pos + 1) line { c with bracket := some pos } := by
  have hlt : pos < source.length := lt_length_of_byteAt (by rw [hb]; decide)
  have hunbroken : Unbroken source pos (pos + 1) := unbroken_succ (by rw [hb]; rfl)
  refine ⟨hlt, ?_, fun w hw => ?_, fun b hb' => ?_⟩
  · rw [breaksBefore_eq (Nat.le_succ pos) hunbroken]
    exact h.line
  · rw [hnone] at hw
    cases hw
  · cases hb'
    refine ⟨hb, ?_⟩
    rw [hnone]
    refine ⟨Nat.le_refl _, ?_⟩
    show Filler (between source (pos + 1) (pos + 1))
    rw [between_self]
    exact .skipped .nil

theorem length_of_keyword {w : Bytes} (h : sameIgnoringCase w keyword = true) :
    w.length = keyword.length := by
  have hlength := congrArg List.length (eq_of_beq h)
  rwa [List.length_map, List.length_map] at hlength

/-- No line ends within the word. -/
theorem not_lineEnd_of_keyword {w : Bytes} (h : sameIgnoringCase w keyword = true) {b : UInt8}
    (hb : b ∈ w) : isLineEnd b = false := by
  have hupper : toUpper b ∈ keyword.map toUpper := by
    rw [← eq_of_beq h]
    exact List.mem_map_of_mem hb
  cases hend : isLineEnd b with
  | false => rfl
  | true =>
    simp only [isLineEnd, isLineBreak, Bool.or_eq_true, beq_iff_eq] at hend
    rcases hend with (rfl | rfl) | rfl <;> exact absurd hupper (by decide)

theorem Searched.announce (h : Searched source pos line c)
    (hw : sameIgnoringCase ((source.drop pos).take keyword.length) keyword = true) :
    Searched source (pos + keyword.length) line { c with word := some pos } := by
  have hlength := length_of_keyword hw
  rw [List.length_take, List.length_drop] at hlength
  have hle : pos + keyword.length ≤ source.length := by
    have := h.le
    omega
  have hunbroken : Unbroken source pos (pos + keyword.length) := by
    rw [← unbroken_drop]
    intro i _ hi
    have hin : i < ((source.drop pos).take keyword.length).length := by
      rwa [length_of_keyword hw]
    rw [← byteAt_take hi]
    have hend := not_lineEnd_of_keyword hw (byteAt_mem hin)
    rw [isLineEnd, Bool.or_eq_false_iff] at hend
    exact hend.1
  have hword : sameIgnoringCase (between source pos (pos + keyword.length)) keyword = true := by
    rwa [between, Nat.add_sub_cancel_left]
  refine ⟨hle, ?_, fun w hw' => ?_, fun b hb => ?_⟩
  · rw [breaksBefore_eq (Nat.le_add_right _ _) hunbroken]
    exact h.line
  · cases hw'
    exact ⟨hword, .refl hle⟩
  · obtain ⟨hopen, hleads⟩ := h.bracket b hb
    refine ⟨hopen, ?_⟩
    show Leads source (b + 1) pos
    cases hc : c.word with
    | none =>
      rw [hc] at hleads
      exact hleads
    | some w =>
      -- The word found before is one of those between the bracket and this one.
      rw [hc] at hleads
      have hbefore := h.word w hc
      have hgap := hbefore.gap
      have hle : b + 1 ≤ w := hleads.le
      have hlast : w + keyword.length ≤ pos := hgap.le
      refine ⟨by omega, ?_⟩
      rw [between_append hle (by omega), between_append (Nat.le_add_right w keyword.length) hlast]
      exact .word hleads.filler hbefore.word hgap.skipped

/-- A line that says something starts the search afresh behind it. -/
theorem Searched.afresh {n : Nat} (h : Searched source pos line c) (hle : pos + n ≤ source.length)
    (hb : breaksBefore (source.drop pos) n = 1) : Searched source (pos + n) (line + 1) .none where
  le := hle
  line := by rw [h.line, breaksBefore_add, hb, Nat.add_assoc]
  word _ hw := nomatch hw
  bracket _ hb := nomatch hb

/-- A comment or an empty line says nothing, up to where it ends. -/
theorem skipped_line {text : Bytes}
    (h : byteAt text 0 = semicolon ∨ isLineBreak (byteAt text 0) = true)
    (hbreak : isLineBreak (byteAt text (lineLength text)) = true) :
    Skipped (text.take (lineLength text + lineBreakLength (text.drop (lineLength text)))) := by
  rcases h with h | h
  · exact skipped_commentLine h hbreak
  · have hempty : lineLength text = 0 := by
      rcases Nat.eq_zero_or_pos (lineLength text) with h0 | hpos
      · exact h0
      · have hend := not_lineEnd_of_lt hpos
        rw [isLineEnd, h] at hend
        cases hend
    rw [hempty, Nat.zero_add, List.drop_zero]
    exact skipped_lineBreak h

/-- A search that finds something behind a line has come over the line break of it. -/
theorem break_of_found {fuel at' : Nat} {m : Header}
    (h : findFrom fuel (source.drop (pos + lineWithBreak (source.drop pos))) at' line c = some m) :
    isLineBreak (byteAt (source.drop pos) (lineLength (source.drop pos))) = true ∧
      lineWithBreak (source.drop pos) = lineLength (source.drop pos) +
        lineBreakLength ((source.drop pos).drop (lineLength (source.drop pos))) := by
  rcases lineWithBreak_cases (source.drop pos) with ⟨hend, hline⟩ | hbreak
  · rw [← List.drop_drop, findFrom_nul (by rw [byteAt_drop, hline]; exact hend)] at h
    cases h
  · exact hbreak

/-- What a search has found at a bracket. -/
theorem Searched.header {m : Header} (h : Searched source pos line c)
    (hb : byteAt source pos = bracketOpen) (hm : c.header? pos line = some m) :
    FoundIn source m := by
  obtain ⟨word, bracket⟩ := c
  cases word with
  | none => cases hm
  | some w =>
    have hword := h.word w rfl
    cases bracket with
    | none =>
      cases hm
      exact ⟨hb, h.line, w, hword, fun _ => rfl, nofun⟩
    | some b =>
      cases hm
      exact ⟨hb, h.line, w, hword, nofun, fun _ => h.bracket b rfl⟩

theorem word_of_header? (hnone : c.header? pos line = none) : c.word = none := by
  obtain ⟨word, bracket⟩ := c
  cases word with
  | none => rfl
  | some w => cases bracket <;> cases hnone

/-- **What a search finds is there.** -/
theorem Searched.found {fuel : Nat} {m : Header} (h : Searched source pos line c)
    (hrun : findFrom fuel (source.drop pos) pos line c = some m) : FoundIn source m := by
  -- By turns: what is known behind the white space is what each sight is judged by.
  induction fuel generalizing pos line c with
  | zero => cases hrun
  | succ fuel ih =>
    rw [findFrom_succ] at hrun
    simp only [List.drop_drop] at hrun
    have h := h.space
    generalize pos + margin (source.drop pos) = pos at h hrun
    have hsees := sees (source.drop pos)
    have hle := h.le
    generalize sight (source.drop pos) = what at hsees hrun
    cases hsees with
    | ending => cases hrun
    | bracket hb =>
      rw [byteAt_drop, Nat.add_zero] at hb
      dsimp only at hrun
      split at hrun
      · rename_i found hfound
        cases hrun
        exact h.header hb hfound
      · rename_i hnone
        exact ih (h.open hb (word_of_header? hnone)) hrun
    | word _ hw => exact ih (h.announce hw) hrun
    | blank hnul hb =>
      have hbounds := lineWithBreak_bounds hnul
      rw [List.length_drop] at hbounds
      obtain ⟨hbreak, hline⟩ := break_of_found hrun
      have hskipped := skipped_line hb hbreak
      have hbreaks := breaksBefore_lineWithBreak hbreak
      rw [← hline] at hskipped hbreaks
      exact ih (h.gap (gap_of_take (by omega) hskipped) hbreaks) hrun
    | text hnul =>
      -- The candidates go, and with them all that was known of them.
      have hbounds := lineWithBreak_bounds hnul
      rw [List.length_drop] at hbounds
      obtain ⟨hbreak, hline⟩ := break_of_found hrun
      have hbreaks := breaksBefore_lineWithBreak hbreak
      rw [← hline] at hbreaks
      exact ih (h.afresh (by omega) hbreaks) hrun

end

/-- **A header that is found is one.** -/
theorem findHeader_sound {source : Bytes} {h : Header} (hfound : findHeader source = some h) :
    h.FoundIn source := by
  have hstart : Searched source (RebolScan.byteOrderMarkLength source) 1 .none :=
    ⟨byteOrderMarkLength_le source,
      by rw [breaksBefore_of_unbroken (unbroken_byteOrderMark source)], nofun, nofun⟩
  exact hstart.found hfound

end Header

end RebolScan
