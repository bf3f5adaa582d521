import RebolScan.Proofs.Scan.Kept
import RebolScan.Proofs.Scan.Tiling

/-!
# Text that says nothing

White space, line breaks and comments take rounds of their own, or none, and no round tells more of
them than that there was a line break. So **a level ends as it would if what is skipped were not
there, with the same items and the same names** (`finish_skipped`).

How many rounds that takes depends on the text, and fuel with it. `finish` is a level's rounds with
fuel enough, so that fuel has no part in what it comes to.
-/

set_option autoImplicit false

namespace RebolScan

open Ascii

theorem Skipped.of_lineFeed {rest : Bytes} (h : Skipped (lineFeed :: rest)) : Skipped rest := by
  generalize htext : lineFeed :: rest = text at h
  cases h with
  | nil => cases htext
  | space hb hr =>
    cases htext
    cases hb
  | lineBreak hb hr =>
    cases htext
    exact hr
  | comment => cases htext

theorem skipped_of_lineFeeds (text : Bytes) : Skipped (text.takeWhile (· == lineFeed)) := by
  induction text with
  | nil => exact .nil
  | cons b text ih =>
    by_cases hb : b = lineFeed
    · subst hb
      exact .lineBreak rfl ih
    · rw [List.takeWhile_cons_of_neg (by simpa using hb)]
      exact .nil

theorem byteAt_dropWhile_lineFeed (text : Bytes) :
    byteAt (text.dropWhile (· == lineFeed)) 0 ≠ lineFeed := by
  induction text with
  | nil => decide
  | cons b text ih =>
    by_cases hb : b = lineFeed
    · subst hb
      exact ih
    · rwa [List.dropWhile_cons_of_neg (by simpa using hb)]

/-- Behind a line break comes what says nothing after it; at the most its first byte belongs to the
break. -/
theorem Skipped.behind_lineBreak {b : UInt8} {rest v : Bytes} (hr : Skipped rest)
    (hv : byteAt v 0 ≠ lineFeed) :
    ∃ rest', Skipped rest' ∧ rest'.length ≤ rest.length ∧
      (b :: rest ++ v).drop (lineBreakLength (b :: rest ++ v)) = rest' ++ v := by
  unfold lineBreakLength
  split
  · rename_i hcrlf
    rw [Bool.and_eq_true, beq_iff_eq, beq_iff_eq] at hcrlf
    cases rest with
    | nil => exact absurd hcrlf.2 hv
    | cons b' rest =>
      obtain rfl : b' = lineFeed := hcrlf.2
      exact ⟨rest, hr.of_lineFeed, Nat.le_succ _, rfl⟩
  · exact ⟨rest, hr, Nat.le_refl _, rfl⟩

/-- A comment is what stands in front of its line break. -/
theorem lineLength_comment {text : Bytes} {b : UInt8} (ht : ∀ c ∈ text, isLineEnd c = false)
    (hb : isLineBreak b = true) (rest : Bytes) :
    lineLength (semicolon :: text ++ b :: rest) = (semicolon :: text).length := by
  have hstop : (!isLineEnd b) = false := by
    rw [isLineEnd, hb]
    rfl
  have htext : ∀ d ∈ semicolon :: text, (!isLineEnd d) = true := by
    intro d hd
    rcases List.mem_cons.1 hd with rfl | hd
    · rfl
    · rw [ht d hd]
      rfl
  rw [lineLength, List.takeWhile_append_of_pos htext,
    List.takeWhile_cons_of_neg (by rw [hstop]; exact Bool.noConfusion), List.append_nil]

/-- `t` is a place further on, and knows the same names. -/
structure Session.Onward (s t : Session) : Prop where
  start : s.cursor.start ≤ t.cursor.start
  place : ∀ source, s.At source → t.At source
  symbols : t.symbols = s.symbols

theorem Session.Onward.refl (s : Session) : s.Onward s := ⟨Nat.le_refl _, fun _ h => h, rfl⟩

theorem Session.Onward.trans {s t u : Session} (h₁ : s.Onward t) (h₂ : t.Onward u) : s.Onward u :=
  ⟨Nat.le_trans h₁.start h₂.start, fun source h => h₂.place source (h₁.place source h),
    h₂.symbols.trans h₁.symbols⟩

theorem Session.onward_advance {s : Session} {n : Nat} (hn : n ≤ s.cursor.rest.length) :
    s.Onward { s with cursor := s.cursor.advance n } :=
  ⟨Nat.le_add_right _ _, fun _ h => h.advance hn, rfl⟩

namespace Scan

open Session

variable {setup : Setup} {nested : Nested} {level : Level} {opened : Site} {c c' : Collected}
  {s t : Session}

/-! ## Rounds with fuel enough -/

/-- The rounds of a level to its end: their fuel is more than there is left of the source. -/
def finish (setup : Setup) (nested : Nested) (level : Level) (opened : Site) (c : Collected) :
    Scan Collected :=
  fun s => rounds setup nested level opened (s.cursor.rest.length + 1) c s

section

variable (hn : ∀ l start, Forward (nested l start)) (hc : Consumes nested)

include hn hc

theorem rounds_fuel {fuel fuel' : Nat} (h : s.cursor.rest.length < fuel)
    (h' : s.cursor.rest.length < fuel') :
    rounds setup nested level opened fuel c s = rounds setup nested level opened fuel' c s := by
  induction fuel generalizing fuel' c s with
  | zero => cases h
  | succ fuel ih =>
    cases fuel' with
    | zero => cases h'
    | succ fuel' =>
      rw [rounds, rounds]
      cases hturn : turn setup nested level opened c s with
      | error f t => rw [bind_of_error hturn, bind_of_error hturn]
      | ok result t =>
        obtain ⟨c₁, goesOn⟩ := result
        rw [bind_of_ok hturn, bind_of_ok hturn]
        cases goesOn with
        | false => rfl
        | true =>
          have hlt : t.cursor.rest.length < s.cursor.rest.length := turn_shorter hn hc hturn
          exact ih (by omega) (by omega)

theorem rounds_eq_finish {fuel : Nat} (h : s.cursor.rest.length < fuel) :
    rounds setup nested level opened fuel c s = finish setup nested level opened c s :=
  rounds_fuel hn hc h (Nat.lt_succ_self _)

omit hn hc in
theorem finish_ends (h : turn setup nested level opened c s = .ok (c', false) t) :
    finish setup nested level opened c s = .ok c' t := by
  rw [finish, rounds, bind_of_ok h]
  rfl

omit hn hc in
theorem finish_fails {f : Fault} (h : turn setup nested level opened c s = .error f t) :
    finish setup nested level opened c s = .error f t := by
  rw [finish, rounds, bind_of_error h]

theorem finish_goes (h : turn setup nested level opened c s = .ok (c', true) t) :
    finish setup nested level opened c s = finish setup nested level opened c' t := by
  rw [finish, rounds, bind_of_ok h]
  exact rounds_eq_finish hn hc (turn_shorter hn hc h)

/-- A level that ends does so in this round, or goes on to its end. -/
theorem finish_eq_ok {out : Collected} {u : Session}
    (h : finish setup nested level opened c s = .ok out u) :
    turn setup nested level opened c s = .ok (out, false) u ∨
      ∃ c' t, turn setup nested level opened c s = .ok (c', true) t ∧ s.Shorter t ∧
        finish setup nested level opened c' t = .ok out u := by
  have hrounds := h
  rw [finish, rounds] at hrounds
  obtain ⟨⟨c', goesOn⟩, t, hturn, hrest⟩ := bind_eq_ok.1 hrounds
  cases goesOn with
  | false =>
    cases hrest
    exact .inl hturn
  | true =>
    rw [finish_goes hn hc hturn] at h
    exact .inr ⟨c', t, hturn, turn_shorter hn hc hturn, h⟩

/-- A level that does the same in the next round does the same. -/
theorem finish_congr (h : turn setup nested level opened c s = turn setup nested level opened c t) :
    finish setup nested level opened c s = finish setup nested level opened c t := by
  cases hturn : turn setup nested level opened c s with
  | error f u =>
    rw [finish, finish, rounds, rounds, bind_of_error hturn, bind_of_error (h.symm.trans hturn)]
  | ok result u =>
    obtain ⟨c', goesOn⟩ := result
    cases goesOn with
    | false => rw [finish_ends hturn, finish_ends (h.symm.trans hturn)]
    | true => rw [finish_goes hn hc hturn, finish_goes hn hc (h.symm.trans hturn)]

end

/-! ## What is skipped -/

/-- Looking passes over a space in front. -/
theorem looked_of_space {b : UInt8} {rest : Bytes} (hb : isSpace b = true)
    (hs : s.cursor.rest = b :: rest) :
    s.looked = looked { s with cursor := s.cursor.advance 1 } := by
  obtain ⟨stop, hskip⟩ : ∃ stop, s.cursor.skipSpace =
      { (s.cursor.advance 1).skipSpace with stop } := by
    refine ⟨s.cursor.stop, ?_⟩
    have hn : (s.cursor.rest.takeWhile isSpace).length =
        1 + (rest.takeWhile isSpace).length := by
      rw [hs, List.takeWhile_cons_of_pos hb, List.length_cons, Nat.add_comm]
    have hdrop : s.cursor.rest.drop 1 = rest := by rw [hs]; rfl
    simp only [Cursor.skipSpace, Cursor.advance, hn, hdrop]
    rw [hs, Nat.add_comm 1, List.drop_succ_cons]
    simp only [Cursor.mk.injEq, true_and, and_true]
    omega
  simp only [looked, Cursor.scan, hskip]

theorem turn_lineBreak (setup : Setup) (nested : Nested) (opened : Site) (c : Collected) {n : Nat}
    (h : s.reading level = ⟨.lineBreak, n⟩) :
    ∃ t, turn setup nested level opened c s = .ok ({ c with newLine := true }, true) t ∧
      t.cursor.rest = s.looked.cursor.rest.drop n ∧ s.Onward t := by
  have hbounds := (s.reading_reads level).taken_bounds (by rw [h]; exact Element.noConfusion)
    fun kind => by
      rw [h]
      exact Element.noConfusion
  rw [h] at hbounds
  refine ⟨{ s.looked with cursor := { s.looked.cursor.advance n with
    lineStart := s.looked.cursor.start + n } }, ?_, rfl, ?_, fun source hs => ?_, rfl⟩
  · rw [turn_item (by rw [h]; rfl), h]
    rfl
  · have hle := (before_looked s).start
    show s.cursor.start ≤ s.looked.cursor.start + n
    omega
  · have ht := hs.looked.advance hbounds.2
    exact ⟨ht.1, ht.2, ht.3⟩

section

variable (setup opened)
variable (hn : ∀ l start, Forward (nested l start)) (hc : Consumes nested)

include hn hc

/-- A round that reads a line break leads behind it. -/
theorem finish_lineBreak {n : Nat} (c : Collected)
    (hspace : isSpace (byteAt s.cursor.rest 0) = false)
    (hof : Element.of level s.cursor.rest (Lexeme.ofFront s.cursor.rest) = ⟨.lineBreak, n⟩) :
    ∃ c' t, finish setup nested level opened c s = finish setup nested level opened c' t ∧
      c'.items = c.items ∧ t.cursor.rest = s.cursor.rest.drop n ∧ s.Onward t := by
  obtain ⟨-, hrest⟩ := looked_of_not_space hspace
  have hreading : s.reading level = ⟨.lineBreak, n⟩ := by
    rw [reading, hrest]
    exact hof
  obtain ⟨t, hturn, htrest, honward⟩ := turn_lineBreak setup nested opened c hreading
  rw [hrest] at htrest
  exact ⟨_, t, finish_goes hn hc hturn, rfl, htrest, honward⟩

/-- **A level ends as it would if what is skipped were not there.** -/
theorem finish_skipped {z v : Bytes} (hz : Skipped z) (hv : byteAt v 0 ≠ lineFeed) (c : Collected)
    (hs : s.cursor.rest = z ++ v) :
    ∃ c' t, finish setup nested level opened c s = finish setup nested level opened c' t ∧
      c'.items = c.items ∧ t.cursor.rest = v ∧ s.Onward t := by
  induction hlen : z.length using Nat.strongRecOn generalizing z c s with
  | ind n ih =>
    subst hlen
    -- A line break in front leaves less to skip.
    have hbreak {rest : Bytes} {m : Nat} (hspace : isSpace (byteAt s.cursor.rest 0) = false)
        (hof : Element.of level s.cursor.rest (Lexeme.ofFront s.cursor.rest) = ⟨.lineBreak, m⟩)
        (hdrop : s.cursor.rest.drop m = rest ++ v) (hrest : Skipped rest)
        (hlt : rest.length < z.length) :
        ∃ c' t, finish setup nested level opened c s = finish setup nested level opened c' t ∧
          c'.items = c.items ∧ t.cursor.rest = v ∧ s.Onward t := by
      obtain ⟨c₁, t₁, hfinish₁, hitems₁, hrest₁, honward₁⟩ :=
        finish_lineBreak setup opened hn hc c hspace hof
      obtain ⟨c₂, t₂, hfinish₂, hitems₂, hrest₂, honward₂⟩ :=
        ih rest.length hlt hrest c₁ (hrest₁.trans hdrop) rfl
      exact ⟨c₂, t₂, hfinish₁.trans hfinish₂, hitems₂.trans hitems₁, hrest₂,
        honward₁.trans honward₂⟩
    cases hz with
    | nil => exact ⟨c, s, rfl, rfl, hs, .refl s⟩
    | @space b rest hb hr =>
      have hlooked := looked_of_space hb hs
      have hturn : turn setup nested level opened c s =
          turn setup nested level opened c { s with cursor := s.cursor.advance 1 } := by
        rw [turn_apply, turn_apply, token, token, reading, reading, ← hlooked]
      have hdrop : s.cursor.rest.drop 1 = rest ++ v := by
        rw [hs]
        rfl
      obtain ⟨c', t, hfinish, hitems, hrest, honward⟩ :=
        ih rest.length (Nat.lt_succ_self _) hr c (s := { s with cursor := s.cursor.advance 1 })
          hdrop rfl
      have hone : 1 ≤ s.cursor.rest.length := by
        rw [hs]
        exact Nat.le_add_left _ _
      exact ⟨c', t, (finish_congr hn hc hturn).trans hfinish, hitems, hrest,
        (Session.onward_advance hone).trans honward⟩
    | @lineBreak b rest hb hr =>
      obtain ⟨rest', hrest', hle, hdrop⟩ := hr.behind_lineBreak (b := b) hv
      have hfirst : byteAt s.cursor.rest 0 = b := by rw [hs]; rfl
      refine hbreak ?_ (Element.of_lineBreak level (by rwa [hfirst])) (by rwa [hs]) hrest'
        (Nat.lt_succ_of_le hle)
      rw [hfirst]
      have hb : b = lineFeed ∨ b = carriageReturn := by simpa [isLineBreak] using hb
      rcases hb with rfl | rfl <;> rfl
    | @comment text b rest ht hb hr =>
      obtain ⟨rest', hrest', hle, hdrop⟩ := hr.behind_lineBreak (b := b) hv
      have htext : s.cursor.rest = (semicolon :: text) ++ (b :: rest ++ v) := by
        rw [hs, List.append_assoc]
      have hlength : lineLength s.cursor.rest = (semicolon :: text).length := by
        rw [htext]
        exact lineLength_comment ht hb _
      have hdropped : s.cursor.rest.drop (lineLength s.cursor.rest) = b :: rest ++ v := by
        rw [hlength, htext, List.drop_left]
      have hbyte : isLineBreak (byteAt s.cursor.rest (lineLength s.cursor.rest)) = true := by
        rw [← Nat.add_zero (lineLength _), ← byteAt_drop, hdropped]
        exact hb
      have hfirst : byteAt s.cursor.rest 0 = semicolon := by rw [htext]; rfl
      refine hbreak (by rw [hfirst]; rfl) (Element.of_commentLine level hfirst hbyte) ?_ hrest' ?_
      · rw [← List.drop_drop, hdropped, hdrop]
      · rw [List.length_append, List.length_cons, List.length_cons]
        omega

end

end Scan

end RebolScan
