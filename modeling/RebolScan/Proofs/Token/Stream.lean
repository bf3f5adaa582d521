import RebolScan.Proofs.Token.OneLine
import RebolScan.Token.Tokenizer

/-!
# All tokens of a source

Taking tokens one by one comes to an end, and then **nothing of the source is left over**
(`tokens_tile`): the tokens follow one another with skippable space alone between them, none is
empty, and the last stretch of space reaches the end of the source. So NUL, which is no space, is
always a part of a token unless the input ends there, and a malformed token keeps to its line.

One step is looked at once (`Seen`), for every place of a source; the run is an induction over the
tokens that it yields (`Yields`), which do not mention fuel.
-/

set_option autoImplicit false

namespace RebolScan

open Ascii

/-- The cursor is at a place of `source`. -/
structure Cursor.In (source : Bytes) (c : Cursor) : Prop where
  sourced : c.source = source
  coherent : c.Coherent
  le : c.start ≤ source.length

/-- Nothing but skippable space stands from `a` to `b`. -/
structure Blank (source : Bytes) (a b : Nat) : Prop where
  le : a ≤ b
  length : b ≤ source.length
  space : ∀ i, a ≤ i → i < b → isSpace (byteAt source i) = true

/-- Tokens follow one another from `a` on, with nothing but skippable space before, between and
behind them, up to the end of the source. -/
inductive TokenTiling (source : Bytes) : Nat → List Token → Prop
  | done {a : Nat} (h : Blank source a source.length) : TokenTiling source a []
  | token {a : Nat} {token : Token} {tokens : List Token} (hgap : Blank source a token.start)
      (hpos : token.start < token.stop) (hlen : token.stop ≤ source.length)
      (h : TokenTiling source token.stop tokens) : TokenTiling source a (token :: tokens)

namespace Tokenizer

/-- Taking tokens one by one from `t` yields these, each with the tokenizer that has just accepted
it, and then there are no more, which leaves the last tokenizer. Each token is taken as it was
looked at. -/
inductive Yields : Tokenizer → List (Token × Tokenizer) → Tokenizer → Prop
  | done {t : Tokenizer} (hend : t.scan.1.kind = .endOfScript) (h : t.next? = (none, t.scan.2)) :
      Yields t [] t.scan.2
  | token {t u : Tokenizer} {rest : List (Token × Tokenizer)}
      (hkind : t.scan.1.kind ≠ .endOfScript) (h : t.next? = (some t.scan.1, t.scan.2.accept))
      (hrest : Yields t.scan.2.accept rest u) :
      Yields t ((t.scan.1, t.scan.2.accept) :: rest) u

end Tokenizer

/-! ## One token -/

/-- Only where nothing is left is there the end of the script. -/
theorem Lexeme.kind_ofFront {text : Bytes} (h : text ≠ []) :
    (ofFront text).kind ≠ .endOfScript := by
  rcases ofFront_cases text with hs | hp
  · generalize ofFront text = l at hs
    cases hs with
    | endOfScript h0 => exact absurd h0 h
    | opening b => cases b <;> exact TokenKind.noConfusion
    | closing b => cases b <;> exact TokenKind.noConfusion
    | lineBreak => exact TokenKind.noConfusion
    | comment =>
      rw [comment_kind]
      exact TokenKind.noConfusion
  · intro hk
    have hkind := hp.kind
    rw [hk] at hkind
    cases hkind

namespace Cursor

variable {source : Bytes} {c : Cursor}

theorem In.rest (h : c.In source) : c.rest = source.drop c.start := by
  rw [← h.sourced]
  exact h.coherent

theorem In.byte (h : c.In source) (i : Nat) : byteAt c.rest i = byteAt source (c.start + i) := by
  rw [h.rest, byteAt_drop]

theorem In.length (h : c.In source) : c.start + c.rest.length = source.length := by
  rw [h.rest, List.length_drop, Nat.add_sub_cancel' h.le]

/-- Space is passed over before a lexeme is looked at. -/
theorem In.blank_skipSpace (h : c.In source) : Blank source c.start c.skipSpace.start := by
  have hn : (c.rest.takeWhile isSpace).length ≤ c.rest.length :=
    (List.takeWhile_sublist _).length_le
  have hlen := h.length
  refine ⟨Nat.le_add_right _ _, ?_, ?_⟩
  · show c.start + (c.rest.takeWhile isSpace).length ≤ source.length
    omega
  · intro i hi hlt
    have hlt : i < c.start + (c.rest.takeWhile isSpace).length := hlt
    have hin : i - c.start < (c.rest.takeWhile isSpace).length := by omega
    have hspace := byteAt_takeWhile hin
    rwa [h.byte, Nat.add_sub_cancel' hi] at hspace

theorem In.skipSpace (h : c.In source) : c.skipSpace.In source :=
  ⟨h.sourced, h.coherent.skipSpace, h.blank_skipSpace.length⟩

/-- Consuming what is left, or a part of it. -/
theorem In.advance (h : c.In source) {n : Nat} (hn : n ≤ c.rest.length) :
    (c.advance n).In source := by
  have hlen := h.length
  refine ⟨h.sourced, h.coherent.advance n, ?_⟩
  show c.start + n ≤ source.length
  omega

end Cursor

namespace Tokenizer

/-- What looking at a token from a place of `source` comes to: the end, with nothing but space in
front of it, or a token that is not empty and lies in the source. -/
inductive Seen (source : Bytes) (t : Tokenizer) : Prop
  | atEnd (hkind : t.scan.1.kind = .endOfScript) (hblank : Blank source t.cursor.start source.length)
      (hempty : t.scan.1.stop = t.scan.1.start) (hstart : t.scan.2.cursor.start = source.length)
  | token (hkind : t.scan.1.kind ≠ .endOfScript)
      (hblank : Blank source t.cursor.start t.scan.1.start) (hpos : t.scan.1.start < t.scan.1.stop)
      (hlen : t.scan.1.stop ≤ source.length) (hin : t.scan.2.accept.cursor.In source)
      (hstart : t.scan.2.accept.cursor.start = t.scan.1.stop)
      (hline : t.scan.1.malformed = true → Unbroken source t.scan.1.start t.scan.1.stop)

variable {source : Bytes} {t u : Tokenizer} {taken : List (Token × Tokenizer)}

/-- **What looking at a token comes to**, at every place. -/
theorem seen (h : t.cursor.In source) : Seen source t := by
  have hskip := h.skipSpace
  have hblank := h.blank_skipSpace
  have hstop : t.scan.1.stop = t.cursor.skipSpace.start +
      (Lexeme.ofFront t.cursor.skipSpace.rest).length := rfl
  by_cases hnil : t.cursor.skipSpace.rest = []
  · have hlen := hskip.length
    rw [hnil, List.length_nil, Nat.add_zero] at hlen
    refine .atEnd ?_ ?_ ?_ hlen
    · show (Lexeme.ofFront t.cursor.skipSpace.rest).kind = .endOfScript
      rw [hnil]
      rfl
    · rwa [hlen] at hblank
    · rw [hstop, hnil]
      rfl
  · obtain ⟨h1, h2⟩ := Lexeme.ofFront_bounds hnil
    have hlen := hskip.length
    have haccept : t.scan.2.accept.cursor =
        t.scan.2.cursor.advance (Lexeme.ofFront t.cursor.skipSpace.rest).length := by
      show Cursor.accept t.scan.2.cursor = _
      have hle : t.scan.2.cursor.start ≤ t.scan.2.cursor.stop := Nat.le_add_right _ _
      have hn : t.scan.2.cursor.stop - t.scan.2.cursor.start =
          (Lexeme.ofFront t.cursor.skipSpace.rest).length := Nat.add_sub_cancel_left _ _
      rw [Cursor.accept, if_pos hle, hn]
    refine .token (Lexeme.kind_ofFront hnil) hblank ?_ ?_ ?_ ?_ ?_
    · exact Nat.lt_add_of_pos_right h1
    · rw [hstop]
      omega
    · rw [haccept]
      exact ⟨hskip.sourced, hskip.coherent.advance _, (hskip.advance h2).le⟩
    · rw [haccept]
      rfl
    · intro hbad
      obtain ⟨-, -, hline⟩ := (Lexeme.ofFront_lined t.cursor.skipSpace.rest).oneLine (.inl hbad)
      rw [hskip.rest] at hline
      rw [hstop, hskip.rest]
      exact unbroken_drop.1 hline

/-- **The bytes of a token** are those that its lexeme takes. -/
theorem between_scan (h : t.cursor.In source) :
    between source t.scan.1.start t.scan.1.stop =
      t.cursor.skipSpace.rest.take (Lexeme.ofFront t.cursor.skipSpace.rest).length := by
  have hstop : t.scan.1.stop = t.scan.1.start + (Lexeme.ofFront t.cursor.skipSpace.rest).length := rfl
  have hrest : t.cursor.skipSpace.rest = source.drop t.scan.1.start := h.skipSpace.rest
  rw [between, hstop, Nat.add_sub_cancel_left, ← hrest]

theorem next?_of_end (hkind : t.scan.1.kind = .endOfScript) : t.next? = (none, t.scan.2) := by
  show (if t.scan.1.kind == .endOfScript then _ else _) = _
  rw [hkind]
  rfl

/-- The token that is taken is the one that was looked at: it is never empty, so nothing has to be
added to it for progress. -/
theorem next?_of_token (hkind : t.scan.1.kind ≠ .endOfScript)
    (hpos : t.scan.1.start < t.scan.1.stop) : t.next? = (some t.scan.1, t.scan.2.accept) := by
  have hmax : max t.scan.1.stop (t.scan.1.start + 1) = t.scan.1.stop := Nat.max_eq_left hpos
  have hstop : t.scan.2.cursor.setStop t.scan.1.stop = t.scan.2.cursor := rfl
  show (if t.scan.1.kind == .endOfScript then _ else
    (some { t.scan.1 with stop := max t.scan.1.stop (t.scan.1.start + 1) },
      { t.scan.2 with
        cursor := (t.scan.2.cursor.setStop (max t.scan.1.stop (t.scan.1.start + 1))).accept })) = _
  rw [if_neg (by simpa using hkind), hmax, hstop]
  rfl

/-! ## The run -/

/-- **Taking tokens comes to an end**: fuel that exceeds what is left of the source never runs out.
-/
theorem tokensFrom_yields {fuel : Nat} (found : List (Token × Tokenizer)) (h : t.cursor.In source)
    (hfuel : t.cursor.rest.length < fuel) :
    ∃ taken u, t.tokensFrom fuel found = (found.reverse ++ taken, u) ∧ Yields t taken u := by
  induction fuel generalizing t found with
  | zero => exact absurd hfuel (Nat.not_lt_zero _)
  | succ fuel ih =>
    rw [tokensFrom]
    cases seen h with
    | atEnd hkind =>
      have hnext := next?_of_end hkind
      rw [hnext]
      exact ⟨[], t.scan.2, by rw [List.append_nil], .done hkind hnext⟩
    | token hkind hblank hpos hlen hin hstart =>
      have hnext := next?_of_token hkind hpos
      have hless : t.scan.2.accept.cursor.rest.length < fuel := by
        have h1 := h.length
        have h2 := hin.length
        have := hblank.le
        omega
      obtain ⟨taken, u, htaken, hyields⟩ :=
        ih ((t.scan.1, t.scan.2.accept) :: found) hin hless
      rw [hnext]
      refine ⟨(t.scan.1, t.scan.2.accept) :: taken, u, ?_, .token hkind hnext hyields⟩
      dsimp only
      rw [htaken, List.reverse_cons, List.append_assoc]
      rfl

/-- What is yielded tiles the source from where the tokenizer was. -/
theorem Yields.tiling (h : Yields t taken u) (ht : t.cursor.In source) :
    TokenTiling source t.cursor.start (taken.map (·.1)) := by
  induction h with
  | @done t hend hnext =>
    cases seen ht with
    | atEnd hkind hblank => exact .done hblank
    | token hkind => exact absurd hend hkind
  | @token t u rest hkind hnext hrest ih =>
    cases seen ht with
    | atEnd hend => exact absurd hend hkind
    | token _ hblank hpos hlen hin hstart =>
      have hrest := ih hin
      rw [hstart] at hrest
      exact .token hblank hpos hlen hrest

/-- The run stops where the source does. -/
theorem Yields.at_end (h : Yields t taken u) (ht : t.cursor.In source) :
    u.cursor.start = source.length := by
  induction h with
  | @done t hend hnext =>
    cases seen ht with
    | atEnd hkind hblank hempty hstart => exact hstart
    | token hkind => exact absurd hend hkind
  | @token t u rest hkind hnext hrest ih =>
    cases seen ht with
    | atEnd hend => exact absurd hend hkind
    | token _ hblank hpos hlen hin => exact ih hin

theorem Yields.malformed_unbroken (h : Yields t taken u) (ht : t.cursor.In source) :
    ∀ token ∈ taken.map (·.1), token.malformed = true →
      Unbroken source token.start token.stop := by
  induction h with
  | done => exact fun token htoken => absurd htoken (List.not_mem_nil)
  | @token t u rest hkind hnext hrest ih =>
    cases seen ht with
    | atEnd hend => exact absurd hend hkind
    | token _ hblank hpos hlen hin hstart hline =>
      intro token htoken hbad
      rcases List.mem_cons.1 htoken with rfl | htoken
      · exact hline hbad
      · exact ih hin token htoken hbad

end Tokenizer

/-- A byte that is no space is a part of some token. -/
theorem TokenTiling.mem {source : Bytes} {a i : Nat} {tokens : List Token}
    (h : TokenTiling source a tokens) (ha : a ≤ i) (hi : i < source.length)
    (hspace : isSpace (byteAt source i) = false) :
    ∃ token ∈ tokens, token.start ≤ i ∧ i < token.stop := by
  induction h with
  | done hblank =>
    rw [hblank.space i ha hi] at hspace
    cases hspace
  | @token a token tokens hgap hpos hlen h ih =>
    by_cases hstart : i < token.start
    · rw [hgap.space i ha hstart] at hspace
      cases hspace
    · by_cases hstop : i < token.stop
      · exact ⟨token, List.mem_cons_self, Nat.le_of_not_lt hstart, hstop⟩
      · obtain ⟨other, hmem, hi⟩ := ih (Nat.le_of_not_lt hstop)
        exact ⟨other, List.mem_cons_of_mem _ hmem, hi⟩

theorem Cursor.in_afterMark (source : Bytes) : (afterMark source).In source := by
  refine ⟨rfl, coherent_afterMark source, ?_⟩
  show byteOrderMarkLength source ≤ source.length
  unfold byteOrderMarkLength
  split
  · rename_i h
    exact (List.isPrefixOf_iff_prefix.1 h).length_le
  · exact Nat.zero_le _

/-- **The tokens of a source tile it.** Taking them comes to an end of itself, at the end of the
source; looking at a token never gives an empty one but for that end; the tokens lie in the source
one behind the other, from behind a byte order mark on, with skippable space alone around them; NUL
in the source is a part of one; and a malformed token holds no line break. -/
theorem tokens_tile (source : Bytes) :
    (Tokenizer.ofSource source).Yields (Tokenizer.tokens source).1 (Tokenizer.tokens source).2 ∧
    (∀ t : Tokenizer, t.cursor.In source → t.scan.1.kind ≠ .endOfScript →
      t.scan.1.start < t.scan.1.stop) ∧
    TokenTiling source (byteOrderMarkLength source) ((Tokenizer.tokens source).1.map (·.1)) ∧
    (Tokenizer.tokens source).2.cursor.start = source.length ∧
    (∀ i, byteOrderMarkLength source ≤ i → i < source.length → byteAt source i = nul →
      ∃ token ∈ (Tokenizer.tokens source).1.map (·.1), token.start ≤ i ∧ i < token.stop) ∧
    (∀ token ∈ (Tokenizer.tokens source).1.map (·.1), token.malformed = true →
      Unbroken source token.start token.stop) := by
  have hin : (Tokenizer.ofSource source).cursor.In source := Cursor.in_afterMark source
  have hfuel : (Tokenizer.ofSource source).cursor.rest.length < source.length + 1 := by
    have := hin.length
    omega
  obtain ⟨taken, u, htaken, hyields⟩ := Tokenizer.tokensFrom_yields [] hin hfuel
  have htokens : Tokenizer.tokens source = (taken, u) := htaken
  have htiling := hyields.tiling hin
  rw [htokens]
  refine ⟨hyields, ?_, htiling, hyields.at_end hin, ?_, hyields.malformed_unbroken hin⟩
  · intro t ht hkind
    cases Tokenizer.seen ht with
    | atEnd hend => exact absurd hend hkind
    | token _ _ hpos => exact hpos
  · intro i ha hi hnul
    apply htiling.mem ha hi
    rw [hnul]
    decide

end RebolScan
