import RebolScan.Proofs.Scan.Crossing
import RebolScan.Proofs.Token.Layout
import RebolScan.Proofs.Value.Tiled

/-!
# Elements in front of white space

An element takes its lexeme, less of it, or, if slashes hold a date together, more. All that is
looked at behind the lexeme for this is one byte, for a slash, or what slashes lead to, and white
space ends both. So **the element in front of white space is the same, whichever white space it is and
whatever comes after it** (`of_kept`), except for a value or a comment that runs on over it.
-/

set_option autoImplicit false

namespace RebolScan

open Ascii

namespace Lexeme

/-! ## Slashes enclose nothing -/

theorem wordTail_open {kind : TokenKind} (hk : kind.isEnclosed = false) (start : Nat) (f : Front) :
    (wordTail kind start f).kind.isEnclosed = false := by
  have hmarked (m : Marks) : (wordTail.marked kind start f m).kind.isEnclosed = false := by
    unfold wordTail.marked
    dsimp only
    repeat' split
    all_goals first
      | rfl
      | exact hk
  unfold wordTail
  dsimp only
  repeat' split
  all_goals first
    | rfl
    | exact hk
    | exact hmarked _

theorem slashes_open (text : Bytes) : (slashes text).kind.isEnclosed = false := by
  unfold slashes
  dsimp only
  repeat' split
  all_goals first
    | rfl
    | exact wordTail_open rfl _ _

end Lexeme

namespace Element

/-- The elements that no level is read for. -/
def isFlat : Element → Bool
  | .value v => v.isScalar
  | .lineBreak | .comment => true
  | _ => false

theorem isItem_of_isFlat {e : Element} (h : e.isFlat = true) : e.isItem = true := by
  cases e with
  | endOfInput | closer b => cases h
  | _ => rfl

/-- Where the text behind the first `n` bytes is replaced, `r` becomes `r'`: it stays what it is if
it takes no more than these, and only what is invalid or flat does not. -/
inductive Kept (n : Nat) : Reading → Reading → Prop
  | invalid {kind : TokenKind} {length taken : Nat} {r' : Reading} :
      Kept n ⟨.invalid kind length, taken⟩ r'
  | same {r : Reading} (h : r.taken ≤ n) : Kept n r r
  | past {e : Element} {taken : Nat} {r' : Reading} (he : e.isFlat = true) (h : n < taken) :
      Kept n ⟨e, taken⟩ r'

variable {w x y : Bytes}

/-! ## Readings that end in front -/

theorem take_append_swap {n : Nat} (hn : n ≤ w.length) (x y : Bytes) :
    (w ++ y).take n = (w ++ x).take n := by
  rw [List.take_append_of_le_length hn, List.take_append_of_le_length hn]

theorem between_append_swap {start stop : Nat} (hstop : stop ≤ w.length) (x y : Bytes) :
    between (w ++ y) start stop = between (w ++ x) start stop := by
  unfold between
  rw [List.take_drop, List.take_drop]
  rcases Nat.le_total start stop with h | h
  · rw [Nat.add_sub_cancel' h, take_append_swap hstop x y]
  · rw [Nat.sub_eq_zero_of_le h, Nat.add_zero,
      List.drop_eq_nil_of_le (List.length_take_le _ _),
      List.drop_eq_nil_of_le (List.length_take_le _ _)]

theorem kept_valueOr (kind : TokenKind) {n : Nat} (hn : n ≤ w.length) (v : Option Value) :
    Kept w.length (valueOr kind n v) (valueOr kind n v) := by
  refine .same ?_
  rw [taken_valueOr]
  exact hn

theorem kept_wordFrom (wordKind : WordKind) (kind : TokenKind) (start : Nat) {stop taken : Nat}
    (hstop : stop ≤ w.length) (htaken : taken ≤ w.length) (x y : Bytes) :
    Kept w.length (wordFrom wordKind kind (w ++ x) start stop taken)
      (wordFrom wordKind kind (w ++ y) start stop taken) := by
  have hsame : wordFrom wordKind kind (w ++ y) start stop taken =
      wordFrom wordKind kind (w ++ x) start stop taken := by
    rw [wordFrom, wordFrom, between_append_swap hstop x y]
  rw [hsame]
  unfold wordFrom
  split
  · exact .invalid
  · split
    · exact .same htaken
    · exact .invalid

theorem kept_markedWord (wordKind : WordKind) (kind : TokenKind) (level : Level) {n : Nat}
    (hw : 1 ≤ w.length) (hn : n ≤ w.length) (x y : Bytes) :
    Kept w.length (markedWord wordKind kind level (w ++ x) n)
      (markedWord wordKind kind level (w ++ y) n) := by
  unfold markedWord
  rw [byteAt_append_swap (show n - 1 < w.length by omega) x y]
  split
  · split
    · exact .invalid
    · exact kept_wordFrom _ _ _ (by omega) (by omega) x y
  · exact kept_wordFrom _ _ _ hn hn x y

section

variable (hx : Ended x) (hy : Ended y)

include hx hy

/-- Whether a slash is next is the same in front of any white space. -/
theorem slash_swap {n : Nat} (hn : n ≤ w.length) :
    (byteAt (w ++ y) n == slash) = (byteAt (w ++ x) n == slash) :=
  hx.byteAt_swap hy (blind_beq (by decide)) hn

theorem kept_issueFrom {n : Nat} (hw : 1 ≤ w.length) (hn : n ≤ w.length) :
    Kept w.length (issueFrom (w ++ x) n) (issueFrom (w ++ y) n) := by
  unfold issueFrom
  dsimp only
  rw [between_append_swap hn x y]
  split
  · have hparen : (byteAt (w ++ y) 1 == parenOpen) = (byteAt (w ++ x) 1 == parenOpen) :=
      hx.byteAt_swap hy (blind_beq (by decide)) hw
    rw [hparen]
    split
    · exact .invalid
    · exact .same hw
  · split
    · exact .invalid
    · split
      · exact .same hn
      · exact .invalid

omit hy in
/-- White space ends what slashes hold together. -/
theorem dateEnd_append {stop : Nat} (hstop : stop ≤ w.length) :
    dateEnd (w ++ x) stop = dateEnd w stop := by
  have hslash {n : Nat} (hn : n ≤ w.length) :
      (byteAt (w ++ x) n == slash) = (byteAt w n == slash) := by
    have hswap := slash_swap (x := []) rfl hx hn
    rwa [List.append_nil] at hswap
  have hrun (n : Nat) (hn : n ≤ w.length) : runOf ((w ++ x).drop n) = runOf (w.drop n) := by
    rw [drop_append_left hn]
    exact congrArg Front.run hx.front_append
  fun_induction dateEnd w stop with
  | case1 stop hs next hn =>
    have hs' : (byteAt (w ++ x) stop == slash) = true := (hslash hstop).trans hs
    rw [dateEnd, if_pos hs']
    dsimp only
    rw [hrun _ (hx.lt_length_of_beq hstop hs' (by decide)), dif_pos hn]
  | case2 stop hs next hn ih =>
    have hs' : (byteAt (w ++ x) stop == slash) = true := (hslash hstop).trans hs
    have hlt : stop < w.length := hx.lt_length_of_beq hstop hs' (by decide)
    have hle : (runOf (w.drop (stop + 1))).length ≤ w.length - (stop + 1) := by
      rw [← List.length_drop]
      exact length_runOf_le _
    rw [dateEnd, if_pos hs']
    dsimp only
    rw [hrun _ hlt, dif_neg hn]
    exact ih (by omega)
  | case3 stop hs =>
    rw [dateEnd, if_neg (by rwa [hslash hstop])]

theorem kept_dateFrom (level : Level) {n : Nat} (hn : n ≤ w.length) :
    Kept w.length (dateFrom level (w ++ x) n) (dateFrom level (w ++ y) n) := by
  have hend : (if level == .path then n else dateEnd w n) ≤ w.length := by
    split
    · exact hn
    · exact (dateEnd_bounds hn).2
  unfold dateFrom
  rw [dateEnd_append hx hn, dateEnd_append hy hn]
  dsimp only
  rw [take_append_swap hend x y]
  exact kept_valueOr _ hend _

theorem kept_integerFrom (level : Level) {n : Nat} (hn : n ≤ w.length) :
    Kept w.length (integerFrom level (w ++ x) n) (integerFrom level (w ++ y) n) := by
  unfold integerFrom
  rw [slash_swap hx hy hn, hx.pathEnd_append hn, hy.pathEnd_append hn, take_append_swap hn x y]
  split
  · exact kept_dateFrom hx hy level (Lexeme.pathEnd_bounds hn).2
  · exact kept_valueOr _ hn _

theorem kept_numberFrom (kind : TokenKind) {n : Nat} (hn : n ≤ w.length) (v : Option Value) :
    Kept w.length (numberFrom kind (w ++ x) n v) (numberFrom kind (w ++ y) n v) := by
  unfold numberFrom
  rw [slash_swap hx hy hn]
  split
  · exact .invalid
  · exact kept_valueOr _ hn _

omit hx hy in
theorem kept_timeFrom (level : Level) {n : Nat} (hw : 1 ≤ w.length) (hn : n ≤ w.length)
    (x y : Bytes) : Kept w.length (timeFrom level (w ++ x) n) (timeFrom level (w ++ y) n) := by
  unfold timeFrom
  rw [byteAt_append_swap (show n - 1 < w.length by omega) x y, take_append_swap hn x y,
    take_append_swap (show n - 1 ≤ w.length by omega) x y]
  split
  · exact kept_valueOr _ (by omega) _
  · exact kept_valueOr _ hn _

omit hx hy in
theorem kept_lineFrom {n : Nat} (hw : 1 ≤ w.length) (hn : n ≤ w.length) (x y : Bytes) :
    Kept w.length (lineFrom (w ++ x) n) (lineFrom (w ++ y) n) := by
  unfold lineFrom
  rw [byteAt_append_swap (show n - 1 < w.length by omega) x y]
  exact .same hn

/-- A lexeme that ends in front makes the same element. -/
theorem kept_ofLexeme (level : Level) {l : Lexeme} (hw : 1 ≤ w.length) (hn : l.length ≤ w.length) :
    Kept w.length (ofLexeme level (w ++ x) l) (ofLexeme level (w ++ y) l) := by
  unfold ofLexeme
  dsimp only
  rw [take_append_swap hn x y]
  split
  · exact .same hn
  · exact .same hn
  · exact .same hn
  · exact kept_lineFrom hw hn x y
  · exact kept_wordFrom _ _ _ hn hn x y
  · split
    · exact kept_wordFrom _ _ _ (by omega) (by omega) x y
    · exact kept_wordFrom _ _ _ (by omega) hn x y
  · exact kept_markedWord _ _ level hw hn x y
  · exact kept_markedWord _ _ level hw hn x y
  · exact kept_wordFrom _ _ _ hn hn x y
  · exact kept_issueFrom hx hy hw hn
  · exact .same hn
  · exact .same hn
  · exact .same hn
  · exact kept_integerFrom hx hy level hn
  · exact kept_dateFrom hx hy level hn
  · exact kept_numberFrom hx hy _ hn _
  · exact kept_numberFrom hx hy _ hn _
  · exact kept_numberFrom hx hy _ hn _
  · exact kept_timeFrom level hw hn x y
  · exact kept_valueOr _ hn _
  · exact kept_valueOr _ hn _
  · exact .same hn
  · exact kept_valueOr _ hn _
  · exact kept_valueOr _ hn _
  · exact kept_valueOr _ hn _
  · exact kept_valueOr _ hn _
  · exact kept_valueOr _ hn _
  · exact kept_valueOr _ hn _
  · exact .invalid

end

/-! ## Values that run on -/

theorem past_valueOr {kind : TokenKind} {m n : Nat} {v : Option Value} {r' : Reading} (h : n < m)
    (hv : ∀ w, v = some w → w.isScalar = true) : Kept n (valueOr kind m v) r' := by
  cases v with
  | none => exact .invalid
  | some v => exact .past (hv v rfl) h

/-- An enclosed lexeme that runs on makes a value that does. -/
theorem past_ofLexeme (level : Level) {text : Bytes} {l : Lexeme} {n : Nat} {r' : Reading}
    (hk : l.kind.isEnclosed = true) (h : n < l.length) : Kept n (ofLexeme level text l) r' := by
  unfold ofLexeme
  dsimp only
  split <;> rename_i hkind <;> simp only [hkind, TokenKind.isEnclosed, Bool.false_eq_true] at hk
  · exact .past rfl h
  · exact past_valueOr h (isScalar_of_map (fun _ => rfl) _)
  · exact past_valueOr h (isScalar_of_map (fun _ => rfl) _)
  · exact past_valueOr h (isScalar_of_map (fun _ => rfl) _)
  · exact past_valueOr h (isScalar_of_map (fun _ => rfl) _)

/-! ## Any lexeme but white space -/

/-- An element that starts with a byte of its own does not depend on the white space behind. -/
theorem of_kept_of_starts (level : Level) (hx : Ended x) (hy : Ended y) (hw : w ≠ [])
    (hstarts : Lexeme.Starts w) :
    Kept w.length (of level (w ++ x) (Lexeme.ofFront (w ++ x)))
      (of level (w ++ y) (Lexeme.ofFront (w ++ y))) := by
  have hpos : 1 ≤ w.length := List.length_pos_iff.2 hw
  have hkept := Lexeme.ofFront_kept hx hy hw hstarts
  have hopen (h : byteAt (w ++ x) 0 = slash) :
      (Lexeme.ofFront (w ++ x)).kind.isEnclosed = false := by
    rw [ofFront_slash h]
    exact Lexeme.slashes_open _
  generalize Lexeme.ofFront (w ++ x) = l at hkept hopen
  generalize Lexeme.ofFront (w ++ y) = l' at hkept
  unfold of
  cases hkept with
  | malformed h =>
    rw [if_pos h]
    exact .invalid
  | same hn =>
    split
    · exact .invalid
    · rw [slash_swap hx hy hn, byteAt_append_swap hpos x y]
      split
      · exact .same (Nat.zero_le _)
      · split
        · exact .same hpos
        · exact kept_ofLexeme hx hy level hpos hn
  | past hk hn =>
    split
    · exact .invalid
    · have hhead : startsPath l.kind = false := by
        generalize l.kind = kind at hk
        cases kind with
        | string | binary | char | file | tag => rfl
        | _ => cases hk
      have hslash : (byteAt (w ++ x) 0 == slash) = false := by
        rw [← Bool.not_eq_true]
        intro h
        rw [hopen (eq_of_beq h)] at hk
        cases hk
      rw [hhead, hslash, Bool.and_false, Bool.and_false]
      exact past_ofLexeme level hk hn

/-! ## White space and comments -/

section

variable {text : Bytes} (level : Level)

theorem of_line {l : Lexeme} (hk : l.kind = .line) (hm : l.malformed = false)
    (hslash : byteAt text 0 ≠ slash) : of level text l = lineFrom text l.length := by
  have hhead : startsPath l.kind = false := by rw [hk]; rfl
  rw [of, if_neg (by rw [hm]; exact Bool.noConfusion), hhead, Bool.and_false, Bool.false_and,
    beq_false_of_ne hslash, Bool.and_false, ofLexeme, hk]
  rfl

theorem of_lineBreak (h : isLineBreak (byteAt text 0) = true) :
    of level text (Lexeme.ofFront text) = ⟨.lineBreak, lineBreakLength text⟩ := by
  have hfront : Lexeme.ofFront text = Lexeme.lineBreak text 0 := by
    have hbyte : byteAt text 0 = lineFeed ∨ byteAt text 0 = carriageReturn := by
      simpa [isLineBreak] using h
    unfold Lexeme.ofFront
    rcases hbyte with hb | hb <;> rw [hb] <;> rfl
  have hlength : (Lexeme.lineBreak text 0).length = lineBreakLength text := Nat.zero_add _
  have hslash : byteAt text 0 ≠ slash := by
    intro h0
    rw [h0] at h
    cases h
  rw [hfront, of_line level rfl rfl hslash, lineFrom_lineBreak h, hlength]

theorem ofFront_semicolon (h : byteAt text 0 = semicolon) :
    Lexeme.ofFront text = Lexeme.comment text := by
  unfold Lexeme.ofFront
  rw [h]
  rfl

theorem slash_ne_of_semicolon (h : byteAt text 0 = semicolon) : byteAt text 0 ≠ slash := by
  rw [h]
  decide

/-- A comment ends behind a line break. -/
theorem of_commentLine (h : byteAt text 0 = semicolon)
    (hb : isLineBreak (byteAt text (lineLength text)) = true) :
    of level text (Lexeme.ofFront text) =
      ⟨.lineBreak, lineLength text + lineBreakLength (text.drop (lineLength text))⟩ := by
  have hcomment : Lexeme.comment text = Lexeme.lineBreak text (lineLength text) := by
    refine if_neg fun hnul => ?_
    rw [eq_of_beq hnul] at hb
    cases hb
  rw [ofFront_semicolon h, hcomment, of_line level rfl rfl (slash_ne_of_semicolon h),
    lineFrom_lineBreak hb]
  rfl

/-- A comment that runs into NUL leaves it. -/
theorem of_comment (h : byteAt text 0 = semicolon) (hnul : byteAt text (lineLength text) = nul) :
    of level text (Lexeme.ofFront text) = ⟨.comment, lineLength text⟩ := by
  have hcomment : Lexeme.comment text = Lexeme.good .line (lineLength text) :=
    if_pos (by rw [hnul]; rfl)
  have hpos : 1 ≤ lineLength text := by
    refine length_takeWhile_pos ?_ (by rw [h]; rfl)
    rintro rfl
    cases h
  have hlast : isLineBreak (byteAt text (lineLength text - 1)) = false := by
    have he := Lexeme.not_lineEnd_of_lt (show lineLength text - 1 < lineLength text by omega)
    simp only [isLineEnd, Bool.or_eq_false_iff] at he
    exact he.1
  rw [ofFront_semicolon h, hcomment, of_line level rfl rfl (slash_ne_of_semicolon h)]
  show lineFrom text (lineLength text) = _
  rw [lineFrom, hlast]
  rfl

end

/-! ## Any text but white space -/

theorem one_le_lineBreakLength (text : Bytes) : 1 ≤ lineBreakLength text := by
  unfold lineBreakLength
  split
  · exact Nat.le_succ _
  · exact Nat.le_refl _

theorem lineBreakLength_le_two (text : Bytes) : lineBreakLength text ≤ 2 := by
  unfold lineBreakLength
  split
  · exact Nat.le_refl _
  · exact Nat.le_succ _

theorem lineBreakLength_append (hw : 2 ≤ w.length) (x : Bytes) :
    lineBreakLength (w ++ x) = lineBreakLength w := by
  rw [lineBreakLength, lineBreakLength, byteAt_append_left (by omega), byteAt_append_left (by omega)]

theorem lineLength_append (h : lineLength w < w.length) (x : Bytes) :
    lineLength (w ++ x) = lineLength w := by
  have hstops : (!isLineEnd (byteAt w (lineLength w))) = false := by
    rw [Lexeme.isLineEnd_byteAt_lineLength]
    rfl
  rw [lineLength, takeWhile_append_of_stops _ h hstops]
  rfl

/-- A comment that does not end in front goes on behind it. -/
theorem le_lineLength_append (h : lineLength w = w.length) (x : Bytes) :
    w.length ≤ lineLength (w ++ x) := by
  refine Nat.le_of_not_lt fun hlt => ?_
  have hend := Lexeme.isLineEnd_byteAt_lineLength (w ++ x)
  rw [byteAt_append_left hlt, Lexeme.not_lineEnd_of_lt (by omega)] at hend
  cases hend

/-- A comment whose line break ends the text says nothing. -/
theorem skipped_of_comment (h : byteAt w 0 = semicolon) (hlen : lineLength w + 1 = w.length)
    (hb : isLineBreak (byteAt w (lineLength w)) = true) : Skipped w := by
  have htake : w.take (lineLength w + lineBreakLength (w.drop (lineLength w))) = w := by
    refine List.take_of_length_le ?_
    have := one_le_lineBreakLength (w.drop (lineLength w))
    omega
  rw [← htake]
  exact skipped_commentLine h hb

theorem kept_of_semicolon (level : Level) (h : byteAt w 0 = semicolon) (hskip : ¬Skipped w)
    (hx : byteAt x 0 ≠ nul) (y : Bytes) :
    Kept w.length (of level (w ++ x) (Lexeme.ofFront (w ++ x)))
      (of level (w ++ y) (Lexeme.ofFront (w ++ y))) := by
  have hpos : 0 < w.length := lt_length_of_byteAt (by rw [h]; decide)
  have hfirst (z : Bytes) : byteAt (w ++ z) 0 = semicolon := (byteAt_append_left hpos z).trans h
  rcases Nat.lt_or_ge (lineLength w) w.length with hlt | hge
  · -- The comment ends in front, and not with the text, which would say nothing then.
    have hbyte (z : Bytes) : byteAt (w ++ z) (lineLength (w ++ z)) = byteAt w (lineLength w) := by
      rw [lineLength_append hlt z, byteAt_append_left hlt z]
    cases hb : isLineBreak (byteAt w (lineLength w)) with
    | true =>
      have htwo : 2 ≤ (w.drop (lineLength w)).length := by
        have hne : lineLength w + 1 ≠ w.length := fun he => hskip (skipped_of_comment h he hb)
        rw [List.length_drop]
        omega
      have hof (z : Bytes) : of level (w ++ z) (Lexeme.ofFront (w ++ z)) =
          ⟨.lineBreak, lineLength w + lineBreakLength (w.drop (lineLength w))⟩ := by
        rw [of_commentLine level (hfirst z) ((congrArg _ (hbyte z)).trans hb), lineLength_append hlt z,
          drop_append_left (Nat.le_of_lt hlt) z, lineBreakLength_append htwo]
      rw [hof x, hof y]
      refine .same ?_
      have := lineBreakLength_le_two (w.drop (lineLength w))
      rw [List.length_drop] at htwo
      show lineLength w + lineBreakLength (w.drop (lineLength w)) ≤ w.length
      omega
    | false =>
      have hnul : byteAt w (lineLength w) = nul := by
        have hend := Lexeme.isLineEnd_byteAt_lineLength w
        rw [isLineEnd, hb, Bool.false_or] at hend
        exact eq_of_beq hend
      have hof (z : Bytes) : of level (w ++ z) (Lexeme.ofFront (w ++ z)) =
          ⟨.comment, lineLength w⟩ := by
        rw [of_comment level (hfirst z) ((hbyte z).trans hnul), lineLength_append hlt z]
      rw [hof x, hof y]
      exact .same (Nat.le_of_lt hlt)
  · have hle := le_lineLength_append (Nat.le_antisymm (lineLength_le w) hge) x
    have hend := Lexeme.isLineEnd_byteAt_lineLength (w ++ x)
    cases hb : isLineBreak (byteAt (w ++ x) (lineLength (w ++ x))) with
    | true =>
      rw [of_commentLine level (hfirst x) hb]
      refine .past rfl ?_
      have := one_le_lineBreakLength ((w ++ x).drop (lineLength (w ++ x)))
      omega
    | false =>
      rw [isLineEnd, hb, Bool.false_or] at hend
      have hnul := eq_of_beq hend
      rw [of_comment level (hfirst x) hnul]
      refine .past rfl (Nat.lt_of_le_of_ne hle fun he => hx ?_)
      rwa [← he, byteAt_append_zero] at hnul

theorem kept_of_lineBreak (level : Level) (h : isLineBreak (byteAt w 0) = true)
    (hskip : ¬Skipped w) (x y : Bytes) :
    Kept w.length (of level (w ++ x) (Lexeme.ofFront (w ++ x)))
      (of level (w ++ y) (Lexeme.ofFront (w ++ y))) := by
  have hpos : 0 < w.length := lt_length_of_byteAt fun h0 => by
    rw [h0] at h
    cases h
  have htwo : 2 ≤ w.length := by
    refine Nat.lt_of_le_of_ne hpos fun hone => hskip ?_
    rw [← List.take_of_length_le (Nat.le_trans (Nat.le_of_eq hone.symm) (one_le_lineBreakLength w))]
    exact skipped_lineBreak h
  have hof (z : Bytes) : of level (w ++ z) (Lexeme.ofFront (w ++ z)) =
      ⟨.lineBreak, lineBreakLength w⟩ := by
    rw [of_lineBreak level (by rwa [byteAt_append_left hpos]), lineBreakLength_append htwo]
  rw [hof x, hof y]
  exact .same (Nat.le_trans (lineBreakLength_le_two w) htwo)

/-- **The element in front of white space does not depend on which white space it is, nor on what
comes after it**, unless it is flat and runs on over it. -/
theorem of_kept (level : Level) (hx : Ended x) (hy : Ended y) (hnul : byteAt x 0 ≠ nul)
    (hspace : isSpace (byteAt w 0) = false) (hskip : ¬Skipped w) :
    Kept w.length (of level (w ++ x) (Lexeme.ofFront (w ++ x)))
      (of level (w ++ y) (Lexeme.ofFront (w ++ y))) := by
  by_cases hsemicolon : byteAt w 0 = semicolon
  · exact kept_of_semicolon level hsemicolon hskip hnul y
  · cases hbreak : isLineBreak (byteAt w 0) with
    | true => exact kept_of_lineBreak level hbreak hskip x y
    | false =>
      have hne : w ≠ [] := by
        rintro rfl
        exact hskip .nil
      exact of_kept_of_starts level hx hy hne ⟨hspace, hbreak, hsemicolon⟩

end Element

end RebolScan
