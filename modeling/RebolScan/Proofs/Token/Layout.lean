import RebolScan.Proofs.Token.Enclosed

/-!
# Lexemes in front of white space

What a lexeme is may depend on bytes behind it: an operator word, a set-word, the head of a path, a
tag that ends far away. But **which white space follows, and what comes after it, has no part in any
lexeme that ends before it** (`ofFront_kept`). An enclosed lexeme may run over white space and is read
alike only if it ends first. All others are cut by a delimiter, so they end before white space, and
at the most the byte behind them is looked at, by tests that white space passes or fails as one
(`Blind`).
-/

set_option autoImplicit false

namespace RebolScan

open Ascii

/-- White space or a line break is next, or the end of the input. -/
def Ended (x : Bytes) : Prop := isAnySpace (byteAt x 0) = true

/-- A test that does not tell one white space from another. -/
def Blind (p : UInt8 → Bool) : Prop :=
  ∀ b c, isAnySpace b = true → isAnySpace c = true → p b = p c

theorem exists_delimiter_of_isAnySpace {b : UInt8} (h : isAnySpace b = true) :
    ∃ d, ByteClass.of b = .delimiter d := by
  unfold isAnySpace at h
  split at h
  all_goals first
    | exact ⟨_, by assumption⟩
    | cases h

theorem isDelimiter_of_isAnySpace {b : UInt8} (h : isAnySpace b = true) : isDelimiter b = true := by
  obtain ⟨d, hd⟩ := exists_delimiter_of_isAnySpace h
  rw [isDelimiter, hd]

theorem not_isNumber_of_isAnySpace {b : UInt8} (h : isAnySpace b = true) : isNumber b = false := by
  obtain ⟨d, hd⟩ := exists_delimiter_of_isAnySpace h
  rw [isNumber, hd]

theorem not_isWordOrNumber_of_isAnySpace {b : UInt8} (h : isAnySpace b = true) :
    isWordOrNumber b = false := by
  obtain ⟨d, hd⟩ := exists_delimiter_of_isAnySpace h
  rw [isWordOrNumber, isWord, isNumber, hd]
  rfl

section

variable {p q : UInt8 → Bool}

theorem blind_of_const {v : Bool} (h : ∀ b, isAnySpace b = true → p b = v) : Blind p :=
  fun b c hb hc => (h b hb).trans (h c hc).symm

theorem blind_beq {c : UInt8} (hc : isAnySpace c = false) : Blind (· == c) :=
  blind_of_const fun _ hb => beq_false_of_class hb hc

theorem blind_isDelimiter : Blind isDelimiter := blind_of_const fun _ => isDelimiter_of_isAnySpace

theorem blind_isNumber : Blind isNumber := blind_of_const fun _ => not_isNumber_of_isAnySpace

theorem blind_isWordOrNumber : Blind isWordOrNumber :=
  blind_of_const fun _ => not_isWordOrNumber_of_isAnySpace

theorem blind_isAnySpace : Blind isAnySpace := blind_of_const fun _ => id

theorem Blind.or (hp : Blind p) (hq : Blind q) : Blind fun b => p b || q b := fun b c hb hc => by
  dsimp only
  rw [hp b c hb hc, hq b c hb hc]

theorem Blind.and (hp : Blind p) (hq : Blind q) : Blind fun b => p b && q b := fun b c hb hc => by
  dsimp only
  rw [hp b c hb hc, hq b c hb hc]

theorem Blind.not (hp : Blind p) : Blind fun b => !p b := fun b c hb hc => by
  dsimp only
  rw [hp b c hb hc]

theorem Blind.const_and (v : Bool) (hp : Blind p) : Blind fun b => v && p b :=
  .and (fun _ _ _ _ => rfl) hp

end

/-! ## Bytes in front of white space -/

/-- White space is no part of a byte order mark. -/
theorem byteOrderMarkLength_append {x : Bytes} (hx : Ended x) (u : Bytes) :
    byteOrderMarkLength (u ++ x) = byteOrderMarkLength u := by
  have hprefix : byteOrderMark.isPrefixOf (u ++ x) = byteOrderMark.isPrefixOf u := by
    match u with
    | _ :: _ :: _ :: _ => rfl
    | [] | [_] | [_, _] =>
      cases x with
      | nil => rfl
      | cons b x =>
        have hne (c : UInt8) (hc : isAnySpace c = false) : c ≠ b := by
          rintro rfl
          rw [Ended, byteAt_cons_zero, hc] at hx
          cases hx
        simp [byteOrderMark, List.isPrefixOf, hne 0xEF rfl, hne 0xBB rfl, hne 0xBF rfl]
  rw [byteOrderMarkLength, byteOrderMarkLength, hprefix]

section

variable {w x y : Bytes} (hx : Ended x) (hy : Ended y)

include hx

/-- A byte that is no white space is one of those in front. -/
theorem Ended.lt_length (p : UInt8 → Bool) {i : Nat} (hi : i ≤ w.length)
    (h : p (byteAt (w ++ x) i) = true) (hp : ∀ b, isAnySpace b = true → p b = false) :
    i < w.length := by
  rcases Nat.lt_or_eq_of_le hi with hlt | rfl
  · exact hlt
  · rw [byteAt_append_zero, hp _ hx] at h
    cases h

theorem Ended.lt_length_of_beq {c : UInt8} {i : Nat} (hi : i ≤ w.length)
    (h : (byteAt (w ++ x) i == c) = true) (hc : isAnySpace c = false) :
    i < w.length :=
  hx.lt_length (· == c) hi h fun _ hb => beq_false_of_class hb hc

/-- What stops at white space stops before it. -/
theorem Ended.takeWhile_append {p : UInt8 → Bool} (hp : ∀ b, isAnySpace b = true → p b = false) :
    (w ++ x).takeWhile p = w.takeWhile p := by
  have hnone : x.takeWhile p = [] := by
    cases x with
    | nil => rfl
    | cons b x => exact List.takeWhile_cons_of_neg (by rw [hp b hx]; exact Bool.noConfusion)
  rw [List.takeWhile_append, hnone, List.append_nil]
  split
  · rename_i h
    exact ((List.takeWhile_prefix p).eq_of_length h).symm
  · rfl

theorem Ended.front_append : Front.of (w ++ x) = ⟨w ++ x, runOf w, Marks.ofRun (runOf w)⟩ := by
  have hrun : runOf (w ++ x) = runOf w :=
    hx.takeWhile_append fun _ hb => by rw [isDelimiter_of_isAnySpace hb]; rfl
  rw [Front.of, hrun]

theorem Ended.pathEnd_append {start : Nat} (hstart : start ≤ w.length) :
    Lexeme.pathEnd (w ++ x) start = Lexeme.pathEnd w start := by
  rw [Lexeme.pathEnd, Lexeme.pathEnd, drop_append_left hstart, hx.takeWhile_append]
  intro b hb
  rw [isDelimiter_of_isAnySpace hb, beq_false_of_class hb (by decide)]
  rfl

include hy

/-- No test that is blind to white space tells the two texts apart up to where it is. -/
theorem Ended.byteAt_swap {p : UInt8 → Bool} (hp : Blind p) {i : Nat} (hi : i ≤ w.length) :
    p (byteAt (w ++ y) i) = p (byteAt (w ++ x) i) := by
  rcases Nat.lt_or_eq_of_le hi with hlt | rfl
  · rw [byteAt_append_swap hlt]
  · rw [byteAt_append_zero, byteAt_append_zero]
    exact hp _ _ hy hx

end

theorem length_runOf_le (w : Bytes) : (runOf w).length ≤ w.length :=
  (List.takeWhile_sublist _).length_le

/-! ## Marks and the bytes that left them -/

/-- The two specials that are looked for behind their marks stand in `l` if they are marked. -/
structure Marks.In (m : Marks) (l : Bytes) : Prop where
  colon : m.has .colon = true → Ascii.colon ∈ l
  lesser : m.has .lesser = true → Ascii.lesser ∈ l

namespace Marks

variable {m : Marks} {l l' : Bytes}

theorem In.mono (h : m.In l) (hl : ∀ b ∈ l, b ∈ l') : m.In l' :=
  ⟨fun hc => hl _ (h.colon hc), fun hc => hl _ (h.lesser hc)⟩

theorem In.insert (h : m.In l) {s : Special} (hc : s ≠ .colon) (hl : s ≠ .lesser) :
    (m.insert s).In l :=
  ⟨fun hm => h.colon (by simpa [has_insert, hc] using hm),
    fun hm => h.lesser (by simpa [has_insert, hl] using hm)⟩

/-- The marks of a run are those of the bytes behind its first. -/
theorem in_ofRun (run : Bytes) : (ofRun run).In (run.drop 1) := by
  cases run with
  | nil => exact ⟨fun h => absurd h (by decide), fun h => absurd h (by decide)⟩
  | cons b run =>
    have hmem {s : Special} {c : UInt8} (hs : ∀ b, ByteClass.of b = .special s → b = c)
        (h : (ofRun (b :: run)).has s = true) : c ∈ run := by
      rw [has_ofRun] at h
      obtain ⟨d, hd, hclass⟩ := List.any_eq_true.1 h
      rw [← hs d (of_decide_eq_true hclass)]
      exact hd
    exact ⟨hmem fun _ => eq_byte_of_class, hmem fun _ => eq_byte_of_class⟩

theorem in_ofRun_all (run : Bytes) : (ofRun run).In run :=
  (in_ofRun run).mono fun _ => List.mem_of_mem_drop

end Marks

/-! ## Lexemes that a delimiter cuts -/

namespace Lexeme

theorem Kept.ite {n : Nat} {c : Prop} [Decidable c] {l l' m m' : Lexeme} (h₁ : c → Kept n l l')
    (h₂ : ¬c → Kept n m m') : Kept n (if c then l else m) (if c then l' else m') := by
  split
  · exact h₁ ‹_›
  · exact h₂ ‹_›

/-- Both texts decide a test alike. -/
theorem Kept.ite_eq {n : Nat} {c c' : Bool} {l l' m m' : Lexeme} (hc : c' = c)
    (h₁ : c = true → Kept n l l') (h₂ : Kept n m m') :
    Kept n (if c then l else m) (if c' then l' else m') := by
  subst hc
  exact .ite h₁ fun _ => h₂

section

variable {w x y : Bytes} (hx : Ended x) (hy : Ended y) {run : Bytes} {m : Marks}
  (hrun : run.length ≤ w.length)

include hx hy hrun

/-! ### Words -/

theorem kept_marked {kind : TokenKind} {start : Nat} {m' : Marks}
    (hm : m'.has .lesser = true → lesser ∈ run.drop start) :
    Kept w.length (wordTail.marked kind start ⟨w ++ x, run, m⟩ m')
      (wordTail.marked kind start ⟨w ++ y, run, m⟩ m') := by
  unfold wordTail.marked
  refine .ite (fun _ => .good _ hrun) fun _ => .ite (fun _ => .good _ hrun) fun _ =>
    .ite (fun _ => .bad _ _ _) fun _ => .ite (fun h => ?_) fun _ =>
      .ite (fun _ => .bad _ _ _) fun _ => .good _ hrun
  obtain ⟨i, hi⟩ := Option.isSome_iff_exists.1 (Front.isSome_find? (f := ⟨w ++ x, run, m⟩) (hm h))
  have hlt : i < run.length := (Front.find?_bounds hi).2
  have hi' : Front.find? ⟨w ++ y, run, m⟩ start lesser = some i := hi
  dsimp only
  rw [hi, hi', Option.getD_some, Option.getD_some]
  -- White space behind the `<` makes an operator of it, and no operator stands behind a word.
  have hafter : Blind fun b => b == lesser || b == greater || b == equal || isAnySpace b ||
      (b != slash && isDelimiter b) :=
    .or (.or (.or (.or (blind_beq (by decide)) (blind_beq (by decide))) (blind_beq (by decide))) blind_isAnySpace)
      (.and (.not (blind_beq (by decide))) blind_isDelimiter)
  exact .ite_eq (hx.byteAt_swap hy hafter (by omega)) (fun _ => .bad _ _ _) (.good _ (by omega))

theorem kept_wordTail {kind : TokenKind} {start : Nat} (hm : m.In (run.drop start)) :
    Kept w.length (wordTail kind start ⟨w ++ x, run, m⟩) (wordTail kind start ⟨w ++ y, run, m⟩) := by
  unfold wordTail
  refine .ite (fun hc => .ite (fun _ => ?_) fun _ => .ite (fun _ => .bad _ _ _) fun _ => ?_)
    fun _ => ?_
  · obtain ⟨i, hi⟩ :=
      Option.isSome_iff_exists.1 (Front.isSome_find? (f := ⟨w ++ x, run, m⟩) (hm.colon hc))
    have hlt : i < run.length := (Front.find?_bounds hi).2
    have hi' : Front.find? ⟨w ++ y, run, m⟩ start colon = some i := hi
    dsimp only
    rw [hi, hi', Option.getD_some, Option.getD_some]
    have hafter : Blind fun b => b != slash && isDelimiter b :=
      .and (.not (blind_beq (by decide))) blind_isDelimiter
    refine .ite_eq (hx.byteAt_swap hy hafter (by omega))
      (fun _ => .ite (fun _ => .bad _ _ _) fun _ => .good _ hrun) ?_
    show Kept w.length (good .url (pathEnd (w ++ x) run.length))
      (good .url (pathEnd (w ++ y) run.length))
    rw [hx.pathEnd_append hrun, hy.pathEnd_append hrun]
    exact .good _ (pathEnd_bounds hrun).2
  · exact kept_marked hx hy hrun fun h => hm.lesser (by simpa [Marks.has_erase] using h)
  · exact kept_marked hx hy hrun hm.lesser

omit hrun in
theorem kept_operatorWord (kind : TokenKind) (h2 : 2 ≤ w.length) :
    Kept w.length (operatorWord kind ⟨w ++ x, run, m⟩) (operatorWord kind ⟨w ++ y, run, m⟩) := by
  have hsecond : Blind fun b => b == lesser || b == greater || b == equal :=
    .or (.or (blind_beq (by decide)) (blind_beq (by decide))) (blind_beq (by decide))
  have hswap := hx.byteAt_swap hy hsecond h2
  unfold operatorWord
  dsimp only [Front.byte] at hswap ⊢
  rw [hswap]
  split
  · rename_i h
    have h3 : 2 < w.length := hx.lt_length (fun b => b == lesser || b == greater || b == equal)
      h2 h fun b hb => by
        rw [beq_false_of_class hb (by decide), beq_false_of_class hb (by decide),
          beq_false_of_class hb (by decide)]
        rfl
    exact .ite_eq (hx.byteAt_swap hy blind_isDelimiter h3) (fun _ => .good _ h3) (.bad _ _ _)
  · exact .ite_eq (hx.byteAt_swap hy blind_isDelimiter h2) (fun _ => .good _ h2) (.bad _ _ _)

omit hrun in
theorem kept_slashes (hw : 1 ≤ w.length) :
    Kept w.length (slashes (w ++ x)) (slashes (w ++ y)) := by
  have hslash : ∀ b, isAnySpace b = true → (b == slash) = false :=
    fun b hb => beq_false_of_class hb (by decide)
  have hn : (w.takeWhile (· == slash)).length ≤ w.length := (List.takeWhile_sublist _).length_le
  have hname : Blind fun b => isWordOrNumber b || b == plus || b == minus || b == period :=
    .or (.or (.or blind_isWordOrNumber (blind_beq (by decide))) (blind_beq (by decide))) (blind_beq (by decide))
  unfold slashes
  dsimp only
  rw [hx.takeWhile_append hslash, hy.takeWhile_append hslash, drop_append_left hw,
    drop_append_left hw, hx.front_append, hy.front_append]
  refine .ite_eq (hx.byteAt_swap hy hname hn)
    (fun _ => .ite (fun _ => .ite (fun _ => ?_) fun _ => ?_) fun _ => .bad _ _ _)
    (.ite_eq (hx.byteAt_swap hy (.or (blind_beq (by decide)) (blind_beq (by decide))) hn) (fun _ => .bad _ _ _)
      (.good _ hn))
  · refine .good _ ?_
    have := length_runOf_le (w.drop 1)
    rw [List.length_drop] at this
    show 1 + (runOf (w.drop 1)).length ≤ w.length
    omega
  · refine kept_wordTail hx hy ?_ (Marks.in_ofRun_all _)
    have := length_runOf_le (w.drop 1)
    rw [List.length_drop] at this
    show (runOf (w.drop 1)).length + 1 ≤ w.length
    omega

/-! ### Operators and tags -/

omit hx hy hrun in
theorem kept_tag (x y : Bytes) :
    Kept w.length
      (match Tag.length? (w ++ x) with
        | some n => good .tag n
        | none => bad .tag run.length)
      (match Tag.length? (w ++ y) with
        | some n => good .tag n
        | none => bad .tag run.length) := by
  cases h : Tag.length? (w ++ x) with
  | none => exact .bad _ _ _
  | some n =>
    rcases Nat.lt_or_ge w.length n with hlt | hle
    · exact .past rfl hlt
    · rw [Tag.length?_append h hle y]
      exact .good _ hle

theorem kept_angle (s : Special) (hw : 1 ≤ w.length) :
    Kept w.length (angle s ⟨w ++ x, run, m⟩) (angle s ⟨w ++ y, run, m⟩) := by
  have hop {c : UInt8} (hc : isAnySpace c = false) (h : (byteAt (w ++ x) 1 == c) = true) :
      Kept w.length
        (if isDelimiter (byteAt (w ++ x) 2) then good .word run.length else bad .word run.length)
        (if isDelimiter (byteAt (w ++ y) 2) then good .word run.length else bad .word run.length) :=
    .ite_eq (hx.byteAt_swap hy blind_isDelimiter (hx.lt_length_of_beq hw h hc))
      (fun _ => .good _ hrun) (.bad _ _ _)
  unfold angle
  dsimp only [Front.byte, Front.stop]
  refine .ite_eq (hx.byteAt_swap hy (.const_and _ blind_isDelimiter) hw) (fun _ => .good _ hrun) ?_
  refine .ite_eq (hx.byteAt_swap hy (.const_and _ (blind_beq (by decide))) hw) (fun h => ?_) ?_
  · exact hop (by decide) (Bool.and_eq_true_iff.1 h).2
  refine .ite_eq (hx.byteAt_swap hy (.or blind_isAnySpace (blind_beq (by decide))) hw)
    (fun _ => .good _ hrun) ?_
  refine .ite_eq (hx.byteAt_swap hy
    (.or (.or (.const_and _ (blind_beq (by decide))) (blind_beq (by decide))) (blind_beq (by decide))) hw) (fun h => ?_) ?_
  · rw [Bool.or_eq_true, Bool.or_eq_true] at h
    rcases h with (h | h) | h
    · exact hop (by decide) (Bool.and_eq_true_iff.1 h).2
    · exact hop (by decide) h
    · exact hop (by decide) h
  exact .ite (fun _ => .bad _ _ _) fun _ => kept_tag x y

/-! ### Numbers and what starts with a pound sign -/

theorem kept_poundForm {start : Nat} (hstart : start + 1 ≤ w.length) :
    Kept w.length (poundForm start ⟨w ++ x, run, m⟩) (poundForm start ⟨w ++ y, run, m⟩) := by
  have hbehind {c : UInt8} (hc : isAnySpace c = false)
      (h : (byteAt (w ++ x) (start + 1) == c) = true) : start + 2 ≤ w.length :=
    hx.lt_length_of_beq hstart h hc
  unfold poundForm
  dsimp only [Front.byte]
  refine .ite_eq (hx.byteAt_swap hy (blind_beq (by decide)) hstart)
    (fun h => .good _ (hbehind (by decide) h)) ?_
  refine .ite_eq (hx.byteAt_swap hy (blind_beq (by decide)) hstart)
    (fun h => kept_character (hbehind (by decide) h) x y) ?_
  refine .ite_eq (hx.byteAt_swap hy (blind_beq (by decide)) hstart)
    (fun _ => kept_quoted rfl hstart x y) ?_
  exact .ite (fun _ => .good _ hrun) fun _ => .bad _ _ _

omit hy hrun in
/-- A base, a pound sign and a brace take three bytes in front of white space. -/
theorem basePound?_short (hw : 1 ≤ w.length) (h3 : w.length < 3) :
    basePound? ⟨w ++ x, run, m⟩ = none := by
  have hend {c : UInt8} (hc : isAnySpace c = false) : (byteAt (w ++ x) w.length == c) = false := by
    rw [byteAt_append_zero]
    exact beq_false_of_class hx hc
  unfold basePound?
  dsimp only [Front.byte]
  obtain hlen | hlen : w.length = 1 ∨ w.length = 2 := by omega
  · rw [hlen] at hend
    simp [hend (c := pound) (by decide), hend (c := 0x34) (by decide),
      hend (c := 0x36) (by decide)]
  · rw [hlen] at hend
    simp [hend (c := pound) (by decide), hend (c := braceOpen) (by decide)]

omit hrun in
theorem basePound?_swap (hw : 1 ≤ w.length) :
    basePound? ⟨w ++ y, run, m⟩ = basePound? ⟨w ++ x, run, m⟩ := by
  rcases Nat.lt_or_ge w.length 3 with h3 | h3
  · rw [basePound?_short hx hw h3, basePound?_short hy hw h3]
  · have hswap (c : UInt8) (hc : isAnySpace c = false) {i : Nat} (hi : i ≤ 3) :
        (Front.byte ⟨w ++ y, run, m⟩ i == c) = (Front.byte ⟨w ++ x, run, m⟩ i == c) :=
      hx.byteAt_swap hy (blind_beq hc) (Nat.le_trans hi h3)
    rw [basePound?, basePound?, hswap _ (by decide) (Nat.le_refl 3), hswap 0x32 (by decide) (Nat.zero_le 3),
      hswap 0x36 (by decide) (Nat.zero_le 3), hswap 0x31 (by decide) (Nat.zero_le 3),
      hswap pound (by decide) (i := 1) (by decide), hswap 0x34 (by decide) (i := 1) (by decide),
      hswap 0x36 (by decide) (i := 1) (by decide), hswap pound (by decide) (i := 2) (by decide),
      hswap braceOpen (by decide) (i := 2) (by decide)]

omit hy hrun in
theorem le_of_basePound? (hw : 1 ≤ w.length) {p : Nat}
    (h : basePound? ⟨w ++ x, run, m⟩ = some p) : p + 1 ≤ w.length := by
  rcases Nat.lt_or_ge w.length 3 with h3 | h3
  · rw [basePound?_short hx hw h3] at h
    cases h
  · unfold basePound? at h
    repeat' split at h
    all_goals cases h
    all_goals omega

omit hx hy hrun in
theorem numberBySign_length (start : Nat) (f : Front) : (numberBySign start f).length = f.stop := by
  unfold numberBySign
  dsimp only
  repeat' split
  all_goals rfl

theorem kept_number {start : Nat} (hw : 1 ≤ w.length) :
    Kept w.length (number start ⟨w ++ x, run, m⟩) (number start ⟨w ++ y, run, m⟩) := by
  unfold number
  refine .ite (fun _ => .good _ hrun) fun _ => .ite (fun _ => .good _ hrun) fun _ =>
    .ite (fun _ => ?_) fun _ => .ite (fun _ => .good _ hrun) fun _ => .ite (fun _ => ?_) fun _ =>
      .ite (fun _ => .ite (fun _ => .good _ hrun) fun _ => .good _ hrun) fun _ => ?_
  · rw [basePound?_swap hx hy hw]
    cases h : (if start == 0 then basePound? ⟨w ++ x, run, m⟩ else none) with
    | none => exact .bad _ _ _
    | some p =>
      split at h
      · exact kept_poundForm hx hy hrun (le_of_basePound? hx hw h)
      · cases h
  · exact .ite (fun _ => .good _ hrun) fun _ => .ite (fun _ => .good _ hrun) fun _ => .good _ hrun
  · have hsame : numberBySign start ⟨w ++ y, run, m⟩ = numberBySign start ⟨w ++ x, run, m⟩ := rfl
    rw [hsame]
    refine .same ?_
    rw [numberBySign_length]
    exact hrun

theorem kept_radixPoint {s : Special} {start : Nat} (hc : s ≠ .colon) (hl : s ≠ .lesser)
    (hstart : start + 1 ≤ w.length) (hm : m.In (run.drop start)) :
    Kept w.length (radixPoint s start ⟨w ++ x, run, m⟩) (radixPoint s start ⟨w ++ y, run, m⟩) := by
  unfold radixPoint
  dsimp only
  refine .ite_eq (hx.byteAt_swap hy blind_isNumber hstart)
    (fun _ => kept_number hx hy hrun (by omega)) ?_
  exact .ite (fun _ => .bad _ _ _) fun _ => kept_wordTail hx hy hrun (hm.insert hc hl)

/-! ### The first byte -/

theorem kept_signed (hw : 1 ≤ w.length) (hm : m.In (run.drop 1)) :
    Kept w.length (signed ⟨w ++ x, run, m⟩) (signed ⟨w ++ y, run, m⟩) := by
  have hall : m.In run := hm.mono fun _ => List.mem_of_mem_drop
  have hword : Kept w.length (wordTail .word 1 ⟨w ++ x, run, m⟩)
      (wordTail .word 1 ⟨w ++ y, run, m⟩) := kept_wordTail hx hy hrun hm
  unfold signed
  refine .ite (fun _ => .good _ hrun) fun _ => .ite (fun _ => .ite (fun _ => .good _ hrun) fun _ => ?_)
    fun _ => ?_
  · exact .ite_eq (hx.byteAt_swap hy (blind_beq (by decide)) hw) (fun _ => kept_wordTail hx hy hrun hall)
      (.bad _ _ _)
  · dsimp only [Front.byte]
    rcases Nat.lt_or_eq_of_le hw with h1 | h1
    · rw [byteAt_append_swap h1 x y]
      split
      · exact kept_number hx hy hrun hw
      · exact kept_radixPoint hx hy hrun (by decide) (by decide) h1 hm
      · exact kept_radixPoint hx hy hrun (by decide) (by decide) h1 hm
      · exact kept_poundForm hx hy hrun h1
      · exact hword
      · exact hword
      · exact .bad _ _ _
      · exact hword
    · obtain ⟨d, hd⟩ := exists_delimiter_of_isAnySpace hx
      obtain ⟨e, he⟩ := exists_delimiter_of_isAnySpace hy
      rw [← byteAt_append_zero w, ← h1] at hd he
      simp only [hd, he]
      exact hword

theorem kept_colonForm (hw : 1 ≤ w.length) (hm : m.In (run.drop 1)) :
    Kept w.length (colonForm ⟨w ++ x, run, m⟩) (colonForm ⟨w ++ y, run, m⟩) := by
  unfold colonForm
  refine .ite_eq (hx.byteAt_swap hy blind_isNumber hw) (fun _ => .good _ hrun) ?_
  refine .ite (fun _ => .good _ hrun) fun _ => ?_
  refine .ite_eq (hx.byteAt_swap hy (blind_beq (by decide)) hw) (fun _ => .bad _ _ _) ?_
  refine .ite_eq (hx.byteAt_swap hy (.or (blind_beq (by decide)) (blind_beq (by decide))) hw) (fun h => ?_)
    (kept_wordTail hx hy hrun hm)
  refine kept_operatorWord hx hy _ ?_
  rcases Bool.or_eq_true_iff.1 h with h | h <;> exact hx.lt_length_of_beq hw h (by decide)

theorem kept_tickForm (hw : 1 ≤ w.length) (hm : m.In run) :
    Kept w.length (tickForm ⟨w ++ x, run, m⟩) (tickForm ⟨w ++ y, run, m⟩) := by
  unfold tickForm
  refine .ite_eq (hx.byteAt_swap hy (.or blind_isNumber (blind_beq (by decide))) hw) (fun _ => .bad _ _ _) ?_
  refine .ite (fun _ => .good _ hrun) fun _ => ?_
  refine .ite_eq (hx.byteAt_swap hy (blind_beq (by decide)) hw) (fun _ => .bad _ _ _) ?_
  refine .ite_eq (hx.byteAt_swap hy (.or (blind_beq (by decide)) (blind_beq (by decide))) hw) (fun h => ?_)
    (kept_wordTail hx hy hrun hm)
  refine kept_operatorWord hx hy _ ?_
  rcases Bool.or_eq_true_iff.1 h with h | h <;> exact hx.lt_length_of_beq hw h (by decide)

theorem kept_file : Kept w.length (file ⟨w ++ x, run, m⟩) (file ⟨w ++ y, run, m⟩) := by
  unfold file
  dsimp only [Front.byte, Front.stop]
  refine .ite_eq (hx.byteAt_swap hy (blind_beq (by decide)) hrun) (fun _ => ?_) ?_
  · have hdrop : (w.drop run.length).length = w.length - run.length := List.length_drop
    rw [drop_append_left hrun, drop_append_left hrun]
    cases he : (Quoted.read (w.drop run.length ++ x)).extent with
    | none => exact .malformed rfl
    | some e =>
      rcases Nat.lt_or_ge w.length (run.length + e.length) with hlt | hle
      · exact .past rfl hlt
      · rw [Quoted.read_append he (by omega) y, he]
        exact .same hle
  · rw [hx.pathEnd_append hrun, hy.pathEnd_append hrun]
    exact .good _ (pathEnd_bounds hrun).2

theorem kept_special (s : Special) (hw : 1 ≤ w.length) (hm : m.In (run.drop 1)) :
    Kept w.length (special s ⟨w ++ x, run, m⟩) (special s ⟨w ++ y, run, m⟩) := by
  have hall : m.In run := hm.mono fun _ => List.mem_of_mem_drop
  unfold special
  refine .ite (fun _ => .good _ hrun) fun _ => ?_
  cases s with
  | atSign => exact .bad _ _ _
  | percent => exact kept_file hx hy hrun
  | colon => exact kept_colonForm hx hy hrun hw hm
  | tick => exact kept_tickForm hx hy hrun hw hall
  | comma => exact kept_radixPoint hx hy hrun (by decide) (by decide) hw hall
  | period => exact kept_radixPoint hx hy hrun (by decide) (by decide) hw hall
  | greater => exact kept_angle hx hy hrun _ hw
  | lesser => exact kept_angle hx hy hrun _ hw
  | plus => exact kept_signed hx hy hrun hw hm
  | minus => exact kept_signed hx hy hrun hw hm
  | pound => exact kept_poundForm hx hy hrun hw
  | dollar => exact .good _ hrun
  | backslash => exact .bad _ _ _

end

/-- Where a lexeme is looked for that is neither white space nor a comment. -/
structure Starts (text : Bytes) : Prop where
  space : isSpace (byteAt text 0) = false
  lineBreak : isLineBreak (byteAt text 0) = false
  semicolon : byteAt text 0 ≠ semicolon

variable {w x y : Bytes}

theorem kept_delimited (hx : Ended x) (hy : Ended y) (hw : 1 ≤ w.length) {d : Delimiter}
    (hstarts : Starts w) (hd : ByteClass.of (byteAt w 0) = .delimiter d) :
    Kept w.length (delimited d (w ++ x)) (delimited d (w ++ y)) := by
  have hrow (hs : d ≠ .space) : (byteAt w 0, d) ∈ delimiterTable := mem_delimiterTable hd hs
  cases d with
  | space =>
    have := hstarts.space
    rw [isSpace, hd] at this
    cases this
  | semicolon => exact absurd (by simpa [delimiterTable] using hrow) hstarts.semicolon
  | lineFeed =>
    have hb : byteAt w 0 = lineFeed := by simpa [delimiterTable] using hrow
    exact absurd hstarts.lineBreak (by simp [isLineBreak, hb])
  | carriageReturn =>
    have hb : byteAt w 0 = carriageReturn := by simpa [delimiterTable] using hrow
    exact absurd hstarts.lineBreak (by simp [isLineBreak, hb])
  | leftBracket | rightBracket | leftParen | rightParen => exact .good _ hw
  | quote | leftBrace => exact kept_quoted rfl (Nat.zero_le _) x y
  | rightBrace | utf8Error => exact .bad _ _ _
  | slash => exact kept_slashes hx hy hw
  | endOfInput =>
    refine .malformed ?_
    have hne : (w ++ x).isEmpty = false := by
      cases w with
      | nil => cases hw
      | cons b w => rfl
    rw [delimited, hne]
    rfl

/-- **What a lexeme is in front of white space does not depend on which white space it is, nor on
what comes after it**, unless it is enclosed and runs on over it. -/
theorem ofFront_kept (hx : Ended x) (hy : Ended y) (hw : w ≠ []) (hstarts : Starts w) :
    Kept w.length (ofFront (w ++ x)) (ofFront (w ++ y)) := by
  have hpos : 1 ≤ w.length := List.length_pos_iff.2 hw
  have hrun := length_runOf_le w
  unfold ofFront
  rw [byteAt_append_left hpos, byteAt_append_left hpos, hx.front_append, hy.front_append]
  split
  · rename_i d hd
    exact kept_delimited hx hy hpos hstarts hd
  · exact kept_special hx hy hrun _ hpos (Marks.in_ofRun _)
  · exact .ite (fun _ => .good _ hrun) fun _ => kept_wordTail hx hy hrun (Marks.in_ofRun_all _)
  · exact kept_number hx hy hrun hpos

end Lexeme

end RebolScan
