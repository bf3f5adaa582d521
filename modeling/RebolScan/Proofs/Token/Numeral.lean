import RebolScan.Literal.Number
import RebolScan.Proofs.Literal.Digits
import RebolScan.Proofs.Token.Solid

/-!
# The texts of numbers

Which texts are an integer, a decimal, an amount of money, a tuple or a time, as a grammar
(`Numeral`), and that **the lexeme of such a text is of its kind** (`ofFront_numeral`). A lexeme is
told by the first byte of its run and by the marks of it, and no digit is looked at for its value;
so what is shown of each form is which specials stand in it, and which comes first.
-/

set_option autoImplicit false

namespace RebolScan

open Ascii Literal

/-! ## The grammar -/

/-- No sign, a plus or a minus. -/
inductive IsSign : Bytes → Prop
  | none : IsSign []
  | plus : IsSign [plus]
  | minus : IsSign [minus]

/-- A digit, and then digits and ticks. -/
structure Grouped (w : Bytes) : Prop where
  first : isDigit (byteAt w 0) = true
  all : ∀ b ∈ w, isDigitOrTick b = true

/-- A point or comma, and digits behind it, `least` of them or more. -/
inductive Fraction (least : Nat) : Bytes → Prop
  | mk {radix : UInt8} {ds : Bytes} (hradix : radix = period ∨ radix = comma)
      (hdigits : ∀ b ∈ ds, isDigit b = true) (hleast : least ≤ ds.length) :
      Fraction least (radix :: ds)

/-- An `e` of either case, a sign and digits. -/
inductive Exponent : Bytes → Prop
  | mk {e : UInt8} {sign ds : Bytes} {n : Nat} (he : e = letterE ∨ e = capitalE)
      (hsign : IsSign sign) (hdigits : Digits ds n) : Exponent (e :: (sign ++ ds))

/-- A colon and digits. -/
inductive Seconds : Bytes → Prop
  | mk {ds : Bytes} {n : Nat} (hdigits : Digits ds n) : Seconds (colon :: ds)

/-- What may be left out. -/
def Optionally (P : Bytes → Prop) (w : Bytes) : Prop := w = [] ∨ P w

/-- The texts of numbers, by the kind of token that they are. -/
inductive Numeral : TokenKind → Bytes → Prop
  | integer {sign whole : Bytes} (hsign : IsSign sign) (hwhole : Grouped whole) :
      Numeral .integer (sign ++ whole)
  | decimal {sign whole fraction exponent : Bytes} (hsign : IsSign sign) (hwhole : Grouped whole)
      (hfraction : Optionally (Fraction 0) fraction) (hexponent : Optionally Exponent exponent)
      (hsome : fraction ≠ [] ∨ exponent ≠ []) :
      Numeral .decimal (sign ++ (whole ++ (fraction ++ exponent)))
  | money {sign whole fraction : Bytes} (hsign : IsSign sign) (hwhole : Grouped whole)
      (hfraction : Optionally (Fraction 0) fraction) :
      Numeral .money (sign ++ dollar :: (whole ++ fraction))
  | tuple {runs : List Bytes} (hthree : 3 ≤ runs.length) (hruns : ∀ run ∈ runs, ∃ n, Digits run n) :
      Numeral .tuple ([period].intercalate runs)
  | time {sign hours minutes seconds fraction : Bytes} {n : Nat} (hsign : IsSign sign)
      (hhours : ∀ b ∈ hours, isDigit b = true) (hminutes : Digits minutes n)
      (hseconds : Optionally Seconds seconds) (hfraction : Optionally (Fraction 1) fraction) :
      Numeral .time (sign ++ (hours ++ colon :: (minutes ++ (seconds ++ fraction))))

/-! ## Bytes -/

/-- No byte stands in it but digits, ticks and those of `more`. -/
def Digital (more : List UInt8) (w : Bytes) : Prop := ∀ b ∈ w, isDigitOrTick b = true ∨ b ∈ more

section

variable {more : List UInt8} {sign w v rest : Bytes} {least n : Nat} {s : Special}

theorem Digital.nil : Digital more [] := fun _ h => absurd h List.not_mem_nil

theorem Digital.append (hw : Digital more w) (hv : Digital more v) : Digital more (w ++ v) := by
  intro b hb
  rcases List.mem_append.1 hb with hb | hb
  · exact hw b hb
  · exact hv b hb

theorem Digital.cons {b : UInt8} (hb : b ∈ more) (hw : Digital more w) : Digital more (b :: w) :=
  List.forall_mem_cons.2 ⟨.inr hb, hw⟩

theorem Digital.mono {most : List UInt8} (hw : Digital more w) (h : ∀ b ∈ more, b ∈ most) :
    Digital most w := fun b hb => (hw b hb).imp_right (h b)

theorem Digital.not_mem {b : UInt8} (hw : Digital more w) (hb : isDigitOrTick b = false)
    (hmore : b ∉ more) : b ∉ w := by
  intro hmem
  rcases hw b hmem with h | h
  · rw [hb] at h
    cases h
  · exact hmore h

theorem digital_of_isDigit (h : ∀ b ∈ w, isDigit b = true) : Digital more w := by
  intro b hb
  rw [isDigitOrTick, h b hb]
  exact .inl rfl

theorem isSolid_of_isDigitOrTick (b : UInt8) (h : isDigitOrTick b = true) :
    isSolid [.tick] b = true := by
  simp only [isDigitOrTick, Bool.or_eq_true, beq_iff_eq] at h
  rcases h with h | rfl
  · exact isSolid_of_isDigit h
  · rfl

/-- A run of a number has the specials that its further bytes are. -/
theorem Digital.solid {allowed : List Special} (hw : Digital more w)
    (hmore : ∀ b ∈ more, isSolid (.tick :: allowed) b = true) : Solid (.tick :: allowed) w := by
  intro b hb
  rcases hw b hb with h | h
  · have hsolid : Solid [.tick] [b] := Solid.cons (isSolid_of_isDigitOrTick b h) fun _ h =>
      absurd h List.not_mem_nil
    exact hsolid.mono (by simp) b (List.mem_singleton_self b)
  · exact hmore b h

theorem Grouped.digital (h : Grouped w) : Digital more w := fun b hb => .inl (h.all b hb)

theorem IsSign.digital (h : IsSign w) : Digital [Ascii.plus, Ascii.minus] w := by
  cases h with
  | none => exact .nil
  | plus | minus => exact .cons (by simp) .nil

theorem Fraction.digital (h : Fraction least w) : Digital [period, comma] w := by
  obtain ⟨hradix, hdigits, -⟩ := h
  exact .cons (by simpa using hradix) (digital_of_isDigit hdigits)

theorem Exponent.digital (h : Exponent w) : Digital [letterE, capitalE, plus, minus] w := by
  obtain ⟨he, hsign, hdigits⟩ := h
  refine .cons ?_ ((hsign.digital.mono (by simp)).append (digital_of_isDigit hdigits.isDigit))
  rcases he with rfl | rfl <;> simp

theorem Seconds.digital (h : Seconds w) : Digital [colon] w := by
  obtain ⟨hdigits⟩ := h
  exact .cons (by simp) (digital_of_isDigit hdigits.isDigit)

theorem Optionally.digital {P : Bytes → Prop} (h : Optionally P w)
    (hP : ∀ {w}, P w → Digital more w) : Digital more w := by
  rcases h with rfl | h
  · exact .nil
  · exact hP h

/-- What starts with a digit still does with more behind it. -/
theorem isDigit_append (h : isDigit (byteAt w 0) = true) (v : Bytes) :
    isDigit (byteAt (w ++ v) 0) = true := by
  cases w with
  | nil => cases h
  | cons b w => exact h

end

/-! ## Marks behind a sign -/

section

variable {sign w : Bytes} {s : Special}

/-- Of what starts with a digit every special is marked, whatever the sign in front. -/
theorem has_signed_iff (hsign : IsSign sign) (hfirst : isDigit (byteAt w 0) = true) (s : Special) :
    (Marks.ofRun (sign ++ w)).has s = true ↔ s.byte ∈ w := by
  cases hsign with
  | none =>
    cases w with
    | nil => cases hfirst
    | cons b w =>
      have hb : s.byte ≠ b := by
        rintro rfl
        have hclass := (class_byte s).symm.trans (class_of_isDigit hfirst)
        cases hclass
      rw [List.nil_append, Marks.has_ofRun_iff, List.mem_cons, or_iff_right hb]
  | plus | minus => exact Marks.has_ofRun_iff

theorem Marks.word_foldl_note (m : Marks) (w : Bytes) :
    (w.foldl note m).word = (m.word || w.any isWord) := by
  induction w generalizing m with
  | nil => simp
  | cons b w ih =>
    have hnote : (m.note b).word = (m.word || isWord b) := by
      unfold note isWord
      split
      · rename_i s hs
        rw [hs]
        simp [insert]
      · rename_i v hv
        rw [hv]
        simp
      · rename_i hs hv
        split
        · rename_i v hv'
          exact absurd hv' (hv v)
        · simp
    rw [List.foldl_cons, ih, hnote, List.any_cons, Bool.or_assoc]

/-- A word byte leaves a mark as well. -/
theorem not_isEmpty_of_isWord {b : UInt8} (hb : isWord b = true) (hmem : b ∈ w) :
    (Marks.ofRun w).isEmpty = false := by
  have hword : (Marks.ofRun w).word = true := by
    cases w with
    | nil => cases hmem
    | cons a w =>
      rw [Marks.ofRun, Marks.word_foldl_note]
      show (isWord a || w.any isWord) = true
      rw [← List.any_cons]
      exact List.any_eq_true.2 ⟨b, hmem, hb⟩
  rw [← Bool.not_eq_true]
  intro hempty
  rw [eq_of_beq hempty] at hword
  cases hword

/-- Behind a sign digits leave no mark. -/
theorem ofRun_signed_digits (hsign : IsSign sign) (hw : ∀ b ∈ w, isDigit b = true) :
    (Marks.ofRun (sign ++ w)).isEmpty = true := by
  cases hsign with
  | none =>
    cases w with
    | nil => rfl
    | cons b w =>
      have hb : isWord b = false := by
        rw [isWord, class_of_isDigit (hw b List.mem_cons_self)]
      rw [List.nil_append, ofRun_digits fun c hc => hw c (List.mem_cons_of_mem b hc), hb]
      rfl
  | plus | minus =>
    rw [List.singleton_append, ofRun_digits hw]
    rfl

/-- A colon that is not in front is marked. -/
theorem has_colon {u v : Bytes} (hu : u ≠ []) :
    (Marks.ofRun (u ++ colon :: v)).has .colon = true := by
  obtain ⟨b, u, rfl⟩ := List.exists_cons_of_ne_nil hu
  rw [List.cons_append, Marks.has_ofRun, List.any_append, Bool.or_eq_true, List.any_cons]
  exact .inr rfl

/-- Something is marked. -/
theorem not_isEmpty_of_has {m : Marks} (h : m.has s = true) : m.isEmpty = false := by
  rw [← Bool.not_eq_true]
  intro hm
  rw [Marks.has_of_isEmpty hm] at h
  cases h

end

namespace Lexeme

/-! ## The first byte -/

section

variable {allowed : List Special} {sign w rest : Bytes}

theorem ofFront_number (hs : Solid allowed w) (hfirst : isDigit (byteAt w 0) = true)
    (hrest : isDelimiter (byteAt rest 0) = true) :
    ofFront (w ++ rest) = number 0 ⟨w ++ rest, w, Marks.ofRun w⟩ := by
  cases w with
  | nil => cases hfirst
  | cons b w =>
    have hclass : ByteClass.of (byteAt (b :: w ++ rest) 0) = .number (digitValue b) :=
      class_of_isDigit hfirst
    rw [ofFront, hclass]
    dsimp only
    rw [hs.front hrest]

/-- A sign does not say yet what the lexeme is. -/
theorem ofFront_sign {b : UInt8} (hb : b = plus ∨ b = minus) (hs : Solid allowed w)
    (hat : .atSign ∉ allowed) (hrest : isDelimiter (byteAt rest 0) = true) :
    ofFront (b :: w ++ rest) = signed ⟨b :: w ++ rest, b :: w, Marks.ofRun (b :: w)⟩ := by
  have hrun : Solid (.plus :: .minus :: allowed) (b :: w) := by
    refine Solid.cons ?_ (hs.mono fun s h => List.mem_cons_of_mem _ (List.mem_cons_of_mem _ h))
    rcases hb with rfl | rfl
    · exact isSolid_of_mem (s := .plus) rfl (by simp)
    · exact isSolid_of_mem (s := .minus) rfl (by simp)
  rcases hb with rfl | rfl
  · show special .plus (Front.of (plus :: w ++ rest)) = _
    rw [hrun.front hrest, special, Front.has, hs.has hat]
    rfl
  · show special .minus (Front.of (minus :: w ++ rest)) = _
    rw [hrun.front hrest, special, Front.has, hs.has hat]
    rfl

theorem signed_digit {f : Front} (hdollar : f.has .dollar = false) (hcolon : f.has .colon = false)
    (h : isDigit (f.byte 1) = true) : signed f = number 1 f := by
  rw [signed]
  simp only [hdollar, hcolon, class_of_isDigit h]
  rfl

theorem signed_dollar {f : Front} (hdollar : f.has .dollar = true) :
    signed f = good .money f.stop := by
  rw [signed, if_pos hdollar]

theorem signed_time {f : Front} {i : Nat} (hdollar : f.has .dollar = false)
    (hcolon : f.has .colon = true) (hfind : f.find? 0 colon = some i) (hi : i + 1 ≠ f.stop) :
    signed f = good .time f.stop := by
  have hinside : (some i).any (· + 1 != f.stop) = true := bne_iff_ne.2 hi
  rw [signed]
  simp only [hdollar, hcolon, hfind, hinside]
  rfl

/-- Behind a sign a digit starts a number, unless there is a colon or a dollar sign. -/
theorem ofFront_signed (hsign : IsSign sign) (hs : Solid allowed w)
    (hfirst : isDigit (byteAt w 0) = true) (hat : .atSign ∉ allowed) (hdollar : .dollar ∉ allowed)
    (hcolon : .colon ∉ allowed) (hrest : isDelimiter (byteAt rest 0) = true) :
    ofFront (sign ++ w ++ rest) =
      number sign.length ⟨sign ++ w ++ rest, sign ++ w, Marks.ofRun (sign ++ w)⟩ := by
  have hsome (b : UInt8) (hb : b = plus ∨ b = minus) : ofFront (b :: w ++ rest) =
      number 1 ⟨b :: w ++ rest, b :: w, Marks.ofRun (b :: w)⟩ := by
    rw [ofFront_sign hb hs hat hrest]
    exact signed_digit (hs.has hdollar) (hs.has hcolon) (isDigit_append hfirst rest)
  cases hsign with
  | none => exact ofFront_number hs hfirst hrest
  | plus => exact hsome plus (.inl rfl)
  | minus => exact hsome minus (.inr rfl)

end

/-! ## Numbers -/

section

variable {f : Front} {start i : Nat}

theorem number_time (hat : f.has .atSign = false) (hpound : f.has .pound = false)
    (hcolon : f.has .colon = true) : number start f = good .time f.stop := by
  have hmarks : f.marks.isEmpty = false := not_isEmpty_of_has hcolon
  rw [number]
  simp only [hmarks, hat, hpound, hcolon]
  rfl

section

variable (hat : f.has .atSign = false) (hpound : f.has .pound = false)
  (hcolon : f.has .colon = false)

include hat hpound hcolon

/-- Without a colon, a point or a comma the first sign among the digits decides. -/
theorem number_bySign (hperiod : f.has .period = false) (hcomma : f.has .comma = false)
    (hmarks : f.marks.isEmpty = false) : number start f = numberBySign start f := by
  rw [number]
  simp only [hmarks, hat, hpound, hcolon, hperiod, hcomma]
  rfl

end

/-- No digit and no tick decides on the kind of a number. -/
theorem find?_grouped {w : Bytes} (hw : ∀ b ∈ w, isDigitOrTick b = true) :
    w.find? (fun b => b == minus || b == letterX || b == capitalX || b == letterE ||
      b == capitalE || b == percent) = none := by
  rw [List.find?_eq_none]
  intro b hb hfound
  have hbyte := hw b hb
  simp only [Bool.or_eq_true, beq_iff_eq] at hfound
  rcases hfound with ((((rfl | rfl) | rfl) | rfl) | rfl) | rfl <;> cases hbyte

/-- Digits and ticks, if there is a tick among them. -/
theorem numberBySign_grouped (hrun : ∀ b ∈ f.run.drop start, isDigitOrTick b = true)
    (htick : f.has .tick = true) : numberBySign start f = good .integer f.stop := by
  unfold numberBySign
  dsimp only
  rw [find?_grouped hrun, htick]
  rfl

/-- What stands behind digits and ticks decides, if it can. -/
theorem find?_behind {u : Bytes} {b : UInt8} (v : Bytes) (hu : ∀ b ∈ u, isDigitOrTick b = true)
    (hb : b ∈ [minus, letterX, capitalX, letterE, capitalE, percent]) :
    (u ++ b :: v).find? (fun b => b == minus || b == letterX || b == capitalX || b == letterE ||
      b == capitalE || b == percent) = some b := by
  rw [List.find?_append, find?_grouped hu, Option.none_or]
  simp only [List.mem_cons, List.not_mem_nil, or_false] at hb
  rcases hb with rfl | rfl | rfl | rfl | rfl | rfl <;> rfl

/-- What the sign `b` behind digits and ticks makes of a number; a small `x` may follow it. -/
def signKind (b : UInt8) (crossed : Bool) : TokenKind :=
  if b == minus then .date
  else if b == letterX || b == capitalX then .pair
  else if b == percent then .percent
  else if crossed then .pair
  else .decimal

theorem signKind_exponent {e : UInt8} (he : e = letterE ∨ e = capitalE) (crossed : Bool) :
    signKind e crossed = if crossed then .pair else .decimal := by
  rcases he with rfl | rfl <;> rfl

/-- The first sign behind digits and ticks. -/
theorem numberBySign_behind {u v : Bytes} {b : UInt8} (hrun : f.run.drop start = u ++ b :: v)
    (hu : ∀ b ∈ u, isDigitOrTick b = true)
    (hb : b ∈ [minus, letterX, capitalX, letterE, capitalE, percent]) :
    numberBySign start f = good (signKind b ((u ++ b :: v).contains letterX)) f.stop := by
  unfold numberBySign
  dsimp only
  rw [hrun, find?_behind v hu hb]
  unfold signKind
  dsimp only
  split_ifs <;> rfl

end

end Lexeme

/-! ## Finding a byte behind the sign -/

section

variable {f : Front} {sign u v : Bytes} {b : UInt8}

theorem Front.find?_signed (hrun : f.run = sign ++ (u ++ b :: v)) (h : b ∉ u) :
    f.find? sign.length b = some (u.length + sign.length) := by
  have hnone : List.findIdx? (· == b) u = none := List.idxOf?_eq_none_iff.2 h
  simp [find?, hrun, List.idxOf?, List.findIdx?_append, hnone, List.findIdx?_cons]

theorem Front.isSome_find?_eq (f : Front) (start : Nat) (b : UInt8) :
    (f.find? start b).isSome = (f.run.drop start).contains b := by
  rw [Bool.eq_iff_iff, find?, Option.isSome_map, List.contains_iff_mem]
  exact List.isSome_idxOf?

end

/-- A front that is its text up to what ends the run, marked as the run is. -/
structure Front.Runs (f : Front) (w : Bytes) : Prop where
  run : f.run = w
  marks : f.marks = Marks.ofRun w

section

variable {f : Front} {sign u : Bytes} {more : List UInt8} {s : Special} (hsign : IsSign sign)
  (hu : f.Runs (sign ++ u)) (hfirst : isDigit (byteAt u 0) = true)

include hsign hu hfirst

theorem Front.Runs.has_iff (s : Special) : f.has s = true ↔ s.byte ∈ u := by
  rw [Front.has, hu.marks]
  exact has_signed_iff hsign hfirst s

theorem Front.Runs.not_has (hdigital : Digital more u) (hs : isDigitOrTick s.byte = false)
    (hmore : s.byte ∉ more) : f.has s = false := by
  rw [← Bool.not_eq_true, hu.has_iff hsign hfirst]
  exact hdigital.not_mem hs hmore

end

namespace Lexeme

/-! ## The forms of numbers -/

/-- The bytes of a number in which there is no colon, digits and ticks apart. -/
def numberBytes : List UInt8 :=
  [period, comma, letterE, capitalE, plus, minus, percent, letterX, capitalX]

/-- What the points and commas of a number make of it. -/
def radixKind (w : Bytes) : TokenKind :=
  if comma ∈ w ∨ w.count period ≤ 1 then .decimal else .tuple

/-- One of them makes a decimal. -/
theorem radixKind_single {u v : Bytes} (radix : UInt8) (hu : period ∉ u) (hv : period ∉ v) :
    radixKind (u ++ radix :: v) = .decimal := by
  refine if_pos (.inr ?_)
  rw [List.count_append, List.count_eq_zero_of_not_mem hu, List.count_cons,
    List.count_eq_zero_of_not_mem hv]
  split <;> omega

section

variable {f : Front} {sign w v : Bytes} (hsign : IsSign sign) (hw : Grouped w)

include hsign hw

/-- Digits and ticks behind a sign are an integer. -/
theorem number_integer (hf : f.Runs (sign ++ w)) :
    number sign.length f = good .integer f.stop := by
  have hnot (s : Special) (hs : isDigitOrTick s.byte = false) : f.has s = false :=
    hf.not_has hsign hw.first hw.digital hs List.not_mem_nil
  by_cases htick : tick ∈ w
  · have htick := (hf.has_iff hsign hw.first .tick).2 htick
    rw [number_bySign (hnot .atSign rfl) (hnot .pound rfl) (hnot .colon rfl) (hnot .period rfl)
      (hnot .comma rfl) (not_isEmpty_of_has htick)]
    refine numberBySign_grouped (fun b hb => hw.all b ?_) htick
    rwa [hf.run, List.drop_left] at hb
  · have hdigits : ∀ b ∈ w, isDigit b = true := by
      intro b hb
      have hall := hw.all b hb
      rw [isDigitOrTick, Bool.or_eq_true, beq_iff_eq] at hall
      refine hall.resolve_right ?_
      rintro rfl
      exact htick hb
    rw [number, hf.marks, ofRun_signed_digits hsign hdigits]
    rfl

end

section

variable {f : Front} {sign w : Bytes} (hsign : IsSign sign) (hfirst : isDigit (byteAt w 0) = true)
  (hw : Digital numberBytes w) (hf : f.Runs (sign ++ w))

include hsign hfirst hw hf

/-- **A point or a comma in a number** makes a pair of it if there is an `x` as well, and a tuple or
a decimal if there is none. -/
theorem number_radix (hradix : period ∈ w ∨ comma ∈ w) :
    number sign.length f = good (if letterX ∈ w then .pair else radixKind w) f.stop := by
  have hnot (s : Special) (hs : isDigitOrTick s.byte = false) (h : s.byte ∉ numberBytes) :
      f.has s = false := hf.not_has hsign hfirst hw hs h
  have hhas (s : Special) : f.has s = decide (s.byte ∈ w) :=
    Bool.eq_iff_iff.2 ((hf.has_iff hsign hfirst s).trans decide_eq_true_iff.symm)
  have hperiod : f.has .period = decide (period ∈ w) := hhas .period
  have hcomma : f.has .comma = decide (comma ∈ w) := hhas .comma
  have hempty : f.marks.isEmpty = false := by
    rcases hradix with h | h
    · exact not_isEmpty_of_has (hperiod.trans (decide_eq_true h))
    · exact not_isEmpty_of_has (hcomma.trans (decide_eq_true h))
  have hx : (f.find? sign.length letterX).isSome = decide (letterX ∈ w) := by
    rw [Front.isSome_find?_eq, hf.run, List.drop_left, List.contains_eq_mem]
  rw [number]
  simp only [hempty, hnot .atSign rfl (by decide), hnot .pound rfl (by decide),
    hnot .colon rfl (by decide), hperiod, hcomma, hx, Bool.false_eq_true, if_false]
  by_cases hpoint : period ∈ w
  · -- A second point is looked for behind the first one.
    obtain ⟨u, v, rfl, hu⟩ := List.eq_append_cons_of_mem hpoint
    have hdrop : f.run.drop (u.length + sign.length + 1) = v := by
      rw [hf.run, show sign ++ (u ++ period :: v) = (sign ++ u ++ [period]) ++ v by simp]
      refine List.drop_left' ?_
      rw [List.length_append, List.length_append, Nat.add_comm sign.length]
      rfl
    have hsecond : v.contains period = decide (¬(u ++ period :: v).count period ≤ 1) := by
      rw [List.count_append, List.count_eq_zero_of_not_mem hu, List.count_cons_self, Bool.eq_iff_iff,
        List.contains_iff_mem, decide_eq_true_iff, ← List.count_pos_iff]
      omega
    rw [decide_eq_true hpoint, if_pos rfl, Front.find?_signed hf.run hu, Option.getD_some,
      Front.isSome_find?_eq, hdrop, hsecond, radixKind]
    by_cases hcross : letterX ∈ u ++ period :: v <;> by_cases hc : comma ∈ u ++ period :: v <;>
      by_cases htwo : (u ++ period :: v).count period ≤ 1 <;>
      simp only [hcross, hc, htwo, decide_true, decide_false, Bool.not_true, Bool.not_false,
        Bool.and_self, Bool.and_false, Bool.and_true, Bool.false_eq_true, not_true, not_false_iff,
        or_false, or_true, if_true, if_false]
  · have hc : comma ∈ w := hradix.resolve_left hpoint
    by_cases hcross : letterX ∈ w <;> simp [radixKind, hcross, hc, hpoint]

/-- Without them the first sign behind the digits decides. -/
theorem number_behind {u v : Bytes} {b : UInt8} (hperiod : period ∉ w) (hcomma : comma ∉ w)
    (hbehind : w = u ++ b :: v) (hu : Grouped u)
    (hb : b ∈ [minus, letterX, capitalX, letterE, capitalE, percent]) :
    number sign.length f = good (signKind b (w.contains letterX)) f.stop := by
  have hnot (s : Special) (hs : isDigitOrTick s.byte = false) (h : s.byte ∉ numberBytes) :
      f.has s = false := hf.not_has hsign hfirst hw hs h
  have hmissing {s : Special} (h : s.byte ∉ w) : f.has s = false := by
    rw [← Bool.not_eq_true, hf.has_iff hsign hfirst]
    exact h
  have hmem : b ∈ w := by simp [hbehind]
  have hempty : f.marks.isEmpty = false := by
    have hspecial (s : Special) (h : s.byte ∈ w) : f.marks.isEmpty = false :=
      not_isEmpty_of_has ((hf.has_iff hsign hfirst s).2 h)
    have hword (h : isWord b = true) : f.marks.isEmpty = false := by
      rw [hf.marks]
      exact not_isEmpty_of_isWord h (List.mem_append_right sign hmem)
    simp only [List.mem_cons, List.not_mem_nil, or_false] at hb
    rcases hb with rfl | rfl | rfl | rfl | rfl | rfl
    · exact hspecial .minus hmem
    · exact hword rfl
    · exact hword rfl
    · exact hword rfl
    · exact hword rfl
    · exact hspecial .percent hmem
  have hdrop : f.run.drop sign.length = u ++ b :: v := by rw [hf.run, List.drop_left, hbehind]
  rw [number_bySign (hnot .atSign rfl (by decide)) (hnot .pound rfl (by decide))
    (hnot .colon rfl (by decide)) (hmissing hperiod) (hmissing hcomma) hempty,
    numberBySign_behind hdrop hu.all hb, hbehind]

end

section

variable {sign w rest : Bytes} (hsign : IsSign sign) (hrest : isDelimiter (byteAt rest 0) = true)

include hsign hrest

/-- **An integer** is a sign, digits and ticks. -/
theorem ofFront_integer (hw : Grouped w) :
    ofFront (sign ++ w ++ rest) = good .integer (sign ++ w).length := by
  have hdigital : Digital [] w := hw.digital
  have hs : Solid [.tick] w := hdigital.solid (by simp)
  rw [ofFront_signed hsign hs hw.first (by simp) (by simp) (by simp) hrest]
  exact number_integer hsign hw ⟨rfl, rfl⟩

/-- What is a number by its bytes is told to be one, whatever kind it is of. -/
theorem ofFront_digital (hfirst : isDigit (byteAt w 0) = true) (hw : Digital numberBytes w) :
    ofFront (sign ++ w ++ rest) =
      number sign.length ⟨sign ++ w ++ rest, sign ++ w, Marks.ofRun (sign ++ w)⟩ := by
  have hs : Solid [.tick, .period, .comma, .plus, .minus, .percent] w :=
    hw.solid (by simp [isSolid, numberBytes]; decide)
  exact ofFront_signed hsign hs hfirst (by simp) (by simp) (by simp) hrest

theorem ofFront_radix (hfirst : isDigit (byteAt w 0) = true) (hw : Digital numberBytes w)
    (hradix : period ∈ w ∨ comma ∈ w) : ofFront (sign ++ w ++ rest) =
      good (if letterX ∈ w then .pair else radixKind w) (sign ++ w).length := by
  rw [ofFront_digital hsign hrest hfirst hw]
  exact number_radix hsign hfirst hw ⟨rfl, rfl⟩ hradix

theorem ofFront_behind {u v : Bytes} {b : UInt8} (hw : Digital numberBytes (u ++ b :: v))
    (hperiod : period ∉ u ++ b :: v) (hcomma : comma ∉ u ++ b :: v) (hu : Grouped u)
    (hb : b ∈ [minus, letterX, capitalX, letterE, capitalE, percent]) :
    ofFront (sign ++ (u ++ b :: v) ++ rest) =
      good (signKind b ((u ++ b :: v).contains letterX)) (sign ++ (u ++ b :: v)).length := by
  have hfirst := isDigit_append hu.first (b :: v)
  rw [ofFront_digital hsign hrest hfirst hw]
  exact number_behind hsign hfirst hw ⟨rfl, rfl⟩ hperiod hcomma rfl hu hb

/-- A fraction behind the digits makes a decimal, whatever follows it. -/
theorem ofFront_fraction {fraction more : Bytes} (hw : Grouped w) (hfraction : Fraction 0 fraction)
    (hmore : Digital [letterE, capitalE, plus, minus, percent] more) :
    ofFront (sign ++ (w ++ (fraction ++ more)) ++ rest) =
      good .decimal (sign ++ (w ++ (fraction ++ more))).length := by
  obtain ⟨hradix, hdigits, -⟩ := hfraction
  rename_i radix ds
  have hbehind : Digital [letterE, capitalE, plus, minus, percent] (ds ++ more) :=
    (digital_of_isDigit hdigits).append hmore
  have hdigital : Digital [radix, letterE, capitalE, plus, minus, percent] (w ++ radix :: (ds ++ more)) :=
    hw.digital.append (.cons (by simp) (hbehind.mono (by simp)))
  have hnumber : Digital numberBytes (w ++ radix :: (ds ++ more)) := hdigital.mono (by
    rcases hradix with rfl | rfl <;> simp [numberBytes])
  have hmem : period ∈ w ++ radix :: (ds ++ more) ∨ comma ∈ w ++ radix :: (ds ++ more) := by
    rcases hradix with rfl | rfl <;> simp
  have hx : letterX ∉ w ++ radix :: (ds ++ more) := hdigital.not_mem rfl (by
    rcases hradix with rfl | rfl <;> decide)
  have hone : radixKind (w ++ radix :: (ds ++ more)) = .decimal :=
    radixKind_single radix (hw.digital.not_mem rfl List.not_mem_nil) (hbehind.not_mem rfl (by decide))
  have hradix := ofFront_radix hsign hrest (isDigit_append hw.first _) hnumber hmem
  rwa [if_neg hx, hone] at hradix

/-- So does an exponent right behind them. -/
theorem ofFront_exponent {e : UInt8} {more : Bytes} (hw : Grouped w) (he : e = letterE ∨ e = capitalE)
    (hmore : Digital [plus, minus, percent] more) :
    ofFront (sign ++ (w ++ e :: more) ++ rest) = good .decimal (sign ++ (w ++ e :: more)).length := by
  have hdigital : Digital [letterE, capitalE, plus, minus, percent] (w ++ e :: more) :=
    hw.digital.append (.cons (by rcases he with rfl | rfl <;> simp) (hmore.mono (by simp)))
  have hx : letterX ∉ w ++ e :: more := hdigital.not_mem rfl (by decide)
  have hkind : signKind e ((w ++ e :: more).contains letterX) = .decimal := by
    rw [signKind_exponent he, List.contains_eq_mem, decide_eq_false hx]
    rfl
  have hbehind := ofFront_behind hsign hrest (hdigital.mono (by simp [numberBytes]))
    (hdigital.not_mem rfl (by decide)) (hdigital.not_mem rfl (by decide)) hw
    (by rcases he with rfl | rfl <;> simp)
  rwa [hkind] at hbehind

/-- **A decimal** has a point or a comma, or else an exponent. -/
theorem ofFront_decimal {fraction exponent : Bytes} (hw : Grouped w)
    (hfraction : Optionally (Fraction 0) fraction) (hexponent : Optionally Exponent exponent)
    (hsome : fraction ≠ [] ∨ exponent ≠ []) :
    ofFront (sign ++ (w ++ (fraction ++ exponent)) ++ rest) =
      good .decimal (sign ++ (w ++ (fraction ++ exponent))).length := by
  rcases hfraction with rfl | hfraction
  · obtain ⟨he, hexpSign, hdigits⟩ := hexponent.resolve_left (hsome.resolve_left fun h => h rfl)
    exact ofFront_exponent hsign hrest hw he
      ((hexpSign.digital.mono (by simp)).append (digital_of_isDigit hdigits.isDigit))
  · exact ofFront_fraction hsign hrest hw hfraction
      ((hexponent.digital Exponent.digital).mono (by simp))

/-- **Money** has a dollar sign in front of its digits. -/
theorem ofFront_money (hs : Solid [.tick, .period, .comma] w) :
    ofFront (sign ++ dollar :: w ++ rest) = good .money (sign ++ dollar :: w).length := by
  have hrun : Solid [.dollar, .tick, .period, .comma] (dollar :: w) :=
    Solid.cons rfl (hs.mono (by simp))
  have hsome (b : UInt8) (hb : b = plus ∨ b = minus) :
      ofFront (b :: dollar :: w ++ rest) = good .money (b :: dollar :: w).length := by
    rw [ofFront_sign hb hrun (by simp) hrest]
    refine signed_dollar ?_
    rw [Front.has, Marks.has_ofRun, List.any_cons]
    rfl
  cases hsign with
  | none =>
    show special .dollar (Front.of (dollar :: w ++ rest)) = _
    rw [hrun.front hrest, special, Front.has, hrun.has_run (by simp)]
    rfl
  | plus => exact hsome plus (.inl rfl)
  | minus => exact hsome minus (.inr rfl)

/-- **A time** has a colon in front of its minutes, and need not have hours. -/
theorem ofFront_time {hours more : Bytes} (hhours : ∀ b ∈ hours, isDigit b = true)
    (hmore : Solid [.tick, .colon, .period, .comma] more) (hfirst : isDigit (byteAt more 0) = true) :
    ofFront (sign ++ (hours ++ colon :: more) ++ rest) =
      good .time (sign ++ (hours ++ colon :: more)).length := by
  have hs : Solid [.tick, .colon, .period, .comma] (hours ++ colon :: more) :=
    (solid_of_isDigit hhours).append (Solid.cons rfl hmore)
  have hsome (b : UInt8) (hb : b = plus ∨ b = minus) : ofFront (b :: (hours ++ colon :: more) ++ rest) =
      good .time (b :: (hours ++ colon :: more)).length := by
    have hnot : colon ∉ b :: hours := by
      rw [List.mem_cons, not_or]
      refine ⟨?_, fun h => absurd (hhours colon h) (by decide)⟩
      rcases hb with rfl | rfl <;> decide
    have hinside : (b :: hours).length + 1 ≠ (b :: (hours ++ colon :: more)).length := by
      have hpos : 0 < more.length := lt_length_of_byteAt fun h0 => by
        rw [h0] at hfirst
        cases hfirst
      simp only [List.length_cons, List.length_append]
      omega
    have hcolon := has_colon (v := more) (List.cons_ne_nil b hours)
    rw [List.cons_append] at hcolon
    rw [ofFront_sign hb hs (by simp) hrest]
    exact signed_time (hs.has (by simp)) hcolon (Front.find?_append hnot) hinside
  cases hsign with
  | plus => exact hsome plus (.inl rfl)
  | minus => exact hsome minus (.inr rfl)
  | none =>
    cases hours with
    | nil =>
      have hs : Solid [.tick, .colon, .period, .comma] (colon :: more) := hs
      have hnumber : isNumber (byteAt (more ++ rest) 0) = true := by
        rw [isNumber, class_of_isDigit (isDigit_append hfirst rest)]
      show special .colon (Front.of (colon :: more ++ rest)) = _
      rw [hs.front hrest, special, Front.has, hs.has_run (by simp)]
      show colonForm _ = _
      rw [colonForm]
      dsimp only
      rw [show Front.byte ⟨colon :: more ++ rest, colon :: more, _⟩ 1 = byteAt (more ++ rest) 0 from rfl,
        if_pos hnumber]
      rfl
    | cons b hours =>
      rw [List.nil_append, ofFront_number hs (hhours b List.mem_cons_self) hrest]
      exact number_time (hs.has_run (by simp)) (hs.has_run (by simp)) (has_colon (List.cons_ne_nil b hours))

end

/-- **A tuple** has two points at least. -/
theorem ofFront_tuple {w v more rest : Bytes} {m n : Nat} (hw : Digits w m) (hv : Digits v n)
    (hmore : Digital [period] more) (hrest : isDelimiter (byteAt rest 0) = true) :
    ofFront (w ++ period :: (v ++ period :: more) ++ rest) =
      good .tuple (w ++ period :: (v ++ period :: more)).length := by
  have hdigital : Digital [period] (w ++ period :: (v ++ period :: more)) :=
    (digital_of_isDigit hw.isDigit).append
      (.cons (by simp) ((digital_of_isDigit hv.isDigit).append (.cons (by simp) hmore)))
  have hfirst : isDigit (byteAt (w ++ period :: (v ++ period :: more)) 0) = true := hw.byteAt_zero _
  have hradix := ofFront_radix .none hrest hfirst (hdigital.mono (by simp [numberBytes]))
    (.inl (List.mem_append_right _ List.mem_cons_self))
  have htwo : ¬(comma ∈ w ++ period :: (v ++ period :: more) ∨
      (w ++ period :: (v ++ period :: more)).count period ≤ 1) := by
    rw [not_or]
    refine ⟨hdigital.not_mem rfl (by decide), ?_⟩
    rw [List.count_append, List.count_cons_self, List.count_append, List.count_cons_self]
    omega
  rwa [if_neg (hdigital.not_mem rfl (by decide)), radixKind, if_neg htwo] at hradix

end Lexeme

theorem digital_intercalate {runs : List Bytes} (hruns : ∀ run ∈ runs, ∃ n, Digits run n) :
    Digital [period] ([period].intercalate runs) := by
  induction runs with
  | nil => exact .nil
  | cons run runs ih =>
    obtain ⟨⟨n, hrun⟩, hruns⟩ := List.forall_mem_cons.1 hruns
    cases runs with
    | nil =>
      rw [List.intercalate_singleton]
      exact digital_of_isDigit hrun.isDigit
    | cons next runs =>
      rw [List.intercalate_cons_cons, List.append_assoc]
      exact (digital_of_isDigit hrun.isDigit).append (.cons (by simp) (ih hruns))

/-- **The lexeme of a number is of its kind** and takes all of it, if only a delimiter follows. -/
theorem Lexeme.ofFront_numeral {kind : TokenKind} {text rest : Bytes} (h : Numeral kind text)
    (hrest : isDelimiter (byteAt rest 0) = true) :
    ofFront (text ++ rest) = good kind text.length := by
  cases h with
  | integer hsign hwhole => exact ofFront_integer hsign hrest hwhole
  | decimal hsign hwhole hfraction hexponent hsome =>
    exact ofFront_decimal hsign hrest hwhole hfraction hexponent hsome
  | money hsign hwhole hfraction =>
    rename_i sign whole fraction
    have hdigital : Digital [period, comma] (whole ++ fraction) :=
      hwhole.digital.append (hfraction.digital Fraction.digital)
    have hs : Solid [.tick, .period, .comma] (whole ++ fraction) := hdigital.solid (by simp [isSolid]; decide)
    exact ofFront_money hsign hrest hs
  | tuple hthree hruns =>
    rename_i runs
    obtain ⟨first, second, third, more, rfl⟩ : ∃ first second third more,
        runs = first :: second :: third :: more := by
      rcases runs with _ | ⟨first, _ | ⟨second, _ | ⟨third, more⟩⟩⟩
      · simp at hthree
      · simp at hthree
      · simp at hthree
      · exact ⟨first, second, third, more, rfl⟩
    obtain ⟨⟨m, hfirst⟩, hruns⟩ := List.forall_mem_cons.1 hruns
    obtain ⟨⟨n, hsecond⟩, hmore⟩ := List.forall_mem_cons.1 hruns
    have htext : [period].intercalate (first :: second :: third :: more) =
        first ++ period :: (second ++ period :: [period].intercalate (third :: more)) := by
      simp [List.intercalate_cons_cons]
    rw [htext]
    exact ofFront_tuple hfirst hsecond (digital_intercalate hmore) hrest
  | time hsign hhours hminutes hseconds hfraction =>
    rename_i sign hours minutes seconds fraction n
    have hdigital : Digital [colon, period, comma] (minutes ++ (seconds ++ fraction)) :=
      (digital_of_isDigit hminutes.isDigit).append
        (((hseconds.digital Seconds.digital).mono (by simp)).append
          ((hfraction.digital Fraction.digital).mono (by simp)))
    have hs : Solid [.tick, .colon, .period, .comma] (minutes ++ (seconds ++ fraction)) :=
      hdigital.solid (by simp [isSolid]; decide)
    exact ofFront_time hsign hrest hhours hs (hminutes.byteAt_zero _)

end RebolScan
