import RebolScan.Proofs.Literal.Magnitude
import RebolScan.Proofs.Scan.Numeral
import RebolScan.Proofs.Token.Pairs

/-!
# Percents and pairs in a scan

The readers of percents and of pairs take any decimals, and their texts are told by the marks of the
run before they see them. **Not every text that they accept comes to them**: a percent sign behind a
point, a comma or an exponent is given to the reader of decimals, which refuses it
(`scanSource_percent`), and so is a pair with a capital `X` among them, or else to the reader of
tuples (`scanSource_pair`).
-/

set_option autoImplicit false

namespace RebolScan

open Ascii

namespace Literal

/-! ## What the readers refuse -/

section

variable {more : List UInt8} {text : Bytes}

theorem digital_of_splitSign (hplus : plus ∈ more) (hminus : minus ∈ more)
    (h : Digital more (splitSign text).2) : Digital more text := by
  obtain ⟨sign, hsign, htext, -⟩ := exists_sign text
  rw [htext]
  refine (hsign.digital.mono ?_).append h
  simp only [List.forall_mem_cons]
  exact ⟨hplus, hminus, fun _ h => absurd h List.not_mem_nil⟩

theorem digital_of_digitRun (h : Digital more (digitRun text).2) : Digital more text := by
  have hall : ∀ b ∈ text.takeWhile isDigitOrTick, isDigitOrTick b = true :=
    List.all_eq_true.1 List.all_takeWhile
  rw [← List.takeWhile_append_dropWhile (p := isDigitOrTick) (l := text)]
  exact Digital.append (fun b hb => .inl (hall b hb)) h

/-- An exponent is all of its text. -/
theorem digital_of_exponent? {e : Int} (h : exponent? text = some e) :
    Digital [plus, minus, letterE, capitalE] text := by
  cases text with
  | nil => exact .nil
  | cons b rest =>
    rw [exponent?] at h
    split at h
    · rename_i hb
      dsimp only at h
      split at h
      · cases h
      · rename_i hrest
        simp only [Bool.or_eq_true, Bool.not_eq_true', not_or, Bool.not_eq_false,
          List.isEmpty_iff] at hrest
        have hdigits : Digital [plus, minus, letterE, capitalE] (splitSign rest).2 :=
          digital_of_digitRun (by rw [hrest.2]; exact .nil)
        refine .cons ?_ (digital_of_splitSign (by simp) (by simp) hdigits)
        simp only [Bool.or_eq_true, beq_iff_eq] at hb
        rcases hb with rfl | rfl <;> simp
    · cases h

/-- **The reader of decimals** takes digits, ticks, signs, points, commas and the letter of an
exponent, and nothing else. -/
theorem digital_of_decimal? {x : Float} (h : decimal? text = some x) :
    Digital [period, comma, letterE, capitalE, plus, minus] text := by
  obtain ⟨d, hd⟩ : ∃ d, decimalText? text = some d := by
    rw [decimal?] at h
    split at h
    · exact ⟨_, ‹_›⟩
    · cases h
  have hexponent {e : Int} {behind : Bytes} (h : exponent? behind = some e) :
      Digital [period, comma, letterE, capitalE, plus, minus] behind :=
    (digital_of_exponent? h).mono (by simp)
  rw [decimalText?] at hd
  dsimp only at hd
  refine digital_of_splitSign (by simp) (by simp) (digital_of_digitRun ?_)
  generalize splitSign text = signed at hd ⊢
  generalize digitRun signed.2 = whole at hd ⊢
  -- Behind the digits in front there is a point or a comma and more digits, or the exponent.
  split at hd
  · rename_i hpoint
    split at hd
    · cases hd
    · obtain ⟨e, he, -⟩ := Option.map_eq_some_iff.1 hd
      generalize whole.2 = behind at hpoint he ⊢
      cases behind with
      | nil => exact .nil
      | cons b behind =>
        rw [byteAt_cons_zero] at hpoint
        refine .cons ?_ (digital_of_digitRun (hexponent he))
        simp only [Bool.or_eq_true, beq_iff_eq] at hpoint
        rcases hpoint with rfl | rfl <;> simp
  · split at hd
    · cases hd
    · obtain ⟨e, he, -⟩ := Option.map_eq_some_iff.1 hd
      exact hexponent he

/-- What stands in a text stands in a part of it or is the separator. -/
theorem mem_parts {separator b : UInt8} (h : b ∈ text) :
    b = separator ∨ ∃ part ∈ parts separator text, b ∈ part := by
  induction text with
  | nil => cases h
  | cons c text ih =>
    obtain ⟨p, ps, hparts⟩ := List.exists_cons_of_ne_nil (parts_ne_nil separator text)
    rw [parts, hparts]
    rw [hparts] at ih
    dsimp only
    split
    · rename_i hc
      rcases List.mem_cons.1 h with rfl | h
      · exact .inl (eq_of_beq hc)
      · obtain hsep | ⟨part, hmem, hb⟩ := ih h
        · exact .inl hsep
        · exact .inr ⟨part, List.mem_cons_of_mem _ hmem, hb⟩
    · rcases List.mem_cons.1 h with rfl | h
      · exact .inr ⟨_, List.mem_cons_self, List.mem_cons_self⟩
      · obtain hsep | ⟨part, hmem, hb⟩ := ih h
        · exact .inl hsep
        · rcases List.mem_cons.1 hmem with rfl | hmem
          · exact .inr ⟨_, List.mem_cons_self, List.mem_cons_of_mem c hb⟩
          · exact .inr ⟨part, List.mem_cons_of_mem _ hmem, hb⟩

/-- **The reader of tuples** takes digits and points. -/
theorem digital_of_tuple? {ns : List Nat} (h : tuple? text = some ns) : Digital [period] text := by
  rw [tuple?] at h
  split at h
  · cases h
  · obtain ⟨ms, hms, -⟩ := Option.map_eq_some_iff.1 h
    intro b hb
    refine (mem_parts hb).symm.imp ?_ fun (h : b = period) => by simp [h]
    rintro ⟨part, hpart, hb⟩
    have hsome := isSome_of_mapM hms part hpart
    rw [tuplePart?] at hsome
    split at hsome
    · rename_i h
      simp only [Bool.and_eq_true] at h
      rw [isDigitOrTick, List.all_eq_true.1 h.1.2 b hb]
      rfl
    · cases hsome

/-- A text with a byte of no number in it is not read as a decimal, and not as a tuple. -/
theorem refused_of_mem {b : UInt8} (hb : b ∈ text) (h : b ∈ [percent, letterX, capitalX]) :
    decimal? text = none ∧ tuple? text = none := by
  have hnot {more : List UInt8} (hdigital : Digital more text) : b ∈ more := by
    refine (hdigital b hb).resolve_left ?_
    simp only [List.mem_cons, List.not_mem_nil, or_false] at h
    rcases h with rfl | rfl | rfl <;> decide
  constructor
  · rw [Option.eq_none_iff_forall_ne_some]
    intro x hx
    have hmem := hnot (digital_of_decimal? hx)
    simp only [List.mem_cons, List.not_mem_nil, or_false] at h
    rcases h with rfl | rfl | rfl <;> revert hmem <;> decide
  · rw [Option.eq_none_iff_forall_ne_some]
    intro ns hns
    have hmem := hnot (digital_of_tuple? hns)
    simp only [List.mem_cons, List.not_mem_nil, or_false] at h
    rcases h with rfl | rfl | rfl <;> revert hmem <;> decide

/-! ## What they take -/

/-- The reader of percents takes what the reader of decimals does. -/
theorem percent?_append (d : Bytes) : percent? (d ++ [percent]) = (decimal? d).map (· / 100) := by
  have hdrop : dropLast? percent (d ++ [percent]) = some d := by
    rw [dropLast?, List.getLast?_concat, List.dropLast_concat]
    rfl
  rw [percent?, hdrop]

/-- The reader of pairs takes two decimals with an `x` of either case between them. -/
theorem pair?_append {a b : Bytes} {cross : UInt8} (ha : IsDecimal a)
    (hcross : cross = letterX ∨ cross = capitalX) : pair? (a ++ cross :: b) =
      (decimal? a).bind fun x => (decimal? b).map fun y => (x, y) := by
  have hnone : a.findIdx? (fun b => b == letterX || b == capitalX) = none := by
    rw [List.findIdx?_eq_none_iff]
    intro b hb
    rw [Bool.or_eq_false_iff, beq_eq_false_iff_ne, beq_eq_false_iff_ne]
    exact ⟨fun h => ha.digital.not_mem rfl (by decide) (h ▸ hb),
      fun h => ha.digital.not_mem rfl (by decide) (h ▸ hb)⟩
  have hfound : (a ++ cross :: b).findIdx? (fun b => b == letterX || b == capitalX) =
      some a.length := by
    rw [List.findIdx?_append, hnone, List.findIdx?_cons, if_pos (by simpa using hcross)]
    simp
  have hbehind : (a ++ cross :: b).drop (a.length + 1) = b := by
    rw [List.append_cons]
    exact List.drop_left' (by simp)
  rw [pair?, hfound]
  dsimp only
  rw [List.take_left, hbehind]
  cases decimal? a with
  | none => rfl
  | some x => cases decimal? b <;> rfl

end

end Literal

section

variable {source : Bytes}

/-- A token that is all of the source is read by the reader of its kind. -/
theorem Element.of_percent : of .top source (Lexeme.good .percent source.length) =
    valueOr .percent source.length ((Literal.percent? source).map .percent) := by
  rw [of_lexeme rfl (.inr (.inl rfl)) (.inl Level.noConfusion)]
  show numberFrom .percent source source.length
    ((Literal.percent? (source.take source.length)).map .percent) = _
  rw [List.take_length]
  exact if_neg (by simp [byteAt, slash])

theorem Element.of_pair : of .top source (Lexeme.good .pair source.length) =
    valueOr .pair source.length ((Literal.pair? source).map fun (x, y) => .pair x y) := by
  rw [of_lexeme rfl (.inr (.inl rfl)) (.inl Level.noConfusion)]
  show valueOr .pair source.length
    ((Literal.pair? (source.take source.length)).map fun (x, y) => .pair x y) = _
  rw [List.take_length]

end

/-- **Percents of whole numbers scan, and no others.** A whole number with a percent sign behind it
scans to the hundredth part of what it reads as; behind a fraction or an exponent the sign is not
seen, and the whole is refused as a decimal. -/
theorem scanSource_percent {d : Bytes} {x : Float} (hx : Literal.decimal? d = some x)
    (symbols : SymbolTable) :
    (Numeral .integer d → scanSource (d ++ [percent]) symbols =
      (.ok ⟨[⟨.percent (x / 100), false, ⟨0, (d ++ [percent]).length⟩⟩], false⟩, symbols)) ∧
    (Numeral .decimal d → scanSource (d ++ [percent]) symbols =
      (.error ⟨Fault.ofWhole .decimal (d ++ [percent]), 1⟩, symbols)) := by
  constructor
  · intro h
    refine (scanSource_number (startsNumeral_append h.starts _) (Lexeme.ofFront_integerPercent rfl h) Element.of_percent
      symbols).1 _ ?_
    rw [Literal.percent?_append, hx]
    rfl
  · intro h
    have hnone : Literal.decimal? (d ++ [percent]) = none :=
      (Literal.refused_of_mem (List.mem_append_right d (List.mem_singleton_self percent))
        (by simp)).1
    refine (scanSource_number (startsNumeral_append h.starts _) (Lexeme.ofFront_decimalPercent rfl h)
      (Element.of_numeral (by simp)) symbols).2 ?_
    rw [Literal.numeral?, hnone]
    rfl

/-- `-15%`, and `1,5%` with a comma for the point. -/
theorem scanSource_percent_minus :
    Numeral .integer [0x2D, 0x31, 0x35] ∧
    scanSource [0x2D, 0x31, 0x35, 0x25] .initial =
      (.ok ⟨[⟨.percent (-15 / 100), false, ⟨0, 4⟩⟩], false⟩, .initial) ∧
    Numeral .decimal [0x31, 0x2C, 0x35] ∧
    scanSource [0x31, 0x2C, 0x35, 0x25] .initial =
      (.error ⟨Fault.ofWhole .decimal [0x31, 0x2C, 0x35, 0x25], 1⟩, .initial) := by
  have hwhole : Grouped [0x31, 0x35] := ⟨rfl, List.all_eq_true.1 rfl⟩
  have hinteger : Numeral .integer ([minus] ++ [0x31, 0x35]) := .integer .minus hwhole
  have hdecimal : Numeral .decimal ([] ++ ([0x31] ++ ([comma, 0x35] ++ []))) :=
    .decimal .none ⟨rfl, List.all_eq_true.1 rfl⟩
      (.inr (.mk (.inr rfl) (List.all_eq_true.1 rfl) (Nat.zero_le _))) (.inl rfl) (.inl (by simp))
  refine ⟨hinteger, ?_, hdecimal, ?_⟩
  · exact (scanSource_percent (d := [0x2D, 0x31, 0x35]) (x := -15) (by decide +kernel) .initial).1 hinteger
  · exact (scanSource_percent (d := [0x31, 0x2C, 0x35]) (x := 1.5) (by decide +kernel) .initial).2 hdecimal

/-- `1.5%` does not scan, though `1.5` is a decimal and the reader of percents takes the text. -/
theorem point_hides_percent :
    Literal.decimal? [0x31, 0x2E, 0x35] = some 1.5 ∧
    Literal.percent? [0x31, 0x2E, 0x35, 0x25] = some (1.5 / 100) ∧
    scanSource [0x31, 0x2E, 0x35, 0x25] .initial =
      (.error ⟨Fault.ofWhole .decimal [0x31, 0x2E, 0x35, 0x25], 1⟩, .initial) :=
  ⟨by decide +kernel, by decide +kernel, rfl⟩

/-- **Pairs scan where the letter is seen.** Two decimals with an `x` between them scan to the pair of
what they read as if `crossKind` tells them to be one, which it does not of every capital `X`;
otherwise the whole is refused, as a decimal or as a tuple. -/
theorem scanSource_pair {a b : Bytes} {cross : UInt8} {x y : Float} (ha : IsDecimal a)
    (hb : IsDecimal b) (hcross : cross = letterX ∨ cross = capitalX)
    (hx : Literal.decimal? a = some x) (hy : Literal.decimal? b = some y) (symbols : SymbolTable) :
    (crossKind a cross b = .pair → scanSource (a ++ cross :: b) symbols =
      (.ok ⟨[⟨.pair x y, false, ⟨0, (a ++ cross :: b).length⟩⟩], false⟩, symbols)) ∧
    (crossKind a cross b ≠ .pair → scanSource (a ++ cross :: b) symbols =
      (.error ⟨Fault.ofWhole (crossKind a cross b) (a ++ cross :: b), 1⟩, symbols)) := by
  have hstart : startsNumeral (byteAt (a ++ cross :: b) 0) = true :=
    startsNumeral_append (ha.elim Numeral.starts Numeral.starts) _
  have hlexeme : Lexeme.ofFront (a ++ cross :: b ++ []) =
      Lexeme.good (crossKind a cross b) (a ++ cross :: b).length := Lexeme.ofFront_pair rfl ha hb hcross
  constructor
  · intro hkind
    rw [hkind] at hlexeme
    refine (scanSource_number hstart hlexeme Element.of_pair symbols).1 _ ?_
    rw [Literal.pair?_append ha hcross, hx, hy]
    rfl
  · intro hkind
    have hmem : cross ∈ a ++ cross :: b := List.mem_append_right a List.mem_cons_self
    obtain ⟨hdecimal, htuple⟩ := Literal.refused_of_mem hmem
      (by rcases hcross with rfl | rfl <;> simp)
    refine (scanSource_number hstart hlexeme (Element.of_numeral ?_) symbols).2 ?_
    · rcases crossKind_mem a cross b with h | h | h
      · exact absurd h hkind
      · simp [h]
      · simp [h]
    · rcases crossKind_mem a cross b with h | h | h
      · exact absurd h hkind
      · rw [h, Literal.numeral?, hdecimal]
        rfl
      · rw [h, Literal.numeral?, htuple]
        rfl

/-- `1.5x-2`, and `1e5X2` with an exponent in front of the capital. -/
theorem scanSource_pair_exponent :
    scanSource [0x31, 0x2E, 0x35, 0x78, 0x2D, 0x32] .initial =
      (.ok ⟨[⟨.pair 1.5 (-2), false, ⟨0, 6⟩⟩], false⟩, .initial) ∧
    scanSource [0x31, 0x65, 0x35, 0x58, 0x32] .initial =
      (.error ⟨Fault.ofWhole .decimal [0x31, 0x65, 0x35, 0x58, 0x32], 1⟩, .initial) := by
  have digit (b : UInt8) (h : isDigit b = true) : Grouped [b] :=
    ⟨h, List.forall_mem_singleton.2 (by rw [Literal.isDigitOrTick, h]; rfl)⟩
  have hpoint : Numeral .decimal ([] ++ ([0x31] ++ ([period, 0x35] ++ []))) :=
    .decimal .none (digit 0x31 rfl) (.inr (.mk (.inl rfl) (List.all_eq_true.1 rfl) (Nat.zero_le _)))
      (.inl rfl) (.inl (by simp))
  have hexponent : Numeral .decimal ([] ++ ([0x31] ++ ([] ++ letterE :: ([] ++ [0x35])))) :=
    .decimal .none (digit 0x31 rfl) (.inl rfl)
      (.inr (.mk (.inl rfl) .none ⟨by simp, List.all_eq_true.1 rfl, rfl⟩)) (.inr (by simp))
  have hminus : Numeral .integer ([minus] ++ [0x32]) := .integer .minus (digit 0x32 rfl)
  have htwo : Numeral .integer ([] ++ [0x32]) := .integer .none (digit 0x32 rfl)
  constructor
  · exact (scanSource_pair (a := [0x31, 0x2E, 0x35]) (b := [0x2D, 0x32]) (x := 1.5) (y := -2)
      (.inr hpoint) (.inl hminus) (.inl rfl) (by decide +kernel) (by decide +kernel) .initial).1 rfl
  · exact (scanSource_pair (a := [0x31, 0x65, 0x35]) (b := [0x32]) (x := 1e5) (y := 2)
      (.inr hexponent) (.inl htwo) (.inr rfl) (by decide +kernel) (by decide +kernel) .initial).2
      (by decide)

/-- `1.5X2` does not scan, though the reader of pairs takes it. -/
theorem point_hides_capitalX :
    Literal.pair? [0x31, 0x2E, 0x35, 0x58, 0x32] = some (1.5, 2) ∧
    scanSource [0x31, 0x2E, 0x35, 0x58, 0x32] .initial =
      (.error ⟨Fault.ofWhole .decimal [0x31, 0x2E, 0x35, 0x58, 0x32], 1⟩, .initial) :=
  ⟨by decide +kernel, rfl⟩

end RebolScan
