import RebolScan.Proofs.Scan.Single
import RebolScan.Proofs.Token.Numeral

/-!
# Numbers in a scan

A number is told by its marks and converted by the reader of its kind, two things that know nothing
of each other. **They agree on every text of a number** (`scanSource_numeral`): it scans to the one
value that the reader of its kind gives, and where that refuses it the scan fails with the whole of
it.
-/

set_option autoImplicit false

namespace RebolScan

open Ascii

/-- What the reader of a kind of number makes of a text. -/
def Literal.numeral? (kind : TokenKind) (text : Bytes) : Option Value :=
  match kind with
  | .integer => (integer? text).map .integer
  | .decimal => (decimal? text).map .decimal
  | .money => (money? text).map .money
  | .tuple => (tuple? text).map .tuple
  | .time => (time? text).map .time
  | _ => none

/-- The byte may start a number. -/
def startsNumeral (b : UInt8) : Bool := isDigit b || [plus, minus, dollar, colon].contains b

section

variable {kind : TokenKind} {sign w text : Bytes}

theorem plain_of_startsNumeral (b : UInt8) (h : startsNumeral b = true) :
    b ≠ 0xEF ∧ isSpace b = false := by
  rw [startsNumeral, Bool.or_eq_true, List.contains_iff_mem] at h
  rcases h with h | h
  · exact plain_of_isDigit h
  · simp only [List.mem_cons, List.not_mem_nil, or_false] at h
    rcases h with rfl | rfl | rfl | rfl <;> exact ⟨by decide, rfl⟩

theorem IsSign.starts (hsign : IsSign sign) (h : startsNumeral (byteAt w 0) = true) :
    startsNumeral (byteAt (sign ++ w) 0) = true := by
  cases hsign with
  | none => exact h
  | plus | minus => rfl

theorem startsNumeral_append (h : startsNumeral (byteAt w 0) = true) (v : Bytes) :
    startsNumeral (byteAt (w ++ v) 0) = true := by
  cases w with
  | nil => exact absurd h (by decide)
  | cons b w => exact h

theorem startsNumeral_digit (h : isDigit (byteAt w 0) = true) : startsNumeral (byteAt w 0) = true := by
  rw [startsNumeral, h, Bool.true_or]

theorem Numeral.starts (h : Numeral kind text) : startsNumeral (byteAt text 0) = true := by
  cases h with
  | integer hsign hwhole => exact hsign.starts (startsNumeral_digit hwhole.first)
  | decimal hsign hwhole =>
    exact hsign.starts (startsNumeral_digit (isDigit_append hwhole.first _))
  | money hsign => exact hsign.starts rfl
  | tuple hthree hruns =>
    rename_i runs
    match runs with
    | [] | [_] => simp at hthree
    | first :: second :: more =>
      obtain ⟨⟨n, hfirst⟩, -⟩ := List.forall_mem_cons.1 hruns
      rw [List.intercalate_cons_cons, List.append_assoc]
      exact startsNumeral_digit (hfirst.byteAt_zero _)
  | time hsign hhours =>
    rename_i hours minutes seconds fraction n _ _ _
    refine hsign.starts ?_
    cases hours with
    | nil => rfl
    | cons b hours => exact startsNumeral_digit (hhours b List.mem_cons_self)

/-- The kinds of token that numbers are. -/
theorem Numeral.kind_mem (h : Numeral kind text) :
    kind ∈ [TokenKind.integer, .decimal, .money, .tuple, .time] := by
  cases h with
  | integer | decimal | money | tuple | time => simp

/-- The lexeme of a number is read by the reader of its kind, where nothing follows. -/
theorem Element.of_numeral (h : kind ∈ [TokenKind.integer, .decimal, .money, .tuple, .time]) :
    of .top text (Lexeme.good kind text.length) =
      valueOr kind text.length (Literal.numeral? kind text) := by
  have hslash : ¬(byteAt text text.length == slash) = true := by
    simp [byteAt, slash]
  have hlexeme (hhead : startsPath kind = false) :
      of .top text (Lexeme.good kind text.length) = ofLexeme .top text (Lexeme.good kind text.length) :=
    of_lexeme rfl (.inr (.inl hhead)) (.inl Level.noConfusion)
  have hnumber (v : Option Value) : numberFrom kind text text.length v = valueOr kind text.length v :=
    if_neg hslash
  have hall : text.take text.length = text := List.take_length
  simp only [List.mem_cons, List.not_mem_nil, or_false] at h
  rcases h with rfl | rfl | rfl | rfl | rfl
  · rw [hlexeme rfl]
    show integerFrom .top text text.length = _
    rw [integerFrom, if_neg (by simp [hslash]), hall]
    rfl
  · rw [hlexeme rfl]
    show numberFrom .decimal text text.length
      ((Literal.decimal? (text.take text.length)).map .decimal) = _
    rw [hnumber, hall]
    rfl
  · rw [hlexeme rfl]
    show numberFrom .money text text.length ((Literal.money? (text.take text.length)).map .money) = _
    rw [hnumber, hall]
    rfl
  · rw [hlexeme rfl]
    show valueOr .tuple text.length ((Literal.tuple? (text.take text.length)).map .tuple) = _
    rw [hall]
    rfl
  · rw [hlexeme rfl]
    show timeFrom .top text text.length = _
    rw [timeFrom, if_neg (by simp), hall]
    rfl

/-- What starts like a number and is all one lexeme, in a scan. -/
theorem scanSource_number {v : Option Value} (hstart : startsNumeral (byteAt text 0) = true)
    (hlexeme : Lexeme.ofFront (text ++ []) = Lexeme.good kind text.length)
    (h : Element.of .top text (Lexeme.good kind text.length) = Element.valueOr kind text.length v)
    (symbols : SymbolTable) :
    (∀ value, v = some value →
      scanSource text symbols = (.ok ⟨[⟨value, false, ⟨0, text.length⟩⟩], false⟩, symbols)) ∧
    (v = none → scanSource text symbols = (.error ⟨Fault.ofWhole kind text, 1⟩, symbols)) := by
  obtain ⟨hmark, hspace⟩ := plain_of_startsNumeral _ hstart
  have hne : text ≠ [] := by
    rintro rfl
    exact absurd hstart (by decide)
  rw [List.append_nil] at hlexeme
  exact scanSource_token symbols (byteOrderMarkLength_of_ne hmark) hspace hne hlexeme h

end

/-- **A number scans to what the reader of its kind makes of it**, and fails as a whole where that
refuses it. -/
theorem scanSource_numeral {kind : TokenKind} {text : Bytes} (h : Numeral kind text)
    (symbols : SymbolTable) :
    (∀ v, Literal.numeral? kind text = some v →
      scanSource text symbols = (.ok ⟨[⟨v, false, ⟨0, text.length⟩⟩], false⟩, symbols)) ∧
    (Literal.numeral? kind text = none →
      scanSource text symbols = (.error ⟨Fault.ofWhole kind text, 1⟩, symbols)) :=
  scanSource_number h.starts (Lexeme.ofFront_numeral h rfl) (Element.of_numeral h.kind_mem) symbols

/-- `-1:30.5`, a minute and a half, and `1.2.256`, of which a part is no byte. -/
theorem scanSource_numeral_time :
    Numeral .time [0x2D, 0x31, 0x3A, 0x33, 0x30, 0x2E, 0x35] ∧
    scanSource [0x2D, 0x31, 0x3A, 0x33, 0x30, 0x2E, 0x35] .initial =
      (.ok ⟨[⟨.time ⟨-90500000000⟩, false, ⟨0, 7⟩⟩], false⟩, .initial) ∧
    Numeral .tuple [0x31, 0x2E, 0x32, 0x2E, 0x32, 0x35, 0x36] ∧
    scanSource [0x31, 0x2E, 0x32, 0x2E, 0x32, 0x35, 0x36] .initial =
      (.error ⟨Fault.ofWhole .tuple [0x31, 0x2E, 0x32, 0x2E, 0x32, 0x35, 0x36], 1⟩, .initial) := by
  have digits (b : UInt8) (more : Bytes) (h : (b :: more).all isDigit = true) :
      Literal.Digits (b :: more) (Literal.decimalValue (b :: more)) :=
    ⟨List.cons_ne_nil b more, List.all_eq_true.1 h, rfl⟩
  have htime : Numeral .time ([minus] ++ ([0x31] ++ colon :: ([0x33, 0x30] ++ ([] ++ [period, 0x35])))) :=
    .time .minus (List.all_eq_true.1 rfl) (digits 0x33 [0x30] rfl) (.inl rfl)
      (.inr (.mk (.inl rfl) (List.all_eq_true.1 rfl) (by decide)))
  have htuple : Numeral .tuple ([period].intercalate [[0x31], [0x32], [0x32, 0x35, 0x36]]) := by
    refine .tuple (by decide) fun run hrun => ?_
    simp only [List.mem_cons, List.not_mem_nil, or_false] at hrun
    rcases hrun with rfl | rfl | rfl
    · exact ⟨_, digits 0x31 [] rfl⟩
    · exact ⟨_, digits 0x32 [] rfl⟩
    · exact ⟨_, digits 0x32 [0x35, 0x36] rfl⟩
  refine ⟨htime, ?_, htuple, ?_⟩
  · exact (scanSource_numeral htime .initial).1 _ rfl
  · exact (scanSource_numeral htuple .initial).2 (by decide)

end RebolScan
