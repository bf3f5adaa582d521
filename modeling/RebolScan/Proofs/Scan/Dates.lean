import RebolScan.Proofs.Literal.Dates
import RebolScan.Proofs.Scan.Numeral
import RebolScan.Proofs.Token.Written

/-!
# Dates in a scan

A date is told by the minus behind its day, and a level lets it go on over the time behind its
slash. **A date that was written scans back to itself** (`scanSource_dateText`) but for one form: with
a zone and no time the colon of the zone stands in the run of the day, where it is looked for before
the minus is, and the whole is refused as a time.
-/

set_option autoImplicit false

namespace RebolScan

open Ascii Literal

/-! ## The bytes of a date -/

/-- A byte of a number, a time or a zone. -/
def isClockByte (b : UInt8) : Bool := isDigit b || [colon, period, plus, minus].contains b

theorem isSolid_of_isClockByte (b : UInt8) (h : isClockByte b = true) :
    isSolid [.colon, .period, .plus, .minus] b = true := by
  rw [isClockByte, Bool.or_eq_true, List.contains_iff_mem] at h
  rcases h with h | h
  · exact isSolid_of_isDigit h
  · simp only [List.mem_cons, List.not_mem_nil, or_false] at h
    rcases h with rfl | rfl | rfl | rfl <;> rfl

theorem isClockByte_digits {bs : Bytes} {n : Nat} (h : Digits bs n) :
    ∀ b ∈ bs, isClockByte b = true := by
  intro b hb
  rw [isClockByte, h.isDigit b hb, Bool.true_or]

namespace Time

/-- A time is written with digits, colons and a point. -/
theorem isClockByte_text (t : Time) : ∀ b ∈ Utf8.encode t.text, isClockByte b = true := by
  obtain ⟨h, m, sec, tail, htext, hh, hm, hs, htail⟩ := encode_timeText t
  have htail : ∀ b ∈ tail, isClockByte b = true := by
    generalize t.nanos.natAbs % Time.nanosPerSecond = nanos at htail
    cases htail with
    | none => simp
    | digits hds => exact List.forall_mem_cons.2 ⟨rfl, isClockByte_digits hds⟩
  have hsign : ∀ b ∈ signBytes (decide (t.nanos < 0)), isClockByte b = true := by
    cases decide (t.nanos < 0) with
    | false => exact fun b hb => absurd hb List.not_mem_nil
    | true => exact List.forall_mem_singleton.2 rfl
  rw [htext]
  simp only [List.forall_mem_append, List.forall_mem_cons]
  exact ⟨hsign, isClockByte_digits hh, rfl, isClockByte_digits hm, rfl, isClockByte_digits hs, htail⟩

end Time

namespace Date

theorem isClockByte_zoneBytes (d : Date) : ∀ b ∈ d.zoneBytes, isClockByte b = true := by
  unfold zoneBytes
  split
  · rename_i z _
    obtain ⟨hours, minutes, htext, hh, hm, -⟩ := encode_zoneText z
    have hsign : isClockByte (if z.minutes < 0 then minus else plus) = true := by split <;> rfl
    rw [htext]
    simp only [List.forall_mem_append, List.forall_mem_cons]
    exact ⟨hsign, isClockByte_digits hh, rfl, isClockByte_digits hm⟩
  · simp

/-- Behind its first digits a day is a minus and what has no other special. -/
theorem dayBytes_eq {d : Date} (h : d.Valid) : ∃ lead n behind,
    d.dayBytes = lead ++ minus :: behind ∧ Digits lead n ∧ Solid [.minus] behind := by
  obtain ⟨-, hmonth, -⟩ := ofDay?_bounds h.day
  obtain ⟨-, hletters, -⟩ := encode_monthText hmonth
  obtain ⟨year, n, hyear, hdigits, -⟩ := digits_year h.least
  refine ⟨_, _, _, rfl, digits_toString d.day, ?_⟩
  rw [hyear]
  have hname : Solid [.minus] (Utf8.encode (monthText d.month)) := fun b hb =>
    isSolid_of_isLetter (hletters b hb)
  exact hname.append (Solid.cons rfl (solid_of_isDigit hdigits.isDigit))

theorem isDigit_text (d : Date) : isDigit (byteAt (Utf8.encode d.text) 0) = true := by
  rw [encode_text]
  exact byteAt_dayBytes d _

/-- A zone that is there has a colon. -/
theorem colon_mem_zoneBytes {d : Date} (h : d.zone.isSome = true) : colon ∈ d.zoneBytes := by
  obtain ⟨z, hz⟩ := Option.isSome_iff_exists.1 h
  obtain ⟨hours, minutes, htext, -⟩ := encode_zoneText z
  rw [zoneBytes, hz]
  simp [htext]

end Date

/-! ## The end of a date -/

namespace Element

/-- A date goes on over what is solid behind its slash, if that is not too long. -/
theorem dateEnd_slash {allowed : List Special} {w v : Bytes} (hv : Solid allowed v)
    (hlength : (w ++ slash :: v).length ≤ maxDateLength) :
    dateEnd (w ++ slash :: v) w.length = (w ++ slash :: v).length := by
  have hnext : w.length + 1 + v.length = (w ++ slash :: v).length := by
    rw [List.length_append, List.length_cons]
    omega
  have hrun : runOf ((w ++ slash :: v).drop (w.length + 1)) = v := by
    have hrun : runOf (v ++ []) = v := hv.runOf_append rfl
    rw [List.append_nil] at hrun
    rw [List.drop_length_add_append]
    exact hrun
  have hslash : (byteAt (w ++ slash :: v) w.length == slash) = true := by
    rw [byteAt_append_zero]
    rfl
  have hend : (byteAt (w ++ slash :: v) (w ++ slash :: v).length == slash) = false := by
    simp [byteAt, slash]
  rw [dateEnd, if_pos hslash]
  dsimp only
  rw [hrun, hnext, dif_neg (by omega), dateEnd, hend]
  rfl

end Element

/-! ## Dates -/

section

variable {d : Date} (h : d.Valid)

include h

/-- With a time, or without a zone, the run of the day makes a date of the lexeme, and its end is the
end of the text. -/
theorem lexeme_dateText (hform : d.time.isSome = true ∨ d.zone = none) :
    Lexeme.ofFront (Utf8.encode d.text) = Lexeme.good .date d.dayBytes.length ∧
      Element.dateEnd (Utf8.encode d.text) d.dayBytes.length = (Utf8.encode d.text).length := by
  have hlength : (Utf8.encode d.text).length ≤ Element.maxDateLength :=
    Nat.le_trans (length_dateText_le h) (by decide)
  obtain ⟨lead, n, behind, hday, hlead, hs⟩ := Date.dayBytes_eq h
  rw [Date.encode_text] at hlength ⊢
  have hlexeme {rest : Bytes} (hrest : isDelimiter (byteAt rest 0) = true) :
      Lexeme.ofFront (d.dayBytes ++ rest) = Lexeme.good .date d.dayBytes.length := by
    rw [hday]
    exact Lexeme.ofFront_digitsMinus hlead hs hrest
  have hzone := d.isClockByte_zoneBytes
  cases ht : d.time with
  | some t =>
    have hclock : d.clockBytes = slash :: Utf8.encode t.text := by rw [Date.clockBytes, ht]
    have hsolid : Solid [.colon, .period, .plus, .minus] (Utf8.encode t.text ++ d.zoneBytes) := by
      intro b hb
      refine isSolid_of_isClockByte b ?_
      rcases List.mem_append.1 hb with hb | hb
      · exact t.isClockByte_text b hb
      · exact hzone b hb
    rw [hclock, List.cons_append] at hlength ⊢
    exact ⟨hlexeme rfl, Element.dateEnd_slash hsolid hlength⟩
  | none =>
    have hnone : d.zone = none := hform.resolve_left (by simp [ht])
    have hnil : d.clockBytes ++ d.zoneBytes = [] := by
      rw [Date.clockBytes, Date.zoneBytes, ht, hnone]
      rfl
    have hend : (byteAt (d.dayBytes ++ []) d.dayBytes.length == slash) = false := by
      rw [byteAt_append_zero]
      rfl
    rw [hnil] at hlength ⊢
    refine ⟨hlexeme rfl, ?_⟩
    rw [Element.dateEnd, hend, List.append_nil]
    rfl

/-- With a zone and no time the colon of the zone makes a time of it, which it is not. -/
theorem lexeme_zoned (htime : d.time = none) (hzone : d.zone.isSome = true) :
    Lexeme.ofFront (Utf8.encode d.text) = Lexeme.good .time (Utf8.encode d.text).length ∧
      time? (Utf8.encode d.text) = none := by
  obtain ⟨lead, n, behind, hday, hlead, hs⟩ := Date.dayBytes_eq h
  have htext : Utf8.encode d.text = lead ++ (minus :: behind ++ d.zoneBytes) := by
    rw [Date.encode_text, Date.clockBytes, htime, hday]
    simp
  have hbehind : Solid [.colon, .period, .plus, .minus] (minus :: behind ++ d.zoneBytes) :=
    (Solid.cons rfl (hs.mono (by simp))).append
      fun b hb => isSolid_of_isClockByte b (d.isClockByte_zoneBytes b hb)
  have hcolon : colon ∈ minus :: behind ++ d.zoneBytes :=
    List.mem_append_right _ (Date.colon_mem_zoneBytes hzone)
  rw [htext]
  constructor
  · have hlexeme : Lexeme.ofFront (lead ++ (minus :: behind ++ d.zoneBytes) ++ []) = _ :=
      Lexeme.ofFront_clocked hlead hbehind (by simp) (by simp) hcolon rfl
    rwa [List.append_nil] at hlexeme
  · exact time?_eq_none hlead rfl (show minus ≠ colon by decide)

/-- With a time, or without a zone, what was written is read. -/
theorem scanSource_timed (hform : d.time.isSome = true ∨ d.zone = none) (symbols : SymbolTable) :
    scanSource (Utf8.encode d.text) symbols =
      (.ok ⟨[⟨.date d, false, ⟨0, (Utf8.encode d.text).length⟩⟩], false⟩, symbols) := by
  obtain ⟨hlexeme, hend⟩ := lexeme_dateText h hform
  have hread := date?_text h
  have hfirst := d.isDigit_text
  obtain ⟨hmark, hspace⟩ := plain_of_isDigit hfirst
  generalize Utf8.encode d.text = text at *
  have hne : text ≠ [] := by
    rintro rfl
    cases hfirst
  refine scanSource_single symbols (byteOrderMarkLength_of_ne hmark) hspace hne ?_
  rw [hlexeme]
  have hof : Element.of .top text (Lexeme.good .date d.dayBytes.length) =
      Element.dateFrom .top text d.dayBytes.length :=
    Element.of_lexeme rfl (.inr (.inl rfl)) (.inl Level.noConfusion)
  have hstop : (if Level.top == Level.path then d.dayBytes.length
      else Element.dateEnd text d.dayBytes.length) = text.length := hend
  rw [hof, Element.dateFrom, hstop, List.take_length, hread]
  rfl

/-- With a zone and no time it is refused. -/
theorem scanSource_zoned (htime : d.time = none) (hzone : d.zone.isSome = true)
    (symbols : SymbolTable) : scanSource (Utf8.encode d.text) symbols =
      (.error ⟨Fault.ofWhole .time (Utf8.encode d.text), 1⟩, symbols) := by
  obtain ⟨hlexeme, hnone⟩ := lexeme_zoned h htime hzone
  obtain ⟨hmark, hspace⟩ := plain_of_isDigit d.isDigit_text
  generalize Utf8.encode d.text = text at *
  refine scanSource_invalid symbols (byteOrderMarkLength_of_ne hmark) hspace hlexeme ?_
  have hof : Element.of .top text (Lexeme.good .time text.length) = _ :=
    Element.of_numeral (by simp)
  rw [hof, numeral?, hnone]
  rfl

/-- **A date that was written scans back to itself**, unless it has a zone and no time: then its
whole text is refused as a time. -/
theorem scanSource_dateText (symbols : SymbolTable) :
    (d.time.isSome = true ∨ d.zone = none →
      scanSource (Utf8.encode d.text) symbols =
        (.ok ⟨[⟨.date d, false, ⟨0, (Utf8.encode d.text).length⟩⟩], false⟩, symbols)) ∧
    (d.time = none → d.zone.isSome = true →
      scanSource (Utf8.encode d.text) symbols =
        (.error ⟨Fault.ofWhole .time (Utf8.encode d.text), 1⟩, symbols)) :=
  ⟨fun hform => scanSource_timed h hform symbols,
    fun htime hzone => scanSource_zoned h htime hzone symbols⟩

end

/-- The first day of a year, with a zone and no time. -/
theorem Date.valid_zoned : Date.Valid ⟨2021, 1, 1, none, some ⟨330⟩⟩ :=
  ⟨rfl, by decide, by decide, nofun, fun z hz => by cases hz; rfl⟩

/-- `29-Feb-2024/23:59:59.5-3:30` is read back; `1-Jan-2021+5:30` is not. -/
theorem scanSource_dateText_leap :
    Date.Valid ⟨2024, 2, 29, some ⟨86399500000000⟩, some ⟨-210⟩⟩ ∧
    scanSource [0x32, 0x39, 0x2D, 0x46, 0x65, 0x62, 0x2D, 0x32, 0x30, 0x32, 0x34, 0x2F, 0x32, 0x33,
      0x3A, 0x35, 0x39, 0x3A, 0x35, 0x39, 0x2E, 0x35, 0x2D, 0x33, 0x3A, 0x33, 0x30] .initial =
      (.ok ⟨[⟨.date ⟨2024, 2, 29, some ⟨86399500000000⟩, some ⟨-210⟩⟩, false, ⟨0, 27⟩⟩], false⟩,
        .initial) ∧
    Date.Valid ⟨2021, 1, 1, none, some ⟨330⟩⟩ ∧
    scanSource [0x31, 0x2D, 0x4A, 0x61, 0x6E, 0x2D, 0x32, 0x30, 0x32, 0x31, 0x2B, 0x35, 0x3A, 0x33,
      0x30] .initial = (.error ⟨Fault.ofWhole .time [0x31, 0x2D, 0x4A, 0x61, 0x6E, 0x2D, 0x32, 0x30,
        0x32, 0x31, 0x2B, 0x35, 0x3A, 0x33, 0x30], 1⟩, .initial) := by
  have hleap : Date.Valid ⟨2024, 2, 29, some ⟨86399500000000⟩, some ⟨-210⟩⟩ :=
    ⟨rfl, by decide, by decide, fun t ht => by cases ht; rfl, fun z hz => by cases hz; rfl⟩
  exact ⟨hleap, (scanSource_dateText hleap .initial).1 (.inl rfl), Date.valid_zoned,
    (scanSource_dateText Date.valid_zoned .initial).2 rfl rfl⟩

/-- Not every valid date scans back: the zone of `1-Jan-2021+5:30` makes a time of it. -/
theorem zone_hides_date :
    Date.Valid ⟨2021, 1, 1, none, some ⟨330⟩⟩ ∧
    Utf8.encode (Date.text ⟨2021, 1, 1, none, some ⟨330⟩⟩) =
      [0x31, 0x2D, 0x4A, 0x61, 0x6E, 0x2D, 0x32, 0x30, 0x32, 0x31, 0x2B, 0x35, 0x3A, 0x33, 0x30] ∧
    (scanSource [0x31, 0x2D, 0x4A, 0x61, 0x6E, 0x2D, 0x32, 0x30, 0x32, 0x31, 0x2B, 0x35, 0x3A, 0x33,
      0x30] .initial).1.isOk = false := by
  refine ⟨Date.valid_zoned, by decide, ?_⟩
  have hscan : scanSource [0x31, 0x2D, 0x4A, 0x61, 0x6E, 0x2D, 0x32, 0x30, 0x32, 0x31, 0x2B, 0x35,
      0x3A, 0x33, 0x30] .initial = _ := scanSource_zoned Date.valid_zoned rfl rfl .initial
  rw [hscan]
  rfl

end RebolScan
