import RebolScan.Proofs.Literal.Times

/-!
# Dates that were written

`Date.Valid` says which dates there are literals for: days of the calendar in years that are written
with three digits or more, with a time of day and a zone where these are known. **The reader of dates
gets all of them back** (`date?_text`), whichever of the two are left out. The text is the day, the
clock behind a slash and the zone behind its sign, and each of the three readers leaves the next one
what it needs: no digit where digits end, and no letter where a month or a time does.
-/

set_option autoImplicit false

namespace RebolScan

open Ascii

namespace Date

/-- A day of the calendar in a year that can be written, with a time of day and a zone if any. -/
structure Valid (d : Date) : Prop where
  day : (ofDay? d.year d.month d.day).isSome = true
  least : 100 ≤ d.year
  most : d.year ≤ Literal.maxYear
  time : ∀ t, d.time = some t → t.isTimeOfDay = true
  zone : ∀ z, d.zone = some z → Zone.ofMinutes? z.minutes = some z

/-- The day alone. -/
def dayBytes (d : Date) : Bytes :=
  Utf8.encode (toString d.day) ++ minus :: (Utf8.encode (monthText d.month) ++
    minus :: Utf8.encode (toString d.year))

/-- The time behind its slash, if there is one. -/
def clockBytes (d : Date) : Bytes :=
  match d.time with
  | some t => slash :: Utf8.encode t.text
  | none => []

/-- The zone with its sign, if there is one. -/
def zoneBytes (d : Date) : Bytes :=
  match d.zone with
  | some z => Utf8.encode z.text
  | none => []

theorem encode_text (d : Date) :
    Utf8.encode d.text = d.dayBytes ++ (d.clockBytes ++ d.zoneBytes) := by
  have hminus : Utf8.encode "-" = [minus] := rfl
  have hslash : Utf8.encode "/" = [slash] := rfl
  obtain ⟨year, month, day, time, zone⟩ := d
  cases time <;> cases zone <;>
    simp [text, dayBytes, clockBytes, zoneBytes, Utf8.encode_append, hminus, hslash]

theorem daysInMonth?_bounds {year : Int} {month last : Nat} (h : daysInMonth? year month = some last) :
    (1 ≤ month ∧ month ≤ 12) ∧ last ≤ 31 := by
  unfold daysInMonth? at h
  split at h
  · cases h
    refine ⟨by simp, ?_⟩
    split <;> simp
  all_goals first | cases h; simp | cases h

theorem ofDay?_bounds {year : Int} {month day : Nat} (h : (ofDay? year month day).isSome = true) :
    ofDay? year month day = some ⟨year, month, day, none, none⟩ ∧
      (1 ≤ month ∧ month ≤ 12) ∧ 1 ≤ day ∧ day ≤ 31 := by
  unfold ofDay? at h ⊢
  split at h
  · rename_i last hlast
    obtain ⟨hmonth, hmost⟩ := daysInMonth?_bounds hlast
    split at h
    · rename_i hday
      exact ⟨if_pos hday, hmonth, hday.1, Nat.le_trans hday.2 hmost⟩
    · cases h
  · cases h

end Date

namespace Literal

/-! ## Days -/

/-- The letters at the front of a text end where no letter follows. -/
theorem letters_append {w rest : Bytes} (hw : ∀ b ∈ w, isLetter b = true)
    (hrest : isLetter (byteAt rest 0) = false) :
    letters (w ++ rest) = w ∧ (w ++ rest).dropWhile isLetter = rest := by
  have hnone : letters rest = [] ∧ rest.dropWhile isLetter = rest := by
    cases rest with
    | nil => exact ⟨rfl, rfl⟩
    | cons b rest =>
      rw [byteAt_cons_zero] at hrest
      simp [letters, hrest]
  constructor
  · rw [letters, List.takeWhile_append_of_pos hw]
    exact (congrArg (w ++ ·) hnone.1).trans (List.append_nil w)
  · rw [List.dropWhile_append_of_pos hw]
    exact hnone.2

/-- A month is written with three letters, which name it. -/
theorem encode_monthText {month : Nat} (h : 1 ≤ month ∧ month ≤ 12) :
    (Utf8.encode (Date.monthText month)).length = 3 ∧
    (∀ b ∈ Utf8.encode (Date.monthText month), isLetter b = true) ∧
    monthOfName? (Utf8.encode (Date.monthText month)) = some month := by
  have hall : ∀ m < 12, (Utf8.encode (Date.monthText (m + 1))).length = 3 ∧
      (Utf8.encode (Date.monthText (m + 1))).all isLetter = true ∧
      monthOfName? (Utf8.encode (Date.monthText (m + 1))) = some (m + 1) := by decide
  obtain ⟨m, rfl⟩ : ∃ m, month = m + 1 := ⟨month - 1, by omega⟩
  obtain ⟨hlength, hletters, hname⟩ := hall m (by omega)
  exact ⟨hlength, List.all_eq_true.1 hletters, hname⟩

theorem month?_written {month : Nat} {rest : Bytes} (h : 1 ≤ month ∧ month ≤ 12)
    (hrest : isLetter (byteAt rest 0) = false) :
    month? (Utf8.encode (Date.monthText month) ++ rest) = some (month, rest) := by
  obtain ⟨hlength, hletters, hmonth⟩ := encode_monthText h
  obtain ⟨h₁, h₂⟩ := letters_append hletters hrest
  have hdigits : digits (Utf8.encode (Date.monthText month) ++ rest) = [] := by
    generalize Utf8.encode (Date.monthText month) = name at hlength hletters
    cases name with
    | nil => cases hlength
    | cons b name =>
      have hb := not_digit_of_isLetter (hletters b List.mem_cons_self)
      exact List.takeWhile_cons_of_neg (by simp [hb])
  rw [month?, hdigits, h₁, h₂, hmonth]
  rfl

/-- A year of three digits or more. -/
theorem digits_year {year : Int} (h : 100 ≤ year) :
    ∃ bs n, Utf8.encode (toString year) = bs ∧ Digits bs n ∧ (n : Int) = year ∧ 3 ≤ bs.length := by
  obtain ⟨n, rfl⟩ : ∃ n : Nat, year = n := ⟨year.toNat, by omega⟩
  refine ⟨_, n, ?_, digits_toString n, rfl, ?_⟩
  · rw [encode_toString_int, decide_eq_false (by omega)]
    rfl
  · have hlong : ¬(toString n).length ≤ 2 := by
      rw [Nat.toString_eq_ofList_toDigits, String.length_ofList,
        Nat.length_toDigits_le_iff (by decide) (by decide)]
      omega
    rw [length_encode_toString]
    omega

theorem day?_written {d : Date} (h : d.Valid) {rest : Bytes}
    (hrest : Ascii.isDigit (byteAt rest 0) = false) :
    day? (d.dayBytes ++ rest) = some (⟨d.year, d.month, d.day, none, none⟩, rest) := by
  obtain ⟨hday, hmonth, -, hlast⟩ := Date.ofDay?_bounds h.day
  obtain ⟨year, n, hyear, hdigits, hn, hlength⟩ := digits_year h.least
  have hlead := digits_toString d.day
  have hleadLength : (Utf8.encode (toString d.day)).length ≤ 3 := by
    rw [length_encode_toString]
    exact length_toString_le (by decide) (by omega)
  have hfits : n ≤ maxYear := by
    have hmost := h.most
    omega
  have hwritten : writtenYear year = n := by
    rw [writtenYear, hdigits.value]
    exact if_pos hlength
  have hread : month? (Utf8.encode (Date.monthText d.month) ++ minus :: (year ++ rest)) = _ :=
    month?_written hmonth rfl
  rw [Date.dayBytes, hyear]
  simp only [List.append_assoc, List.cons_append]
  generalize Utf8.encode (toString d.day) = lead at hlead hleadLength
  generalize Utf8.encode (Date.monthText d.month) ++ minus :: (year ++ rest) = behind at hread
  obtain ⟨h₁, h₂⟩ := hlead.append (minus :: behind) rfl
  obtain ⟨h₃, h₄⟩ := hdigits.append rest hrest
  simp [day?, guard_of, h₁, h₂, h₃, h₄, hlead.ne_nil, hdigits.ne_nil, hlead.value, hleadLength,
    hwritten, hread, hn, hfits, hday]

/-! ## The time of day and the zone -/

theorem bounds_of_isTimeOfDay {t : Time} (h : t.isTimeOfDay = true) :
    0 ≤ t.nanos ∧ t.nanos < Time.nanosPerDay := by
  simpa [Time.isTimeOfDay] using h

theorem timeOfDay?_written {d : Date} (h : d.Valid) {rest : Bytes}
    (hrest : endsClock (byteAt rest 0) = true)
    (hslash : byteAt rest 0 ≠ slash) (hspace : byteAt rest 0 ≠ space) :
    timeOfDay? (d.clockBytes ++ rest) = some (d.time, rest) := by
  unfold Date.clockBytes
  split
  · rename_i t ht
    have hday := h.time t ht
    obtain ⟨hleast, hmost⟩ := bounds_of_isTimeOfDay hday
    have hlt : (Time.nanosPerDay : Int) < 2 ^ 63 := by decide
    have hfits : fitsInt64 t.nanos = true := by
      simp only [fitsInt64, Bool.and_eq_true, decide_eq_true_eq]
      omega
    have hfront : timeFront? (Utf8.encode t.text ++ rest) = some (t, rest) :=
      timeFront?_text hfits (by omega) hrest
    have hne : Utf8.encode t.text ++ rest ≠ [] := by
      intro hnil
      rw [hnil] at hfront
      cases hfront
    simp [timeOfDay?, hfront, hne, hday, ht, byteAt_cons_zero]
  · rename_i ht
    simp [timeOfDay?, hslash, hspace, ht]

/-- A zone is written as its sign, its hours and its minutes. -/
theorem encode_zoneText (z : Zone) : ∃ hours minutes,
    Utf8.encode z.text = (if z.minutes < 0 then minus else plus) :: (hours ++ colon :: minutes) ∧
    Digits hours (z.minutes.natAbs / 60) ∧ Digits minutes (z.minutes.natAbs % 60) ∧
    (z.minutes.natAbs ≤ Zone.maxMinutes → hours.length ≤ 2) ∧ minutes.length = 2 := by
  refine ⟨_, _, ?_, digits_toString _, digits_padded 2 _, ?_, ?_⟩
  · have hcolon : Utf8.encode ":" = [colon] := rfl
    have hsign : Utf8.encode (if z.minutes < 0 then "-" else "+") =
        [if z.minutes < 0 then minus else plus] := by
      split <;> rfl
    rw [Zone.text]
    simp [Utf8.encode_append, hsign, hcolon]
  · intro hfar
    rw [Zone.maxMinutes] at hfar
    rw [length_encode_toString]
    exact length_toString_le (by decide) (by omega)
  · exact length_encode_padded (by decide) (by omega)

theorem zoneMinutes?_written {hours minutes : Bytes} {n m : Nat} (hh : Digits hours n)
    (hm : Digits minutes m) (hlength : hours.length ≤ 4) (hlast : m ≤ 59) :
    zoneMinutes? (hours ++ colon :: minutes) = some (n * 60 + m, []) := by
  obtain ⟨h₁, h₂⟩ := hh.append (colon :: minutes) rfl
  obtain ⟨h₃, h₄⟩ := hm.append [] rfl
  rw [List.append_nil] at h₃ h₄
  simp [zoneMinutes?, h₁, h₂, h₃, h₄, hh.ne_nil, hm.ne_nil, hh.value, hm.value, byteAt_cons_zero,
    Nat.not_lt.2 hlength, Nat.not_lt.2 hlast]

/-- An offset that makes a zone is no farther than zones are. -/
theorem zone_bounds {z : Zone} (h : Zone.ofMinutes? z.minutes = some z) :
    z.minutes.natAbs ≤ Zone.maxMinutes := by
  rw [Zone.ofMinutes?] at h
  split at h
  · rename_i hzone
    exact hzone.1
  · cases h

theorem zone?_written {d : Date} (h : d.Valid) : zone? d.zoneBytes = some (d.zone, []) := by
  unfold Date.zoneBytes
  split
  · rename_i z hz
    have hzone := h.zone z hz
    obtain ⟨hours, minutes, htext, hh, hm, hlength, -⟩ := encode_zoneText z
    have hlength := hlength (zone_bounds hzone)
    have hread := zoneMinutes?_written hh hm (by omega) (by omega)
    rw [Nat.div_add_mod'] at hread
    rw [htext]
    generalize hfar : z.minutes.natAbs = far at hread
    by_cases hneg : z.minutes < 0
    · have hminutes : -(far : Int) = z.minutes := by omega
      rw [if_pos hneg]
      simp [zone?, hread, hminutes, hzone, hz, byteAt_cons_zero]
    · have hminutes : (far : Int) = z.minutes := by omega
      have hsign : (plus == minus) = false := rfl
      rw [if_neg hneg]
      simp [zone?, hread, hminutes, hzone, hz, byteAt_cons_zero, hsign]
  · rename_i hz
    rw [hz]
    rfl

/-- What starts a zone is its sign. -/
theorem byteAt_zoneBytes (d : Date) :
    byteAt d.zoneBytes 0 = nul ∨ byteAt d.zoneBytes 0 = minus ∨ byteAt d.zoneBytes 0 = plus := by
  unfold Date.zoneBytes
  split
  · rename_i z _
    obtain ⟨hours, minutes, htext, -⟩ := encode_zoneText z
    rw [htext, byteAt_cons_zero]
    split <;> simp
  · exact .inl rfl

/-! ## Dates -/

/-- A date starts with a digit. -/
theorem byteAt_dayBytes (d : Date) (rest : Bytes) :
    Ascii.isDigit (byteAt (d.dayBytes ++ rest) 0) = true := by
  rw [Date.dayBytes, List.append_assoc]
  exact (digits_toString d.day).byteAt_zero _

/-- No weekday is skipped where a digit stands. -/
theorem skipWeekday_digit {text : Bytes} (h : Ascii.isDigit (byteAt text 0) = true) :
    skipWeekday text = text := by
  have hletters : letters text = [] := by
    cases text with
    | nil => rfl
    | cons b text =>
      rw [byteAt_cons_zero] at h
      refine List.takeWhile_cons_of_neg fun hletter => ?_
      rw [not_digit_of_isLetter hletter] at h
      cases h
  rw [skipWeekday, hletters]
  exact if_neg (by simp)

/-- **A valid date is read back.** -/
theorem date?_text {d : Date} (h : d.Valid) : date? (Utf8.encode d.text) = some d := by
  obtain ⟨hzone, hslash, hspace⟩ : endsClock (byteAt d.zoneBytes 0) = true ∧
      byteAt d.zoneBytes 0 ≠ slash ∧ byteAt d.zoneBytes 0 ≠ space := by
    rcases byteAt_zoneBytes d with h | h | h <;> rw [h] <;> exact ⟨rfl, by decide, by decide⟩
  have hdigit : Ascii.isDigit (byteAt (d.clockBytes ++ d.zoneBytes) 0) = false := by
    unfold Date.clockBytes
    split
    · rfl
    · exact not_digit_of_endsClock hzone
  have hday := day?_written h hdigit
  have htime := timeOfDay?_written h hzone hslash hspace
  rw [Date.encode_text, date?, skipWeekday_digit (byteAt_dayBytes d _)]
  simp [hday, htime, zone?_written h, guard_of]

/-! ## Lengths -/

theorem length_timeText_le {t : Time} (h : t.isTimeOfDay = true) :
    (Utf8.encode t.text).length ≤ 18 := by
  obtain ⟨hleast, hmost⟩ := bounds_of_isTimeOfDay h
  have hsign : (if t.nanos < 0 then "-" else "") = "" := if_neg (by omega)
  have hhours : (Utf8.encode (toString (t.nanos.natAbs / Time.nanosPerHour))).length ≤ 2 := by
    rw [length_encode_toString]
    refine length_toString_le (by decide) ?_
    simp only [Time.nanosPerDay, Time.nanosPerHour, Time.nanosPerMinute, Time.nanosPerSecond] at *
    omega
  have hmod (n : Nat) : (Utf8.encode (Time.padded 2 (n % 60))).length = 2 :=
    length_encode_padded (by decide) (by omega)
  have hfraction :
      (Utf8.encode (Time.fractionText (t.nanos.natAbs % Time.nanosPerSecond))).length ≤ 10 :=
    (writtenFraction (Nat.mod_lt _ (by decide))).length_le
  have hcolon : Utf8.encode ":" = [colon] := rfl
  rw [Time.text, hsign]
  simp only [Utf8.encode_append, List.length_append, hmod, hcolon, List.length_singleton]
  show 0 + _ + 1 + 2 + 1 + 2 + _ ≤ 18
  omega

/-- **A valid date is short.** -/
theorem length_dateText_le {d : Date} (h : d.Valid) : (Utf8.encode d.text).length ≤ 37 := by
  obtain ⟨-, hmonth, -, hlast⟩ := Date.ofDay?_bounds h.day
  have hday : (Utf8.encode (toString d.day)).length ≤ 2 := by
    rw [length_encode_toString]
    exact length_toString_le (by decide) (by omega)
  have hyear : (Utf8.encode (toString d.year)).length ≤ 5 := by
    have hleast := h.least
    have hmost : d.year ≤ 0x3FFF := h.most
    rw [encode_toString_int, decide_eq_false (by omega)]
    show (Utf8.encode (toString d.year.natAbs)).length ≤ 5
    rw [length_encode_toString]
    exact length_toString_le (by decide) (by omega)
  have hclock : d.clockBytes.length ≤ 19 := by
    unfold Date.clockBytes
    split
    · rename_i t ht
      have htext := length_timeText_le (h.time t ht)
      rw [List.length_cons]
      omega
    · simp
  have hzone : d.zoneBytes.length ≤ 6 := by
    unfold Date.zoneBytes
    split
    · rename_i z hz
      obtain ⟨hours, minutes, htext, -, -, hhours, hminutes⟩ := encode_zoneText z
      have hhours := hhours (zone_bounds (h.zone z hz))
      simp only [htext, List.length_cons, List.length_append]
      omega
    · simp
  obtain ⟨hname, -⟩ := encode_monthText hmonth
  simp only [Date.encode_text, Date.dayBytes, List.length_append, List.length_cons]
  omega

end Literal

end RebolScan
