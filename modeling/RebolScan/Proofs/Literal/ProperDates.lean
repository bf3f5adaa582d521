import RebolScan.Proofs.Literal.Dates

/-!
# Dates that are read

The calendar is asked for each day that is read, and the clock and the zone of a date have bounds of
their own. So **every date that is read is proper** (`date?_proper`): each of the three readers makes
nothing else, and none of them changes what another has made. Conversely every proper date can be
written, and is then read back, but for the years before 100: their two digits stand for other years.
-/

set_option autoImplicit false

namespace RebolScan

open Ascii

/-- A zone is made of quarters of an hour, and of no more of them than there are in fifteen hours. -/
theorem Zone.ofMinutes?_eq_some {minutes : Int} {z : Zone} :
    ofMinutes? minutes = some z ↔ (minutes.natAbs ≤ 15 * 60 ∧ 15 ∣ minutes) ∧ z = ⟨minutes⟩ := by
  rw [ofMinutes?, Option.ite_none_right_eq_some, Option.some_inj, Int.dvd_iff_emod_eq_zero, maxMinutes,
    eq_comm (a := z)]

namespace Date

/-- A day of the calendar, with a time of the day and a zone in quarters of an hour if any. -/
structure Proper (d : Date) : Prop where
  year : 0 ≤ d.year ∧ d.year ≤ 16383
  day : ∃ last, daysInMonth? d.year d.month = some last ∧ 1 ≤ d.day ∧ d.day ≤ last
  time : ∀ t ∈ d.time, 0 ≤ t.nanos ∧ t.nanos < Time.nanosPerDay
  zone : ∀ z ∈ d.zone, z.minutes.natAbs ≤ 15 * 60 ∧ 15 ∣ z.minutes

/-- The calendar makes the days that it has, and no others. -/
theorem ofDay?_eq_some {year : Int} {month day : Nat} {d : Date} :
    ofDay? year month day = some d ↔
      (∃ last, daysInMonth? year month = some last ∧ 1 ≤ day ∧ day ≤ last) ∧
        d = ⟨year, month, day, none, none⟩ := by
  rw [ofDay?]
  cases daysInMonth? year month with
  | none => simp
  | some last =>
    simp only [Option.ite_none_right_eq_some, Option.some_inj, exists_eq_left', eq_comm (a := d)]

/-- What can be written is proper, and not too early. -/
theorem valid_iff {d : Date} : d.Valid ↔ d.Proper ∧ 100 ≤ d.year := by
  constructor
  · intro h
    obtain ⟨day, hday⟩ := Option.isSome_iff_exists.1 h.day
    have hmost := h.most
    have hleast := h.least
    rw [Literal.maxYear] at hmost
    refine ⟨⟨by omega, (ofDay?_eq_some.1 hday).1, fun t ht => Literal.bounds_of_isTimeOfDay (h.time t ht),
      fun z hz => (Zone.ofMinutes?_eq_some.1 (h.zone z hz)).1⟩, hleast⟩
  · rintro ⟨h, hleast⟩
    refine ⟨?_, hleast, ?_, ?_, fun z hz => Zone.ofMinutes?_eq_some.2 ⟨h.zone z hz, rfl⟩⟩
    · rw [ofDay?_eq_some.2 ⟨h.day, rfl⟩]
      rfl
    · have hyear := h.year
      rw [Literal.maxYear]
      omega
    · intro t ht
      simpa [Time.isTimeOfDay] using h.time t ht

end Date

namespace Literal

/-- A day is read from the calendar, with no clock and no zone. -/
theorem day?_sound {s rest : Bytes} {d : Date} (h : day? s = some (d, rest)) :
    ∃ (year month day : Nat), year ≤ maxYear ∧ Date.ofDay? year month day = some d := by
  simp only [day?, Option.bind_eq_bind, Option.bind_eq_some_iff, Option.guard_eq_some'] at h
  obtain ⟨-, -, -, -, ⟨month, s⟩, -, -, -, -, -, -, hyear, date, hdate, heq⟩ := h
  obtain rfl := congrArg Prod.fst (Option.some.inj heq)
  exact ⟨_, month, _, hyear, hdate⟩

/-- A time of the day is one. -/
theorem timeOfDay?_sound {s rest : Bytes} {time : Option Time} (h : timeOfDay? s = some (time, rest)) :
    ∀ t ∈ time, t.isTimeOfDay = true := by
  have hnone : ∀ t ∈ (none : Option Time), t.isTimeOfDay = true :=
    fun t ht => absurd ht (Option.not_mem_none t)
  rw [timeOfDay?] at h
  split at h
  · split at h
    · obtain rfl := congrArg Prod.fst (Option.some.inj h)
      exact hnone
    split at h
    · rename_i t _ _
      split at h
      · rename_i hday
        obtain rfl := congrArg Prod.fst (Option.some.inj h)
        exact fun _ ht => Option.some.inj ht ▸ hday
      · cases h
    · cases h
  · obtain rfl := congrArg Prod.fst (Option.some.inj h)
    exact hnone

/-- A zone is one. -/
theorem zone?_sound {s rest : Bytes} {zone : Option Zone} (h : zone? s = some (zone, rest)) :
    ∀ z ∈ zone, ∃ minutes, Zone.ofMinutes? minutes = some z := by
  rw [zone?] at h
  dsimp only at h
  split at h
  · simp only [Option.bind_eq_bind, Option.bind_eq_some_iff] at h
    obtain ⟨⟨n, s⟩, -, z, hz, heq⟩ := h
    obtain rfl := congrArg Prod.fst (Option.some.inj heq)
    exact fun _ hmem => ⟨_, Option.some.inj hmem ▸ hz⟩
  · obtain rfl := congrArg Prod.fst (Option.some.inj h)
    exact fun z hz => absurd hz (Option.not_mem_none z)

/-- **Every date that is read is proper.** -/
theorem date?_proper {text : Bytes} {d : Date} (h : date? text = some d) : d.Proper := by
  simp only [date?, Option.bind_eq_bind, Option.bind_eq_some_iff] at h
  obtain ⟨⟨date, s₁⟩, hdate, ⟨time, s₂⟩, htime, ⟨zone, s₃⟩, hzone, -, -, heq⟩ := h
  obtain ⟨year, month, day, hyear, hday⟩ := day?_sound hdate
  obtain ⟨hcalendar, rfl⟩ := Date.ofDay?_eq_some.1 hday
  obtain rfl := Option.some.inj heq
  refine ⟨⟨Int.natCast_nonneg year, ?_⟩, hcalendar,
    fun t ht => bounds_of_isTimeOfDay (timeOfDay?_sound htime t ht), fun z hz => ?_⟩
  · rw [maxYear] at hyear
    exact Int.ofNat_le.2 hyear
  · obtain ⟨minutes, hminutes⟩ := zone?_sound hzone z hz
    obtain ⟨hquarters, rfl⟩ := Zone.ofMinutes?_eq_some.1 hminutes
    exact hquarters

/-- **Dates are proper, and read back.** What is read as a date is a day of the calendar in a year that
dates may have, with a time of the day and a zone in quarters of an hour if any; and every such date
from the year 100 on is read from what it is written as, to the nanosecond. -/
theorem dates_proper (text : Bytes) (d : Date) :
    (date? text = some d → d.Proper) ∧
    (d.Proper → 100 ≤ d.year → date? (Utf8.encode d.text) = some d) :=
  ⟨date?_proper, fun h hleast => date?_text (Date.valid_iff.2 ⟨h, hleast⟩)⟩

/-- The last day of a leap year, just before midnight, far in the west. -/
theorem dates_proper_leap :
    Date.Proper ⟨2024, 2, 29, some ⟨86399999999999⟩, some ⟨-900⟩⟩ ∧
    date? (Utf8.encode (Date.text ⟨2024, 2, 29, some ⟨86399999999999⟩, some ⟨-900⟩⟩)) =
      some ⟨2024, 2, 29, some ⟨86399999999999⟩, some ⟨-900⟩⟩ := by
  have hproper : Date.Proper ⟨2024, 2, 29, some ⟨86399999999999⟩, some ⟨-900⟩⟩ :=
    { year := by decide
      day := ⟨29, rfl, by decide⟩
      time := fun _ ht => Option.some.inj ht ▸ by decide
      zone := fun _ hz => Option.some.inj hz ▸ by decide }
  exact ⟨hproper, (dates_proper [] _).2 hproper (by decide)⟩

end Literal

end RebolScan
