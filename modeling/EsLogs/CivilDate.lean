import Mathlib

/-!
The proleptic Gregorian calendar of `values_encoder.rs`: `days_from_civil` counts the days from the
unix epoch to the first day of a month, and `civil_from_days` turns a day number into a date. Both
work in years that start in March, inside eras of 400 years (146097 days). They are inverse to each
other on the dates of the calendar, and every day number is the number of such a date.
-/

namespace EsLogs.CivilDate

variable {yoe : Int} (z : Int)

/-- `days_from_civil`: the days from the epoch to the first day of a month. -/
def daysFromCivil (y m : Int) : Int :=
  let y := if m ≤ 2 then y - 1 else y
  let era := y / 400
  let yoe := y - era * 400
  let mp := if m > 2 then m - 3 else m + 9
  let doy := (153 * mp + 2) / 5
  let doe := yoe * 365 + yoe / 4 - yoe / 100 + doy
  era * 146097 + doe - 719468

def yearOfEra (doe : Int) : Int := (doe - doe / 1460 + doe / 36524 - doe / 146096) / 365

/-- `civil_from_days`: year, month and day of a day number. -/
def civilFromDays (z : Int) : Int × Int × Int :=
  let z := z + 719468
  let era := z / 146097
  let doe := z - era * 146097
  let yoe := yearOfEra doe
  let y := yoe + era * 400
  let doy := doe - (365 * yoe + yoe / 4 - yoe / 100)
  let mp := (5 * doy + 2) / 153
  let d := doy - (153 * mp + 2) / 5 + 1
  let m := if mp < 10 then mp + 3 else mp - 9
  (if m ≤ 2 then y + 1 else y, m, d)

/-- `unix_secs_from_date`: the month overflows into the year, the other fields linearly. -/
def unixSecsFromDate (year month day hour minute second : Int) : Int :=
  let m := month - 1
  let year := year + m / 12
  let month := m % 12 + 1
  let days := daysFromCivil year month + (day - 1)
  days * 86400 + hour * 3600 + minute * 60 + second

def utcDateTimeFromNsecs (nsecs : Int) : Int × Int × Int × Int × Int × Int × Int :=
  let secs := nsecs / 1000000000
  let nsec := nsecs % 1000000000
  let days := secs / 86400
  let rem := secs % 86400
  let date := civilFromDays days
  (date.1, date.2.1, date.2.2, rem / 3600, rem / 60 % 60, rem % 60, nsec)

/-! ### The calendar -/

def IsLeap (y : Int) : Prop := y % 4 = 0 ∧ (y % 100 ≠ 0 ∨ y % 400 = 0)

instance (y : Int) : Decidable (IsLeap y) := inferInstanceAs (Decidable (_ ∧ _))

def daysInMonth (y m : Int) : Int :=
  if m = 2 then (if IsLeap y then 29 else 28)
  else if m = 4 ∨ m = 6 ∨ m = 9 ∨ m = 11 then 30 else 31

structure ValidDate (y m d : Int) : Prop where
  month : 1 ≤ m ∧ m ≤ 12
  day : 1 ≤ d ∧ d ≤ daysInMonth y m

/-! ### Years of an era -/

/-- The first day of a year of the era; the era ends where year 400 would start. -/
def yearStart (yoe : Int) : Int := 365 * yoe + yoe / 4 - yoe / 100 + yoe / 400

set_option maxRecDepth 4000 in
theorem yearOfEra_bounds (y : Nat) (h : y < 400) :
    yearOfEra (yearStart y) = y ∧ yearOfEra (yearStart (y + 1) - 1) = y := by
  have hall : ∀ y < 400, yearOfEra (yearStart (y : Nat)) = y ∧
      yearOfEra (yearStart ((y : Nat) + 1) - 1) = y := by decide
  exact hall y h

theorem yearOfEra_mono {a b : Int} (hab : a ≤ b) :
    yearOfEra a ≤ yearOfEra b := by
  unfold yearOfEra
  apply Int.ediv_le_ediv (by omega)
  omega

theorem yearStart_nonneg (h : 0 ≤ yoe) : 0 ≤ yearStart yoe := by
  unfold yearStart
  omega

theorem yearStart_lt (h : 0 ≤ yoe) (h' : yoe < 400) : yearStart (yoe + 1) ≤ 146097 := by
  unfold yearStart
  omega

/-- The year of a day is the one it falls into. -/
theorem yearOfEra_eq {yoe doe : Int} (h0 : 0 ≤ yoe) (h1 : yoe < 400) (hlo : yearStart yoe ≤ doe)
    (hhi : doe < yearStart (yoe + 1)) : yearOfEra doe = yoe := by
  obtain ⟨y, rfl⟩ := Int.eq_ofNat_of_zero_le h0
  obtain ⟨hfirst, hlast⟩ := yearOfEra_bounds y (by omega)
  have hstart := yearStart_nonneg h0
  have hend := yearStart_lt h0 h1
  have hle := yearOfEra_mono hlo
  have hge := yearOfEra_mono (b := yearStart ((y : Int) + 1) - 1) (a := doe) (by omega)
  omega

/-- Every day of an era falls into one of its years. -/
theorem exists_year (doe : Int) (h0 : 0 ≤ doe) (h1 : doe < 146097) :
    ∃ yoe, 0 ≤ yoe ∧ yoe < 400 ∧ yearStart yoe ≤ doe ∧ doe < yearStart (yoe + 1) := by
  have hreach : ∀ n : Nat, n ≤ 400 → doe < yearStart n →
      ∃ yoe, 0 ≤ yoe ∧ yoe < (n : Int) ∧ yearStart yoe ≤ doe ∧ doe < yearStart (yoe + 1) := by
    intro n
    induction n with
    | zero => intro _ h; exact absurd h (by simpa [yearStart] using h0)
    | succ n ih =>
      intro hn h
      by_cases hprev : doe < yearStart n
      · obtain ⟨yoe, hy0, hy1, hlo, hhi⟩ := ih (by omega) hprev
        exact ⟨yoe, hy0, by omega, hlo, hhi⟩
      · exact ⟨n, by omega, by omega, by omega, by exact_mod_cast h⟩
  obtain ⟨yoe, hy0, hy1, hlo, hhi⟩ := hreach 400 le_rfl (by simpa [yearStart] using h1)
  exact ⟨yoe, hy0, by exact_mod_cast hy1, hlo, hhi⟩

theorem yearStart_succ (era : Int) (h0 : 0 ≤ yoe) (h1 : yoe < 400) :
    yearStart (yoe + 1) = yearStart yoe + if IsLeap (yoe + era * 400 + 1) then 366 else 365 := by
  have hleap : IsLeap (yoe + era * 400 + 1) ↔
      (yoe + 1) % 4 = 0 ∧ ((yoe + 1) % 100 ≠ 0 ∨ (yoe + 1) % 400 = 0) := by
    unfold IsLeap
    omega
  simp only [hleap, yearStart]
  split_ifs with h
  · omega
  · omega

/-! ### Dates in years that start in March -/

/-- The first day of a month of a year that starts in March. -/
def monthStart (mp : Int) : Int := (153 * mp + 2) / 5

/-- A date as the algorithms see it: era, year of the era, month since March and day. -/
structure MarchDate (era yoe mp d : Int) : Prop where
  year : 0 ≤ yoe ∧ yoe < 400
  month : 0 ≤ mp ∧ mp < 12
  day : 1 ≤ d
  in_month : monthStart mp + (d - 1) < monthStart (mp + 1)
  in_year : monthStart mp + (d - 1) < if IsLeap (yoe + era * 400 + 1) then 366 else 365

def marchDays (era yoe mp d : Int) : Int :=
  era * 146097 + yearStart yoe + monthStart mp + (d - 1) - 719468

def marchMonth (mp : Int) : Int := if mp < 10 then mp + 3 else mp - 9

def marchYear (era yoe mp : Int) : Int := yoe + era * 400 + if mp < 10 then 0 else 1

theorem civilFromDays_marchDays {era yoe mp d : Int} (h : MarchDate era yoe mp d) :
    civilFromDays (marchDays era yoe mp d) = (marchYear era yoe mp, marchMonth mp, d) := by
  obtain ⟨⟨hy0, hy1⟩, ⟨hm0, hm1⟩, hd, hmonth, hyear⟩ := h
  have hstart := yearStart_nonneg hy0
  have hend := yearStart_lt hy0 hy1
  have hsucc := yearStart_succ era hy0 hy1
  have hms : 0 ≤ monthStart mp := by unfold monthStart; omega
  have hera : (marchDays era yoe mp d + 719468) / 146097 = era := by
    unfold marchDays
    omega
  have hdoe : marchDays era yoe mp d + 719468 - era * 146097 =
      yearStart yoe + (monthStart mp + (d - 1)) := by
    unfold marchDays
    omega
  have hyoe : yearOfEra (yearStart yoe + (monthStart mp + (d - 1))) = yoe :=
    yearOfEra_eq hy0 hy1 (by omega) (by omega)
  have hdoy : yearStart yoe + (monthStart mp + (d - 1)) - (365 * yoe + yoe / 4 - yoe / 100) =
      monthStart mp + (d - 1) := by
    unfold yearStart
    omega
  have hmp : (5 * (monthStart mp + (d - 1)) + 2) / 153 = mp := by
    unfold monthStart at hmonth ⊢
    omega
  have hday : monthStart mp + (d - 1) - (153 * mp + 2) / 5 + 1 = d := by
    unfold monthStart
    omega
  simp only [civilFromDays, hera, hdoe, hyoe, hdoy, hmp, hday, marchYear, marchMonth]
  refine Prod.ext ?_ rfl
  split_ifs <;> simp only <;> omega

/-- Every day number is the number of a date. -/
theorem exists_marchDate : ∃ era yoe mp d, MarchDate era yoe mp d ∧ z = marchDays era yoe mp d := by
  obtain ⟨yoe, hy0, hy1, hlo, hhi⟩ := exists_year ((z + 719468) % 146097)
    (by omega) (by omega)
  have hsucc := yearStart_succ ((z + 719468) / 146097) hy0 hy1
  have hlen : yearStart (yoe + 1) ≤ yearStart yoe + 366 := by
    rw [hsucc]
    split_ifs <;> omega
  -- the day of the year, and the month it falls into
  obtain ⟨doy, hdoy⟩ : ∃ doy, doy = (z + 719468) % 146097 - yearStart yoe := ⟨_, rfl⟩
  refine ⟨(z + 719468) / 146097, yoe, (5 * doy + 2) / 153,
    doy - monthStart ((5 * doy + 2) / 153) + 1, ⟨⟨hy0, hy1⟩, by omega, ?_, ?_, ?_⟩, ?_⟩
  · unfold monthStart
    omega
  · unfold monthStart
    omega
  · omega
  · unfold marchDays
    omega

/-! ### The dates of the calendar -/

theorem daysFromCivil_eq {y m : Int} (hm : 1 ≤ m ∧ m ≤ 12) (d : Int) :
    ∃ era yoe mp, 0 ≤ yoe ∧ yoe < 400 ∧ 0 ≤ mp ∧ mp < 12 ∧
      daysFromCivil y m + (d - 1) = marchDays era yoe mp d ∧
      y = marchYear era yoe mp ∧ m = marchMonth mp := by
  by_cases h : m ≤ 2
  · refine ⟨(y - 1) / 400, (y - 1) % 400, m + 9, by omega, by omega, by omega, by omega, ?_, ?_, ?_⟩
    · simp only [daysFromCivil, marchDays, yearStart, monthStart, h, if_true,
        if_neg (show ¬m > 2 by omega)]
      omega
    · unfold marchYear
      rw [if_neg (by omega)]
      omega
    · unfold marchMonth
      rw [if_neg (by omega)]
      omega
  · refine ⟨y / 400, y % 400, m - 3, by omega, by omega, by omega, by omega, ?_, ?_, ?_⟩
    · simp only [daysFromCivil, marchDays, yearStart, monthStart, h, if_false,
        if_pos (show m > 2 by omega)]
      omega
    · unfold marchYear
      rw [if_pos (by omega)]
      omega
    · unfold marchMonth
      rw [if_pos (by omega)]
      omega

/-- The days of a month in terms of the year that starts in March. -/
theorem marchDate_iff {era yoe mp d : Int} (hy : 0 ≤ yoe ∧ yoe < 400) (hm : 0 ≤ mp ∧ mp < 12) :
    MarchDate era yoe mp d ↔ ValidDate (marchYear era yoe mp) (marchMonth mp) d := by
  have hday : 1 ≤ d → (monthStart mp + (d - 1) < monthStart (mp + 1) ∧
      (monthStart mp + (d - 1) < if IsLeap (yoe + era * 400 + 1) then 366 else 365) ↔
      d ≤ daysInMonth (marchYear era yoe mp) (marchMonth mp)) := by
    intro hd
    obtain ⟨hlo, hhi⟩ := hm
    interval_cases mp <;>
    simp only [monthStart, daysInMonth, marchMonth, marchYear] <;> norm_num <;>
    split_ifs <;> omega
  constructor
  · rintro ⟨-, -, hd, hmonth, hyear⟩
    refine ⟨?_, hd, (hday hd).1 ⟨hmonth, hyear⟩⟩
    unfold marchMonth
    split_ifs <;> omega
  · rintro ⟨-, hd, hle⟩
    obtain ⟨hmonth, hyear⟩ := (hday hd).2 hle
    exact ⟨hy, hm, hd, hmonth, hyear⟩

/-- A date of the calendar is recovered from its day number. -/
theorem civilFromDays_daysFromCivil {y m d : Int} (h : ValidDate y m d) :
    civilFromDays (daysFromCivil y m + (d - 1)) = (y, m, d) := by
  obtain ⟨era, yoe, mp, hy0, hy1, hm0, hm1, hdays, rfl, rfl⟩ := daysFromCivil_eq (y := y) h.month d
  rw [hdays]
  exact civilFromDays_marchDays ((marchDate_iff ⟨hy0, hy1⟩ ⟨hm0, hm1⟩).2 h)

/-- A day number is recovered from its date. -/
theorem daysFromCivil_civilFromDays :
    daysFromCivil (civilFromDays z).1 (civilFromDays z).2.1 + ((civilFromDays z).2.2 - 1) = z := by
  obtain ⟨era, yoe, mp, d, hdate, rfl⟩ := exists_marchDate z
  rw [civilFromDays_marchDays hdate]
  obtain ⟨⟨hy0, hy1⟩, ⟨hm0, hm1⟩, -, -, -⟩ := hdate
  simp only [daysFromCivil, marchDays, marchYear, marchMonth, yearStart, monthStart]
  split_ifs <;> omega

/-- What `civil_from_days` returns is a date of the calendar. -/
theorem validDate_civilFromDays : ValidDate (civilFromDays z).1 (civilFromDays z).2.1 (civilFromDays z).2.2 := by
  obtain ⟨era, yoe, mp, d, hdate, rfl⟩ := exists_marchDate z
  rw [civilFromDays_marchDays hdate]
  exact (marchDate_iff hdate.year hdate.month).1 hdate

/-- The years that nanoseconds in 64 bits reach. -/
theorem civilFromDays_year_range {z : Int} (hlo : -106752 ≤ z) (hhi : z ≤ 106751) :
    1677 ≤ (civilFromDays z).1 ∧ (civilFromDays z).1 ≤ 2262 := by
  obtain ⟨era, yoe, mp, d, hdate, rfl⟩ := exists_marchDate z
  rw [civilFromDays_marchDays hdate]
  obtain ⟨⟨hy0, hy1⟩, ⟨hm0, hm1⟩, hd, hmonth, -⟩ := hdate
  unfold marchDays yearStart monthStart at *
  unfold marchYear
  split_ifs <;> simp only <;> omega

/-! ### Date and time -/

structure ValidDateTime (y m d hour minute second : Int) : Prop where
  date : ValidDate y m d
  hour : 0 ≤ hour ∧ hour < 24
  minute : 0 ≤ minute ∧ minute < 60
  second : 0 ≤ second ∧ second < 60

theorem unixSecsFromDate_eq {y m d hour minute second : Int} (hm : 1 ≤ m ∧ m ≤ 12) :
    unixSecsFromDate y m d hour minute second =
      (daysFromCivil y m + (d - 1)) * 86400 + hour * 3600 + minute * 60 + second := by
  have hyear : y + (m - 1) / 12 = y := by omega
  have hmonth : (m - 1) % 12 + 1 = m := by omega
  simp only [unixSecsFromDate, hyear, hmonth]

/-- A date with a time of day is recovered from its timestamp. -/
theorem utcDateTimeFromNsecs_unixSecsFromDate {y m d hour minute second msec : Int}
    (h : ValidDateTime y m d hour minute second) (hms : 0 ≤ msec ∧ msec < 1000) :
    utcDateTimeFromNsecs (unixSecsFromDate y m d hour minute second * 1000000000 +
      msec * 1000000) = (y, m, d, hour, minute, second, msec * 1000000) := by
  obtain ⟨hdate, hhour, hminute, hsecond⟩ := h
  have hcivil := civilFromDays_daysFromCivil hdate
  rw [unixSecsFromDate_eq hdate.month]
  generalize daysFromCivil y m + (d - 1) = days at hcivil ⊢
  have hdays : ((days * 86400 + hour * 3600 + minute * 60 + second) * 1000000000 + msec * 1000000) /
      1000000000 / 86400 = days := by omega
  simp only [utcDateTimeFromNsecs, hdays, hcivil, Prod.mk.injEq, true_and]
  refine ⟨?_, ?_, ?_, ?_⟩ <;> omega

/-- Every timestamp is taken apart into a date of the calendar with a time of day. -/
theorem validDateTime_utc (nsecs : Int) :
    ValidDateTime (utcDateTimeFromNsecs nsecs).1 (utcDateTimeFromNsecs nsecs).2.1
      (utcDateTimeFromNsecs nsecs).2.2.1 (utcDateTimeFromNsecs nsecs).2.2.2.1
      (utcDateTimeFromNsecs nsecs).2.2.2.2.1 (utcDateTimeFromNsecs nsecs).2.2.2.2.2.1 := by
  refine ⟨validDate_civilFromDays _, ?_, ?_, ?_⟩
  · simp only [utcDateTimeFromNsecs]
    omega
  · simp only [utcDateTimeFromNsecs]
    omega
  · simp only [utcDateTimeFromNsecs]
    omega

/-- The seconds of a timestamp are recovered from its date and time of day. -/
theorem unixSecsFromDate_utcDateTimeFromNsecs (nsecs : Int) :
    unixSecsFromDate (utcDateTimeFromNsecs nsecs).1 (utcDateTimeFromNsecs nsecs).2.1
      (utcDateTimeFromNsecs nsecs).2.2.1 (utcDateTimeFromNsecs nsecs).2.2.2.1
      (utcDateTimeFromNsecs nsecs).2.2.2.2.1 (utcDateTimeFromNsecs nsecs).2.2.2.2.2.1 = nsecs / 1000000000 := by
  have hdays := daysFromCivil_civilFromDays (nsecs / 1000000000 / 86400)
  have hmonth := (validDate_civilFromDays (nsecs / 1000000000 / 86400)).month
  simp only [utcDateTimeFromNsecs]
  rw [unixSecsFromDate_eq hmonth, hdays]
  omega

end EsLogs.CivilDate
