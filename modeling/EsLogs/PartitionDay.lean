import EsLogs.CivilDate
import EsLogs.Decimal
import EsLogs.Outcome

/-!
The days of timestamps, and the names of the per-day partition directories. A timestamp is a 64-bit number
of nanoseconds; its day is found by a division that rounds towards zero, so that the days that timestamps
have go from -106751 to 106751. The name of such a day is its date in the form YYYYMMDD, and the day is
recovered from the name.
-/

namespace EsLogs.PartitionDay

open CivilDate List

def nsecsPerDay : Int64 := 86400000000000

def getPartitionNameFromDay (day : Int64) : Bytes :=
  let nsecs := day * nsecsPerDay
  let days := nsecs / nsecsPerDay
  let (year, month, mday) := civilFromDays days.toInt
  -- the year has four digits whatever the day is, because the product is a number of 64 bits
  decimalPad 4 year.toNat ++ decimalPad 2 month.toNat ++ decimalPad 2 mday.toNat

def daysInMonthOf (year month : Int) : Int :=
  if month = 1 ∨ month = 3 ∨ month = 5 ∨ month = 7 ∨ month = 8 ∨ month = 10 ∨ month = 12 then 31
  else if month = 4 ∨ month = 6 ∨ month = 9 ∨ month = 11 then 30
  else if month = 2 then
    if (year % 4 = 0 ∧ year % 100 ≠ 0) ∨ year % 400 = 0 then 29 else 28
  else 0

def parsePartitionName (name : Bytes) : Option Int64 :=
  if name.length ≠ 8 ∨ !name.all isDigit then none
  else
    let year : Int := digitsValue (name.take 4)
    let month : Int := digitsValue ((name.drop 4).take 2)
    let day : Int := digitsValue (name.drop 6)
    if ¬(1 ≤ month ∧ month ≤ 12) then none
    else if day < 1 ∨ day > daysInMonthOf year month then none
    else some (Int64.ofInt (daysFromCivil year month + (day - 1)) * nsecsPerDay)

/-- The error of `get_partition_day_from_name`; its text is "cannot parse partition name ...; it must have
the format YYYYMMDD". -/
structure NameError where
  name : Bytes
  deriving DecidableEq, Repr

def getPartitionDayFromName (name : Bytes) : Except NameError Int64 :=
  match parsePartitionName name with
  | some t => .ok (t / nsecsPerDay)
  | none => .error ⟨name⟩

/-! ### Days -/

/-- The days that timestamps have. -/
def IsDay (day : Int64) : Prop := -106751 ≤ day.toInt ∧ day.toInt ≤ 106751

instance (day : Int64) : Decidable (IsDay day) := inferInstanceAs (Decidable (_ ∧ _))

theorem toInt_nsecsPerDay : nsecsPerDay.toInt = 86400000000000 := by decide

theorem bmod_of_range {x : Int} (hlo : -2 ^ 63 ≤ x) (hhi : x < 2 ^ 63) : x.bmod (2 ^ 64) = x := by
  apply Int.bmod_eq_of_le
  · norm_num at *
    exact hlo
  · norm_num at *
    exact hhi

/-- A division that rounds towards zero, in terms of one that rounds down. -/
theorem tdiv_day (x : Int) :
    (0 ≤ x ∧ x.tdiv 86400000000000 = x / 86400000000000) ∨
      (x < 0 ∧ x.tdiv 86400000000000 = -(-x / 86400000000000)) := by
  rcases lt_or_ge x 0 with h | h
  · refine .inr ⟨h, ?_⟩
    rw [← Int.tdiv_eq_ediv_of_nonneg (by omega), Int.neg_tdiv, Int.neg_neg]
  · exact .inl ⟨h, Int.tdiv_eq_ediv_of_nonneg h⟩

/-- The division rounds towards zero. -/
theorem toInt_div_nsecsPerDay (ts : Int64) :
    (ts / nsecsPerDay).toInt = ts.toInt.tdiv 86400000000000 := by
  have hlo := ts.le_toInt
  have hhi := ts.toInt_lt
  have hdiv := tdiv_day ts.toInt
  rw [Int64.toInt_div, toInt_nsecsPerDay]
  apply bmod_of_range
  · omega
  · omega

theorem isDay_div (ts : Int64) : IsDay (ts / nsecsPerDay) := by
  have hlo := ts.le_toInt
  have hhi := ts.toInt_lt
  have hdiv := tdiv_day ts.toInt
  rw [IsDay, toInt_div_nsecsPerDay]
  omega

theorem toInt_mul_nsecsPerDay {day : Int64} (h : IsDay day) :
    (day * nsecsPerDay).toInt = day.toInt * 86400000000000 := by
  obtain ⟨hlo, hhi⟩ := h
  rw [Int64.toInt_mul, toInt_nsecsPerDay]
  apply bmod_of_range
  · omega
  · omega

theorem mul_div_nsecsPerDay {day : Int64} (h : IsDay day) :
    day * nsecsPerDay / nsecsPerDay = day := by
  apply Int64.toInt_inj.1
  rw [toInt_div_nsecsPerDay, toInt_mul_nsecsPerDay h]
  exact Int.mul_tdiv_cancel _ (by decide)

/-! ### Names -/

theorem daysInMonthOf_eq {year month : Int} (h : 1 ≤ month ∧ month ≤ 12) :
    daysInMonthOf year month = daysInMonth year month := by
  have hleap : IsLeap year ↔ (year % 4 = 0 ∧ year % 100 ≠ 0) ∨ year % 400 = 0 := by
    unfold IsLeap
    omega
  unfold daysInMonthOf daysInMonth
  simp only [hleap]
  split_ifs <;> omega

/-- A date in the form YYYYMMDD is taken apart into its fields. -/
theorem parsePartitionName_decimalPad {year month day : Nat} (hyear : year < 10000)
    (hdate : ValidDate year month day) :
    parsePartitionName (decimalPad 4 year ++ decimalPad 2 month ++ decimalPad 2 day) =
      some (Int64.ofInt (daysFromCivil year month + (day - 1)) * nsecsPerDay) := by
  have hmonth := hdate.month
  have hday := hdate.day
  have hday31 : daysInMonth year month ≤ 31 := by
    unfold daysInMonth
    split_ifs <;> omega
  have h4 : (decimalPad 4 year).length = 4 := length_decimalPad (by omega) (by omega)
  have h2 : (decimalPad 2 month).length = 2 := length_decimalPad (by omega) (by omega)
  have h2' : (decimalPad 2 day).length = 2 := length_decimalPad (by omega) (by omega)
  set name := decimalPad 4 year ++ decimalPad 2 month ++ decimalPad 2 day with hname
  have hlen : name.length = 8 := by
    rw [hname, length_append, length_append, h4, h2, h2']
  have hdigits : name.all isDigit = true := by
    rw [hname, all_append, all_append, Bool.and_eq_true, Bool.and_eq_true]
    simp only [all_eq_true]
    exact ⟨⟨allDigits_decimalPad _ _, allDigits_decimalPad _ _⟩, allDigits_decimalPad _ _⟩
  have hy : name.take 4 = decimalPad 4 year := by
    rw [hname, append_assoc, take_left' h4]
  have hm : (name.drop 4).take 2 = decimalPad 2 month := by
    rw [hname, append_assoc, drop_left' h4, take_left' h2]
  have hd : name.drop 6 = decimalPad 2 day := by
    have h6 : (decimalPad 4 year ++ decimalPad 2 month).length = 6 := by
      rw [length_append, h4, h2]
    rw [hname, drop_left' h6]
  rw [parsePartitionName, hlen, hdigits]
  simp only [hy, hm, hd, digitsValue_decimalPad]
  rw [if_neg (by decide), if_neg (not_not.2 hmonth), daysInMonthOf_eq hmonth, if_neg (by omega)]

/-- The day of a partition is recovered from the name of its directory. -/
theorem getPartitionDayFromName_getPartitionNameFromDay {day : Int64} (h : IsDay day) :
    getPartitionDayFromName (getPartitionNameFromDay day) = .ok day := by
  have hdate := validDate_civilFromDays day.toInt
  have hyear := civilFromDays_year_range (z := day.toInt) (by linarith [h.1]) (by linarith [h.2])
  have hback := daysFromCivil_civilFromDays day.toInt
  obtain ⟨y, m, d, hymd⟩ : ∃ y m d, civilFromDays day.toInt = (y, m, d) := ⟨_, _, _, rfl⟩
  rw [hymd] at hdate hyear hback
  simp only at hdate hyear hback
  -- the fields are not negative
  lift y to ℕ using (by linarith [hyear.1])
  lift m to ℕ using (by linarith [hdate.month.1])
  lift d to ℕ using (by linarith [hdate.day.1])
  have hname : getPartitionNameFromDay day = decimalPad 4 y ++ decimalPad 2 m ++ decimalPad 2 d := by
    simp only [getPartitionNameFromDay, mul_div_nsecsPerDay h, hymd, Int.toNat_natCast]
  have hofInt : Int64.ofInt day.toInt = day := Int64.ofInt_toInt day
  rw [getPartitionDayFromName, hname, parsePartitionName_decimalPad (by omega) hdate, hback, hofInt]
  simp only [mul_div_nsecsPerDay h]

end EsLogs.PartitionDay
