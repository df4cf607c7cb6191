/-
The conversion of dates beside `mktime`: the start of every year, and the months that
run over into another year.
-/
import UefiLinux.FileTimes

namespace UefiLinux

open Calendar Words

/-- One year after another, in seconds. -/
theorem yearStart_sub (year : Nat) :
    UInt64.ofInt (86400 * epochDays (year + 1)) - UInt64.ofInt (86400 * epochDays year) =
      86400 * UInt64.ofNat (yearLength year) := by
  have hnext : epochDays (year + 1) = epochDays year + yearLength year := by
    rw [epochDays, epochDays, daysBeforeYear]
    omega
  have hlength : 86400 * (epochDays year + yearLength year) =
      86400 * (yearLength year : Int) + 86400 * epochDays year := by omega
  rw [hnext, hlength, UInt64.ofInt_add, UInt64.add_sub_cancel, UInt64.ofInt_mul,
    ofInt_natCast]
  rfl

/-- The start of every year of the calendar and its leap flag, without an overflow of
the signed locals, and the length of a year as the distance to the next. -/
theorem timeYearToSecs_gregorian (year : UInt64) (hlow : 2 ≤ year.toNat)
    (hhigh : year.toNat < 2 ^ 31) :
    timeYearToSecs year =
        (UInt64.ofInt (86400 * ((dayNumber (1900 + year.toNat) 1 1 : Int) -
          dayNumber 1970 1 1)), decide (IsLeap (1900 + year.toNat))) ∧
      timeYearToSecsChecked year = some (timeYearToSecs year) ∧
      (year.toNat + 1 < 2 ^ 31 →
        (timeYearToSecs (year + 1)).1 - (timeYearToSecs year).1 =
          86400 * (if (timeYearToSecs year).2 then 366 else 365)) := by
  have hword : UInt64.ofNat year.toNat = year := UInt64.ofNat_toNat
  have hsecs := timeYearToSecs_eq hlow hhigh
  have hchecked := timeYearToSecsChecked_eq hlow hhigh
  rw [hword] at hsecs hchecked
  refine ⟨?_, hchecked, ?_⟩
  · rw [hsecs, epochDays, dayNumber_first, dayNumber_first]
  · intro hnext
    have hafter := timeYearToSecs_eq (n := year.toNat + 1) (by omega) hnext
    have hsucc : UInt64.ofNat (year.toNat + 1) = year + 1 := by
      rw [UInt64.ofNat_add, hword]
      rfl
    rw [hsucc, ← Nat.add_assoc] at hafter
    rw [hafter, hsecs, yearStart_sub, yearLength]
    by_cases hleap : IsLeap (1900 + year.toNat)
    · rw [if_pos hleap, if_pos (decide_eq_true hleap)]
      rfl
    · rw [if_neg hleap, if_neg (by simp [hleap])]
      rfl

/-- The last year of the first branch and the first year of the second. -/
theorem timeYearToSecs_gregorian_seam :
    timeYearToSecs 138 =
        (UInt64.ofInt (86400 * ((dayNumber (1900 + (138 : UInt64).toNat) 1 1 : Int) -
          dayNumber 1970 1 1)), decide (IsLeap (1900 + (138 : UInt64).toNat))) ∧
      timeYearToSecsChecked 138 = some (timeYearToSecs 138) ∧
      ((138 : UInt64).toNat + 1 < 2 ^ 31 →
        (timeYearToSecs (138 + 1)).1 - (timeYearToSecs 138).1 =
          86400 * (if (timeYearToSecs 138).2 then 366 else 365)) :=
  timeYearToSecs_gregorian 138 (by decide) (by decide)

/-- The year that `mktime` takes a month of a year to lie in -/
def mktimeYear (year month : Nat) : Nat :=
  ((year : Int) + ((month : Int) - 1) / 12).toNat

/-- The month of the calendar that `mktime` takes a month for -/
def mktimeMonth (month : Nat) : Nat :=
  (((month : Int) - 1) % 12 + 1).toNat

theorem mktimeYear_of_pos {year month : Nat} (hpos : 0 < month) :
    mktimeYear year month = year + (month - 1) / 12 := by
  rw [mktimeYear]
  omega

theorem mktimeMonth_of_pos {month : Nat} (hpos : 0 < month) :
    mktimeMonth month = (month - 1) % 12 + 1 := by
  rw [mktimeMonth]
  omega

/-- The Unix time of a date whose month may lie outside the year. -/
def EfiTime.mktime (time : EfiTime) : Int :=
  86400 * ((dayNumber (mktimeYear time.year.toNat time.month.toNat)
    (mktimeMonth time.month.toNat) time.day.toNat : Int) - dayNumber 1970 1 1) +
    3600 * time.hour.toNat + 60 * time.minute.toNat + time.second.toNat

/-- A date that is in order but for its month. -/
structure EfiTime.ValidButMonth (time : EfiTime) : Prop where
  year_low : 2001 ≤ time.year.toNat
  year_high : time.year.toNat ≤ 9999
  day_pos : 1 ≤ time.day.toNat
  day_le : time.day.toNat ≤ 28
  hour : time.hour.toNat < 24
  minute : time.minute.toNat < 60
  second : time.second.toNat < 60

section Months

variable {time : EfiTime}

/-- The conversion with the month's index in place of the month. -/
theorem EfiTime.ValidButMonth.timeT_eq (hvalid : time.ValidButMonth) :
    timeEfiTimeToTimeT time =
      86400 * ((dayNumber (time.year.toNat + time.monthIndex / 12)
        (time.monthIndex % 12 + 1) time.day.toNat : Int) - dayNumber 1970 1 1) +
        3600 * time.hour.toNat + 60 * time.minute.toNat + time.second.toNat := by
  have hday := hvalid.day_pos
  rw [timeEfiTimeToTimeT_eq, EfiTime.civilYear, takenYear_of_late hvalid.year_low,
    civilSeconds, epochDays, dayNumber_first, dayNumber, Nat.add_sub_cancel]
  omega

/-- A month from one on is carried into the year as `mktime` does. -/
theorem EfiTime.ValidButMonth.timeT_of_pos (hvalid : time.ValidButMonth)
    (hpos : 0 < time.month.toNat) : timeEfiTimeToTimeT time = time.mktime := by
  have hindex : time.monthIndex = time.month.toNat - 1 := by
    have hle : (1 : UInt8) ≤ time.month := UInt8.le_iff_toNat_le.mpr hpos
    rw [EfiTime.monthIndex, UInt8.toNat_sub_of_le _ _ hle]
    rfl
  rw [hvalid.timeT_eq, hindex, EfiTime.mktime, mktimeYear_of_pos hpos,
    mktimeMonth_of_pos hpos]

/-- Month zero wraps around in its byte: it is taken for the April of 21 years later. -/
theorem EfiTime.ValidButMonth.timeT_of_zero (hvalid : time.ValidButMonth)
    (hzero : time.month = 0) :
    timeEfiTimeToTimeT time =
      86400 * ((dayNumber (time.year.toNat + 21) 4 time.day.toNat : Int) -
        dayNumber 1970 1 1) +
        3600 * time.hour.toNat + 60 * time.minute.toNat + time.second.toNat := by
  have hindex : time.monthIndex = 255 := by
    rw [EfiTime.monthIndex, hzero]
    rfl
  rw [hvalid.timeT_eq, hindex]

/-- The December before is an earlier day than any of 21 years later. -/
theorem EfiTime.ValidButMonth.mktime_lt_of_zero (hvalid : time.ValidButMonth)
    (hzero : time.month = 0) : time.mktime < timeEfiTimeToTimeT time := by
  have hmonth : time.month.toNat = 0 := by
    rw [hzero]
    rfl
  have hyear : mktimeYear time.year.toNat 0 = time.year.toNat - 1 := by
    have hlow := hvalid.year_low
    rw [mktimeYear]
    omega
  have hlength : monthLength (time.year.toNat - 1) 12 = 31 := rfl
  have hdecember : IsDate (time.year.toNat - 1) 12 time.day.toNat :=
    ⟨by decide, by decide, hvalid.day_pos, hlength ▸ hvalid.day_le.trans (by decide)⟩
  have hearlier : dayNumber (time.year.toNat - 1) 12 time.day.toNat <
      dayNumber (time.year.toNat + 21) 4 time.day.toNat :=
    dayNumber_lt_of_year hdecember (by omega)
  have htwelve : mktimeMonth 0 = 12 := by decide
  rw [hvalid.timeT_of_zero hzero, EfiTime.mktime, hmonth, hyear, htwelve]
  omega

end Months

/-- Months are carried into the year as `mktime` does, but for month zero. -/
theorem timeEfiTimeToTimeT_mktime_iff (time : EfiTime) (hvalid : time.ValidButMonth) :
    timeEfiTimeToTimeT time = time.mktime ↔ time.month ≠ 0 := by
  constructor
  · intro heq hzero
    exact (hvalid.mktime_lt_of_zero hzero).ne' heq
  · intro hmonth
    have hpos : 0 < time.month.toNat :=
      Nat.pos_of_ne_zero fun hzero => hmonth (UInt8.toNat.inj hzero)
    exact hvalid.timeT_of_pos hpos

/-- The last month that a byte can hold -/
theorem timeEfiTimeToTimeT_mktime_iff_last :
    timeEfiTimeToTimeT ⟨2001, 255, 28, 23, 59, 59⟩ =
        EfiTime.mktime ⟨2001, 255, 28, 23, 59, 59⟩ ↔ (255 : UInt8) ≠ 0 :=
  timeEfiTimeToTimeT_mktime_iff ⟨2001, 255, 28, 23, 59, 59⟩
    ⟨by decide, by decide, by decide, by decide, by decide, by decide, by decide⟩

/-- Month zero of 2001 is not the December of 2000. -/
theorem month_zero_not_december :
    ¬ ∀ time : EfiTime, time.ValidButMonth → timeEfiTimeToTimeT time = time.mktime := by
  intro hall
  have hvalid : EfiTime.ValidButMonth ⟨2001, 0, 1, 0, 0, 0⟩ :=
    ⟨by decide, by decide, by decide, by decide, by decide, by decide, by decide⟩
  exact (hvalid.mktime_lt_of_zero rfl).ne' (hall _ hvalid)

end UefiLinux
