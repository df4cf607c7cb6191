/-
Firmware dates as Unix time: the two formulas for the start of a year, and the date
that the conversion takes a firmware date for.
-/
import UefiLinux.Time
import UefiLinux.Library.Calendar
import Mathlib.Tactic.IntervalCases

namespace UefiLinux

open Calendar Words

/-- The days from the first of January 1970 to the start of a year. -/
def epochDays (year : Nat) : Int := daysBeforeYear year - daysBeforeYear 1970

theorem epochDays_add (year : Nat) :
    epochDays year + ((year + 99) / 100 : Nat) + 719528 =
      365 * year + ((year + 3) / 4 : Nat) + ((year + 399) / 400 : Nat) := by
  have hyear := daysBeforeYear_add year
  have hepoch := daysBeforeYear_add 1970
  rw [epochDays]
  omega

theorem ofNat_sub_hundred {n : Nat} (hlow : 100 ≤ n) :
    UInt64.ofNat n - 100 = UInt64.ofNat (n - 100) := by
  rw [UInt64.ofNat_sub hlow]
  rfl

/-- The test for the first branch, without its wrap-around. -/
theorem nearYear_iff {n : Nat} (hlow : 2 ≤ n) (hhigh : n < 2 ^ 64) :
    UInt64.ofNat n - 2 ≤ 136 ↔ n ≤ 138 := by
  have hsub : UInt64.ofNat n - 2 = UInt64.ofNat (n - 2) := by
    rw [UInt64.ofNat_sub hlow]
    rfl
  rw [hsub, UInt64.le_iff_toNat_le, UInt64.toNat_ofNat', Nat.mod_eq_of_lt (by omega)]
  change n - 2 ≤ 136 ↔ n ≤ 138
  omega

/-- Seconds and a leap flag are right once they are right one by one. -/
theorem yearPair_eq {year : Nat} {secs : Int} {flag : Bool}
    (hsecs : secs = 86400 * epochDays year) (hflag : flag = true ↔ IsLeap year) :
    (UInt64.ofInt secs, flag) =
      (UInt64.ofInt (86400 * epochDays year), decide (IsLeap year)) := by
  rw [hsecs, Prod.mk.injEq]
  refine ⟨rfl, ?_⟩
  rw [Bool.eq_iff_iff, hflag, decide_eq_true_iff]

/-- The branch for the years from 1902 to 2038. -/
theorem timeYearToSecs_near {n : Nat} (hlow : 2 ≤ n) (hhigh : n ≤ 138) :
    timeYearToSecs (UInt64.ofNat n) =
      (UInt64.ofInt (86400 * epochDays (1900 + n)), decide (IsLeap (1900 + n))) := by
  have hnat : (UInt64.ofNat n).toNat = n := by
    rw [UInt64.toNat_ofNat', Nat.mod_eq_of_lt (by omega)]
  have hbranch : UInt64.ofNat n - 2 ≤ 136 := (nearYear_iff hlow (by omega)).mpr hhigh
  have hwords : ∀ a b : Int, 31536000 * UInt64.ofInt a + 86400 * UInt64.ofInt b =
      UInt64.ofInt (31536000 * a + 86400 * b) := by
    intro a b
    rw [UInt64.ofInt_add, UInt64.ofInt_mul, UInt64.ofInt_mul]
    rfl
  have hdays := epochDays_add (1900 + n)
  simp only [timeYearToSecs, if_pos hbranch, hnat, hwords, Int.shiftRight_eq_div_pow]
  by_cases hfourth : ((n : Int) - 68) % 4 = 0
  · have hleap : IsLeap (1900 + n) := by
      unfold IsLeap
      omega
    rw [if_pos hfourth]
    exact yearPair_eq (by omega) (iff_of_true rfl hleap)
  · have hleap : ¬ IsLeap (1900 + n) := by
      unfold IsLeap
      omega
    rw [if_neg hfourth]
    exact yearPair_eq (by omega) (iff_of_false Bool.false_ne_true hleap)

/-- The division of a remainder by centuries, written as the source has it. -/
theorem centuries_eq {rem : Int} (hlow : 0 ≤ rem) (hhigh : rem < 400) :
    (if rem ≥ 300 then (3, rem - 300)
      else if rem ≥ 200 then (2, rem - 200)
      else if rem ≥ 100 then (1, rem - 100)
      else (0, rem) : Int × Int) = (rem / 100, rem % 100) := by
  by_cases hthree : rem ≥ 300
  · rw [if_pos hthree, Prod.mk.injEq]
    omega
  · rw [if_neg hthree]
    by_cases htwo : rem ≥ 200
    · rw [if_pos htwo, Prod.mk.injEq]
      omega
    · rw [if_neg htwo]
      by_cases hone : rem ≥ 100
      · rw [if_pos hone, Prod.mk.injEq]
        omega
      · rw [if_neg hone, Prod.mk.injEq]
        omega

/-- The number of a cycle of 400 years and the year's place in it. -/
theorem cycles_eq {n : Nat} (hhigh : n < 2 ^ 31) :
    (UInt64.ofNat n / 400).toUInt32.toInt32.toInt = (n / 400 : Nat) ∧
      (UInt64.ofNat n % 400).toNat = n % 400 := by
  have hnat : (UInt64.ofNat n).toNat = n := by
    rw [UInt64.toNat_ofNat', Nat.mod_eq_of_lt (by omega)]
  have hquot : (UInt64.ofNat n / 400).toNat = n / 400 := by
    rw [UInt64.toNat_div, hnat]
    rfl
  constructor
  · rw [toInt_low (by omega), hquot]
  · rw [UInt64.toNat_mod, hnat]
    rfl

/-- The leap years of a cycle of 400 years that begins with a leap century. -/
theorem cycle_isLeap_iff {n : Nat} (hlow : 100 ≤ n) :
    IsLeap (1900 + n) ↔ (n - 100) % 400 = 0 ∨
      (n - 100) % 400 % 100 ≠ 0 ∧ (n - 100) % 400 % 100 % 4 = 0 := by
  unfold IsLeap
  omega

/-- The branch that counts in cycles of 400 years from 2000 on. -/
theorem timeYearToSecs_far {n : Nat} (hlow : 138 < n) (hhigh : n < 2 ^ 31) :
    timeYearToSecs (UInt64.ofNat n) =
      (UInt64.ofInt (86400 * epochDays (1900 + n)), decide (IsLeap (1900 + n))) := by
  have hbranch : ¬ UInt64.ofNat n - 2 ≤ 136 := by
    rw [nearYear_iff (by omega) (by omega)]
    exact not_le.mpr hlow
  obtain ⟨hcycles, hrem⟩ := cycles_eq (n := n - 100) (by omega)
  have hwords : ∀ leaps : Int, UInt64.ofNat (n - 100) * 31536000 +
      UInt64.ofInt leaps * 86400 + 946684800 + 86400 =
        UInt64.ofInt ((n - 100 : Nat) * 31536000 + leaps * 86400 + 946684800 + 86400) := by
    intro leaps
    rw [UInt64.ofInt_add, UInt64.ofInt_add, UInt64.ofInt_add, UInt64.ofInt_mul,
      UInt64.ofInt_mul, ofInt_natCast]
    rfl
  have hdays := epochDays_add (1900 + n)
  have hlate : 100 ≤ n := by omega
  have hleap := cycle_isLeap_iff hlate
  have hcenturies := @centuries_eq ((n - 100) % 400 : Nat) (by omega) (by omega)
  simp only [timeYearToSecs, if_neg hbranch, ofNat_sub_hundred hlate, hcycles, hrem,
    hwords, hcenturies]
  by_cases hcycle : ((n - 100) % 400 : Nat) = (0 : Int)
  · have hyes : IsLeap (1900 + n) := hleap.mpr (Or.inl (by omega))
    rw [if_pos hcycle]
    simp only [↓reduceIte]
    exact yearPair_eq (by omega) (iff_of_true rfl hyes)
  · rw [if_neg hcycle]
    by_cases hcentury : ((n - 100) % 400 : Nat) % 100 = (0 : Int)
    · have hno : ¬ IsLeap (1900 + n) := by
        rw [hleap]
        omega
      rw [if_pos hcentury]
      simp only [Bool.false_eq_true, ↓reduceIte]
      exact yearPair_eq (by omega) (iff_of_false Bool.false_ne_true hno)
    · rw [if_neg hcentury]
      by_cases hfourth : ((n - 100) % 400 : Nat) % 100 % 4 = (0 : Int)
      · have hyes : IsLeap (1900 + n) := hleap.mpr (Or.inr (by omega))
        rw [decide_eq_true hfourth]
        simp only [↓reduceIte]
        exact yearPair_eq (by omega) (iff_of_true rfl hyes)
      · have hno : ¬ IsLeap (1900 + n) := by
          rw [hleap]
          omega
        rw [decide_eq_false hfourth]
        simp only [Bool.false_eq_true, ↓reduceIte]
        exact yearPair_eq (by omega) (iff_of_false Bool.false_ne_true hno)

/-- Both branches compute the start of the year in the Gregorian calendar. -/
theorem timeYearToSecs_eq {n : Nat} (hlow : 2 ≤ n) (hhigh : n < 2 ^ 31) :
    timeYearToSecs (UInt64.ofNat n) =
      (UInt64.ofInt (86400 * epochDays (1900 + n)), decide (IsLeap (1900 + n))) := by
  by_cases hnear : n ≤ 138
  · exact timeYearToSecs_near hlow hnear
  · exact timeYearToSecs_far (not_le.mp hnear) hhigh

/-- The year that the conversion takes a firmware year for. -/
def takenYear (year : UInt16) : Nat :=
  if year > 2000 then year.toNat else year.toNat + 1998

theorem takenYear_of_late {year : UInt16} (hlate : 2000 < year.toNat) :
    takenYear year = year.toNat := by
  have hword : year > 2000 := UInt16.lt_iff_toNat_lt.mpr hlate
  exact if_pos hword

theorem takenYear_of_early {year : UInt16} (hearly : year.toNat ≤ 2000) :
    takenYear year = year.toNat + 1998 := by
  have hword : ¬ year > 2000 := fun hlate =>
    not_lt.mpr hearly (UInt16.lt_iff_toNat_lt.mp hlate)
  exact if_neg hword

theorem takenYear_eq (year : UInt16) :
    1900 + (year + (if year > 2000 then UInt16.ofInt (-1900) else 98)).toNat =
      takenYear year := by
  have hword := year.toNat_lt
  rw [takenYear]
  by_cases hlate : year > 2000
  · have hnat : 2000 < year.toNat := UInt16.lt_iff_toNat_lt.mp hlate
    have hback : (UInt16.ofInt (-1900)).toNat = 63636 := by decide
    rw [if_pos hlate, if_pos hlate, UInt16.toNat_add, hback]
    omega
  · have hnat : ¬ 2000 < year.toNat := fun hlt => hlate (UInt16.lt_iff_toNat_lt.mpr hlt)
    rw [if_neg hlate, if_neg hlate, UInt16.toNat_add]
    change 1900 + (year.toNat + 98) % 2 ^ 16 = year.toNat + 1998
    omega

theorem takenYear_range (year : UInt16) : 1998 ≤ takenYear year ∧ takenYear year < 67534 := by
  have hword := year.toNat_lt
  by_cases hlate : 2000 < year.toNat
  · rw [takenYear_of_late hlate]
    omega
  · rw [takenYear_of_early (not_lt.mp hlate)]
    omega

/-- The table and the leap day together give the start of a month. -/
theorem secsThroughMonth_eq (year : Nat) {month : Nat} (hmonth : month < 12) :
    (if decide (IsLeap year) = true ∧ month ≥ 2 then
        secsThroughMonth.getD month 0 + 86400
      else secsThroughMonth.getD month 0) =
      UInt64.ofInt (86400 * daysInMonths year month) := by
  by_cases hleap : IsLeap year
  · interval_cases month <;>
      simp [hleap, daysInMonths, monthLength, secsThroughMonth] <;> rfl
  · interval_cases month <;>
      simp [hleap, daysInMonths, monthLength, secsThroughMonth] <;> rfl

/-- The month of a date counted from zero, in the byte the source keeps it in. -/
def EfiTime.monthIndex (time : EfiTime) : Nat := (time.month - 1).toNat

/-- The year that a month beyond the twelfth runs over into. -/
def EfiTime.civilYear (time : EfiTime) : Nat :=
  takenYear time.year + time.monthIndex / 12

/-- The seconds from 1970 to a point of time, counted in the calendar. -/
def civilSeconds (year months : Nat) (day hour minute second : Int) : Int :=
  86400 * (epochDays year + daysInMonths year months + day) + 3600 * hour +
    60 * minute + second

theorem EfiTime.civilYear_range (time : EfiTime) :
    1998 ≤ time.civilYear ∧ time.civilYear < 67556 := by
  have hyear := takenYear_range time.year
  have hmonth : time.monthIndex < 256 := (time.month - 1).toNat_lt
  rw [EfiTime.civilYear]
  omega

theorem daysInMonths_le (year : Nat) {months : Nat} (hmonths : months ≤ 12) :
    daysInMonths year months ≤ 366 := by
  have hyear := daysInMonths_mono year hmonths
  rw [daysInMonths_twelve, yearLength] at hyear
  split at hyear
  · exact hyear
  · omega

/-- The year and the month that the conversion goes on with. -/
theorem carried_eq (time : EfiTime) :
    (if (time.month - 1).toNat ≥ 12 then
        ((time.year + (if time.year > 2000 then UInt16.ofInt (-1900) else 98)).toUInt64 +
          UInt64.ofNat (time.month - 1).toNat / 12, (time.month - 1).toNat % 12)
      else ((time.year + (if time.year > 2000 then UInt16.ofInt (-1900) else 98)).toUInt64,
        (time.month - 1).toNat)) =
      (UInt64.ofNat (time.civilYear - 1900), time.monthIndex % 12) := by
  have hyear := takenYear_eq time.year
  have hmonth : time.monthIndex < 256 := (time.month - 1).toNat_lt
  have hword := (time.year +
    (if time.year > 2000 then UInt16.ofInt (-1900) else 98)).toNat_lt
  rw [← EfiTime.monthIndex, EfiTime.civilYear]
  by_cases hover : time.monthIndex ≥ 12
  · rw [if_pos hover, Prod.mk.injEq]
    refine ⟨?_, rfl⟩
    apply UInt64.toNat.inj
    rw [UInt64.toNat_add, UInt64.toNat_div, UInt16.toNat_toUInt64, UInt64.toNat_ofNat',
      UInt64.toNat_ofNat']
    change (_ + time.monthIndex % 2 ^ 64 / 12) % 2 ^ 64 = _
    omega
  · rw [if_neg hover, Prod.mk.injEq]
    constructor
    · apply UInt64.toNat.inj
      rw [UInt16.toNat_toUInt64, UInt64.toNat_ofNat']
      omega
    · omega

/-- The conversion of any firmware date, a month beyond the twelfth and a day zero
included. -/
theorem timeEfiTimeToTimeT_eq (time : EfiTime) :
    timeEfiTimeToTimeT time =
      civilSeconds time.civilYear (time.monthIndex % 12) ((time.day.toNat : Int) - 1)
        time.hour.toNat time.minute.toNat time.second.toNat := by
  have hrange := time.civilYear_range
  have hsecs : timeYearToSecs (UInt64.ofNat (time.civilYear - 1900)) =
      (UInt64.ofInt (86400 * epochDays time.civilYear),
        decide (IsLeap time.civilYear)) := by
    have hback : 1900 + (time.civilYear - 1900) = time.civilYear := by omega
    rw [timeYearToSecs_eq (by omega) (by omega), hback]
  have htable := secsThroughMonth_eq time.civilYear (Nat.mod_lt time.monthIndex (by decide))
  have hdays := epochDays_add time.civilYear
  have hindex : time.monthIndex % 12 ≤ 12 := (Nat.mod_lt _ (by decide)).le
  have hmonths := daysInMonths_le time.civilYear hindex
  have hday := time.day.toNat_lt
  have hhour := time.hour.toNat_lt
  have hminute := time.minute.toNat_lt
  have hsecond := time.second.toNat_lt
  have hcarry : ∀ (c : Prop) [Decidable c] (s t : UInt64),
      (if c then s + t + 86400 else s + t) = s + if c then t + 86400 else t := by
    intro c _ s t
    by_cases hc : c
    · rw [if_pos hc, if_pos hc, UInt64.add_assoc]
    · rw [if_neg hc, if_neg hc]
  have hword : ∀ b : UInt8, b.toUInt64 = UInt64.ofInt (b.toNat : Int) := by
    intro b
    rw [ofInt_natCast, ← UInt8.toNat_toUInt64, UInt64.ofNat_toNat]
  have hsum : ∀ a b c d e f : Int, UInt64.ofInt a + UInt64.ofInt b +
      86400 * UInt64.ofInt c + 3600 * UInt64.ofInt d + 60 * UInt64.ofInt e +
        UInt64.ofInt f = UInt64.ofInt (a + b + 86400 * c + 3600 * d + 60 * e + f) := by
    intro a b c d e f
    simp only [UInt64.ofInt_add, UInt64.ofInt_mul]
    rfl
  simp only [timeEfiTimeToTimeT, carried_eq, hsecs, hcarry, htable, hword, hsum]
  rw [toInt_ofInt (by omega) (by omega), civilSeconds]
  omega

end UefiLinux
