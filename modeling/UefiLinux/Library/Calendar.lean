/-
The Gregorian calendar, extended to all years from zero on: leap years, the lengths of
months and years, and the number of a day, which orders days as the calendar does.
-/
import Mathlib.Algebra.Order.Ring.Int

namespace Calendar

def IsLeap (year : Nat) : Prop := year % 4 = 0 ∧ (year % 100 ≠ 0 ∨ year % 400 = 0)

instance : DecidablePred IsLeap := fun _ => inferInstanceAs (Decidable (_ ∧ _))

def yearLength (year : Nat) : Nat := if IsLeap year then 366 else 365

/-- The length of a month, January being the first. -/
def monthLength (year month : Nat) : Nat :=
  if month = 2 then if IsLeap year then 29 else 28
  else if month = 4 ∨ month = 6 ∨ month = 9 ∨ month = 11 then 30
  else 31

/-- The days from the start of year zero to the start of a year. -/
def daysBeforeYear : Nat → Nat
  | 0 => 0
  | year + 1 => daysBeforeYear year + yearLength year

/-- The days in the first months of a year. -/
def daysInMonths (year : Nat) : Nat → Nat
  | 0 => 0
  | months + 1 => daysInMonths year months + monthLength year (months + 1)

def dayNumber (year month day : Nat) : Nat :=
  daysBeforeYear year + daysInMonths year (month - 1) + (day - 1)

theorem dayNumber_first (year : Nat) : dayNumber year 1 1 = daysBeforeYear year := rfl

/-- A day that the calendar has. -/
structure IsDate (year month day : Nat) : Prop where
  month_pos : 1 ≤ month
  month_le : month ≤ 12
  day_pos : 1 ≤ day
  day_le : day ≤ monthLength year month

/-- The counts of the multiples of 4, 100 and 400, from one year to the next. -/
theorem multiples_succ (year : Nat) :
    (year + 1 + 3) / 4 = (year + 3) / 4 + (if year % 4 = 0 then 1 else 0) ∧
      (year + 1 + 99) / 100 = (year + 99) / 100 + (if year % 100 = 0 then 1 else 0) ∧
      (year + 1 + 399) / 400 = (year + 399) / 400 + (if year % 400 = 0 then 1 else 0) := by
  refine ⟨?_, ?_, ?_⟩
  · split <;> omega
  · split <;> omega
  · split <;> omega

theorem yearLength_add (year : Nat) :
    yearLength year + (if year % 100 = 0 then 1 else 0) =
      365 + (if year % 4 = 0 then 1 else 0) + (if year % 400 = 0 then 1 else 0) := by
  have hcentury : year % 100 = 0 → year % 4 = 0 := by omega
  have hcycle : year % 400 = 0 → year % 100 = 0 := by omega
  rw [yearLength]
  by_cases hfour : year % 4 = 0
  · by_cases hhundred : year % 100 = 0
    · by_cases hlong : year % 400 = 0
      · simp [IsLeap, hfour, hhundred, hlong]
      · simp [IsLeap, hfour, hhundred, hlong]
    · have hshort : year % 400 ≠ 0 := fun hlong => hhundred (hcycle hlong)
      simp [IsLeap, hfour, hhundred, hshort]
  · have hhundred : year % 100 ≠ 0 := fun hzero => hfour (hcentury hzero)
    have hshort : year % 400 ≠ 0 := fun hlong => hhundred (hcycle hlong)
    simp [IsLeap, hfour, hhundred, hshort]

/-- One leap day every four years, but for the centuries not divisible by 400. -/
theorem daysBeforeYear_add (year : Nat) :
    daysBeforeYear year + (year + 99) / 100 =
      365 * year + (year + 3) / 4 + (year + 399) / 400 := by
  induction year with
  | zero => rfl
  | succ year ih =>
      obtain ⟨hfour, hhundred, hlong⟩ := multiples_succ year
      have hlength := yearLength_add year
      rw [daysBeforeYear, hfour, hhundred, hlong]
      omega

theorem daysBeforeYear_mono {first second : Nat} (hle : first ≤ second) :
    daysBeforeYear first ≤ daysBeforeYear second := by
  induction hle with
  | refl => exact le_rfl
  | step _ ih => exact ih.trans (Nat.le_add_right _ _)

theorem daysInMonths_mono (year : Nat) {first second : Nat} (hle : first ≤ second) :
    daysInMonths year first ≤ daysInMonths year second := by
  induction hle with
  | refl => exact le_rfl
  | step _ ih => exact ih.trans (Nat.le_add_right _ _)

theorem daysInMonths_twelve (year : Nat) : daysInMonths year 12 = yearLength year := by
  by_cases hleap : IsLeap year
  · simp [daysInMonths, monthLength, yearLength, hleap]
  · simp [daysInMonths, monthLength, yearLength, hleap]

section Order

variable {year month day year' month' day' : Nat}

/-- A day lies before the start of the next month. -/
theorem IsDate.offset_lt (hdate : IsDate year month day) :
    daysInMonths year (month - 1) + (day - 1) < daysInMonths year month := by
  obtain ⟨hmonth, _, hday, hlength⟩ := hdate
  have hmonths : daysInMonths year month =
      daysInMonths year (month - 1) + monthLength year month := by
    obtain ⟨months, rfl⟩ := Nat.exists_eq_add_of_le hmonth
    rw [Nat.add_comm 1 months, daysInMonths, Nat.add_sub_cancel]
  omega

/-- A day lies before the start of the next year. -/
theorem IsDate.number_lt (hdate : IsDate year month day) :
    dayNumber year month day < daysBeforeYear (year + 1) := by
  have hoffset := hdate.offset_lt
  have hyear := daysInMonths_mono year hdate.month_le
  rw [daysInMonths_twelve] at hyear
  rw [dayNumber, daysBeforeYear]
  omega

theorem dayNumber_lt_of_year (hdate : IsDate year month day) (hyear : year < year') :
    dayNumber year month day < dayNumber year' month' day' := by
  have hnext := hdate.number_lt
  have hmono : daysBeforeYear (year + 1) ≤ daysBeforeYear year' :=
    daysBeforeYear_mono hyear
  rw [dayNumber] at hnext ⊢
  rw [dayNumber]
  omega

theorem dayNumber_lt_of_month (hdate : IsDate year month day) (hmonth : month < month') :
    dayNumber year month day < dayNumber year month' day' := by
  have hnext := hdate.offset_lt
  have hmonths : month ≤ month' - 1 := by omega
  have hmono := daysInMonths_mono year hmonths
  rw [dayNumber, dayNumber]
  omega

/-- The numbers of days are in the order of year, month and day. -/
theorem IsDate.number_lt_iff (hdate : IsDate year month day)
    (hdate' : IsDate year' month' day') :
    dayNumber year month day < dayNumber year' month' day' ↔
      year < year' ∨ year = year' ∧ (month < month' ∨ month = month' ∧ day < day') := by
  rcases lt_trichotomy year year' with hyear | rfl | hyear
  · have hlt : dayNumber year month day < dayNumber year' month' day' :=
      dayNumber_lt_of_year hdate hyear
    omega
  · rcases lt_trichotomy month month' with hmonth | rfl | hmonth
    · have hlt : dayNumber year month day < dayNumber year month' day' :=
        dayNumber_lt_of_month hdate hmonth
      omega
    · have hpos := hdate.day_pos
      have hpos' := hdate'.day_pos
      rw [dayNumber, dayNumber]
      omega
    · have hgt : dayNumber year month' day' < dayNumber year month day :=
        dayNumber_lt_of_month hdate' hmonth
      omega
  · have hgt : dayNumber year' month' day' < dayNumber year month day :=
      dayNumber_lt_of_year hdate' hyear
    omega

theorem IsDate.number_eq_iff (hdate : IsDate year month day)
    (hdate' : IsDate year' month' day') :
    dayNumber year month day = dayNumber year' month' day' ↔
      year = year' ∧ month = month' ∧ day = day' := by
  have hlt := hdate.number_lt_iff hdate'
  have hgt := hdate'.number_lt_iff hdate
  constructor
  · intro heq
    omega
  · rintro ⟨rfl, rfl, rfl⟩
    rfl

/-- Points of time are in the order of their days and, on one day, of their seconds. -/
theorem IsDate.time_lt_iff (hdate : IsDate year month day)
    (hdate' : IsDate year' month' day') (second second' : Nat) :
    (dayNumber year month day < dayNumber year' month' day' ∨
        dayNumber year month day = dayNumber year' month' day' ∧ second < second') ↔
      year < year' ∨ year = year' ∧ (month < month' ∨ month = month' ∧
        (day < day' ∨ day = day' ∧ second < second')) := by
  rw [hdate.number_lt_iff hdate', hdate.number_eq_iff hdate']
  omega

end Order

end Calendar
