/-
File and clock times in the order of the calendar: where the conversion of firmware
dates is exact, and where it keeps the order of two dates.
-/
import UefiLinux.FileStatus
import UefiLinux.Overflow

namespace UefiLinux

open Calendar Words Progress Journal

/-- The firmware dates that UEFI admits. -/
structure EfiTime.Valid (time : EfiTime) : Prop where
  year_low : 1900 ≤ time.year.toNat
  year_high : time.year.toNat ≤ 9999
  date : IsDate time.year.toNat time.month.toNat time.day.toNat
  hour : time.hour.toNat < 24
  minute : time.minute.toNat < 60
  second : time.second.toNat < 60

/-- The seconds since midnight. -/
def EfiTime.secondOfDay (time : EfiTime) : Nat :=
  3600 * time.hour.toNat + 60 * time.minute.toNat + time.second.toNat

theorem EfiTime.Valid.secondOfDay_lt {time : EfiTime} (hvalid : time.Valid) :
    time.secondOfDay < 86400 := by
  have hhour := hvalid.hour
  have hminute := hvalid.minute
  have hsecond := hvalid.second
  rw [EfiTime.secondOfDay]
  omega

/-- A valid date is converted as the same day and time of the year it is taken for. -/
theorem EfiTime.Valid.timeT_eq {time : EfiTime} (hvalid : time.Valid) :
    timeEfiTimeToTimeT time =
      86400 * ((dayNumber (takenYear time.year) time.month.toNat time.day.toNat : Int) -
        dayNumber 1970 1 1) + time.secondOfDay := by
  obtain ⟨hmonth, hmonth', hday, _⟩ := hvalid.date
  have hindex : time.monthIndex = time.month.toNat - 1 := by
    have hle : (1 : UInt8) ≤ time.month := UInt8.le_iff_toNat_le.mpr hmonth
    rw [EfiTime.monthIndex, UInt8.toNat_sub_of_le _ _ hle]
    rfl
  have hyear : time.civilYear = takenYear time.year := by
    rw [EfiTime.civilYear, hindex]
    omega
  have hmonths : time.monthIndex % 12 = time.month.toNat - 1 := by omega
  rw [timeEfiTimeToTimeT_eq, hyear, hmonths, civilSeconds, epochDays, dayNumber_first,
    dayNumber, EfiTime.secondOfDay]
  omega

/-- A firmware date from 2001 on is converted exactly, without a signed overflow. -/
theorem timeEfiTimeToTimeT_exact (time : EfiTime) (hvalid : time.Valid)
    (hyear : 2001 ≤ time.year.toNat) :
    timeEfiTimeToTimeT time =
        86400 * ((dayNumber time.year.toNat time.month.toNat time.day.toNat : Int) -
          dayNumber 1970 1 1) +
          3600 * time.hour.toNat + 60 * time.minute.toNat + time.second.toNat ∧
      timeEfiTimeToTimeTChecked time = some (timeEfiTimeToTimeT time) := by
  refine ⟨?_, timeEfiTimeToTimeTChecked_eq time⟩
  rw [hvalid.timeT_eq, takenYear_of_late hyear, EfiTime.secondOfDay]
  omega

/-- The last leap day of a leap century. -/
theorem timeEfiTimeToTimeT_exact_leap_day :
    timeEfiTimeToTimeT ⟨2400, 2, 29, 23, 59, 59⟩ =
        86400 * ((dayNumber (2400 : UInt16).toNat (2 : UInt8).toNat (29 : UInt8).toNat : Int) -
          dayNumber 1970 1 1) +
          3600 * (23 : UInt8).toNat + 60 * (59 : UInt8).toNat + (59 : UInt8).toNat ∧
      timeEfiTimeToTimeTChecked ⟨2400, 2, 29, 23, 59, 59⟩ =
        some (timeEfiTimeToTimeT ⟨2400, 2, 29, 23, 59, 59⟩) :=
  timeEfiTimeToTimeT_exact ⟨2400, 2, 29, 23, 59, 59⟩
    ⟨by decide, by decide, ⟨by decide, by decide, by decide, by decide⟩, by decide,
      by decide, by decide⟩ (by decide)

section Order

variable {a b : EfiTime}

/-- The fields of a date in the order they count, with the given year. -/
def EfiTime.fieldsIn (time : EfiTime) (year : Nat) : List Nat :=
  [year, time.month.toNat, time.day.toNat, time.hour.toNat, time.minute.toNat,
    time.second.toNat]

/-- One date is strictly earlier than another, in calendar order. -/
def EfiTime.Earlier (a b : EfiTime) : Prop :=
  a.fieldsIn a.year.toNat < b.fieldsIn b.year.toNat

/-- The order of two dates in the years that the conversion takes them for. -/
def EfiTime.TakenEarlier (a b : EfiTime) : Prop :=
  a.fieldsIn (takenYear a.year) < b.fieldsIn (takenYear b.year)

/-- The date is a leap day, and the year it is taken for has none. -/
def EfiTime.OnLostDay (time : EfiTime) : Prop :=
  time.month.toNat = 2 ∧ time.day.toNat = 29 ∧ ¬ IsLeap (takenYear time.year)

/-- A lost leap day falls on the first of March, and the second date is no later that
day. -/
def EfiTime.FallsOn (a b : EfiTime) : Prop :=
  a.OnLostDay ∧ takenYear a.year = takenYear b.year ∧ b.month.toNat = 3 ∧
    b.day.toNat = 1 ∧ b.secondOfDay ≤ a.secondOfDay

theorem fieldsIn_lt_iff (ha : a.Valid) (hb : b.Valid) (year year' : Nat) :
    a.fieldsIn year < b.fieldsIn year' ↔
      year < year' ∨ year = year' ∧ (a.month.toNat < b.month.toNat ∨
        a.month.toNat = b.month.toNat ∧ (a.day.toNat < b.day.toNat ∨
          a.day.toNat = b.day.toNat ∧ a.secondOfDay < b.secondOfDay)) := by
  have hminute := ha.minute
  have hminute' := hb.minute
  have hsecond := ha.second
  have hsecond' := hb.second
  simp only [EfiTime.fieldsIn, List.cons_lt_cons_iff, List.lt_irrefl, and_false, or_false,
    EfiTime.secondOfDay]
  omega

/-- Only leap days of the years up to 2000 are lost. -/
theorem EfiTime.Valid.isDate_taken (ha : a.Valid) :
    (¬ a.OnLostDay → IsDate (takenYear a.year) a.month.toNat a.day.toNat) ∧
      (a.OnLostDay → a.year.toNat ≤ 2000) := by
  obtain ⟨hmonth, hmonth', hday, hlength⟩ := ha.date
  constructor
  · intro hkept
    refine ⟨hmonth, hmonth', hday, ?_⟩
    rw [EfiTime.OnLostDay] at hkept
    rw [monthLength] at hlength ⊢
    by_cases hfebruary : a.month.toNat = 2
    · rw [if_pos hfebruary] at hlength ⊢
      by_cases hleap : IsLeap (takenYear a.year)
      · rw [if_pos hleap]
        split at hlength <;> omega
      · rw [if_neg hleap]
        have hday29 : a.day.toNat ≠ 29 := fun h29 => hkept ⟨hfebruary, h29, hleap⟩
        split at hlength <;> omega
    · rw [if_neg hfebruary] at hlength ⊢
      exact hlength
  · rintro ⟨hfebruary, h29, hnoleap⟩
    by_contra hlate
    rw [takenYear_of_late (not_le.mp hlate)] at hnoleap
    rw [monthLength, if_pos hfebruary, if_neg hnoleap] at hlength
    omega

/-- A lost leap day has the number of the first of March. -/
theorem dayNumber_of_lost (hlost : a.OnLostDay) :
    dayNumber (takenYear a.year) a.month.toNat a.day.toNat =
      dayNumber (takenYear a.year) 3 1 := by
  obtain ⟨hfebruary, h29, hnoleap⟩ := hlost
  simp [hfebruary, h29, dayNumber, daysInMonths, monthLength, hnoleap]

/-- A date in the February of a common year. -/
theorem day_le_of_common {year month day : Nat} (hdate : IsDate year month day)
    (hcommon : ¬ IsLeap year) (hfebruary : month = 2) : day ≤ 28 := by
  have hlength := hdate.day_le
  rwa [monthLength, if_pos hfebruary, if_neg hcommon] at hlength

theorem isDate_march (year : Nat) : IsDate year 3 1 :=
  ⟨by decide, by decide, by decide, by simp [monthLength]⟩

/-- The order of the converted times, day first. -/
theorem timeT_lt_iff (ha : a.Valid) (hb : b.Valid) :
    timeEfiTimeToTimeT a < timeEfiTimeToTimeT b ↔
      dayNumber (takenYear a.year) a.month.toNat a.day.toNat <
          dayNumber (takenYear b.year) b.month.toNat b.day.toNat ∨
        dayNumber (takenYear a.year) a.month.toNat a.day.toNat =
            dayNumber (takenYear b.year) b.month.toNat b.day.toNat ∧
          a.secondOfDay < b.secondOfDay := by
  have hsecond := ha.secondOfDay_lt
  have hsecond' := hb.secondOfDay_lt
  rw [ha.timeT_eq, hb.timeT_eq]
  omega

theorem timeT_lt_iff_taken (ha : a.Valid) (hb : b.Valid) (hab : a.Earlier b) :
    timeEfiTimeToTimeT a < timeEfiTimeToTimeT b ↔ a.TakenEarlier b ∧ ¬ a.FallsOn b := by
  have hreal := (fieldsIn_lt_iff ha hb _ _).mp hab
  obtain ⟨hdate, hearly⟩ := ha.isDate_taken
  obtain ⟨hdate', hearly'⟩ := hb.isDate_taken
  rw [timeT_lt_iff ha hb, EfiTime.TakenEarlier, fieldsIn_lt_iff ha hb, EfiTime.FallsOn]
  by_cases hlost : a.OnLostDay
  · rw [and_iff_right hlost, dayNumber_of_lost hlost]
    have hnoday := hlost
    obtain ⟨hfebruary, h29, hcommon⟩ := hnoday
    by_cases hlost' : b.OnLostDay
    · rw [dayNumber_of_lost hlost', (isDate_march _).time_lt_iff (isDate_march _)]
      obtain ⟨hfebruary', h29', _⟩ := hlost'
      omega
    · have hshort : takenYear a.year = takenYear b.year → b.month.toNat = 2 →
          b.day.toNat ≤ 28 :=
        fun hyear => day_le_of_common (hdate' hlost') (hyear ▸ hcommon)
      have hday := hb.date.day_pos
      have hmonth := hb.date.month_pos
      rw [(isDate_march _).time_lt_iff (hdate' hlost')]
      omega
  · have hnever : ¬ (a.OnLostDay ∧ takenYear a.year = takenYear b.year ∧
        b.month.toNat = 3 ∧ b.day.toNat = 1 ∧ b.secondOfDay ≤ a.secondOfDay) :=
      fun hfalls => hlost hfalls.1
    rw [and_iff_left hnever]
    by_cases hlost' : b.OnLostDay
    · have hyear' := takenYear_of_early (hearly' hlost')
      have hbefore : a.year.toNat ≤ 2000 := by
        have hlate := hearly' hlost'
        omega
      have hyear := takenYear_of_early hbefore
      have hday := ha.date.day_pos
      rw [dayNumber_of_lost hlost', (hdate hlost).time_lt_iff (isDate_march _)]
      obtain ⟨hfebruary', h29', hcommon⟩ := hlost'
      have hshort : takenYear a.year = takenYear b.year → a.month.toNat = 2 →
          a.day.toNat ≤ 28 :=
        fun hsame => day_le_of_common (hdate hlost) (hsame ▸ hcommon)
      omega
    · rw [(hdate hlost).time_lt_iff (hdate' hlost')]

/-- Dates after 2000 are taken for themselves, and no leap day is lost. -/
theorem timeT_lt_of_late (ha : a.Valid) (hb : b.Valid) (hab : a.Earlier b)
    (hlate : 2000 < a.year.toNat) : timeEfiTimeToTimeT a < timeEfiTimeToTimeT b := by
  have hyears := (fieldsIn_lt_iff ha hb _ _).mp hab
  have hlate' : 2000 < b.year.toNat := by omega
  refine (timeT_lt_iff_taken ha hb hab).mpr ⟨?_, ?_⟩
  · rw [EfiTime.TakenEarlier, takenYear_of_late hlate, takenYear_of_late hlate']
    exact hab
  · intro hfalls
    have hearly := ha.isDate_taken.2 hfalls.1
    omega

end Order

/-- A `time_t` in memory. -/
def Machine.timeAt (m : Machine) (address : UInt64) : Int :=
  (m.mem.load64 address).toInt64.toInt

theorem timeWord_toInt (time : EfiTime) :
    (timeWord time).toInt64.toInt = timeEfiTimeToTimeT time := by
  rw [timeWord, timeEfiTimeToTimeT, Words.ofInt_toInt]

/-- The times of a described file are its dates as converted. -/
theorem fdEfiStat_times (p : Platform) (m : Machine) (buf : UInt64) (handle : FileHandle)
    (hinfo : efiError (statInfoAnswer p m buf handle).reply.status = false) :
    ∃ m', (fdEfiStat p buf handle).run m = .ok 0 m' ∧
      m'.timeAt (buf + 72) = timeEfiTimeToTimeT
        (statInfoAnswer p m buf handle).reply.info.lastAccessTime ∧
      m'.timeAt (buf + 88) = timeEfiTimeToTimeT
        (statInfoAnswer p m buf handle).reply.info.modificationTime ∧
      m'.timeAt (buf + 104) = timeEfiTimeToTimeT
        (statInfoAnswer p m buf handle).reply.info.createTime := by
  obtain ⟨_, _, haccess, hmodification, hcreate⟩ := statInfoMemory_load
    (headedMachine p m buf).mem buf (statInfoAnswer p m buf handle).reply.info
  refine ⟨describedMachine p m buf handle, ?_, ?_, ?_, ?_⟩
  · rw [fdEfiStat_run, if_neg (by simp [hinfo])]
  · rw [Machine.timeAt, describedMachine, haccess, timeWord_toInt]
  · rw [Machine.timeAt, describedMachine, hmodification, timeWord_toInt]
  · rw [Machine.timeAt, describedMachine, hcreate, timeWord_toInt]

/-- The memory after the two words of a `struct timeval`. -/
def clockMemory (mem : Memory) (tv : UInt64) (time : EfiTime) : Memory :=
  (mem.store tv (littleEndian 8 (timeWord time).toNat)).store (tv + 8) (littleEndian 8 0)

theorem clockMemory_load (mem : Memory) (tv : UInt64) (time : EfiTime) :
    (clockMemory mem tv time).load64 tv = timeWord time :=
  (mem.load64_store_pair tv (timeWord time) 0).1

/-- The machine after the clock has been read. -/
def clockMachine (p : Platform) (m : Machine) (tv : UInt64) : Machine :=
  { p.after m .getTime with
    mem := clockMemory m.mem tv (p.answer m .getTime).reply.time }

/-- The clock's time is the firmware's date as converted. -/
theorem timeGettimeofday_time (p : Platform) (m : Machine) (tv : UInt64) :
    ∃ m', (timeGettimeofday p tv).run m = .ok 0 m' ∧
      m'.timeAt tv = timeEfiTimeToTimeT (p.answer m .getTime).reply.time := by
  have hclock : (timeCstdTime p).run m =
      .ok (timeEfiTimeToTimeT (p.answer m .getTime).reply.time) (p.after m .getTime) := by
    rw [timeCstdTime, run_bind_of_ok (uefiCallWrapper_run p rfl m)]
    rfl
  refine ⟨clockMachine p m tv, ?_, ?_⟩
  · rw [timeGettimeofday, run_bind_of_ok hclock, run_bind_of_ok (storeBytes_run _ _ _),
      run_bind_of_ok (storeBytes_run _ _ _), EStateM.run_pure]
    simp only [clockMachine, clockMemory, timeWord, Platform.after_mem]
  · rw [Machine.timeAt, clockMachine, clockMemory_load, timeWord_toInt]

/-- The order of two firmware dates and of the times they are converted to, in file
status and on the clock. -/
theorem file_times_order (a b : EfiTime) (ha : a.Valid) (hb : b.Valid)
    (hab : a.Earlier b) :
    (timeEfiTimeToTimeT a < timeEfiTimeToTimeT b ↔
      a.TakenEarlier b ∧ ¬ a.FallsOn b) ∧
    (2000 < a.year.toNat → timeEfiTimeToTimeT a < timeEfiTimeToTimeT b) ∧
    (∀ (p : Platform) (m : Machine) (buf : UInt64) (handle : FileHandle),
      efiError (statInfoAnswer p m buf handle).reply.status = false →
      ∃ m', (fdEfiStat p buf handle).run m = .ok 0 m' ∧
        m'.timeAt (buf + 72) = timeEfiTimeToTimeT
          (statInfoAnswer p m buf handle).reply.info.lastAccessTime ∧
        m'.timeAt (buf + 88) = timeEfiTimeToTimeT
          (statInfoAnswer p m buf handle).reply.info.modificationTime ∧
        m'.timeAt (buf + 104) = timeEfiTimeToTimeT
          (statInfoAnswer p m buf handle).reply.info.createTime) ∧
    ∀ (p : Platform) (m : Machine) (tv : UInt64),
      ∃ m', (timeGettimeofday p tv).run m = .ok 0 m' ∧
        m'.timeAt tv = timeEfiTimeToTimeT (p.answer m .getTime).reply.time :=
  ⟨timeT_lt_iff_taken ha hb hab, timeT_lt_of_late ha hb hab, fdEfiStat_times,
    timeGettimeofday_time⟩

/-- Two days of which the first is one second past midnight. -/
theorem file_times_order_march :
    (timeEfiTimeToTimeT ⟨2096, 2, 29, 0, 0, 1⟩ < timeEfiTimeToTimeT ⟨2096, 3, 1, 0, 0, 0⟩ ↔
      EfiTime.TakenEarlier ⟨2096, 2, 29, 0, 0, 1⟩ ⟨2096, 3, 1, 0, 0, 0⟩ ∧
        ¬ EfiTime.FallsOn ⟨2096, 2, 29, 0, 0, 1⟩ ⟨2096, 3, 1, 0, 0, 0⟩) ∧
    timeEfiTimeToTimeT ⟨2096, 2, 29, 0, 0, 1⟩ < timeEfiTimeToTimeT ⟨2096, 3, 1, 0, 0, 0⟩ := by
  have horder := file_times_order ⟨2096, 2, 29, 0, 0, 1⟩ ⟨2096, 3, 1, 0, 0, 0⟩
    ⟨by decide, by decide, ⟨by decide, by decide, by decide, by decide⟩, by decide,
      by decide, by decide⟩
    ⟨by decide, by decide, ⟨by decide, by decide, by decide, by decide⟩, by decide,
      by decide, by decide⟩
    (by unfold EfiTime.Earlier; decide)
  exact ⟨horder.1, horder.2.1 (by decide)⟩

/-- The last second of the year 2000 is converted to a later time than the first of
2001, since the year 2000 is taken for 3998. -/
theorem new_year_2001_goes_back :
    ¬ ∀ a b : EfiTime, a.Valid → b.Valid → a.Earlier b →
      timeEfiTimeToTimeT a < timeEfiTimeToTimeT b := by
  intro hall
  have hlt := hall ⟨2000, 12, 31, 23, 59, 59⟩ ⟨2001, 1, 1, 0, 0, 0⟩
    ⟨by decide, by decide, ⟨by decide, by decide, by decide, by decide⟩, by decide,
      by decide, by decide⟩
    ⟨by decide, by decide, ⟨by decide, by decide, by decide, by decide⟩, by decide,
      by decide, by decide⟩
    (by unfold EfiTime.Earlier; decide)
  exact absurd hlt (by decide)

end UefiLinux
