/-
The conversion of dates once more, with every signed operation checked: an operation on
`int` whose result does not fit gives no value.
-/
import UefiLinux.Dates

namespace UefiLinux

open Calendar Words

/-- The result of an operation on `int`, unless it overflows. -/
def cInt (v : Int) : Option Int :=
  if -2 ^ 31 ≤ v ∧ v < 2 ^ 31 then some v else none

theorem cInt_eq_some {v : Int} (hlow : -2 ^ 31 ≤ v) (hhigh : v < 2 ^ 31) :
    cInt v = some v :=
  if_pos ⟨hlow, hhigh⟩

/-- The centuries of a cycle that are over and the years of the next -/
def centuriesChecked (rem : Int) : Option (Int × Int) :=
  if rem ≥ 300 then (cInt (rem - 300)).map ((3 : Int), ·)
  else if rem ≥ 200 then (cInt (rem - 200)).map ((2 : Int), ·)
  else if rem ≥ 100 then (cInt (rem - 100)).map ((1 : Int), ·)
  else some ((0 : Int), rem)

/-- `leaps += 97*cycles + 24*centuries - *is_leap` -/
def leapsChecked (cycles centuries leaps : Int) (isLeap : Bool) : Option Int := do
  let perCycle ← cInt (97 * cycles)
  let perCentury ← cInt (24 * centuries)
  let both ← cInt (perCycle + perCentury)
  let added ← cInt (both - (if isLeap then 1 else 0))
  cInt (leaps + added)

/-- `time_year_to_secs` with its signed operations checked -/
def timeYearToSecsChecked (year : UInt64) : Option (UInt64 × Bool) :=
  if year - 2 ≤ 136 then do
    let y : Int := year.toNat
    let fromLeap ← cInt (y - 68)
    let leaps := fromLeap >>> (2 : Nat)
    let fromEpoch ← cInt (y - 70)
    if fromLeap % 4 = 0 then
      let leaps ← cInt (leaps - 1)
      return (31536000 * UInt64.ofInt fromEpoch + 86400 * UInt64.ofInt leaps, true)
    else
      return (31536000 * UInt64.ofInt fromEpoch + 86400 * UInt64.ofInt leaps, false)
  else do
    let cycles : Int := ((year - 100) / 400).toUInt32.toInt32.toInt
    let rem : Int := ((year - 100) % 400).toNat
    let (centuries, rem') ← centuriesChecked rem
    let (leaps, isLeap) : Int × Bool :=
      if rem = 0 then (0, true)
      else if rem' = 0 then (0, false)
      else (rem' / 4, decide (rem' % 4 = 0))
    let leaps ← leapsChecked cycles centuries leaps isLeap
    return ((year - 100) * 31536000 + UInt64.ofInt leaps * 86400 + 946684800 + 86400,
      isLeap)

/-- `time_efi_time_to_time_t` with its signed operations checked -/
def timeEfiTimeToTimeTChecked (time : EfiTime) : Option Int := do
  let year16 ← cInt ((time.year.toNat : Int) + (if time.year > 2000 then -1900 else 98))
  let month8 ← cInt ((time.month.toNat : Int) - 1)
  let month := (UInt8.ofInt month8).toNat
  let (year, month) :=
    if month ≥ 12 then
      ((UInt16.ofInt year16).toUInt64 + UInt64.ofNat month / 12, month % 12)
    else ((UInt16.ofInt year16).toUInt64, month)
  let (secs, isLeap) ← timeYearToSecsChecked year
  let t := secs + secsThroughMonth.getD month 0
  let t := if isLeap ∧ month ≥ 2 then t + 86400 else t
  let day ← cInt ((time.day.toNat : Int) - 1)
  let t := t + 86400 * UInt64.ofInt day
  let t := t + 3600 * time.hour.toUInt64
  let t := t + 60 * time.minute.toUInt64
  let t := t + time.second.toUInt64
  return t.toInt64.toInt

theorem timeYearToSecsChecked_near {n : Nat} (hlow : 2 ≤ n) (hhigh : n ≤ 138) :
    timeYearToSecsChecked (UInt64.ofNat n) = some (timeYearToSecs (UInt64.ofNat n)) := by
  have hnat : (UInt64.ofNat n).toNat = n := by
    rw [UInt64.toNat_ofNat', Nat.mod_eq_of_lt (by omega)]
  have hbranch : UInt64.ofNat n - 2 ≤ 136 := (nearYear_iff hlow (by omega)).mpr hhigh
  have hfromLeap : cInt ((n : Int) - 68) = some ((n : Int) - 68) :=
    cInt_eq_some (by omega) (by omega)
  have hfromEpoch : cInt ((n : Int) - 70) = some ((n : Int) - 70) :=
    cInt_eq_some (by omega) (by omega)
  have hleaps : cInt (((n : Int) - 68) >>> (2 : Nat) - 1) =
      some (((n : Int) - 68) >>> (2 : Nat) - 1) := by
    rw [Int.shiftRight_eq_div_pow]
    exact cInt_eq_some (by omega) (by omega)
  simp only [timeYearToSecsChecked, timeYearToSecs, if_pos hbranch, hnat, hfromLeap,
    hfromEpoch, hleaps, Option.bind_eq_bind, Option.bind_some]
  split <;> rfl

theorem centuriesChecked_eq {rem : Int} (hlow : 0 ≤ rem) (hhigh : rem < 400) :
    centuriesChecked rem = some (rem / 100, rem % 100) := by
  have hfits : ∀ k : Int, 0 ≤ k → k < 400 → cInt (rem - k) = some (rem - k) :=
    fun k hk hk' => cInt_eq_some (by omega) (by omega)
  rw [← centuries_eq hlow hhigh, centuriesChecked, hfits 300 (by decide) (by decide),
    hfits 200 (by decide) (by decide), hfits 100 (by decide) (by decide)]
  split
  · rfl
  · split
    · rfl
    · split
      · rfl
      · rfl

theorem leapsChecked_eq {cycles centuries leaps : Int} (isLeap : Bool)
    (hcycles : 0 ≤ cycles ∧ cycles < 2 ^ 24) (hcenturies : 0 ≤ centuries ∧ centuries < 4)
    (hleaps : 0 ≤ leaps ∧ leaps < 25) :
    leapsChecked cycles centuries leaps isLeap =
      some (leaps + 97 * cycles + 24 * centuries - (if isLeap then 1 else 0)) := by
  have hflag : 0 ≤ (if isLeap then (1 : Int) else 0) ∧
      (if isLeap then (1 : Int) else 0) ≤ 1 := by
    cases isLeap <;> decide
  rw [leapsChecked, cInt_eq_some (by omega) (by omega)]
  simp only [Option.bind_eq_bind]
  rw [Option.bind_some,
    cInt_eq_some (by omega) (by omega), Option.bind_some,
    cInt_eq_some (by omega) (by omega), Option.bind_some,
    cInt_eq_some (by omega) (by omega), Option.bind_some,
    cInt_eq_some (by omega) (by omega)]
  congr 1
  omega

theorem timeYearToSecsChecked_far {n : Nat} (hlow : 138 < n) (hhigh : n < 2 ^ 31) :
    timeYearToSecsChecked (UInt64.ofNat n) = some (timeYearToSecs (UInt64.ofNat n)) := by
  have hbranch : ¬ UInt64.ofNat n - 2 ≤ 136 := by
    rw [nearYear_iff (by omega) (by omega)]
    exact not_le.mpr hlow
  have hlate : 100 ≤ n := by omega
  obtain ⟨hcycles, hrem⟩ := cycles_eq (n := n - 100) (by omega)
  have hcenturies := @centuries_eq ((n - 100) % 400 : Nat) (by omega) (by omega)
  have hcenturies' := @centuriesChecked_eq ((n - 100) % 400 : Nat) (by omega) (by omega)
  have hleaps : ∀ (leaps : Int) (isLeap : Bool), 0 ≤ leaps ∧ leaps < 25 →
      leapsChecked ((n - 100) / 400 : Nat) (((n - 100) % 400 : Nat) / 100) leaps isLeap =
        some (leaps + 97 * ((n - 100) / 400 : Nat) +
          24 * (((n - 100) % 400 : Nat) / 100) - (if isLeap then 1 else 0)) :=
    fun leaps isLeap hrange =>
      leapsChecked_eq isLeap ⟨by omega, by omega⟩ ⟨by omega, by omega⟩ hrange
  rw [timeYearToSecsChecked, timeYearToSecs, if_neg hbranch, if_neg hbranch,
    ofNat_sub_hundred hlate, hcycles, hrem]
  simp only [hcenturies', hcenturies]
  rw [Option.bind_eq_bind, Option.bind_some]
  by_cases hcycle : ((n - 100) % 400 : Nat) = (0 : Int)
  · rw [if_pos hcycle]
    simp only
    rw [hleaps 0 true (by decide), Option.bind_eq_bind, Option.bind_some]
    rfl
  · rw [if_neg hcycle]
    by_cases hcentury : ((n - 100) % 400 : Nat) % 100 = (0 : Int)
    · rw [if_pos hcentury]
      simp only
      rw [hleaps 0 false (by decide), Option.bind_eq_bind, Option.bind_some]
      rfl
    · rw [if_neg hcentury]
      simp only
      rw [hleaps _ _ (by omega), Option.bind_eq_bind, Option.bind_some]
      rfl

/-- No signed operation of `time_year_to_secs` overflows. -/
theorem timeYearToSecsChecked_eq {n : Nat} (hlow : 2 ≤ n) (hhigh : n < 2 ^ 31) :
    timeYearToSecsChecked (UInt64.ofNat n) = some (timeYearToSecs (UInt64.ofNat n)) := by
  by_cases hnear : n ≤ 138
  · exact timeYearToSecsChecked_near hlow hnear
  · exact timeYearToSecsChecked_far (not_le.mp hnear) hhigh

theorem rebased_eq (year : UInt16) :
    UInt16.ofInt ((year.toNat : Int) + (if year > 2000 then -1900 else 98)) =
      year + (if year > 2000 then UInt16.ofInt (-1900) else 98) := by
  have hyear : UInt16.ofInt (year.toNat : Int) = year := by
    apply UInt16.toNat.inj
    have hword := year.toNat_lt
    change ((year.toNat : Int) % 2 ^ 16).toNat % 2 ^ 16 = year.toNat
    omega
  rw [UInt16.ofInt_add, hyear]
  split
  · rfl
  · rfl

theorem monthByte_eq (month : UInt8) :
    UInt8.ofInt ((month.toNat : Int) - 1) = month - 1 := by
  apply UInt8.toNat.inj
  have hword := month.toNat_lt
  rw [UInt8.toNat_sub]
  change (((month.toNat : Int) - 1) % 2 ^ 8).toNat % 2 ^ 8 = (2 ^ 8 - 1 + month.toNat) % 2 ^ 8
  omega

/-- No signed operation of the conversion overflows, whatever the date. -/
theorem timeEfiTimeToTimeTChecked_eq (time : EfiTime) :
    timeEfiTimeToTimeTChecked time = some (timeEfiTimeToTimeT time) := by
  have hyear := time.year.toNat_lt
  have hmonth := time.month.toNat_lt
  have hday := time.day.toNat_lt
  have hrange := time.civilYear_range
  have hrebased : cInt ((time.year.toNat : Int) + (if time.year > 2000 then -1900 else 98)) =
      some ((time.year.toNat : Int) + (if time.year > 2000 then -1900 else 98)) := by
    split
    · exact cInt_eq_some (by omega) (by omega)
    · exact cInt_eq_some (by omega) (by omega)
  have hmonth8 : cInt ((time.month.toNat : Int) - 1) = some ((time.month.toNat : Int) - 1) :=
    cInt_eq_some (by omega) (by omega)
  have hday8 : cInt ((time.day.toNat : Int) - 1) = some ((time.day.toNat : Int) - 1) :=
    cInt_eq_some (by omega) (by omega)
  have hsecs := timeYearToSecsChecked_eq (n := time.civilYear - 1900) (by omega) (by omega)
  rw [timeEfiTimeToTimeTChecked, timeEfiTimeToTimeT, hrebased, Option.bind_eq_bind,
    Option.bind_some, hmonth8, Option.bind_eq_bind, Option.bind_some]
  simp only [rebased_eq, monthByte_eq, carried_eq]
  rw [hsecs, Option.bind_some, hday8, Option.bind_some]
  rfl

end UefiLinux
