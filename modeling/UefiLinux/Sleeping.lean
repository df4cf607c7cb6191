/-
The sleeping functions of the libc: a time is split into a `struct timeval`, handed to
the timer through a call that selects on nothing, and put together again there.
-/
import UefiLinux.FileTimes
import UefiLinux.Wrappers
import UefiLinux.Reporting

namespace UefiLinux

open Progress Journal Words

section Functions

variable (p : Platform) (fuel : Nat)

/-- Fill in the `struct timeval` at `tv`; the `unsigned` values are widened to the
fields. -/
def storeTimeval (tv : UInt64) (sec usec : UInt32) : M Unit := do
  storeBytes tv (littleEndian 8 sec.toUInt64.toNat)
  storeBytes (tv + 8) (littleEndian 8 usec.toUInt64.toNat)

/-- `sys_select` where it is the call of five arguments; the result is cut to `int`. -/
def sysSelect (nfds : Int32) (rfds wfds efds timeout : UInt64) : M Int :=
  intArg <$> syscallEmuX86_64 p fuel 23 [intWord nfds, rfds, wfds, efds, timeout]

/-- `msleep`, with its `struct timeval` at `tv` -/
def msleep (tv : UInt64) (msecs : UInt32) : M Int := do
  storeTimeval tv (msecs / 1000) (msecs % 1000 * 1000)
  let ret ← sysSelect p fuel 0 0 0 0 tv
  if ret < 0 then
    let m : Machine ← get
    let sec := m.timeAt tv
    let usec := m.timeAt (tv + 8)
    return intArg (UInt64.ofInt
      (sec * 1000 + usec.tdiv 1000 + (if usec.tmod 1000 ≠ 0 then 1 else 0)))
  return 0

/-- `sleep`, with its `struct timeval` at `tv`; the result is `unsigned`. -/
def sleep (tv : UInt64) (seconds : UInt32) : M Int := do
  storeTimeval tv seconds 0
  let ret ← sysSelect p fuel 0 0 0 0 tv
  if ret < 0 then
    let m : Machine ← get
    return ((UInt64.ofInt
      (m.timeAt tv + (if m.timeAt (tv + 8) ≠ 0 then 1 else 0))).toUInt32.toNat : Int)
  return 0

/-- `usleep`, with its `struct timeval` at `tv` -/
def usleep (tv : UInt64) (usecs : UInt32) : M Int := do
  storeTimeval tv (usecs / 1000000) (usecs % 1000000)
  sysSelect p fuel 0 0 0 0 tv

end Functions

/-- The call that `sys_select` makes is the one of its wrapper. -/
theorem sysSelect_call (nfds : Int32) (rfds wfds efds timeout : UInt64) :
    (Wrapper.sysSelect nfds rfds wfds efds timeout).call unistdX86_64 =
      some ⟨23, [intWord nfds, rfds, wfds, efds, timeout]⟩ := rfl

section Checked

/-- The result of an operation, unless it leaves the range of its type. -/
def inRange (low high v : Int) : Option Int :=
  if low ≤ v ∧ v < high then some v else none

def cUInt : Int → Option Int := inRange 0 (2 ^ 32)

def cLong : Int → Option Int := inRange (-2 ^ 63) (2 ^ 63)

def cULong : Int → Option Int := inRange 0 (2 ^ 64)

/-- The fields `{ msecs / 1000, (msecs % 1000) * 1000 }` -/
def msleepSplitChecked (msecs : Int) : Option (Int × Int) := do
  let sec ← cUInt (msecs / 1000)
  let rest ← cUInt (msecs % 1000)
  let usec ← cUInt (rest * 1000)
  return (← cLong sec, ← cLong usec)

/-- The fields `{ seconds, 0 }` -/
def sleepSplitChecked (seconds : Int) : Option (Int × Int) := do
  return (← cLong seconds, 0)

/-- The fields `{ usecs / 1000000, usecs % 1000000 }` -/
def usleepSplitChecked (usecs : Int) : Option (Int × Int) := do
  let sec ← cUInt (usecs / 1000000)
  let usec ← cUInt (usecs % 1000000)
  return (← cLong sec, ← cLong usec)

/-- `duration->tv_sec * 1000000UL + duration->tv_usec` -/
def stallChecked (sec usec : Int) : Option Int := do
  let sec ← cULong sec
  let scaled ← cULong (sec * 1000000)
  let usec ← cULong usec
  cULong (scaled + usec)

/-- The time left that `msleep` puts together after a failure, in `long` -/
def msleepLeftChecked (sec usec : Int) : Option Int := do
  let millis ← cLong (sec * 1000)
  let both ← cLong (millis + usec.tdiv 1000)
  cLong (both + (if usec.tmod 1000 ≠ 0 then 1 else 0))

/-- The time left that `sleep` puts together after a failure -/
def sleepLeftChecked (sec usec : Int) : Option Int := do
  let left ← cLong (sec + (if usec ≠ 0 then 1 else 0))
  cUInt left

theorem inRange_eq_some {low high v : Int} (hlow : low ≤ v) (hhigh : v < high) :
    inRange low high v = some v :=
  if_pos ⟨hlow, hhigh⟩

theorem cUInt_eq_some {v : Int} (hlow : 0 ≤ v) (hhigh : v < 2 ^ 32) : cUInt v = some v :=
  inRange_eq_some hlow hhigh

theorem cLong_eq_some {v : Int} (hlow : -2 ^ 63 ≤ v) (hhigh : v < 2 ^ 63) :
    cLong v = some v :=
  inRange_eq_some hlow hhigh

theorem cULong_eq_some {v : Int} (hlow : 0 ≤ v) (hhigh : v < 2 ^ 64) : cULong v = some v :=
  inRange_eq_some hlow hhigh

/-- The timer's argument is exact for every time that `unsigned` seconds can hold. -/
theorem stallChecked_eq {sec usec : Int} (hsec : 0 ≤ sec ∧ sec < 2 ^ 32)
    (husec : 0 ≤ usec ∧ usec < 1000000) :
    stallChecked sec usec = some (sec * 1000000 + usec) := by
  rw [stallChecked, cULong_eq_some (by omega) (by omega)]
  simp only [Option.bind_eq_bind]
  rw [Option.bind_some, cULong_eq_some (by omega) (by omega), Option.bind_some,
    cULong_eq_some (by omega) (by omega), Option.bind_some,
    cULong_eq_some (by omega) (by omega)]

/-- The microseconds of whole milliseconds are divided without a rest. -/
theorem tdiv_millis (n : Int) : (n % 1000 * 1000).tdiv 1000 = n % 1000 ∧
    (n % 1000 * 1000).tmod 1000 = 0 :=
  ⟨Int.mul_tdiv_cancel _ (by decide), Int.mul_tmod_left _ _⟩

section Splits

variable {n : Int} (hn : 0 ≤ n ∧ n < 2 ^ 32)
include hn

theorem msleepSplitChecked_eq :
    msleepSplitChecked n = some (n / 1000, n % 1000 * 1000) := by
  rw [msleepSplitChecked, cUInt_eq_some (by omega) (by omega)]
  simp only [Option.bind_eq_bind]
  rw [Option.bind_some, cUInt_eq_some (by omega) (by omega), Option.bind_some,
    cUInt_eq_some (by omega) (by omega), Option.bind_some,
    cLong_eq_some (by omega) (by omega), Option.bind_some,
    cLong_eq_some (by omega) (by omega), Option.bind_some]
  rfl

theorem sleepSplitChecked_eq : sleepSplitChecked n = some (n, 0) := by
  rw [sleepSplitChecked, cLong_eq_some (by omega) (by omega)]
  rfl

theorem usleepSplitChecked_eq :
    usleepSplitChecked n = some (n / 1000000, n % 1000000) := by
  rw [usleepSplitChecked, cUInt_eq_some (by omega) (by omega)]
  simp only [Option.bind_eq_bind]
  rw [Option.bind_some, cUInt_eq_some (by omega) (by omega), Option.bind_some,
    cLong_eq_some (by omega) (by omega), Option.bind_some,
    cLong_eq_some (by omega) (by omega), Option.bind_some]
  rfl

theorem msleepLeftChecked_eq :
    msleepLeftChecked (n / 1000) (n % 1000 * 1000) = some n := by
  obtain ⟨hdiv, hmod⟩ := tdiv_millis n
  rw [msleepLeftChecked, hdiv, hmod, if_neg (by decide)]
  simp only [Option.bind_eq_bind]
  rw [cLong_eq_some (by omega) (by omega), Option.bind_some,
    cLong_eq_some (by omega) (by omega), Option.bind_some,
    cLong_eq_some (by omega) (by omega)]
  congr 1
  omega

theorem sleepLeftChecked_eq : sleepLeftChecked n 0 = some n := by
  rw [sleepLeftChecked, if_neg (by decide), cLong_eq_some (by omega) (by omega),
    Option.bind_eq_bind, Option.bind_some, cUInt_eq_some (by omega) (by omega),
    Int.add_zero]

end Splits

end Checked

section Runs

/-- The memory with a `struct timeval` filled in. -/
def Machine.withTimeval (m : Machine) (tv : UInt64) (sec usec : UInt32) : Machine :=
  { m with
    mem := (m.mem.store tv (littleEndian 8 sec.toUInt64.toNat)).store (tv + 8)
      (littleEndian 8 usec.toUInt64.toNat) }

theorem Machine.withTimeval_load (m : Machine) (tv : UInt64) (sec usec : UInt32) :
    (m.withTimeval tv sec usec).mem.load64 tv = sec.toUInt64 ∧
      (m.withTimeval tv sec usec).mem.load64 (tv + 8) = usec.toUInt64 :=
  m.mem.load64_store_pair tv sec.toUInt64 usec.toUInt64

/-- The `long` fields of the `struct timeval`. -/
theorem Machine.withTimeval_timeAt (m : Machine) (tv : UInt64) (sec usec : UInt32) :
    (m.withTimeval tv sec usec).timeAt tv = sec.toNat ∧
      (m.withTimeval tv sec usec).timeAt (tv + 8) = usec.toNat := by
  have hlong : ∀ v : UInt32, v.toUInt64.toInt64.toInt = v.toNat := by
    intro v
    have hword := v.toNat_lt
    rw [← UInt64.ofNat_toNat (x := v.toUInt64), ← ofInt_natCast, UInt32.toNat_toUInt64,
      toInt_ofInt (by omega) (by omega)]
  obtain ⟨hsec, husec⟩ := m.withTimeval_load tv sec usec
  rw [Machine.timeAt, Machine.timeAt, hsec, husec]
  exact ⟨hlong sec, hlong usec⟩

/-- The argument of the timer for a `struct timeval` -/
def stallWord (sec usec : UInt32) : UInt64 := sec.toUInt64 * 1000000 + usec.toUInt64

theorem stallWord_toNat (sec : UInt32) {usec : UInt32} (husec : usec.toNat < 1000000) :
    (stallWord sec usec).toNat = sec.toNat * 1000000 + usec.toNat := by
  have hsec := sec.toNat_lt
  have hmillion : (1000000 : UInt64).toNat = 1000000 := by decide
  rw [stallWord, UInt64.toNat_add, UInt64.toNat_mul, UInt32.toNat_toUInt64,
    UInt32.toNat_toUInt64, hmillion]
  omega

variable (p : Platform) (fuel : Nat)

theorem timeSleep_run (m : Machine) (duration w : UInt64)
    (hw : m.mem.load64 duration * 1000000 + m.mem.load64 (duration + 8) = w) :
    (timeSleep p duration).run m =
      .ok (if efiError (p.answer m (.stall w)).reply.status then
          failure (p.answer m (.stall w)).reply.status
        else 0) (p.after m (.stall w)) := by
  have hget : (get : M Machine).run m = .ok m m := rfl
  have hback : (Call.stall w).mayNotReturn = false := rfl
  rw [timeSleep, run_bind_of_ok hget, hw]
  exact reportedCall_run p hback 0 m

/-- A call that selects on nothing sleeps. -/
theorem sysSelect_run {m m' : Machine} {tv : UInt64} {v : Int}
    (hsleep : (timeSleep p tv).run m = .ok v m') (hlow : -2 ^ 31 ≤ v) (hhigh : v < 2 ^ 31) :
    (sysSelect p fuel 0 0 0 0 tv).run m = .ok v m' := by
  obtain ⟨c, hcall, _, hrun⟩ := Wrapper.reaches_of_plain (w := .sysSelect 0 0 0 0 tv) rfl
  rw [sysSelect_call, Option.some.injEq] at hcall
  have hselect : (fdSelect p (0 : Int32).toInt 0 0 0 tv).run m = .ok v m' := hsleep
  have hword : (syscallEmuX86_64 p fuel 23 [intWord 0, 0, 0, 0, tv]).run m =
      .ok (UInt64.ofInt v) m' := by
    rw [← hcall] at hrun
    rw [hrun p fuel m, Wrapper.handler, Request.exec, asWord_run, hselect]
  rw [sysSelect, map_eq_pure_bind, run_bind_of_ok hword, EStateM.run_pure,
    intArg_ofInt hlow hhigh]

section Timed

variable (m : Machine) (tv : UInt64) (sec usec : UInt32)

/-- The answer of the timer to a `struct timeval` -/
def stallAnswer : Event := p.answer m (.stall (stallWord sec usec))

/-- The machine after the timer has been called with a `struct timeval` -/
def stalledMachine : Machine :=
  p.after (m.withTimeval tv sec usec) (.stall (stallWord sec usec))

theorem stalledMachine_timeAt :
    (stalledMachine p m tv sec usec).timeAt tv = sec.toNat ∧
      (stalledMachine p m tv sec usec).timeAt (tv + 8) = usec.toNat :=
  m.withTimeval_timeAt tv sec usec

/-- The call of the timer gives zero or the firmware's failure. -/
theorem sysSelect_timeval_run :
    (sysSelect p fuel 0 0 0 0 tv).run (m.withTimeval tv sec usec) =
      .ok (if efiError (stallAnswer p m sec usec).reply.status then
          failure (stallAnswer p m sec usec).reply.status
        else 0) (stalledMachine p m tv sec usec) := by
  obtain ⟨hsec, husec⟩ := m.withTimeval_load tv sec usec
  have hsleep := timeSleep_run p (m.withTimeval tv sec usec) tv (stallWord sec usec)
    (by rw [hsec, husec, stallWord])
  have hrange := failure_range (stallAnswer p m sec usec).reply.status
  apply sysSelect_run p fuel hsleep
  · split
    · exact le_trans (by decide) hrange.1
    · decide
  · split
    · exact lt_of_le_of_lt hrange.2 (by decide)
    · decide

/-- A function that puts together the time left once the timer has failed. -/
theorem sleeper_run (left : Machine → Int) :
    (do
      storeTimeval tv sec usec
      let ret ← sysSelect p fuel 0 0 0 0 tv
      if ret < 0 then
        let m : Machine ← get
        return left m
      return 0 : M Int).run m =
      .ok (if efiError (stallAnswer p m sec usec).reply.status then
          left (stalledMachine p m tv sec usec)
        else 0) (stalledMachine p m tv sec usec) := by
  have hstore : (storeTimeval tv sec usec).run m = .ok ⟨⟩ (m.withTimeval tv sec usec) := rfl
  have hnegative := (failure_range (stallAnswer p m sec usec).reply.status).2
  rw [run_bind_of_ok hstore, run_bind_of_ok (sysSelect_timeval_run p fuel m tv sec usec)]
  by_cases hfails : efiError (stallAnswer p m sec usec).reply.status = true
  · rw [if_pos hfails, if_pos hfails, if_pos (by omega)]
    rfl
  · rw [if_neg hfails, if_neg hfails, if_neg (by decide)]
    rfl

end Timed

/-- The function makes a single call of the timer, for so many microseconds: the fields
of its `struct timeval` and the timer's argument are computed exactly.  It returns zero
when the timer succeeds. -/
def SleepsFor (m : Machine) (tv : UInt64) (x : M Int) (fields : Option (Int × Int))
    (micros : Int) (Failed : Int → Int → Int → Prop) : Prop :=
  ∃ v m' w sec usec, x.run m = .ok v m' ∧
    m'.trace = m.trace ++ [p.answer m (.stall w)] ∧ (w.toNat : Int) = micros ∧
    fields = some (sec, usec) ∧ m'.timeAt tv = sec ∧ m'.timeAt (tv + 8) = usec ∧
    stallChecked sec usec = some micros ∧
    if efiError (p.answer m (.stall w)).reply.status then Failed sec usec v else v = 0

/-- A run that has called the timer with its fields filled in. -/
theorem sleepsFor_of_run {m : Machine} {tv : UInt64} {x : M Int} {sec usec : UInt32}
    {v micros : Int} {fields : Option (Int × Int)} {Failed : Int → Int → Int → Prop}
    (hrun : x.run m = .ok v (stalledMachine p m tv sec usec))
    (husec : usec.toNat < 1000000)
    (hmicros : micros = sec.toNat * 1000000 + usec.toNat)
    (hfields : fields = some ((sec.toNat : Int), (usec.toNat : Int)))
    (hfailed : if efiError (stallAnswer p m sec usec).reply.status then
      Failed sec.toNat usec.toNat v else v = 0) :
    SleepsFor p m tv x fields micros Failed := by
  obtain ⟨hsec, husec'⟩ := stalledMachine_timeAt p m tv sec usec
  have hword := stallWord_toNat sec husec
  have hsmall := sec.toNat_lt
  refine ⟨v, _, stallWord sec usec, _, _, hrun, rfl, ?_, hfields, hsec, husec', ?_, hfailed⟩
  · rw [hword, hmicros]
    omega
  · rw [hmicros]
    exact stallChecked_eq (by omega) (by omega)

section Sleepers

variable (m : Machine) (tv : UInt64) (n : UInt32)

theorem unsigned_range : 0 ≤ (n.toNat : Int) ∧ (n.toNat : Int) < 2 ^ 32 :=
  ⟨Int.natCast_nonneg _, by exact_mod_cast n.toNat_lt⟩

/-- The fields of `msleep` as integers -/
theorem msleep_fields : ((n / 1000).toNat : Int) = (n.toNat : Int) / 1000 ∧
    ((n % 1000 * 1000).toNat : Int) = (n.toNat : Int) % 1000 * 1000 := by
  have hthousand : (1000 : UInt32).toNat = 1000 := by decide
  rw [UInt32.toNat_div, UInt32.toNat_mul, UInt32.toNat_mod, hthousand]
  omega

/-- The fields of `usleep` as integers -/
theorem usleep_fields : ((n / 1000000).toNat : Int) = (n.toNat : Int) / 1000000 ∧
    ((n % 1000000).toNat : Int) = (n.toNat : Int) % 1000000 := by
  have hmillion : (1000000 : UInt32).toNat = 1000000 := by decide
  rw [UInt32.toNat_div, UInt32.toNat_mod, hmillion]
  omega

theorem sleep_sleepsFor :
    SleepsFor p m tv (sleep p fuel tv n) (sleepSplitChecked n.toNat) (n.toNat * 1000000)
      fun sec usec v => sleepLeftChecked sec usec = some v ∧ v = n.toNat := by
  have hn := unsigned_range n
  obtain ⟨hsec, husec⟩ := stalledMachine_timeAt p m tv n 0
  have hleft : ((UInt64.ofInt (n.toNat : Int)).toUInt32.toNat : Int) = n.toNat := by
    rw [ofInt_natCast, UInt64.toNat_toUInt32, UInt64.toNat_ofNat']
    omega
  refine sleepsFor_of_run p (sleeper_run p fuel m tv n 0 _) (by decide) (by simp)
    (sleepSplitChecked_eq hn) ?_
  split
  · rw [hsec, husec, if_neg (by decide), Int.add_zero, hleft]
    exact ⟨sleepLeftChecked_eq hn, rfl⟩
  · rfl

theorem msleep_sleepsFor :
    SleepsFor p m tv (msleep p fuel tv n) (msleepSplitChecked n.toNat) (n.toNat * 1000)
      fun sec usec v => msleepLeftChecked sec usec = some (n.toNat : Int) ∧
        (n.toNat < 2 ^ 31 → v = n.toNat) := by
  have hn := unsigned_range n
  obtain ⟨hsec, husec⟩ := msleep_fields n
  obtain ⟨hmillis, hrest⟩ := tdiv_millis (n.toNat : Int)
  obtain ⟨hat, hat'⟩ := stalledMachine_timeAt p m tv (n / 1000) (n % 1000 * 1000)
  refine sleepsFor_of_run p (sleeper_run p fuel m tv _ _ _) (by omega) (by omega) ?_ ?_
  · rw [hsec, husec, msleepSplitChecked_eq hn]
  · split
    · rw [hat, hat', hsec, husec, hmillis, hrest, if_neg (by decide)]
      refine ⟨msleepLeftChecked_eq hn, fun hsmall => ?_⟩
      rw [intArg_ofInt (by omega) (by omega)]
      omega
    · rfl

theorem usleep_sleepsFor :
    SleepsFor p m tv (usleep p fuel tv n) (usleepSplitChecked n.toNat) n.toNat
      fun _ _ v => IsErrno v := by
  have hn := unsigned_range n
  obtain ⟨hsec, husec⟩ := usleep_fields n
  have hstore : (storeTimeval tv (n / 1000000) (n % 1000000)).run m =
      .ok ⟨⟩ (m.withTimeval tv (n / 1000000) (n % 1000000)) := rfl
  have hrun := run_bind_of_ok (f := fun _ => sysSelect p fuel 0 0 0 0 tv) hstore
  rw [sysSelect_timeval_run] at hrun
  refine sleepsFor_of_run p hrun (by omega) (by omega) ?_ ?_
  · rw [hsec, husec, usleepSplitChecked_eq hn]
  · split
    · exact failure_isErrno _
    · rfl

end Sleepers

end Runs

/-- Each sleeping function stalls once, for exactly the time asked for, without a
wrap-around on the way.  When the timer fails, `sleep` and `msleep` return the time asked
for and `usleep` an errno. -/
theorem sleeps_exactly (p : Platform) (fuel : Nat) (m : Machine) (tv : UInt64)
    (n : UInt32) :
    SleepsFor p m tv (sleep p fuel tv n) (sleepSplitChecked n.toNat) (n.toNat * 1000000)
        (fun sec usec v => sleepLeftChecked sec usec = some v ∧ v = n.toNat) ∧
      SleepsFor p m tv (msleep p fuel tv n) (msleepSplitChecked n.toNat) (n.toNat * 1000)
        (fun sec usec v => msleepLeftChecked sec usec = some (n.toNat : Int) ∧
          (n.toNat < 2 ^ 31 → v = n.toNat)) ∧
      SleepsFor p m tv (usleep p fuel tv n) (usleepSplitChecked n.toNat) n.toNat
        (fun _ _ v => IsErrno v) :=
  ⟨sleep_sleepsFor p fuel m tv n, msleep_sleepsFor p fuel m tv n,
    usleep_sleepsFor p fuel m tv n⟩

end UefiLinux
