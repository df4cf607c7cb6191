/-
The clock over sessions.  Where the firmware's clock never goes back and runs on while the
timer stalls, the times that a program reads do the same.
-/
import UefiLinux.Library.Timeline
import UefiLinux.OpenFiles
import UefiLinux.Sessions
import UefiLinux.Sleeping

namespace UefiLinux

open Progress Journal Words Calendar

/-- The seconds of a valid date since the beginning of 1970. -/
def EfiTime.unixTime (time : EfiTime) : Int :=
  86400 * ((dayNumber time.year.toNat time.month.toNat time.day.toNat : Int) -
    dayNumber 1970 1 1) + time.secondOfDay

theorem EfiTime.Valid.timeT_eq_unixTime {time : EfiTime} (hvalid : time.Valid)
    (hyear : 2001 ≤ time.year.toNat) : timeEfiTimeToTimeT time = time.unixTime := by
  rw [hvalid.timeT_eq, takenYear_of_late hyear, EfiTime.unixTime]

/-- The microseconds for which a call of the timer has stalled. -/
def Event.stalled (e : Event) : Nat :=
  match e.call with
  | .stall microseconds => if efiError e.reply.status then 0 else microseconds.toNat
  | _ => 0

/-- Behind the base, the firmware's clock, in microseconds since the beginning of 1970,
never goes back and runs on through the stalls, and its dates tell it to the second. -/
structure KeepsTime (clock : List Event → Nat) (base log : List Event) : Prop where
  ticks : Ticks Event.stalled clock base log
  tells : ∀ before e after, log = before ++ e :: after → base <+: before →
    e.call = .getTime → e.reply.time.Valid ∧ 2001 ≤ e.reply.time.year.toNat ∧
      e.reply.time.unixTime = ((clock before / 1000000 : Nat) : Int)

/-- The time in microseconds that an action has slept for: a call that selects on nothing
and returns zero sleeps for the time in its `struct timeval`. -/
def Action.slept (act : Action) (m : Machine) : Nat :=
  match act with
  | .store _ _ => 0
  | .call c word =>
      match dispatch c.no c.args with
      | .ok (.fdSelect nfds readfds writefds exceptfds timeout) =>
          if nfds = 0 ∧ readfds = 0 ∧ writefds = 0 ∧ exceptfds = 0 ∧ word = 0 then
            (m.mem.load64 timeout * 1000000 + m.mem.load64 (timeout + 8)).toNat
          else 0
      | _ => 0

section Clock

variable {p : Platform} {m m' : Machine} {c : SysCall} {word : UInt64} {act : Action}

@[simp] theorem clockMachine_trace (p : Platform) (m : Machine) (tv : UInt64) :
    (clockMachine p m tv).trace = m.trace ++ [p.answer m .getTime] := rfl

theorem timeGettimeofday_run (p : Platform) (tv : UInt64) (m : Machine) :
    (timeGettimeofday p tv).run m = .ok 0 (clockMachine p m tv) := by
  have hclock : (timeCstdTime p).run m =
      .ok (timeEfiTimeToTimeT (p.answer m .getTime).reply.time) (p.after m .getTime) := by
    rw [timeCstdTime, run_bind_of_ok (uefiCallWrapper_run p rfl m)]
    rfl
  rw [timeGettimeofday, run_bind_of_ok hclock, run_bind_of_ok (storeBytes_run _ _ _),
    run_bind_of_ok (storeBytes_run _ _ _), EStateM.run_pure]
  simp only [clockMachine, clockMemory, timeWord, Platform.after_mem]

/-- Reading the clock takes one call of the firmware and stores what it tells. -/
theorem SysCall.Ends.gettimeofday {tv : UInt64} (hends : c.Ends p m (.ok word m'))
    (hdispatch : dispatch c.no c.args = .ok (.timeGettimeofday tv)) :
    m'.trace = m.trace ++ [p.answer m .getTime] ∧
      m'.timeAt tv = timeEfiTimeToTimeT (p.answer m .getTime).reply.time := by
  rcases c.ends_cases p hends with ⟨r, fuel, hdispatch', hrun⟩ | ⟨why, herror, _⟩
  · rw [hdispatch, Except.ok.injEq] at hdispatch'
    subst hdispatch'
    obtain ⟨v, hrun', _⟩ := asWord_eq_ok.mp hrun.symm
    rw [timeGettimeofday_run, EStateM.Result.ok.injEq] at hrun'
    obtain ⟨_, rfl⟩ := hrun'
    refine ⟨rfl, ?_⟩
    rw [Machine.timeAt, clockMachine, clockMemory_load, timeWord_toInt]
  · rw [hdispatch] at herror
    cases herror

theorem SysCall.ends_gettimeofday {tv : UInt64} (p : Platform) (m : Machine)
    (hdispatch : dispatch c.no c.args = .ok (.timeGettimeofday tv)) :
    c.Ends p m (.ok 0 (clockMachine p m tv)) := by
  refine ⟨0, ?_⟩
  rw [syscallEmuX86_64, hdispatch]
  exact asWord_eq_ok.mpr ⟨0, timeGettimeofday_run p tv m, rfl⟩

theorem SysCall.ends_sleep {timeout w : UInt64}
    (hdispatch : dispatch c.no c.args = .ok (.fdSelect 0 0 0 0 timeout))
    (hw : m.mem.load64 timeout * 1000000 + m.mem.load64 (timeout + 8) = w)
    (hok : efiError (p.answer m (.stall w)).reply.status = false) :
    c.Ends p m (.ok 0 (p.after m (.stall w))) := by
  refine ⟨0, ?_⟩
  rw [syscallEmuX86_64, hdispatch]
  refine asWord_eq_ok.mpr ⟨0, (timeSleep_run p m timeout w hw).trans ?_, rfl⟩
  rw [if_neg (by simp [hok])]

/-- A time that was read is the firmware's. -/
theorem SysCall.Ends.tells {clock : List Event → Nat} {base log : List Event} {tv : UInt64}
    (hends : c.Ends p m (.ok word m'))
    (hdispatch : dispatch c.no c.args = .ok (.timeGettimeofday tv))
    (hclock : KeepsTime clock base log) (hbase : base <+: m.trace) (hlog : m'.trace <+: log) :
    m'.timeAt tv = ((clock m.trace / 1000000 : Nat) : Int) := by
  obtain ⟨htrace, htime⟩ := hends.gettimeofday hdispatch
  obtain ⟨after, hafter⟩ := hlog
  have hsplit : log = m.trace ++ p.answer m .getTime :: after := by
    rw [← hafter, htrace, List.append_assoc]
    rfl
  obtain ⟨hvalid, hyear, htold⟩ := hclock.tells _ _ _ hsplit hbase rfl
  rw [htime, hvalid.timeT_eq_unixTime hyear, htold]

/-- A sleep that returns zero has called the timer, which has not failed. -/
theorem timeSleep_of_zero {timeout w : UInt64} {v : Int}
    (hw : m.mem.load64 timeout * 1000000 + m.mem.load64 (timeout + 8) = w)
    (hrun : (timeSleep p timeout).run m = .ok v m') (hzero : UInt64.ofInt v = 0) :
    m' = p.after m (.stall w) ∧ (p.answer m (.stall w)).stalled = w.toNat := by
  rw [timeSleep_run p m timeout w hw, EStateM.Result.ok.injEq] at hrun
  obtain ⟨hv, rfl⟩ := hrun
  have hok : ¬ efiError (p.answer m (.stall w)).reply.status = true := by
    intro hfails
    have herrno : ErrnoWord (UInt64.ofInt v) := by
      rw [← hv, if_pos hfails]
      exact errnoWord_of_isErrno (failure_isErrno _)
    rw [hzero] at herrno
    exact absurd herrno (by decide)
  exact ⟨rfl, if_neg hok⟩

/-- A sleep that succeeds has stalled for the time asked. -/
theorem SysCall.Ends.stalled (hends : c.Ends p m (.ok word m')) :
    ∃ new, m'.trace = m.trace ++ new ∧
      (Action.call c word).slept m ≤ (new.map Event.stalled).sum := by
  by_cases hzero : (Action.call c word).slept m = 0
  · obtain ⟨new, htrace, _⟩ := hends.calls
    exact ⟨new, htrace, hzero ▸ Nat.zero_le _⟩
  · rcases c.ends_cases p hends with ⟨r, fuel, hdispatch, hrun⟩ | ⟨why, _, hrun⟩
    · simp only [Action.slept, hdispatch] at hzero ⊢
      cases r with
      | fdSelect nfds readfds writefds exceptfds timeout =>
          simp only at hzero ⊢
          split at hzero
          · rename_i hselects
            obtain ⟨rfl, rfl, rfl, rfl, rfl⟩ := hselects
            obtain ⟨v, hrun', hword⟩ := asWord_eq_ok.mp hrun.symm
            rw [if_pos ⟨rfl, rfl, rfl, rfl, rfl⟩]
            generalize hw : m.mem.load64 timeout * 1000000 + m.mem.load64 (timeout + 8) = w
            obtain ⟨rfl, hstalled⟩ := timeSleep_of_zero hw hrun' hword.symm
            refine ⟨[p.answer m (.stall w)], rfl, ?_⟩
            rw [List.map_singleton, List.sum_singleton, hstalled]
          · exact absurd rfl hzero
      | _ => exact absurd rfl hzero
    · cases hrun

theorem Action.Does.stalled (hdoes : act.Does p m m') :
    ∃ new, m'.trace = m.trace ++ new ∧ act.slept m ≤ (new.map Event.stalled).sum := by
  cases hdoes with
  | store address bytes m => exact ⟨[], (List.append_nil _).symm, Nat.le_refl _⟩
  | call hends => exact hends.stalled

/-- A session with the time that its sleeps have taken. -/
abbrev TimedSession (p : Platform) (m : Machine) (acts : List Action) (m' : Machine)
    (slept : Nat) : Prop :=
  Run (Tallied (Action.Does p) Action.slept) (m, 0) acts (m', slept)

/-- Whatever a program does between two readings of the clock, the second is not before the
first, and it is later by at least the whole seconds for which the program has slept. -/
theorem clock_keeps_up {clock : List Event → Nat} {first second : SysCall} {tv tv' : UInt64}
    {word' : UInt64} {acts : List Action} {slept : Nat} {m₁ m₂ m₃ : Machine}
    (hfirst : first.Ends p m (.ok word m₁)) (hbetween : TimedSession p m₁ acts m₂ slept)
    (hsecond : second.Ends p m₂ (.ok word' m₃))
    (hreads : dispatch first.no first.args = .ok (.timeGettimeofday tv))
    (hreads' : dispatch second.no second.args = .ok (.timeGettimeofday tv'))
    (hclock : KeepsTime clock m.trace m₃.trace) :
    m₁.timeAt tv + (slept / 1000000 : Nat) ≤ m₃.timeAt tv' := by
  obtain ⟨htrace, _⟩ := hfirst.gettimeofday hreads
  have hstalled : ∀ act s s', Action.Does p act s s' → ∃ new, s'.trace = s.trace ++ new ∧
      act.slept s ≤ (new.map Event.stalled).sum := fun _ _ _ hdoes => hdoes.stalled
  obtain ⟨new, hlog, hle⟩ := tally_le Machine.trace hstalled hbetween
  obtain ⟨htrace', _⟩ := hsecond.gettimeofday hreads'
  simp only [Nat.zero_add] at hlog hle
  have hlast : m₂.trace <+: m₃.trace := ⟨_, htrace'.symm⟩
  have hmiddle : m₁.trace <+: m₂.trace := ⟨new, hlog.symm⟩
  have hstart : m.trace <+: m₁.trace := ⟨_, htrace.symm⟩
  rw [hfirst.tells hreads hclock (List.prefix_refl _) (hmiddle.trans hlast),
    hsecond.tells hreads' hclock (hstart.trans hmiddle) (List.prefix_refl _)]
  have hrun : clock m.trace + ((([p.answer m .getTime] ++ new)).map Event.stalled).sum ≤
      clock (m.trace ++ ([p.answer m .getTime] ++ new)) := by
    refine hclock.ticks.sum_le (List.prefix_refl _) ?_
    rw [← List.append_assoc, ← htrace, ← hlog]
    exact hlast
  rw [← List.append_assoc, ← htrace, ← hlog, List.map_append, List.sum_append] at hrun
  omega

/-- The microseconds for which the calls of a journal have stalled. -/
def stalledIn (log : List Event) : Nat := (log.map Event.stalled).sum

/-- The beginning of the year 2024, so many seconds later. -/
def newYear (seconds : Nat) : EfiTime := ⟨2024, 1, 1, 0, 0, UInt8.ofNat seconds⟩

/-- Firmware whose clock stands at the beginning of a year and moves while it stalls. -/
def stallingFirmware : Platform where
  volume := 0
  reply := fun log _ =>
    { Reply.ofStatus efiSuccess with time := newYear (stalledIn log / 1000000) }
  residue := fun _ => ⟨efiSuccess, 0, EfiFileInfo.zero⟩

def stallingClock (log : List Event) : Nat :=
  (newYear 0).unixTime.toNat * 1000000 + stalledIn log

theorem stallingClock_ticks (base log : List Event) :
    Ticks Event.stalled stallingClock base log := by
  intro before e after _ _
  simp [stallingClock, stalledIn, Nat.add_assoc]

theorem newYear_tells {seconds : Nat} (hsmall : seconds < 60) :
    (newYear seconds).Valid ∧ (newYear seconds).unixTime =
      (((newYear 0).unixTime.toNat + seconds : Nat) : Int) := by
  have hseconds : (UInt8.ofNat seconds).toNat = seconds := by
    rw [UInt8.toNat_ofNat']
    exact Nat.mod_eq_of_lt (by omega)
  have hyears : dayNumber 1970 1 1 ≤ dayNumber 2024 1 1 := by
    rw [dayNumber_first, dayNumber_first]
    exact daysBeforeYear_mono (by decide)
  have hfirst : (newYear 0).unixTime =
      86400 * ((dayNumber 2024 1 1 : Int) - dayNumber 1970 1 1) := by
    rw [EfiTime.unixTime]
    exact Int.add_zero _
  have hnow : (newYear seconds).unixTime = (newYear 0).unixTime + seconds := by
    rw [hfirst, EfiTime.unixTime, EfiTime.secondOfDay, newYear, hseconds]
    change 86400 * ((dayNumber 2024 1 1 : Int) - dayNumber 1970 1 1) +
      ((3600 * 0 + 60 * 0 + seconds : Nat) : Int) = _
    rw [show 3600 * 0 + 60 * 0 + seconds = seconds by omega]
  have hdate : IsDate 2024 1 1 := ⟨by decide, by decide, by decide, by decide⟩
  refine ⟨⟨show 1900 ≤ 2024 by decide, show 2024 ≤ 9999 by decide, hdate,
    show 0 < 24 by decide, show 0 < 60 by decide, ?_⟩, by omega⟩
  rw [newYear, hseconds]
  exact hsmall

/-- The clock of this firmware is kept while it has stalled for less than a minute. -/
theorem stallingFirmware_tells {before : List Event} (hsmall : stalledIn before < 60000000) :
    (stallingFirmware.reply before .getTime).time.Valid ∧
      2001 ≤ (stallingFirmware.reply before .getTime).time.year.toNat ∧
      (stallingFirmware.reply before .getTime).time.unixTime =
        ((stallingClock before / 1000000 : Nat) : Int) := by
  obtain ⟨hvalid, htime⟩ := newYear_tells (show stalledIn before / 1000000 < 60 by omega)
  refine ⟨hvalid, show 2001 ≤ 2024 by decide, htime.trans ?_⟩
  rw [stallingClock]
  omega

theorem stallingFirmware_keepsTime {e₁ e₂ e₃ : Event}
    (hfirst : e₁ = ⟨.getTime, stallingFirmware.reply [] .getTime⟩)
    (hsleep : e₂.call = .stall 2000000 ∧ efiError e₂.reply.status = false)
    (hsecond : e₃ = ⟨.getTime, stallingFirmware.reply [e₁, e₂] .getTime⟩) :
    KeepsTime stallingClock [] [e₁, e₂, e₃] := by
  refine ⟨stallingClock_ticks _ _, fun before e after hsplit _ hcall => ?_⟩
  rcases before with _ | ⟨a, _ | ⟨b, _ | ⟨c, rest⟩⟩⟩
  · injection hsplit with he
    rw [← he, hfirst]
    exact stallingFirmware_tells (by decide)
  · injection hsplit with _ hsplit
    injection hsplit with he
    rw [← he, hsleep.1] at hcall
    cases hcall
  · injection hsplit with ha hsplit
    injection hsplit with hb hsplit
    injection hsplit with he
    rw [← he, ← ha, ← hb, hsecond]
    refine stallingFirmware_tells ?_
    rw [stalledIn, hfirst]
    simp [Event.stalled, hsleep.1, hsleep.2]
  · have hlength := congrArg List.length hsplit
    simp at hlength

/-- A sleep of two seconds between two readings of the clock. -/
theorem clock_keeps_up_two :
    ∃ m₁ m₂ m₃, SysCall.Ends stallingFirmware ⟨96, [200]⟩ Machine.blank (.ok 0 m₁) ∧
      TimedSession stallingFirmware m₁ ([] ++ [.store 300 (littleEndian 8 (2 : UInt64).toNat)] ++
        [.store 308 (littleEndian 8 (0 : UInt64).toNat)] ++
        [.call ⟨23, [0, 0, 0, 0, 300]⟩ 0]) m₂ 2000000 ∧
      SysCall.Ends stallingFirmware ⟨96, [400]⟩ m₂ (.ok 0 m₃) ∧
      m₁.timeAt 200 + 2 ≤ m₃.timeAt 400 := by
  have hfirst := SysCall.ends_gettimeofday (c := ⟨96, [200]⟩) stallingFirmware Machine.blank rfl
  have hsecond := fun m => SysCall.ends_gettimeofday (c := ⟨96, [400]⟩) stallingFirmware m rfl
  have htrace : (clockMachine stallingFirmware Machine.blank 200).trace =
      [⟨.getTime, stallingFirmware.reply [] .getTime⟩] := rfl
  generalize clockMachine stallingFirmware Machine.blank 200 = m₁ at hfirst htrace
  obtain ⟨hsec, husec⟩ := m₁.mem.load64_store_pair 300 2 0
  have hfill : TimedSession stallingFirmware m₁
      ([] ++ [.store 300 (littleEndian 8 (2 : UInt64).toNat)])
      { m₁ with mem := m₁.mem.store 300 (littleEndian 8 (2 : UInt64).toNat) } 0 :=
    (Run.nil _).snoc ⟨.store _ _ _, rfl⟩
  generalize hmem : (m₁.mem.store 300 (littleEndian 8 (2 : UInt64).toNat)).store (300 + 8)
    (littleEndian 8 (0 : UInt64).toNat) = mem at hsec husec
  have hfilled : TimedSession stallingFirmware m₁
      ([] ++ [.store 300 (littleEndian 8 (2 : UInt64).toNat)] ++
        [.store 308 (littleEndian 8 (0 : UInt64).toNat)]) { m₁ with mem := mem } 0 :=
    hfill.snoc ⟨hmem ▸ .store _ _ _, rfl⟩
  have htimer : mem.load64 300 * 1000000 + mem.load64 (300 + 8) = 2000000 := by
    rw [hsec, husec]
    decide
  have hsleep : SysCall.Ends stallingFirmware ⟨23, [0, 0, 0, 0, 300]⟩ { m₁ with mem := mem }
      (.ok 0 (stallingFirmware.after { m₁ with mem := mem } (.stall 2000000))) :=
    SysCall.ends_sleep rfl htimer rfl
  have hslept : TimedSession stallingFirmware m₁ _ _ 2000000 :=
    hfilled.snoc ⟨.call hsleep, by
      change 2000000 = 0 + (mem.load64 300 * 1000000 + mem.load64 (300 + 8)).toNat
      rw [htimer]
      rfl⟩
  have hkept : KeepsTime stallingClock [] (clockMachine stallingFirmware
      (stallingFirmware.after { m₁ with mem := mem } (.stall 2000000)) 400).trace := by
    rw [clockMachine_trace, Platform.after_trace, Platform.answer, Platform.answer,
      Platform.after_trace, htrace]
    exact stallingFirmware_keepsTime rfl ⟨rfl, rfl⟩ rfl
  have hle : m₁.timeAt 200 + ((2000000 / 1000000 : Nat) : Int) ≤ _ :=
    clock_keeps_up hfirst hslept (hsecond _) rfl rfl hkept
  exact ⟨m₁, _, _, hfirst, hslept, hsecond _, hle⟩

end Clock

end UefiLinux
