/-
Leaks over runs from `efi_main`.  No call ever puts a handle into the cleared table,
so nothing is leaked until a path's status is taken: that opens a handle which is
neither stored nor closed.
-/
import UefiLinux.OpenFiles

namespace UefiLinux

open Progress Journal

variable (p : Platform)

/-- The handles that `Volume->Open` returned and `Close` was not called on are exactly
those in the table. -/
def NoLeak (m : Machine) : Prop := handles.live ∅ m.trace = m.fds.held

/-- The table is clear and nothing is open. -/
def NothingOpen (m : Machine) : Prop :=
  (∀ r, m.fds r = none) ∧ handles.live ∅ m.trace = ∅

theorem held_eq_empty {fds : Slots maxFds FileHandle} (hempty : ∀ r, fds r = none) :
    fds.held = ∅ := by
  have hclear : fds = Slots.empty := funext hempty
  rw [hclear, Slots.held_empty]

theorem NothingOpen.noLeak {m : Machine} (hm : NothingOpen m) : NoLeak m := by
  rw [NoLeak, hm.2, held_eq_empty hm.1]

theorem NothingOpen.openHandle {m : Machine} (hm : NothingOpen m) (fd : Int) :
    m.openHandle fd = none := by
  rw [Machine.openHandle]
  cases slotOf fd with
  | none => rfl
  | some r => exact hm.1 r

/-- Calls that open and close nothing leave nothing open. -/
theorem NothingOpen.of_quiet {owner : Option FileHandle} {m m' : Machine}
    (hm : NothingOpen m) (hquiet : Quiet calls (Event.Attends owner) m m') :
    NothingOpen m' := by
  obtain ⟨hfds, new, htrace, hnew⟩ := hquiet
  change m'.fds = m.fds at hfds
  change m'.trace = m.trace ++ new at htrace
  refine ⟨by rw [hfds]; exact hm.1, ?_⟩
  rw [htrace, Ledger.live_append, hm.2, Ledger.live_of_neutral]
  exact fun e he => (hnew e he).1

section Start

theorem forM_clear_run (slots : List (Fin maxFds)) (m : Machine) :
    (slots.forM fun it => (modify fun m : Machine =>
        { m with fds := Function.update m.fds it none } : M PUnit)).run m =
      .ok ⟨⟩ { m with fds := fun r => if r ∈ slots then none else m.fds r } := by
  induction slots generalizing m with
  | nil => simp
  | cons it rest ih =>
      change ((modify fun m : Machine =>
        { m with fds := Function.update m.fds it none } : M PUnit) >>= fun _ =>
          rest.forM _).run m = _
      have hfds : (fun r => if r ∈ rest then none
            else Function.update m.fds it none r) =
          fun r => if r ∈ it :: rest then none else m.fds r := by
        funext r
        by_cases hr : r = it
        · subst hr
          simp
        · simp [hr]
      rw [run_bind_of_ok (EStateM.run_modify _ m), ih]
      simp only [hfds]

/-- The table is clear when `main` is called. -/
theorem efiMain_run (m : Machine) :
    (efiMain p).run m =
      .ok ⟨⟩ (p.after { m with fds := Slots.empty }
        (.outputString (wide "Initialized! Calling main()...\r\n"))) := by
  rw [efiMain, run_bind_of_ok (forM_clear_run _ m)]
  simp only [List.mem_finRange, ↓reduceIte]
  rw [run_bind_of_ok (uefiCallWrapper_run p rfl _)]
  rfl

/-- With an empty journal, nothing is open when `main` is called. -/
theorem nothingOpen_of_efiMain {m₀ m : Machine} (hfresh : m₀.trace = [])
    (hmain : (efiMain p).run m₀ = .ok ⟨⟩ m) : NothingOpen m := by
  rw [efiMain_run, EStateM.Result.ok.injEq] at hmain
  rw [← hmain.2]
  refine ⟨fun r => rfl, ?_⟩
  rw [Platform.after_trace]
  change handles.live ∅ (m₀.trace ++ _) = ∅
  rw [hfresh, List.nil_append]
  exact Ledger.live_of_neutral handles (by simp [Ledger.Neutral, handles, Event.opened,
    Event.closed])

end Start

section Calls

variable {m : Machine}

/-- The call opens no file by its path alone, and no redirection leaves the table. -/
def Request.Tidy (m : Machine) : Request → Prop
  | .fdStat path _ => efiError (statAnswer p m path).reply.status = true
  | .fdDup2 oldFd newFd => oldFd < 4 ∨ 16 < oldFd ∨ (4 ≤ newFd ∧ newFd ≤ 19)
  | _ => True

theorem fdDup2_run_of_nothingOpen (hm : NothingOpen m) {oldFd newFd : Int}
    (htidy : oldFd < 4 ∨ 16 < oldFd ∨ (4 ≤ newFd ∧ newFd ≤ 19)) :
    ∃ e : Errno, (fdDup2 p oldFd newFd).run m = .ok e.neg m := by
  apply fdDup2_run_of_dup2Refused
  rcases htidy with hlow | hhigh | ⟨hnew, hnew'⟩
  · exact Or.inl hlow
  · exact Or.inr (Or.inl hhigh)
  · exact Or.inr (Or.inr (Or.inr ⟨hnew, hnew', hm.openHandle newFd, hm.openHandle oldFd⟩))

/-- A tidy call on the clear table opens and closes nothing. -/
theorem Request.exec_quiet {r : Request} (fuel : Nat) (hm : NothingOpen m)
    (htidy : r.Tidy p m) :
    Quiet calls (Event.Attends none) m (finalState ((r.exec p fuel).run m)) := by
  cases r.touches p fuel with
  | nothing hattends => exact hattends.along m
  | descriptor op fd hconsole =>
      have hclosed := hm.openHandle fd
      obtain ⟨e, _, hrun⟩ := withFd_run_of_refused (Or.inr hclosed) (op.taken p fd)
      rw [FdOp.exec_request_of_not_console p hconsole, asWord_finalState, hrun]
      exact refl_of _ m
  | opens pathname flags =>
      rw [Request.exec, asWord_finalState, fdOpen_run_of_empty p hm.1]
      exact refl_of _ m
  | stats path buf =>
      have hfails : efiError (statAnswer p m path).reply.status = true := htidy
      rw [Request.exec, asWord_finalState, fdStat_run, if_pos hfails]
      refine ⟨rfl, [statAnswer p m path], rfl, ?_⟩
      intro e he
      rw [List.mem_singleton.mp he]
      refine ⟨⟨?_, rfl⟩, fun handle huse => by cases huse⟩
      change (statAnswer p m path).opened = none
      rw [statAnswer_opened, if_pos hfails]
  | redirects oldFd newFd =>
      obtain ⟨e, hrun⟩ := fdDup2_run_of_nothingOpen p hm htidy
      rw [Request.exec, asWord_finalState, hrun]
      exact refl_of _ m

/-- A status taken of a path that the firmware opens leaks the handle. -/
theorem fdStat_leaks (hm : NothingOpen m) {path : UInt64} (buf : UInt64)
    (hopens : efiError (statAnswer p m path).reply.status = false) :
    ¬ NoLeak (finalState ((fdStat p path buf).run m)) := by
  have hrest := (fdEfiStat_attending p buf (statAnswer p m path).reply.handle).along
    (statMachine p m path)
  have hopened : handles.acquired (statAnswer p m path) =
      some (statAnswer p m path).reply.handle := by
    change (statAnswer p m path).opened = _
    rw [statAnswer_opened, hopens]
    rfl
  rw [fdStat_run, if_neg (by simp [hopens])]
  generalize finalState ((fdEfiStat p buf (statAnswer p m path).reply.handle).run
    (statMachine p m path)) = m' at hrest ⊢
  obtain ⟨hfds, new, htrace, hnew⟩ := hrest
  change m'.fds = m.fds at hfds
  change m'.trace = (m.trace ++ [statAnswer p m path]) ++ new at htrace
  intro hnoLeak
  have hheld : m'.fds.held = ∅ := held_eq_empty (by rw [hfds]; exact hm.1)
  have hlive : handles.live ∅ m'.trace = {(statAnswer p m path).reply.handle} := by
    rw [htrace, Ledger.live_append, Ledger.live_append, hm.2, Ledger.live_cons,
      Ledger.live_nil, Ledger.step_of_acquired handles hopened rfl,
      Ledger.live_of_neutral handles fun e he => (hnew e he).1]
    simp
  rw [NoLeak, hlive, hheld] at hnoLeak
  exact Set.singleton_ne_empty _ hnoLeak

/-- A redirection of a checked descriptor onto what is no descriptor leaves the
table. -/
theorem fdDup2_outside_of_untidy {oldFd newFd : Int}
    (huntidy : ¬ (oldFd < 4 ∨ 16 < oldFd ∨ (4 ≤ newFd ∧ newFd ≤ 19))) :
    IndexesOutside ((fdDup2 p oldFd newFd).run m) := by
  rw [fdDup2_indexesOutside_iff]
  rintro (hlow | hhigh | ⟨hnew, hnew', _⟩)
  · exact huntidy (Or.inl hlow)
  · exact huntidy (Or.inr (Or.inl hhigh))
  · exact huntidy (Or.inr (Or.inr ⟨hnew, hnew'⟩))

/-- On the clear table a call leaks nothing and keeps to the table exactly when it is
tidy. -/
theorem Request.noLeak_iff_tidy (fuel : Nat) (r : Request) (hm : NothingOpen m) :
    (¬ IndexesOutside ((r.exec p fuel).run m) ∧
        NoLeak (finalState ((r.exec p fuel).run m))) ↔ r.Tidy p m := by
  constructor
  · rintro ⟨hbounds, hnoLeak⟩
    cases r with
    | fdStat path buf =>
        by_contra huntidy
        have hopens : efiError (statAnswer p m path).reply.status = false := by
          simpa [Request.Tidy] using huntidy
        rw [Request.exec, asWord_finalState] at hnoLeak
        exact fdStat_leaks p hm buf hopens hnoLeak
    | fdDup2 oldFd newFd =>
        by_contra huntidy
        rw [Request.exec, indexesOutside_asWord_iff] at hbounds
        exact hbounds (fdDup2_outside_of_untidy p huntidy)
    | _ => trivial
  · intro htidy
    refine ⟨?_, (hm.of_quiet (r.exec_quiet p fuel hm htidy)).noLeak⟩
    cases r with
    | fdDup2 oldFd newFd =>
        obtain ⟨e, hrun⟩ := fdDup2_run_of_nothingOpen p hm htidy
        rw [Request.exec, indexesOutside_asWord_iff, hrun]
        exact not_indexesOutside_ok _ _
    | _ =>
        rw [Request.indexesOutside_iff]
        exact not_not_intro trivial

end Calls

section Runs

/-- Every request the call can be dispatched to is tidy. -/
def SysCall.Tidy (m : Machine) (c : SysCall) : Prop :=
  ∀ r, dispatch c.no c.args = .ok r → r.Tidy p m

/-- A returning call that is tidy. -/
def TidyStep (c : SysCall) (m m' : Machine) : Prop :=
  c.Tidy p m ∧ c.Returns p m m'

theorem SysCall.noLeak_iff_tidy {c : SysCall} {m : Machine}
    {result : EStateM.Result Stop Machine UInt64} (hm : NothingOpen m)
    (hends : c.Ends p m result) :
    (¬ IndexesOutside result ∧ NoLeak (finalState result)) ↔ c.Tidy p m := by
  rcases c.ends_cases p hends with ⟨r, fuel, hdispatch, rfl⟩ | ⟨why, herror, rfl⟩
  · rw [Request.noLeak_iff_tidy p fuel r hm]
    constructor
    · intro htidy r' hdispatch'
      rw [hdispatch, Except.ok.injEq] at hdispatch'
      exact hdispatch' ▸ htidy
    · intro htidy
      exact htidy r hdispatch
  · have hin : ¬ IndexesOutside
        (.error (.fault why) m : EStateM.Result Stop Machine UInt64) :=
      not_indexesOutside_of_dispatch herror m
    constructor
    · intro _ r hdispatch
      rw [herror] at hdispatch
      cases hdispatch
    · intro _
      exact ⟨hin, hm.noLeak⟩

theorem SysCall.nothingOpen_of_tidy {c : SysCall} {m m' : Machine}
    (hm : NothingOpen m) (hstep : TidyStep p c m m') : NothingOpen m' := by
  obtain ⟨htidy, w, hends⟩ := hstep
  rcases c.ends_cases p hends with ⟨r, fuel, hdispatch, hrun⟩ | ⟨why, _, hrun⟩
  · have hquiet := r.exec_quiet p fuel hm (htidy r hdispatch)
    rw [← hrun] at hquiet
    exact hm.of_quiet hquiet
  · cases hrun

/-- From the cleared table, as long as no call takes the status of a path that the
firmware opens, and no redirection leaves the table, nothing is leaked; and the first
call that does either leaks a handle or leaves the table. -/
theorem no_leak_iff_tidy {m₀ m m' : Machine} {labels : List SysCall} {c : SysCall}
    {result : EStateM.Result Stop Machine UInt64} (hfresh : m₀.trace = [])
    (hmain : (efiMain p).run m₀ = .ok ⟨⟩ m) (hrun : Run (TidyStep p) m labels m')
    (hends : c.Ends p m' result) :
    NoLeak m' ∧
      ((¬ IndexesOutside result ∧ NoLeak (finalState result)) ↔ c.Tidy p m') := by
  have hstart : NothingOpen m := nothingOpen_of_efiMain p hfresh hmain
  have hreached : NothingOpen m' :=
    hrun.invariant hstart fun c s s' hs hstep => c.nothingOpen_of_tidy p hs hstep
  exact ⟨hreached.noLeak, c.noLeak_iff_tidy p hreached hends⟩

/-- Firmware that fails the second call it is given. -/
def secondFailsFirmware : Platform where
  volume := 0
  reply := fun log _ => Reply.ofStatus (if log.length = 1 then efiNotFound else efiSuccess)
  residue := fun _ => ⟨efiSuccess, 0, EfiFileInfo.zero⟩

/-- After an `open` that is refused and a `stat` of a path that the firmware does not
find nothing is leaked; a `stat` of a path that it finds leaks. -/
theorem no_leak_iff_tidy_stat :
    ∃ m m' result, (efiMain secondFailsFirmware).run Machine.blank = .ok ⟨⟩ m ∧
      Run (TidyStep secondFailsFirmware) m ([] ++ [⟨2, [0, 0, 0]⟩] ++ [⟨4, [0, 64]⟩]) m' ∧
      SysCall.Ends secondFailsFirmware ⟨4, [0, 64]⟩ m' result ∧
      NoLeak m' ∧ ¬ (¬ IndexesOutside result ∧ NoLeak (finalState result)) := by
  have hmain := efiMain_run secondFailsFirmware Machine.blank
  generalize hm : secondFailsFirmware.after _ _ = m at hmain
  have hempty : ∀ r, m.fds r = none := by
    subst hm
    exact fun r => rfl
  have hlog : m.trace.length = 1 := by
    subst hm
    rfl
  have hopen : TidyStep secondFailsFirmware ⟨2, [0, 0, 0]⟩ m m := by
    refine ⟨fun r hr => ?_, UInt64.ofInt Errno.emfile.neg, 0, asWord_eq_ok.mpr
      ⟨_, fdOpen_run_of_empty secondFailsFirmware hempty, rfl⟩⟩
    injection hr with hr
    exact hr ▸ trivial
  have hfails : efiError (statAnswer secondFailsFirmware m 0).reply.status = true := by
    change efiError (if m.trace.length = 1 then efiNotFound else efiSuccess) = true
    rw [hlog]
    decide
  obtain ⟨v, m', hstat⟩ := fdStat_returns secondFailsFirmware m 0 64
  have hmissing : TidyStep secondFailsFirmware ⟨4, [0, 64]⟩ m m' := by
    refine ⟨fun r hr => ?_, _, 0, asWord_eq_ok.mpr ⟨v, hstat, rfl⟩⟩
    injection hr with hr
    exact hr ▸ hfails
  have hlog' : m'.trace.length = 2 := by
    have hfinal := fdStat_run secondFailsFirmware m 0 64
    rw [if_pos hfails, hstat] at hfinal
    injection hfinal with _ hmachine
    rw [hmachine]
    change (m.trace ++ [statAnswer secondFailsFirmware m 0]).length = 2
    rw [List.length_append, hlog, List.length_singleton]
  have hfound : ¬ SysCall.Tidy secondFailsFirmware m' ⟨4, [0, 64]⟩ := by
    intro htidy
    have hstatus : efiError (if m'.trace.length = 1 then efiNotFound else efiSuccess) = true :=
      htidy _ rfl
    rw [hlog'] at hstatus
    exact absurd hstatus (by decide)
  have hrun : Run (TidyStep secondFailsFirmware) m
      ([] ++ [⟨2, [0, 0, 0]⟩] ++ [⟨4, [0, 64]⟩]) m' := ((Run.nil m).snoc hopen).snoc hmissing
  have hends : SysCall.Ends secondFailsFirmware ⟨4, [0, 64]⟩ m' _ := ⟨0, rfl⟩
  obtain ⟨hnoLeak, hiff⟩ := no_leak_iff_tidy secondFailsFirmware rfl hmain hrun hends
  exact ⟨m, m', _, hmain, hrun, hends, hnoLeak, fun hboth => hfound (hiff.mp hboth)⟩

/-- A successful `Volume->Open` returns a handle that is not open. -/
def Platform.OpensFresh : Prop :=
  ∀ log path mode attributes,
    efiError (p.reply log (.volumeOpen path mode attributes)).status = false →
      (p.reply log (.volumeOpen path mode attributes)).handle ∉ handles.live ∅ log

/-- Firmware that succeeds until it has opened a file. -/
def oneFileFirmware : Platform where
  volume := 0
  reply := fun log _ =>
    Reply.ofStatus (if log.any (·.opened.isSome) then efiAborted else efiSuccess)
  residue := fun _ => ⟨efiSuccess, 0, EfiFileInfo.zero⟩

theorem oneFileFirmware_opensFresh : oneFileFirmware.OpensFresh := by
  intro log path mode attributes hopens hlive
  rcases Ledger.mem_live_imp handles hlive with hstart | ⟨e, he, hacquired⟩
  · exact hstart
  · have hany : log.any (·.opened.isSome) = true := by
      rw [List.any_eq_true]
      change e.opened = some _ at hacquired
      exact ⟨e, he, by rw [hacquired]; rfl⟩
    change efiError (if log.any (·.opened.isSome) = true then efiAborted
      else efiSuccess) = false at hopens
    rw [if_pos hany] at hopens
    exact absurd hopens (by decide)

/-- After `stat` of a path that the firmware opens, one handle is open and the table
is clear. -/
theorem stat_leaks_a_handle :
    ¬ ∀ (p : Platform) (m₀ m m' : Machine) (labels : List SysCall), p.OpensFresh →
      m₀.trace = [] → (efiMain p).run m₀ = .ok ⟨⟩ m →
        Run (fun c s s' => c.Returns p s s') m labels m' → NoLeak m' := by
  intro hall
  have hmain := efiMain_run oneFileFirmware Machine.blank
  have hstart := nothingOpen_of_efiMain oneFileFirmware rfl hmain
  generalize hm : oneFileFirmware.after _ _ = m at hmain hstart
  obtain ⟨v, m', hstat⟩ := fdStat_returns oneFileFirmware m 0 0
  have hreturns : SysCall.Returns oneFileFirmware ⟨4, [0, 0]⟩ m m' :=
    ⟨_, 0, asWord_eq_ok.mpr ⟨v, hstat, rfl⟩⟩
  have hnoLeak := hall oneFileFirmware Machine.blank m m' _
    oneFileFirmware_opensFresh rfl hmain ((Run.nil m).snoc hreturns)
  have hopens : efiError (statAnswer oneFileFirmware m 0).reply.status = false := by
    subst hm
    change efiError efiSuccess = false
    decide
  have hleaks := fdStat_leaks oneFileFirmware hstart 0 hopens
  rw [hstat] at hleaks
  exact hleaks hnoLeak

end Runs

end UefiLinux
