/-
The layer as `efi_main` leaves it.  The search for a free slot fails on the clear table,
so no descriptor is ever opened: over any session nothing on the volume is created,
read, written, moved in or closed, and what needs a descriptor is refused.
-/
import UefiLinux.Leaks
import UefiLinux.Sessions

namespace UefiLinux

open Progress Journal

/-- A call outside the file protocol that opens nothing. -/
def Call.Free (c : Call) : Prop :=
  c.handle? = none ∧ ∀ path mode attributes, c ≠ .volumeOpen path mode attributes

/-- What the firmware is asked for on behalf of no descriptor: looking a path up, the file
info of what was found, and everything that is no file call. -/
def bareCalls : Set Call :=
  { c | (∃ path, c = statCall path) ∨ (∃ handle, c = .getInfo handle sizeofEfiFileInfo) ∨
    c.Free }

/-- The requests that open a descriptor or work on one. -/
def Request.NeedsFile : Request → Prop
  | .fdRead fd _ _ => fd ≠ 0
  | .fdWrite fd _ _ => ¬ (fd = 1 ∨ fd = 2)
  | .fdOpen .. | .fdClose _ | .fdFstat .. | .fdLseek .. | .fdDup _ | .fdDup2 .. | .fdFsync _
  | .fdGetdents64 .. => True
  | _ => False

theorem Request.calls_free {m : Machine} {r : Request} {c : Call} (hneeds : ¬ r.NeedsFile)
    (hstat : ∀ path buf, r ≠ .fdStat path buf) (hin : c ∈ r.calls m) : c.Free := by
  cases Request.asks_of_calls hin with
  | read handle hfile => exact absurd hfile hneeds
  | write handle data hfile => exact absurd hfile hneeds
  | opens | openInfo | toEnd | truncate | close | fstatInfo | tell | seek | replaces | flushes
  | entries => exact absurd trivial hneeds
  | looks | statInfo => exact absurd rfl (hstat _ _)
  | resets hvalid hresets =>
      rcases hresets with ⟨_, rfl⟩ | ⟨_, rfl⟩ | ⟨_, rfl⟩ <;> exact ⟨rfl, by simp⟩
  | _ => exact ⟨rfl, by simp⟩

theorem Request.calls_bare {m : Machine} {r : Request} (hneeds : ¬ r.NeedsFile) :
    r.calls m ⊆ bareCalls := by
  intro c hin
  by_cases hstat : ∃ path buf, r = .fdStat path buf
  · obtain ⟨path, buf, rfl⟩ := hstat
    rcases hin with hlookup | hinfo
    · exact Or.inl hlookup
    · exact Or.inr (Or.inl hinfo)
  · exact Or.inr (Or.inr (Request.calls_free hneeds
      (fun path buf hsame => hstat ⟨path, buf, hsame⟩) hin))

section Requests

variable {p : Platform} {m : Machine}

theorem Request.exec_fds {r : Request} (hneeds : ¬ r.NeedsFile) (fuel : Nat) :
    (finalState ((r.exec p fuel).run m)).fds = m.fds := by
  cases r.touches p fuel with
  | nothing hattends => exact (hattends.along m).1
  | descriptor op fd hconsole =>
      refine absurd ?_ hneeds
      cases op with
      | read buf count => exact of_decide_eq_false hconsole
      | write buf count => exact of_decide_eq_false hconsole
      | _ => trivial
  | opens pathname flags => exact absurd trivial hneeds
  | stats path buf =>
      rw [Request.exec, asWord_finalState, fdStat_run]
      split
      · rfl
      · exact ((fdEfiStat_attending p buf (statAnswer p m path).reply.handle).along
          (statMachine p m path)).1
  | redirects oldFd newFd => exact absurd trivial hneeds

/-- A `dup2` from a descriptor that the guard lets pass onto what is no descriptor. -/
def Request.LeavesTable (r : Request) : Prop :=
  ∃ oldFd newFd : Int, r = .fdDup2 oldFd newFd ∧ 4 ≤ oldFd ∧ oldFd ≤ 16 ∧
    (newFd < 4 ∨ 20 ≤ newFd)

theorem fdDup2_run_of_empty (p : Platform) (hempty : ∀ slot, m.fds slot = none)
    (oldFd newFd : Int) :
    (∃ e, (e = Errno.ebadf ∨ e = .eacces) ∧ (fdDup2 p oldFd newFd).run m = .ok e.neg m) ∨
    (Request.fdDup2 oldFd newFd).LeavesTable ∧
      ∃ index, (fdDup2 p oldFd newFd).run m = .error (.fault (.fdsIndex index)) m := by
  by_cases hhigh : oldFd > (maxFds : Int)
  · exact Or.inl ⟨.ebadf, Or.inl rfl, by rw [fdDup2, if_pos hhigh]; rfl⟩
  · by_cases hlow : oldFd < virtualFdBase
    · exact Or.inl ⟨.eacces, Or.inr rfl, by rw [fdDup2, if_neg hhigh, if_pos hlow]; rfl⟩
    · have hrange : 4 ≤ oldFd ∧ oldFd ≤ 16 := ⟨not_lt.mp hlow, not_lt.mp hhigh⟩
      obtain ⟨ro, hro⟩ := slotOf_of_range hrange.1 (by omega)
      rw [fdDup2_eq_of_low p hrange.1 hrange.2, EStateM.run_bind]
      cases hnew : slotOf newFd with
      | none =>
          refine Or.inr ⟨⟨oldFd, newFd, rfl, hrange.1, hrange.2, slotOf_eq_none.mp hnew⟩, ?_⟩
          exact ⟨_, by rw [fdsRead_run_of_none hnew]⟩
      | some rn =>
          refine Or.inl ⟨.ebadf, Or.inl rfl, ?_⟩
          rw [fdsRead_run_of_slotOf hnew, hempty rn]
          simp only [Option.isSome_none, Bool.false_eq_true, ↓reduceIte]
          rw [fdDup2Rest_run_none hro (hempty ro)]

/-- While every slot is free, what needs a descriptor changes nothing. -/
theorem Request.exec_of_needsFile {r : Request} (hempty : ∀ slot, m.fds slot = none)
    (hneeds : r.NeedsFile) (fuel : Nat) :
    (∃ e, (e = Errno.emfile ∨ e = .ebadf ∨ e = .eacces) ∧
      (r.exec p fuel).run m = .ok (UInt64.ofInt e.neg) m) ∨
    r.LeavesTable ∧ ∃ index, (r.exec p fuel).run m = .error (.fault (.fdsIndex index)) m := by
  have hclosed : ∀ fd, m.openHandle fd = none := by
    intro fd
    rw [Machine.openHandle]
    cases slotOf fd with
    | none => rfl
    | some slot => exact hempty slot
  have hguard : ∀ fd (op : FdOp), op.console fd = false →
      ∃ e, (e = Errno.emfile ∨ e = .ebadf ∨ e = .eacces) ∧
        ((op.request fd).exec p fuel).run m = .ok (UInt64.ofInt e.neg) m := by
    intro fd op hconsole
    obtain ⟨e, he, hrun⟩ := withFd_run_of_refused (Or.inr (hclosed fd)) (op.taken p fd)
    refine ⟨e, Or.inr he, ?_⟩
    rw [FdOp.exec_request_of_not_console p hconsole, asWord_run, hrun]
  cases r with
  | fdRead fd buf count => exact Or.inl (hguard fd (.read buf count) (decide_eq_false hneeds))
  | fdWrite fd buf count => exact Or.inl (hguard fd (.write buf count) (decide_eq_false hneeds))
  | fdOpen pathname flags =>
      refine Or.inl ⟨.emfile, Or.inl rfl, ?_⟩
      rw [Request.exec, asWord_run, fdOpen_run_of_empty p hempty]
  | fdClose fd => exact Or.inl (hguard fd .close rfl)
  | fdFstat fd buf => exact Or.inl (hguard fd (.fstat buf) rfl)
  | fdLseek fd offset whence => exact Or.inl (hguard fd (.lseek offset whence) rfl)
  | fdDup oldFd => exact Or.inl (hguard oldFd .dup rfl)
  | fdFsync fd => exact Or.inl (hguard fd .fsync rfl)
  | fdGetdents64 fd dirp count => exact Or.inl (hguard fd (.getdents64 dirp count) rfl)
  | fdDup2 oldFd newFd =>
      rw [Request.exec, asWord_run]
      rcases fdDup2_run_of_empty p hempty oldFd newFd with ⟨e, he, hrun⟩ | ⟨hleaves, index, hrun⟩
      · exact Or.inl ⟨e, Or.inr he, by rw [hrun]⟩
      · exact Or.inr ⟨hleaves, index, by rw [hrun]⟩
  | _ => exact hneeds.elim

end Requests

section Sessions

variable {p : Platform} {m m' : Machine} {acts : List Action} {c : SysCall}
  {result : EStateM.Result Stop Machine UInt64}

/-- The table is kept, and only calls on behalf of no descriptor are made. -/
abbrev Rests : Machine → Machine → Prop := Quiet calls fun e => e.call ∈ bareCalls

theorem SysCall.Ends.rests (hends : c.Ends p m result) (hempty : ∀ slot, m.fds slot = none) :
    Rests m (finalState result) := by
  rcases c.ends_cases p hends with ⟨r, fuel, hdispatch, rfl⟩ | ⟨why, _, rfl⟩
  · by_cases hneeds : r.NeedsFile
    · rcases Request.exec_of_needsFile (p := p) hempty hneeds fuel with
        ⟨e, _, hrun⟩ | ⟨_, index, hrun⟩
      · rw [hrun]
        exact refl_of Rests m
      · rw [hrun]
        exact refl_of Rests m
    · obtain ⟨new, htrace, hnew⟩ := hends.calls
      rw [SysCall.calls, hdispatch] at hnew
      exact ⟨Request.exec_fds hneeds fuel, new, htrace,
        fun e he => Request.calls_bare hneeds (hnew e he)⟩
  · exact refl_of Rests m

theorem Session.rests (hsession : Session p m acts m') (hempty : ∀ slot, m.fds slot = none) :
    Rests m m' ∧ ∀ slot, m'.fds slot = none := by
  refine hsession.invariant (I := fun s => Rests m s ∧ ∀ slot, s.fds slot = none)
    ⟨refl_of Rests m, hempty⟩ ?_
  rintro act s s' ⟨hrests, hclear⟩ hdoes
  have hstep : Rests s s' := by
    cases hdoes with
    | store address bytes s => exact quiet_of_eq rfl rfl
    | call hends => exact hends.rests hclear
  refine ⟨trans_of Rests hrests hstep, fun slot => ?_⟩
  have hfds : s'.fds = s.fds := hstep.1
  rw [hfds, hclear slot]

/-- From the machine that `efi_main` leaves, over any session and however its last call
ends, the table stays clear and the firmware is never asked to create, read, write, move
in, flush or close a file; whatever needs a descriptor changes nothing, and is refused with
`EMFILE`, `EBADF` or `EACCES`, but for a `dup2` onto what is no descriptor, which indexes
outside the table. -/
theorem session_from_start_opens_nothing {m₀ : Machine} (hmain : (efiMain p).run m₀ = .ok ⟨⟩ m)
    (hsession : Session p m acts m') (hends : c.Ends p m' result) :
    (finalState result).fds = Slots.empty ∧
    (∃ new, (finalState result).trace = m.trace ++ new ∧ ∀ e ∈ new, e.call ∈ bareCalls) ∧
    ∀ r, dispatch c.no c.args = .ok r → r.NeedsFile →
      (∃ e, (e = Errno.emfile ∨ e = .ebadf ∨ e = .eacces) ∧
        result = .ok (UInt64.ofInt e.neg) m') ∨
      r.LeavesTable ∧ ∃ index, result = .error (.fault (.fdsIndex index)) m' := by
  have hstart : ∀ slot, m.fds slot = none := by
    rw [efiMain_run, EStateM.Result.ok.injEq] at hmain
    rw [← hmain.2]
    exact fun slot => rfl
  obtain ⟨hbefore, hclear⟩ := hsession.rests hstart
  have hrests : Rests m (finalState result) := trans_of Rests hbefore (hends.rests hclear)
  refine ⟨?_, hrests.2, fun r hdispatch hneeds => ?_⟩
  · have hfds : (finalState result).fds = m.fds := hrests.1
    rw [hfds]
    exact funext hstart
  · rcases c.ends_cases p hends with ⟨r', fuel, hdispatch', rfl⟩ | ⟨why, herror, _⟩
    · rw [hdispatch, Except.ok.injEq] at hdispatch'
      exact hdispatch' ▸ Request.exec_of_needsFile hclear hneeds fuel
    · rw [herror] at hdispatch
      cases hdispatch

/-- After a `stat`, a file is opened for writing and refused. -/
theorem session_from_start_opens_nothing_open :
    ∃ m' result, Session workingFirmware
        (workingFirmware.after { Machine.blank with fds := Slots.empty }
          (.outputString (wide "Initialized! Calling main()...\r\n")))
        ([] ++ [.call ⟨4, [0, 64]⟩ 0]) m' ∧
      SysCall.Ends workingFirmware ⟨2, [0, 1]⟩ m' result ∧
      (finalState result).fds = Slots.empty := by
  obtain ⟨m', hstat⟩ : ∃ m', Session workingFirmware
      (workingFirmware.after { Machine.blank with fds := Slots.empty }
        (.outputString (wide "Initialized! Calling main()...\r\n")))
      ([] ++ [.call ⟨4, [0, 64]⟩ 0]) m' :=
    ⟨_, (Run.nil _).snoc (.call (c := ⟨4, [0, 64]⟩) ⟨0, rfl⟩)⟩
  have hopen : SysCall.Ends workingFirmware ⟨2, [0, 1]⟩ m'
      ((syscallEmuX86_64 workingFirmware 0 2 [0, 1]).run m') := ⟨0, rfl⟩
  exact ⟨m', _, hstat, hopen,
    (session_from_start_opens_nothing (efiMain_run workingFirmware Machine.blank) hstat hopen).1⟩

end Sessions

end UefiLinux
