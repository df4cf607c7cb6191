/-
The requests of the dispatcher by what they can do to the table: most attend to no
file at all, most of the others pass the one guard, and three have a life of their
own: opening, taking the status of a path, and redirecting.
-/
import UefiLinux.Numbering
import UefiLinux.Opening
import UefiLinux.Redirecting

namespace UefiLinux

open Progress Journal

/-- The request that dispatches to a descriptor handler. -/
def FdOp.request (fd : Int) : FdOp → Request
  | .close => .fdClose fd
  | .fsync => .fdFsync fd
  | .dup => .fdDup fd
  | .lseek offset whence => .fdLseek fd offset whence
  | .read buf count => .fdRead fd buf count
  | .write buf count => .fdWrite fd buf count
  | .getdents64 dirp count => .fdGetdents64 fd dirp count
  | .fstat buf => .fdFstat fd buf

variable (p : Platform)

theorem FdOp.exec_request (op : FdOp) (fuel : Nat) (fd : Int) :
    (op.request fd).exec p fuel = asWord (op.run p fuel fd) := by
  cases op <;> rfl

theorem asWord_run (x : M Int) (m : Machine) :
    (asWord x).run m = match x.run m with
      | .ok v m' => .ok (UInt64.ofInt v) m'
      | .error stop m' => .error stop m' := by
  rw [asWord, map_eq_pure_bind, EStateM.run_bind]
  cases x.run m with
  | ok v m' => rfl
  | error stop m' => rfl

@[simp] theorem asWord_finalState (x : M Int) (m : Machine) :
    finalState ((asWord x).run m) = finalState (x.run m) := by
  rw [asWord_run]
  cases x.run m with
  | ok v m' => rfl
  | error stop m' => rfl

theorem asWord_eq_error {x : M Int} {m m' : Machine} {stop : Stop} :
    (asWord x).run m = .error stop m' ↔ x.run m = .error stop m' := by
  rw [asWord_run]
  cases x.run m with
  | ok v m'' => simp
  | error stop' m'' => simp

theorem asWord_eq_ok {x : M Int} {m m' : Machine} {w : UInt64} :
    (asWord x).run m = .ok w m' ↔
      ∃ v, x.run m = .ok v m' ∧ w = UInt64.ofInt v := by
  rw [asWord_run]
  cases x.run m with
  | ok v m'' =>
      simp only [EStateM.Result.ok.injEq]
      constructor
      · rintro ⟨hw, hm⟩
        exact ⟨v, ⟨rfl, hm⟩, hw.symm⟩
      · rintro ⟨v', ⟨hv, hm⟩, hw⟩
        exact ⟨by rw [hw, hv], hm⟩
  | error stop m'' => simp

theorem Attending.asWord {owner : Option FileHandle} {x : M Int}
    (hx : Attending owner x) : Attending owner (asWord x) := by
  rw [UefiLinux.asWord, map_eq_pure_bind]
  exact hx.bind fun v => Attending.pure _

/-- The guard and the handler's own code as one program, on any fixed firmware. -/
theorem FdOp.exec_request_of_not_console {op : FdOp} {fd : Int}
    (hconsole : op.console fd = false) (fuel : Nat) :
    (op.request fd).exec p fuel = asWord (withFd fd (op.taken p fd)) := by
  rw [FdOp.exec_request, FdOp.run_eq_withFd p hconsole]

/-- How a request can touch the table and the open files. -/
inductive Request.Touches (fuel : Nat) : Request → Prop
  | nothing {r : Request} (hattends : Attending none (r.exec p fuel)) : Touches fuel r
  | descriptor (op : FdOp) (fd : Int) (hconsole : op.console fd = false) :
      Touches fuel (op.request fd)
  | opens (pathname : UInt64) (flags : UInt32) : Touches fuel (.fdOpen pathname flags)
  | stats (path buf : UInt64) : Touches fuel (.fdStat path buf)
  | redirects (oldFd newFd : Int) : Touches fuel (.fdDup2 oldFd newFd)

theorem fdRead_zero_attending (fuel : Nat) (buf count : UInt64) :
    Attending none (fdRead p fuel 0 buf count) := by
  unfold fdRead
  apply Attending.ite (Attending.pure _)
  rw [if_pos rfl]
  exact fdReadConsole_attending p fuel buf count

theorem fdWrite_console_attending (fuel : Nat) {fd : Int} (hfd : fd = 1 ∨ fd = 2)
    (buf count : UInt64) : Attending none (fdWrite p fuel fd buf count) := by
  unfold fdWrite fdWriteSized
  apply Attending.ite (Attending.pure _)
  rw [if_pos hfd]
  exact fdWriteConsole_attending p fuel _ buf count

/-- Every request touches the table in one of these ways. -/
theorem Request.touches (fuel : Nat) (r : Request) : r.Touches p fuel := by
  cases r with
  | fdRead fd buf count =>
      by_cases hfd : fd = 0
      · subst hfd
        exact .nothing (fdRead_zero_attending p fuel buf count).asWord
      · exact .descriptor (.read buf count) fd (by simpa [FdOp.console] using hfd)
  | fdWrite fd buf count =>
      by_cases hfd : fd = 1 ∨ fd = 2
      · exact .nothing (fdWrite_console_attending p fuel hfd buf count).asWord
      · exact .descriptor (.write buf count) fd (by simpa [FdOp.console] using hfd)
  | fdOpen pathname flags => exact .opens pathname flags
  | fdClose fd => exact .descriptor .close fd rfl
  | fdStat path buf => exact .stats path buf
  | fdFstat fd buf => exact .descriptor (.fstat buf) fd rfl
  | fdLseek fd offset whence => exact .descriptor (.lseek offset whence) fd rfl
  | memMmap addr length prot flags fd offset =>
      exact .nothing (memMmap_attending p addr length prot flags fd offset)
  | memMunmap addr length => exact .nothing (memMunmap_attending p addr length).asWord
  | fdSelect nfds readfds writefds exceptfds timeout =>
      exact .nothing (fdSelect_attending p nfds readfds writefds exceptfds timeout).asWord
  | fdDup oldFd => exact .descriptor .dup oldFd rfl
  | fdDup2 oldFd newFd => exact .redirects oldFd newFd
  | procExit status =>
      exact .nothing ((procExit_attending p status).bind fun _ => Attending.pure _)
  | fdFsync fd => exact .descriptor .fsync fd rfl
  | procKill pid sig => exact .nothing (procKill_attending p pid sig).asWord
  | timeGettimeofday tv => exact .nothing (timeGettimeofday_attending p tv).asWord
  | powerReboot magic1 magic2 cmd arg =>
      exact .nothing (powerReboot_attending p magic1 magic2 cmd arg).asWord
  | fdGetdents64 fd dirp count => exact .descriptor (.getdents64 dirp count) fd rfl
  | constant value => exact .nothing (Attending.pure _)
  | notPermitted => exact .nothing (Attending.pure _)
  | notImplemented => exact .nothing (Attending.pure _)

section Stat

variable (m : Machine) (path buf : UInt64)

/-- The answer of `Volume->Open` to `fd_stat`. -/
def statAnswer : Event := p.answer (m.convert path) (statCall (m.widePath path))

/-- The machine once `Volume->Open` has answered `fd_stat`. -/
def statMachine : Machine := (m.convert path).record (statAnswer p m path)

theorem statAnswer_opened : (statAnswer p m path).opened =
    if efiError (statAnswer p m path).reply.status then none
    else some (statAnswer p m path).reply.handle := rfl

theorem fdStat_run :
    (fdStat p path buf).run m =
      if efiError (statAnswer p m path).reply.status then
        .ok (failure (statAnswer p m path).reply.status) (statMachine p m path)
      else (fdEfiStat p buf (statAnswer p m path).reply.handle).run
        (statMachine p m path) := by
  unfold fdStat
  rw [run_bind_of_ok (bstrToWstr_run path m),
    run_bind_of_ok (uefiCallWrapper_run p rfl (m.convert path))]
  change (if efiError (statAnswer p m path).reply.status = true then _
    else _ : M Int).run (statMachine p m path) = _
  split <;> rfl

theorem fdEfiStat_returns (handle : FileHandle) :
    ∃ v m', (fdEfiStat p buf handle).run m = .ok v m' := by
  simp only [fdEfiStat, storeStatHeader, storeStatInfo, EStateM.run_bind,
    storeBytes_run, fdEfiGetFileInfo]
  rw [uefiCallWrapper_run p rfl]
  simp only
  split
  · exact ⟨_, _, rfl⟩
  · exact ⟨_, _, rfl⟩

theorem fdStat_returns : ∃ v m', (fdStat p path buf).run m = .ok v m' := by
  rw [fdStat_run]
  split
  · exact ⟨_, _, rfl⟩
  · exact fdEfiStat_returns p _ buf _

end Stat

end UefiLinux
