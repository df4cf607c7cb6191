/-
Sessions of an application that knows the layer only through the libc.  It can use, share
and close the descriptors that it was given; it can not open a file, nor even look one up.
-/
import UefiLinux.Library.Composed
import UefiLinux.Libc
import UefiLinux.Resting

namespace UefiLinux

open Progress Journal

/-- The requests that the library makes: it has no way to name a file by its path, nor to
reach `fd_fstat` and `fd_dup2`. -/
def Request.OfLibrary : Request → Prop
  | .fdOpen .. | .fdStat .. | .fdFstat .. | .fdDup2 .. => False
  | _ => True

def SysCall.OfLibrary (c : SysCall) : Prop :=
  match dispatch c.no c.args with
  | .ok r => r.OfLibrary
  | .error _ => False

section Functions

variable (p : Platform)

/-- What the functions of the library do to the machine: they make system calls and store
to their own variables. -/
inductive LayerBasic : {α : Type} → M α → Prop
  | call {c : SysCall} (hc : c.OfLibrary) (fuel : Nat) :
      LayerBasic (syscallEmuX86_64 p fuel c.no c.args)
  | store (address : UInt64) (bytes : List UInt8) : LayerBasic (storeBytes address bytes)

def layer : Discipline Stop Machine where
  alike := Eq
  basic := LayerBasic p
  stops := fun _ => False

inductive LibraryBasic : {α : Type} → LibcM α → Prop
  | onMachine {α : Type} {x : M α} (hx : Composed (layer p) x) : LibraryBasic (onMachine x)
  | errno (v : Int) : LibraryBasic (setErrno v)

/-- The functions of the library act on the machine and on `errno`; `exit` spins. -/
def library : Discipline Stop Process where
  alike := Eq
  basic := LibraryBasic p
  stops := fun why => why = .spins

variable {p}

theorem mySyscall_composed {c : SysCall} (hc : c.OfLibrary) (fuel : Nat) :
    Composed (library p) (mySyscall p fuel c) :=
  .basic (.onMachine (.basic (.call hc fuel)))

theorem setErrno_composed (v : Int) : Composed (library p) (setErrno v) :=
  .basic (.errno v)

theorem LibcReturn.leave_composed (r : LibcReturn) : Composed (library p) r.leave := by
  rw [LibcReturn.leave]
  split
  · exact (setErrno_composed _).andThen fun _ => .pure _
  · exact .pure _

theorem outOfMemory_composed : Composed (library p) outOfMemory :=
  (setErrno_composed _).andThen fun _ => .pure _

section Checked

variable {c : SysCall} (hc : c.OfLibrary) (fuel : Nat)
include hc

theorem intCall_composed : Composed (library p) (intCall p fuel c) :=
  (mySyscall_composed hc fuel).andThen fun word => (libcInt word).leave_composed

theorem longCall_composed : Composed (library p) (longCall p fuel c) :=
  (mySyscall_composed hc fuel).andThen fun word => (libcLong word).leave_composed

theorem plainCall_composed : Composed (library p) (plainCall p fuel c) := by
  rw [plainCall, map_eq_pure_bind]
  exact (mySyscall_composed hc fuel).andThen fun _ => .pure _

theorem unsignedCall_composed : Composed (library p) (unsignedCall p fuel c) := by
  rw [unsignedCall, map_eq_pure_bind]
  exact (mySyscall_composed hc fuel).andThen fun _ => .pure _

end Checked

theorem copyStat_composed (buf var : UInt64) (fields : List (UInt64 × UInt64 × Nat)) :
    Composed (layer p) (copyStat buf var fields) := by
  induction fields with
  | nil => exact .pure _
  | cons field rest ih =>
      refine .look (fun s t hsame => by rw [show s = t from hsame]) fun m => ?_
      exact Composed.andThen (.basic (.store _ _)) fun _ => ih

theorem storeTimespec_composed (var : UInt64) (timeout : Int32) :
    Composed (layer p) (storeTimespec var timeout) :=
  Composed.andThen (.basic (.store _ _)) fun _ => .basic (.store _ _)

theorem sysSelect_composed (fuel : Nat) (tv : UInt64) :
    Composed (layer p) (sysSelect p fuel 0 0 0 0 tv) := by
  rw [sysSelect, map_eq_pure_bind]
  refine Composed.andThen (.basic ?_) fun _ => .pure _
  exact .call (c := ⟨23, [intWord 0, 0, 0, 0, tv]⟩) (by trivial) fuel

theorem storeTimeval_composed (tv : UInt64) (sec usec : UInt32) :
    Composed (layer p) (storeTimeval tv sec usec) :=
  Composed.andThen (.basic (.store _ _)) fun _ => .basic (.store _ _)

/-- A sleeping function looks at its `struct timeval` when its call has failed. -/
theorem sleeper_composed (fuel : Nat) (tv : UInt64) (sec usec : UInt32) (left : Machine → Int) :
    Composed (layer p) (do
      storeTimeval tv sec usec
      let ret ← sysSelect p fuel 0 0 0 0 tv
      if ret < 0 then
        let m : Machine ← get
        return left m
      return 0 : M Int) := by
  refine (storeTimeval_composed tv sec usec).andThen fun _ => ?_
  refine (sysSelect_composed fuel tv).andThen fun ret => ?_
  refine Composed.ite (.look (fun s t hsame => by rw [show s = t from hsame]) fun _ => .pure _) ?_
  exact .pure _

/-- Every function of the library is composed of what its discipline allows. -/
theorem LibcCall.exec_composed (f : LibcCall) (fuel : Nat) :
    Composed (library p) (f.exec p fuel) := by
  cases f with
  | brk addr =>
      refine (mySyscall_composed (by trivial) fuel).andThen fun ret => ?_
      exact Composed.ite outOfMemory_composed (.pure _)
  | sbrk inc =>
      refine (mySyscall_composed (by trivial) fuel).andThen fun ret => ?_
      refine Composed.ite outOfMemory_composed ?_
      refine (mySyscall_composed (by trivial) fuel).andThen fun moved => ?_
      exact Composed.ite (.pure _) outOfMemory_composed
  | exit status =>
      exact (mySyscall_composed (by trivial) fuel).andThen fun _ => .throw rfl
  | lseek fd offset whence => exact longCall_composed (by trivial) fuel
  | read fd buf count => exact longCall_composed (by trivial) fuel
  | write fd buf count => exact longCall_composed (by trivial) fuel
  | mmap addr length prot flags fd offset =>
      exact (mySyscall_composed (by trivial) fuel).andThen fun word =>
        (libcPointer word).leave_composed
  | getpgrp => exact plainCall_composed (by trivial) fuel
  | getpid => exact plainCall_composed (by trivial) fuel
  | getppid => exact plainCall_composed (by trivial) fuel
  | gettid => exact plainCall_composed (by trivial) fuel
  | geteuid => exact unsignedCall_composed (by trivial) fuel
  | getuid => exact unsignedCall_composed (by trivial) fuel
  | umask mode => exact unsignedCall_composed (by trivial) fuel
  | poll fds nfds timeout var =>
      have hfill : Composed (library p) (onMachine (storeTimespec var timeout)) :=
        .basic (.onMachine (storeTimespec_composed var timeout))
      refine Composed.ite (hfill.andThen fun _ => ?_) ?_ <;>
      · exact intCall_composed (by trivial) fuel
  | stat path buf var =>
      refine (mySyscall_composed (by trivial) fuel).andThen fun ret => ?_
      refine Composed.andThen (.basic (.onMachine (copyStat_composed buf var _))) fun _ => ?_
      exact (libcInt ret).leave_composed
  | msleep msecs var => exact .basic (.onMachine (sleeper_composed fuel var _ _ _))
  | sleep seconds var => exact .basic (.onMachine (sleeper_composed fuel var _ _ _))
  | usleep usecs var =>
      refine .basic (.onMachine ?_)
      exact (storeTimeval_composed var _ _).andThen fun _ => sysSelect_composed fuel var
  | tcsetpgrp fd pid var =>
      refine Composed.andThen (.basic (.onMachine (.basic (.store _ _)))) fun _ => ?_
      exact intCall_composed (by trivial) fuel
  | _ => exact intCall_composed (by trivial) fuel

end Functions

/-- A call that neither looks a path up nor deals with file info, and that is on one of
the given handles if it is on one. -/
def Call.OnHeld (start : Set FileHandle) : Call → Prop
  | .volumeOpen .. | .getInfo .. | .setInfo .. => False
  | c => ∀ handle, c.handle? = some handle → handle ∈ start

theorem Call.Free.onHeld {c : Call} (hfree : c.Free) (start : Set FileHandle) :
    c.OnHeld start := by
  obtain ⟨hnone, hnoOpen⟩ := hfree
  have hany : ∀ handle, c.handle? = some handle → handle ∈ start := by
    intro handle huse
    rw [hnone] at huse
    cases huse
  cases c with
  | volumeOpen path mode attributes => exact hnoOpen path mode attributes rfl
  | getInfo handle size => cases hnone
  | setInfo handle size info => cases hnone
  | _ => exact hany

theorem Call.OnHeld.mono {start more : Set FileHandle} (hsubset : start ⊆ more) {c : Call}
    (hheld : c.OnHeld start) : c.OnHeld more := by
  cases c with
  | volumeOpen | getInfo | setInfo => exact hheld.elim
  | _ => exact fun handle huse => hsubset (hheld handle huse)

/-- A move that only empties slots or copies handles between occupied ones, and makes its
file calls on handles of the table. -/
structure Dwindles (m m' : Machine) : Prop where
  table : m.fds.DrawnFrom m'.fds
  calls : ∃ new, m'.trace = m.trace ++ new ∧ ∀ e ∈ new, e.call.OnHeld m.fds.held

instance : IsPreorder Machine Dwindles where
  refl m := ⟨.refl _, [], (List.append_nil _).symm, fun e he => absurd he List.not_mem_nil⟩
  trans _ _ _ hfirst hsecond := by
    obtain ⟨htable, new, htrace, hnew⟩ := hfirst
    obtain ⟨htable', new', htrace', hnew'⟩ := hsecond
    refine ⟨htable.trans htable', new ++ new', ?_, fun e he => ?_⟩
    · rw [htrace', htrace, List.append_assoc]
    · rcases List.mem_append.mp he with hin | hin
      · exact hnew e hin
      · exact (hnew' e hin).mono htable.held_subset

section Steps

variable {p : Platform} {m : Machine}

theorem Machine.held_of_open {fd : Int} {handle : FileHandle}
    (hopen : m.openHandle fd = some handle) : ∀ k, some handle = some k → k ∈ m.fds.held := by
  rintro k ⟨⟩
  obtain ⟨r, _, hslot⟩ := Machine.openHandle_eq_some.mp hopen
  exact Slots.held_of_eq_some hslot

/-- The firmware calls of the library's requests. -/
theorem Request.calls_onHeld {r : Request} (hof : r.OfLibrary) {c : Call}
    (hin : c ∈ r.calls m) : c.OnHeld m.fds.held := by
  by_cases hneeds : r.NeedsFile
  · cases r with
    | fdRead fd buf count =>
        rw [Request.calls, if_neg hneeds] at hin
        obtain ⟨handle, hopen, rfl⟩ := hin
        exact Machine.held_of_open hopen
    | fdWrite fd buf count =>
        rw [Request.calls, if_neg hneeds] at hin
        obtain ⟨handle, hopen, data, rfl⟩ := hin
        exact Machine.held_of_open hopen
    | fdLseek fd offset whence =>
        obtain ⟨handle, hopen, rfl | ⟨position, rfl⟩⟩ := hin <;> exact Machine.held_of_open hopen
    | fdClose fd | fdFsync fd | fdGetdents64 fd dirp count =>
        obtain ⟨handle, hopen, rfl⟩ := hin
        exact Machine.held_of_open hopen
    | fdDup oldFd => exact hin.elim
    | fdOpen | fdStat | fdFstat | fdDup2 => exact hof.elim
    | _ => exact hneeds.elim
  · refine (Request.calls_free hneeds ?_ hin).onHeld _
    rintro path buf rfl
    exact hof

theorem FdOp.exec_drawnFrom {op : FdOp} {fd : Int} (hconsole : op.console fd = false)
    (fuel : Nat) :
    m.fds.DrawnFrom (finalState (((op.request fd).exec p fuel).run m)).fds := by
  rw [FdOp.exec_request_of_not_console p hconsole, asWord_finalState]
  refine withFd_finalState (P := fun s => m.fds.DrawnFrom s.fds) (.refl _)
    fun r handle hnumber hslot => ?_
  have hkept : Attending (some handle) (op.taken p fd handle) →
      m.fds.DrawnFrom (finalState ((op.taken p fd handle).run m)).fds := by
    intro hattends
    have hfds : (finalState ((op.taken p fd handle).run m)).fds = m.fds := (hattends.along m).1
    rw [hfds]
    exact .refl _
  cases op with
  | close =>
      subst hnumber
      rw [FdOp.taken, fdCloseTaken_run]
      split <;> exact Slots.drawnFrom_clear m.fds r
  | dup =>
      have hoccupied : ∃ r, m.fds r ≠ none := ⟨r, by simp [hslot]⟩
      obtain ⟨s, hs, hrun⟩ := fdDupTaken_run hoccupied handle
      rw [FdOp.taken, hrun]
      exact Slots.drawnFrom_store hs (Slots.held_of_eq_some hslot)
  | fsync => exact hkept (fdFsyncTaken_attending p handle)
  | lseek offset whence => exact hkept (fdLseekTaken_attending p offset whence handle)
  | read buf count => exact hkept (fdReadTaken_attending p buf count handle)
  | write buf count => exact hkept (fdWriteTaken_attending p buf count handle)
  | getdents64 dirp count => exact hkept (fdGetdents64Taken_attending p dirp count handle)
  | fstat buf => exact hkept (fdEfiStat_attending p buf handle)

theorem Request.exec_drawnFrom {r : Request} (hof : r.OfLibrary) (fuel : Nat) :
    m.fds.DrawnFrom (finalState ((r.exec p fuel).run m)).fds := by
  cases r.touches p fuel with
  | nothing hattends =>
      have hfds : (finalState ((r.exec p fuel).run m)).fds = m.fds := (hattends.along m).1
      rw [hfds]
      exact .refl _
  | descriptor op fd hconsole => exact FdOp.exec_drawnFrom hconsole fuel
  | opens | stats | redirects => exact hof.elim

theorem layerBasic_dwindles {α : Type} {x : M α} (hx : LayerBasic p x) : Along Dwindles x := by
  intro m
  cases hx with
  | call hc fuel =>
      rename_i c
      have hends : c.Ends p m ((syscallEmuX86_64 p fuel c.no c.args).run m) := ⟨fuel, rfl⟩
      obtain ⟨new, htrace, hnew⟩ := hends.calls
      rw [SysCall.OfLibrary] at hc
      cases hdispatch : dispatch c.no c.args with
      | error why =>
          rw [hdispatch] at hc
          exact hc.elim
      | ok r =>
          rw [hdispatch] at hc
          rw [SysCall.calls, hdispatch] at hnew
          refine ⟨?_, new, htrace, fun e he => Request.calls_onHeld hc (hnew e he)⟩
          rw [syscallEmuX86_64, hdispatch]
          exact Request.exec_drawnFrom hc fuel
  | store address bytes =>
      exact ⟨.refl _, [], (List.append_nil _).symm, fun e he => absurd he List.not_mem_nil⟩

theorem layer_dwindles {α : Type} {x : M α} (hx : Composed (layer p) x) : Along Dwindles x :=
  (hx.ends (L := Dwindles) (K := fun _ => Dwindles) (trans_of Dwindles)
    (fun hbasic => (layerBasic_dwindles hbasic).ends) fun m _ => refl_of Dwindles m).along

/-- The machine of a process dwindles. -/
def Process.Dwindles (s s' : Process) : Prop := UefiLinux.Dwindles s.machine s'.machine

instance : IsPreorder Process Process.Dwindles where
  refl s := refl_of UefiLinux.Dwindles s.machine
  trans _ _ _ hfirst hsecond := trans_of UefiLinux.Dwindles hfirst hsecond

theorem libraryBasic_dwindles {α : Type} {x : LibcM α} (hx : LibraryBasic p x) :
    Along Process.Dwindles x := by
  intro s
  cases hx with
  | onMachine hx =>
      rename_i x
      have hmachine := layer_dwindles hx s.machine
      change Process.Dwindles s (finalState (onMachine x s))
      rw [onMachine]
      cases hrun : x.run s.machine with
      | ok a m => rwa [hrun] at hmachine
      | error why m => rwa [hrun] at hmachine
  | errno v => exact refl_of UefiLinux.Dwindles s.machine

theorem LibcCall.exec_dwindles (f : LibcCall) (fuel : Nat) :
    Along Process.Dwindles (f.exec p fuel) :=
  ((f.exec_composed fuel).ends (L := Process.Dwindles) (K := fun _ => Process.Dwindles)
    (trans_of Process.Dwindles) (fun hbasic => (libraryBasic_dwindles hbasic).ends)
    fun s _ => refl_of Process.Dwindles s).along

end Steps

section Sessions

/-- What an application does: it stores to memory or to `errno`, or calls a function of the
library and gets its result. -/
inductive LibcAction
  | store (address : UInt64) (bytes : List UInt8)
  | errno (v : Int)
  | call (f : LibcCall) (v : Int)

variable (p : Platform)

/-- The function can end in the given way, with some budget. -/
def LibcCall.Ends (f : LibcCall) (s : Process) (result : EStateM.Result Stop Process Int) :
    Prop :=
  ∃ fuel, (f.exec p fuel).run s = result

inductive LibcAction.Does : LibcAction → Process → Process → Prop
  | store (address : UInt64) (bytes : List UInt8) (s : Process) :
      Does (.store address bytes) s
        { s with machine := { s.machine with mem := s.machine.mem.store address bytes } }
  | errno (v : Int) (s : Process) : Does (.errno v) s { s with errno := v }
  | call {f : LibcCall} {v : Int} {s s' : Process} (hends : f.Ends p s (.ok v s')) :
      Does (.call f v) s s'

/-- A session of an application whose calls of the library so far have all returned. -/
abbrev LibcSession : Process → List LibcAction → Process → Prop := Run (LibcAction.Does p)

variable {p} {s s' : Process} {acts : List LibcAction} {f : LibcCall}
  {result : EStateM.Result Stop Process Int}

theorem LibcCall.Ends.dwindles (hends : f.Ends p s result) :
    Process.Dwindles s (finalState result) := by
  obtain ⟨fuel, rfl⟩ := hends
  exact f.exec_dwindles fuel s

theorem LibcAction.Does.dwindles {act : LibcAction} (hdoes : LibcAction.Does p act s s') :
    Process.Dwindles s s' := by
  cases hdoes with
  | store address bytes s =>
      exact ⟨.refl _, [], (List.append_nil _).symm, fun e he => absurd he List.not_mem_nil⟩
  | errno v s => exact refl_of Process.Dwindles s
  | call hends => exact hends.dwindles

/-- Whatever an application does that reaches the layer only through the functions of the
libc, and however its last call ends: a slot that is occupied in the end was occupied at
the start, by what was in the table then; and no path has been looked up, no file info
taken or set, and no file call made but on a handle that the table held at the start. -/
theorem libc_session_opens_nothing (hsession : LibcSession p s acts s')
    (hends : f.Ends p s' result) :
    s.machine.fds.DrawnFrom (finalState result).machine.fds ∧
      ∃ new, (finalState result).machine.trace = s.machine.trace ++ new ∧
        ∀ e ∈ new, e.call.OnHeld s.machine.fds.held := by
  have hbefore : Process.Dwindles s s' :=
    hsession.along fun act s s' hdoes => LibcAction.Does.dwindles hdoes
  have hall : Process.Dwindles s (finalState result) :=
    trans_of Process.Dwindles hbefore hends.dwindles
  exact ⟨hall.table, hall.calls⟩

/-- With one file open, the application fails to open another and closes the one. -/
theorem libc_session_opens_nothing_close :
    ∃ result, LibcSession workingFirmware ⟨oneOpen, 0⟩ ([] ++ [.call (.openFile 0 0 0) (-1)])
        ⟨oneOpen, 38⟩ ∧
      LibcCall.Ends workingFirmware (.close 4) ⟨oneOpen, 38⟩ result ∧
      (finalState result).machine.trace.map Event.call = [.close firstHandle] ∧
      oneOpen.fds.DrawnFrom (finalState result).machine.fds := by
  have hopens : LibcSession workingFirmware ⟨oneOpen, 0⟩
      ([] ++ [.call (.openFile 0 0 0) (-1)]) ⟨oneOpen, 38⟩ :=
    (Run.nil _).snoc (.call (f := .openFile 0 0 0) ⟨0, rfl⟩)
  have hcloses : LibcCall.Ends workingFirmware (.close 4) ⟨oneOpen, 38⟩
      ((LibcCall.exec workingFirmware 0 (.close 4)).run ⟨oneOpen, 38⟩) := ⟨0, rfl⟩
  exact ⟨_, hopens, hcloses, rfl, (libc_session_opens_nothing hopens hcloses).1⟩

end Sessions

end UefiLinux
