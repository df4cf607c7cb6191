/-
The system call table: which handler a number selects, with which arguments, and
what the dispatcher returns.
-/
import UefiLinux.Console
import UefiLinux.Directories
import UefiLinux.Services

namespace UefiLinux

open Progress Journal

/-- A handler of the emulation layer with the arguments it is called with, or one
of the answers the dispatcher gives by itself. -/
inductive Request
  | fdRead (fd : Int) (buf count : UInt64)
  | fdWrite (fd : Int) (buf count : UInt64)
  | fdOpen (pathname : UInt64) (flags : UInt32)
  | fdClose (fd : Int)
  | fdStat (path buf : UInt64)
  | fdFstat (fd : Int) (buf : UInt64)
  | fdLseek (fd offset whence : Int)
  | memMmap (addr length : UInt64) (prot flags fd offset : Int)
  | memMunmap (addr length : UInt64)
  | fdSelect (nfds : Int) (readfds writefds exceptfds timeout : UInt64)
  | fdDup (oldFd : Int)
  | fdDup2 (oldFd newFd : Int)
  | procExit (status : Int)
  | fdFsync (fd : Int)
  | procKill (pid sig : Int)
  | timeGettimeofday (tv : UInt64)
  | powerReboot (magic1 magic2 cmd : UInt32) (arg : UInt64)
  | fdGetdents64 (fd : Int) (dirp : UInt64) (count : Int)
  | constant (value : Nat)
  | notPermitted
  | notImplemented
deriving DecidableEq

/-- An argument word read as the `int` parameter it is passed to. -/
def intArg (word : UInt64) : Int := word.toUInt32.toInt32.toInt

/-- An argument word read as an `off_t` parameter. -/
def longArg (word : UInt64) : Int := word.toInt64.toInt

/-- A `long` turned into an argument or result word is read back as it was. -/
theorem longArg_ofInt {v : Int} (hlow : -2 ^ 63 ≤ v) (hhigh : v < 2 ^ 63) :
    longArg (UInt64.ofInt v) = v :=
  Words.toInt_ofInt hlow hhigh

/-- An `int` turned into an argument word is read back as it was. -/
theorem intArg_ofInt {v : Int} (hlow : -2 ^ 31 ≤ v) (hhigh : v < 2 ^ 31) :
    intArg (UInt64.ofInt v) = v :=
  Words.toInt_low_ofInt hlow hhigh

/-- The `index`-th element of `args`; past its end the behaviour is undefined. -/
def arg (args : List UInt64) (index : Nat) : Except Fault UInt64 :=
  match args[index]? with
  | some word => .ok word
  | none => .error (.argsIndex index)

@[simp] theorem ok_bind {α β : Type} (word : α) (f : α → Except Fault β) :
    (Except.ok word >>= f) = f word := rfl

/-- The `switch` of `syscall_emu_x86_64`. -/
def dispatch (no : UInt64) (args : List UInt64) : Except Fault Request :=
  match no.toNat with
  | 0 => return .fdRead (intArg (← arg args 0)) (← arg args 1) (← arg args 2)
  | 1 => return .fdWrite (intArg (← arg args 0)) (← arg args 1) (← arg args 2)
  | 2 => return .fdOpen (← arg args 0) (← arg args 1).toUInt32
  | 3 => return .fdClose (intArg (← arg args 0))
  | 4 => return .fdStat (← arg args 0) (← arg args 1)
  | 5 => return .fdFstat (intArg (← arg args 0)) (← arg args 1)
  | 6 => return .fdStat (← arg args 0) (← arg args 1)
  | 8 => return .fdLseek (intArg (← arg args 0)) (longArg (← arg args 1))
                (intArg (← arg args 2))
  | 9 => return .memMmap (← arg args 0) (← arg args 1) (intArg (← arg args 2))
                (intArg (← arg args 3)) (intArg (← arg args 4)) (longArg (← arg args 5))
  | 11 => return .memMunmap (← arg args 0) (← arg args 1)
  | 23 => return .fdSelect (intArg (← arg args 0)) (← arg args 1) (← arg args 2)
                (← arg args 3) (← arg args 4)
  | 32 => return .fdDup (intArg (← arg args 0))
  | 33 => return .fdDup2 (intArg (← arg args 0)) (intArg (← arg args 1))
  | 60 => return .procExit (intArg (← arg args 0))
  | 74 => return .fdFsync (intArg (← arg args 0))
  | 75 => return .fdFsync (intArg (← arg args 0))
  | 62 => return .procKill (intArg (← arg args 0)) (intArg (← arg args 1))
  | 96 => return .timeGettimeofday (← arg args 0)
  | 169 => return .powerReboot (← arg args 0).toUInt32 (← arg args 1).toUInt32
                (← arg args 2).toUInt32 (← arg args 3)
  | 217 => return .fdGetdents64 (intArg (← arg args 0)) (← arg args 1)
                (intArg (← arg args 2))
  | 10 => return .constant 0
  | 24 => return .constant 0
  | 39 => return .constant emuPid.toNat
  | 102 => return .constant emuUid
  | 104 => return .constant emuGid
  | 105 => return .notPermitted
  | 106 => return .notPermitted
  | 107 => return .constant emuUid
  | 108 => return .constant emuGid
  | 110 => return .constant (emuPid - 1).toNat
  | 186 => return .constant emuPid.toNat
  | _ => return .notImplemented

/-- The only fault is a read past the end of `args`. -/
def FaultsOnArgs {α : Type} (x : Except Fault α) : Prop :=
  ∀ why, x = .error why → ∃ index, why = .argsIndex index

theorem faultsOnArgs_pure {α : Type} (a : α) : FaultsOnArgs (pure a) := by
  intro why herror
  cases herror

/-- Reading an element and going on with it. -/
theorem faultsOnArgs_arg_bind {α : Type} (args : List UInt64) (index : Nat)
    {f : UInt64 → Except Fault α} (hf : ∀ word, FaultsOnArgs (f word)) :
    FaultsOnArgs (arg args index >>= f) := by
  unfold arg
  cases args[index]? with
  | some word => exact hf word
  | none =>
      intro why herror
      have hwhy : why = .argsIndex index := by
        injection herror with heq
        exact heq.symm
      exact ⟨index, hwhy⟩

/-- The dispatcher itself has no other fault. -/
theorem dispatch_faultsOnArgs (no : UInt64) (args : List UInt64) :
    FaultsOnArgs (dispatch no args) := by
  unfold dispatch
  split <;> repeat first
    | exact faultsOnArgs_pure _
    | refine faultsOnArgs_arg_bind args _ fun _ => ?_

theorem arg_bind_eq_ok {α : Type} {args : List UInt64} {index : Nat} {f : UInt64 → Except Fault α}
    {a : α} (hok : (arg args index >>= f) = .ok a) : ∃ word, f word = .ok a := by
  unfold arg at hok
  cases hword : args[index]? with
  | some word =>
      rw [hword] at hok
      exact ⟨word, hok⟩
  | none =>
      rw [hword] at hok
      cases hok

/-- The offset that a seek is dispatched with is an `off_t`. -/
theorem dispatch_offset_lt {no : UInt64} {args : List UInt64} {fd offset whence : Int}
    (hseek : dispatch no args = .ok (.fdLseek fd offset whence)) : offset < 2 ^ 63 := by
  unfold dispatch at hseek
  split at hseek <;> repeat first
    | cases hseek
    | obtain ⟨_, hseek⟩ := arg_bind_eq_ok hseek
  exact Int64.toInt_lt _

variable (p : Platform)

/-- Run a handler that returns a C integer, converted to the result word. -/
def asWord (handler : M Int) : M UInt64 := UInt64.ofInt <$> handler

/-- Call the handler a request names. -/
def Request.exec (fuel : Nat) : Request → M UInt64
  | .fdRead fd buf count => asWord (UefiLinux.fdRead p fuel fd buf count)
  | .fdWrite fd buf count => asWord (UefiLinux.fdWrite p fuel fd buf count)
  | .fdOpen pathname flags => asWord (UefiLinux.fdOpen p pathname flags)
  | .fdClose fd => asWord (UefiLinux.fdClose p fd)
  | .fdStat path buf => asWord (UefiLinux.fdStat p path buf)
  | .fdFstat fd buf => asWord (UefiLinux.fdFstat p fd buf)
  | .fdLseek fd offset whence => asWord (UefiLinux.fdLseek p fd offset whence)
  | .memMmap addr length prot flags fd offset =>
      UefiLinux.memMmap p addr length prot flags fd offset
  | .memMunmap addr length => asWord (UefiLinux.memMunmap p addr length)
  | .fdSelect nfds readfds writefds exceptfds timeout =>
      asWord (UefiLinux.fdSelect p nfds readfds writefds exceptfds timeout)
  | .fdDup oldFd => asWord (UefiLinux.fdDup oldFd)
  | .fdDup2 oldFd newFd => asWord (UefiLinux.fdDup2 p oldFd newFd)
  | .procExit status => do
      UefiLinux.procExit p status
      return 0
  | .fdFsync fd => asWord (UefiLinux.fdFsync p fd)
  | .procKill pid sig => asWord (UefiLinux.procKill p pid sig)
  | .timeGettimeofday tv => asWord (UefiLinux.timeGettimeofday p tv)
  | .powerReboot magic1 magic2 cmd arg =>
      asWord (UefiLinux.powerReboot p magic1 magic2 cmd arg)
  | .fdGetdents64 fd dirp count => asWord (UefiLinux.fdGetdents64 p fd dirp count)
  | .constant value => return UInt64.ofNat value
  | .notPermitted => return UInt64.ofInt Errno.eperm.neg
  | .notImplemented => return UInt64.ofInt Errno.enosys.neg

/-- `syscall_emu_x86_64`, with a budget for the console loops. -/
def syscallEmuX86_64 (fuel : Nat) (no : UInt64) (args : List UInt64) : M UInt64 :=
  match dispatch no args with
  | .ok request => request.exec p fuel
  | .error why => throw (.fault why)

/-- A system call as a program makes it. -/
structure SysCall where
  no : UInt64
  args : List UInt64

/-- The call can end in the given way, with some budget. -/
def SysCall.Ends (c : SysCall) (m : Machine)
    (result : EStateM.Result Stop Machine UInt64) : Prop :=
  ∃ fuel, (syscallEmuX86_64 p fuel c.no c.args).run m = result

/-- The call returns and leaves the given machine. -/
def SysCall.Returns (c : SysCall) (m m' : Machine) : Prop :=
  ∃ r, c.Ends p m (.ok r m')

/-- The machine on which `efi_main` calls `main`: the table cleared slot by slot
and the greeting printed. -/
def efiMain : M PUnit := do
  (List.finRange maxFds).forM fun it =>
    modify fun m => { m with fds := Function.update m.fds it none }
  let _ ← uefiCallWrapper p
    (.outputString (wide "Initialized! Calling main()...\r\n"))

end UefiLinux
