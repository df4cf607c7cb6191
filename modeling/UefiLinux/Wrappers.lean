/-
The libc wrappers: the system call number each `sys_*` function picks from
`<asm/unistd.h>`, the argument array it builds, and the handler it is meant for.
-/
import UefiLinux.Dispatch

namespace UefiLinux

/-- The system call numbers the wrappers use.  A number is absent when the header
does not define its macro. -/
structure Unistd where
  read : UInt64
  write : UInt64
  close : UInt64
  lseek : UInt64
  mmap : UInt64
  munmap : UInt64
  dup : UInt64
  exit : UInt64
  kill : UInt64
  fsync : UInt64
  gettimeofday : UInt64
  reboot : UInt64
  getdents64 : UInt64
  mmap2 : Option UInt64
  openat : Option UInt64
  openPlain : Option UInt64
  dup3 : Option UInt64
  dup2 : Option UInt64
  newfstatat : Option UInt64
  stat : Option UInt64
  newselect : Option UInt64
  select : Option UInt64

/-- The Linux x86_64 UAPI header. -/
def unistdX86_64 : Unistd where
  read := 0
  write := 1
  close := 3
  lseek := 8
  mmap := 9
  munmap := 11
  dup := 32
  exit := 60
  kill := 62
  fsync := 74
  gettimeofday := 96
  reboot := 169
  getdents64 := 217
  mmap2 := none
  openat := some 257
  openPlain := some 2
  dup3 := some 292
  dup2 := some 33
  newfstatat := some 262
  stat := some 4
  newselect := none
  select := some 23

/-- A call of a libc wrapper with its C arguments; `stat` carries the address of
the local structure the wrapper passes on. -/
inductive Wrapper
  | sysOpen (path : UInt64) (flags : Int32) (mode : UInt32)
  | sysClose (fd : Int32)
  | sysDup (fd : Int32)
  | sysDup2 (old new : Int32)
  | sysLseek (fd : Int32) (offset : Int64) (whence : Int32)
  | sysRead (fd : Int32) (buf count : UInt64)
  | sysWrite (fd : Int32) (buf count : UInt64)
  | sysStat (path stat : UInt64)
  | sysFsync (fd : Int32)
  | sysGetdents64 (fd : Int32) (dirp : UInt64) (count : Int32)
  | sysMmap (addr length : UInt64) (prot flags fd : Int32) (offset : Int64)
  | sysMunmap (addr length : UInt64)
  | sysKill (pid signal : Int32)
  | sysReboot (magic1 magic2 cmd : Int32) (arg : UInt64)
  | sysSelect (nfds : Int32) (rfds wfds efds timeout : UInt64)
  | sysGettimeofday (tv tz : UInt64)
  | sysExit (status : Int32)
deriving DecidableEq

/-- An `int` in an element of `uint64_t args[]`. -/
def intWord (v : Int32) : UInt64 := UInt64.ofInt v.toInt

/-- An `off_t` in an element of `uint64_t args[]`. -/
def longWord (v : Int64) : UInt64 := UInt64.ofInt v.toInt

def atFdcwd : Int32 := -100

/-- The number and argument array a wrapper passes to `syscall_emu_x86_64`, or
nothing where the preprocessor refuses to compile it. -/
def Wrapper.call (u : Unistd) : Wrapper → Option SysCall
  | .sysOpen path flags mode =>
      match u.openat, u.openPlain with
      | some no, _ => some ⟨no, [intWord atFdcwd, path, intWord flags, mode.toUInt64]⟩
      | none, some no => some ⟨no, [path, intWord flags, mode.toUInt64]⟩
      | none, none => none
  | .sysClose fd => some ⟨u.close, [intWord fd]⟩
  | .sysDup fd => some ⟨u.dup, [intWord fd]⟩
  | .sysDup2 old new =>
      match u.dup3, u.dup2 with
      | some no, _ => some ⟨no, [intWord old, intWord new, 0]⟩
      | none, some no => some ⟨no, [intWord old, intWord new]⟩
      | none, none => none
  | .sysLseek fd offset whence =>
      some ⟨u.lseek, [intWord fd, longWord offset, intWord whence]⟩
  | .sysRead fd buf count => some ⟨u.read, [intWord fd, buf, count]⟩
  | .sysWrite fd buf count => some ⟨u.write, [intWord fd, buf, count]⟩
  | .sysStat path stat =>
      match u.newfstatat, u.stat with
      | some no, _ => some ⟨no, [intWord atFdcwd, path, stat, 0]⟩
      | none, some no => some ⟨no, [path, stat]⟩
      | none, none => none
  | .sysFsync fd => some ⟨u.fsync, [intWord fd]⟩
  | .sysGetdents64 fd dirp count =>
      some ⟨u.getdents64, [intWord fd, dirp, intWord count]⟩
  | .sysMmap addr length prot flags fd offset =>
      match u.mmap2 with
      | some no => some ⟨no, [addr, length, intWord prot, intWord flags, intWord fd,
          longWord (offset >>> 12)]⟩
      | none => some ⟨u.mmap, [addr, length, intWord prot, intWord flags, intWord fd,
          longWord offset]⟩
  | .sysMunmap addr length => some ⟨u.munmap, [addr, length]⟩
  | .sysKill pid signal => some ⟨u.kill, [intWord pid, intWord signal]⟩
  | .sysReboot magic1 magic2 cmd arg =>
      some ⟨u.reboot, [intWord magic1, intWord magic2, intWord cmd, arg]⟩
  | .sysSelect nfds rfds wfds efds timeout =>
      match u.newselect, u.select with
      | some no, _ => some ⟨no, [intWord nfds, rfds, wfds, efds, timeout]⟩
      | none, some no => some ⟨no, [intWord nfds, rfds, wfds, efds, timeout]⟩
      | none, none => none
  | .sysGettimeofday tv tz => some ⟨u.gettimeofday, [tv, tz]⟩
  | .sysExit status => some ⟨u.exit, [intWord (status &&& 255)]⟩

/-- The handler that emulates a wrapper, with the wrapper's arguments. -/
def Wrapper.handler : Wrapper → Request
  | .sysOpen path flags _ => .fdOpen path flags.toUInt32
  | .sysClose fd => .fdClose fd.toInt
  | .sysDup fd => .fdDup fd.toInt
  | .sysDup2 old new => .fdDup2 old.toInt new.toInt
  | .sysLseek fd offset whence => .fdLseek fd.toInt offset.toInt whence.toInt
  | .sysRead fd buf count => .fdRead fd.toInt buf count
  | .sysWrite fd buf count => .fdWrite fd.toInt buf count
  | .sysStat path stat => .fdStat path stat
  | .sysFsync fd => .fdFsync fd.toInt
  | .sysGetdents64 fd dirp count => .fdGetdents64 fd.toInt dirp count.toInt
  | .sysMmap addr length prot flags fd offset =>
      .memMmap addr length prot.toInt flags.toInt fd.toInt offset.toInt
  | .sysMunmap addr length => .memMunmap addr length
  | .sysKill pid signal => .procKill pid.toInt signal.toInt
  | .sysReboot magic1 magic2 cmd arg =>
      .powerReboot magic1.toUInt32 magic2.toUInt32 cmd.toUInt32 arg
  | .sysSelect nfds rfds wfds efds timeout =>
      .fdSelect nfds.toInt rfds wfds efds timeout
  | .sysGettimeofday tv _ => .timeGettimeofday tv
  | .sysExit status => .procExit (status &&& 255).toInt

@[simp] theorem intArg_intWord (v : Int32) : intArg (intWord v) = v.toInt :=
  intArg_ofInt v.le_toInt v.toInt_lt

@[simp] theorem longArg_longWord (v : Int64) : longArg (longWord v) = v.toInt :=
  longArg_ofInt v.le_toInt v.toInt_lt

@[simp] theorem toUInt32_intWord (v : Int32) : (intWord v).toUInt32 = v.toUInt32 := by
  apply UInt32.toBitVec_inj.mp
  apply BitVec.eq_of_toInt_eq
  exact intArg_intWord v

/-- The wrapper's call reaches its handler with its arguments in place: the
dispatcher selects that handler from the arguments supplied, so the call behaves
as the handler on every platform, budget and machine. -/
def Wrapper.Reaches (u : Unistd) (w : Wrapper) : Prop :=
  ∃ c, w.call u = some c ∧ dispatch c.no c.args = .ok w.handler ∧
    ∀ (p : Platform) (fuel : Nat) (m : Machine),
      (syscallEmuX86_64 p fuel c.no c.args).run m =
        (w.handler.exec p fuel).run m

/-- Selecting the handler settles the behaviour of the call. -/
theorem Wrapper.reaches_iff (u : Unistd) (w : Wrapper) :
    w.Reaches u ↔
      ∃ c, w.call u = some c ∧ dispatch c.no c.args = .ok w.handler := by
  constructor
  · rintro ⟨c, hcall, hdispatch, _⟩
    exact ⟨c, hcall, hdispatch⟩
  · rintro ⟨c, hcall, hdispatch⟩
    refine ⟨c, hcall, hdispatch, fun p fuel m => ?_⟩
    rw [syscallEmuX86_64, hdispatch]

/-- A dispatched call that names another request does not reach the handler. -/
theorem Wrapper.not_reaches_of_dispatch {u : Unistd} {w : Wrapper} {c : SysCall}
    {r : Request} (hcall : w.call u = some c) (hdispatch : dispatch c.no c.args = .ok r)
    (hne : r ≠ w.handler) : ¬ w.Reaches u := by
  rw [Wrapper.reaches_iff]
  rintro ⟨c', hcall', hdispatch'⟩
  rw [hcall, Option.some.injEq] at hcall'
  subst hcall'
  rw [hdispatch, Except.ok.injEq] at hdispatch'
  exact hne hdispatch'

/-- The wrappers that prefer a number with a directory or flags argument. -/
def Wrapper.prefersExtended : Wrapper → Bool
  | .sysOpen .. | .sysDup2 .. | .sysStat .. => true
  | _ => false

/-- A wrapper with no extended number to prefer has its call dispatched to its
handler. -/
theorem Wrapper.reaches_of_plain {w : Wrapper} (hplain : w.prefersExtended = false) :
    w.Reaches unistdX86_64 := by
  rw [Wrapper.reaches_iff]
  cases w with
  | sysOpen path flags mode => cases hplain
  | sysDup2 old new => cases hplain
  | sysStat path stat => cases hplain
  | sysSelect nfds rfds wfds efds timeout =>
      refine ⟨⟨23, [intWord nfds, rfds, wfds, efds, timeout]⟩, rfl, ?_⟩
      simp [dispatch, arg, Wrapper.handler]
  | sysMmap addr length prot flags fd offset =>
      refine ⟨⟨9, [addr, length, intWord prot, intWord flags, intWord fd,
        longWord offset]⟩, rfl, ?_⟩
      simp [dispatch, arg, Wrapper.handler]
  | _ =>
      refine ⟨_, rfl, ?_⟩
      simp [dispatch, arg, unistdX86_64, Wrapper.handler]

/-- A wrapper that prefers an extended number is answered with `-ENOSYS`. -/
theorem Wrapper.notImplemented_of_extended {w : Wrapper}
    (hextended : w.prefersExtended = true) :
    ∃ c, w.call unistdX86_64 = some c ∧ dispatch c.no c.args = .ok .notImplemented := by
  cases w with
  | sysOpen path flags mode => exact ⟨_, rfl, rfl⟩
  | sysDup2 old new => exact ⟨_, rfl, rfl⟩
  | sysStat path stat => exact ⟨_, rfl, rfl⟩
  | _ => cases hextended

/-- With the x86_64 header a wrapper reaches its handler exactly when it has no
extended number to prefer. -/
theorem wrapper_reaches_iff_plain (w : Wrapper) :
    w.Reaches unistdX86_64 ↔ w.prefersExtended = false := by
  constructor
  · intro hreaches
    by_contra hplain
    have hextended : w.prefersExtended = true := by simpa using hplain
    obtain ⟨c, hcall, hdispatch⟩ := Wrapper.notImplemented_of_extended hextended
    apply Wrapper.not_reaches_of_dispatch hcall hdispatch ?_ hreaches
    cases w <;> simp [Wrapper.handler]
  · exact Wrapper.reaches_of_plain

/-- Opening a file through the library is not implemented. -/
theorem not_every_wrapper_reaches :
    ¬ ∀ w : Wrapper, w.Reaches unistdX86_64 := by
  intro hall
  have hopen := hall (.sysOpen 0 0 0)
  exact Wrapper.not_reaches_of_dispatch (r := .notImplemented) rfl rfl
    (by simp [Wrapper.handler]) hopen

end UefiLinux
