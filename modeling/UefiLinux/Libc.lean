/-
The functions of the libc, as an application calls them.  Each makes its system calls
through `syscall_emu_x86_64`; most turn a negative result into -1 and leave its number in
`errno`.
-/
import UefiLinux.Sleeping

namespace UefiLinux

open Progress

/-- What an application works on: the machine and its `errno`. -/
structure Process where
  machine : Machine
  errno : Int

/-- A function of the library. -/
abbrev LibcM := EStateM Stop Process

/-- Work on the machine, which leaves `errno` alone. -/
def onMachine {α : Type} (x : M α) : LibcM α := fun s =>
  match x.run s.machine with
  | .ok a m => .ok a { s with machine := m }
  | .error why m => .error why { s with machine := m }

/-- `SET_ERRNO`; the number is cut to `int`. -/
def setErrno (v : Int) : LibcM Unit :=
  modify fun s => { s with errno := intArg (UInt64.ofInt v) }

def enomem : Int := 12

/-- `SET_ERRNO(ENOMEM); return -1;` -/
def outOfMemory : LibcM Int := do
  setErrno enomem
  return -1

/-- The end of a function that checks its result. -/
def LibcReturn.leave (r : LibcReturn) : LibcM Int :=
  match r.errno with
  | some e => do
      setErrno e
      return r.value
  | none => return r.value

/-- `SIGCHLD`, which `sys_fork` passes to `clone` -/
def sigchld : UInt64 := 17

def tiocspgrp : UInt64 := 0x5410

/-- Wrappers always have a number in the x86_64 header. -/
theorem Wrapper.call_isSome (w : Wrapper) : (w.call unistdX86_64).isSome = true := by
  cases w <;> rfl

/-- The call that a wrapper makes with the x86_64 header. -/
def Wrapper.sysCall (w : Wrapper) : SysCall := (w.call unistdX86_64).get w.call_isSome

/-- An exported function with its C arguments.  Where a function passes on the address of
a local variable, that address is the argument `var`. -/
inductive LibcCall
  | brk (addr : UInt64)
  | sbrk (inc : Int64)
  | chdir (path : UInt64)
  | chmod (path : UInt64) (mode : UInt32)
  | chown (path : UInt64) (owner group : UInt32)
  | chroot (path : UInt64)
  | close (fd : Int32)
  | dup (fd : Int32)
  | dup2 (old new : Int32)
  | dup3 (old new flags : Int32)
  | execve (filename argv envp : UInt64)
  | exit (status : Int32)
  | fork
  | fsync (fd : Int32)
  | getdents64 (fd : Int32) (dirp : UInt64) (count : Int32)
  | geteuid
  | getpgid (pid : Int32)
  | getpgrp
  | getpid
  | getppid
  | gettid
  | gettimeofday (tv tz : UInt64)
  | getuid
  | ioctl (fd : Int32) (req value : UInt64)
  | kill (pid signal : Int32)
  | link (old new : UInt64)
  | lseek (fd : Int32) (offset : Int64) (whence : Int32)
  | mkdir (path : UInt64) (mode : UInt32)
  | mknod (path : UInt64) (mode dev : UInt32)
  | mmap (addr length : UInt64) (prot flags fd : Int32) (offset : Int64)
  | munmap (addr length : UInt64)
  | mount (src tgt fst flags data : UInt64)
  | openFile (path : UInt64) (flags : Int32) (mode : UInt32)
  | prctl (option : Int32) (arg2 arg3 arg4 arg5 : UInt64)
  | pivotRoot (new old : UInt64)
  | poll (fds : UInt64) (nfds timeout : Int32) (var : UInt64)
  | read (fd : Int32) (buf count : UInt64)
  | reboot (cmd : Int32)
  | schedYield
  | select (nfds : Int32) (rfds wfds efds timeout : UInt64)
  | setpgid (pid pgid : Int32)
  | setsid
  | stat (path buf var : UInt64)
  | symlink (old new : UInt64)
  | umask (mode : UInt32)
  | umount2 (path : UInt64) (flags : Int32)
  | unlink (path : UInt64)
  | wait (status : UInt64)
  | wait4 (pid : Int32) (status : UInt64) (options : Int32) (rusage : UInt64)
  | waitpid (pid : Int32) (status : UInt64) (options : Int32)
  | write (fd : Int32) (buf count : UInt64)
  | memfdCreate (name : UInt64) (flags : UInt32)
  | msleep (msecs : UInt32) (var : UInt64)
  | sleep (seconds : UInt32) (var : UInt64)
  | usleep (usecs : UInt32) (var : UInt64)
  | tcsetpgrp (fd pid : Int32) (var : UInt64)
deriving DecidableEq

/-- Where a field of `struct sys_stat_struct` starts, where the field of `struct stat`
does that it is copied to, and how many bytes that takes. -/
def statFields : List (UInt64 × UInt64 × Nat) :=
  [(0, 0, 4), (8, 8, 8), (24, 16, 4), (16, 24, 8), (28, 32, 4), (32, 36, 4), (40, 40, 4),
    (48, 48, 8), (56, 56, 8), (64, 64, 8), (72, 72, 8), (80, 80, 8), (88, 88, 8), (96, 96, 8),
    (104, 104, 8), (112, 112, 8)]

section Functions

variable (p : Platform) (fuel : Nat)

/-- `my_syscall0` to `my_syscall6` -/
def mySyscall (c : SysCall) : LibcM UInt64 := onMachine (syscallEmuX86_64 p fuel c.no c.args)

/-- A function with `int ret`. -/
def intCall (c : SysCall) : LibcM Int := do
  (libcInt (← mySyscall p fuel c)).leave

/-- A function with `ssize_t ret` or `off_t ret`. -/
def longCall (c : SysCall) : LibcM Int := do
  (libcLong (← mySyscall p fuel c)).leave

/-- A function that returns the result as an `int` and does not check it. -/
def plainCall (c : SysCall) : LibcM Int := intArg <$> mySyscall p fuel c

/-- A function that returns the result as an `unsigned` and does not check it. -/
def unsignedCall (c : SysCall) : LibcM Int :=
  (fun word => (word.toUInt32.toNat : Int)) <$> mySyscall p fuel c

/-- Copy the fields of the local structure at `var` to `buf`. -/
def copyStat (buf var : UInt64) : List (UInt64 × UInt64 × Nat) → M Unit
  | [] => return ()
  | (source, target, width) :: rest => do
      let m : Machine ← get
      storeBytes (buf + target) (m.mem.bytes (var + source) width)
      copyStat buf var rest

/-- Fill in the `struct timespec` of `sys_poll` at `var`. -/
def storeTimespec (var : UInt64) (timeout : Int32) : M Unit := do
  storeBytes var (littleEndian 8 (UInt64.ofInt (timeout.toInt / 1000)).toNat)
  storeBytes (var + 8) (littleEndian 8 (UInt64.ofInt (timeout.toInt % 1000 * 1000000)).toNat)

/-- The exported functions; the numbers are those of the x86_64 header. -/
def LibcCall.exec : LibcCall → LibcM Int
  | .brk addr => do
      let ret ← mySyscall p fuel ⟨12, [addr]⟩
      if ret = 0 then outOfMemory else return 0
  | .sbrk inc => do
      let ret ← mySyscall p fuel ⟨12, [0]⟩
      if ret = 0 then outOfMemory
      else do
        let moved ← mySyscall p fuel ⟨12, [ret + longWord inc]⟩
        if moved = ret + longWord inc then return longArg (ret + longWord inc)
        else outOfMemory
  | .chdir path => intCall p fuel ⟨80, [path]⟩
  | .chmod path mode => intCall p fuel ⟨268, [intWord atFdcwd, path, mode.toUInt64, 0]⟩
  | .chown path owner group =>
      intCall p fuel ⟨260, [intWord atFdcwd, path, owner.toUInt64, group.toUInt64, 0]⟩
  | .chroot path => intCall p fuel ⟨161, [path]⟩
  | .close fd => intCall p fuel (Wrapper.sysClose fd).sysCall
  | .dup fd => intCall p fuel (Wrapper.sysDup fd).sysCall
  | .dup2 old new => intCall p fuel (Wrapper.sysDup2 old new).sysCall
  | .dup3 old new flags => intCall p fuel ⟨292, [intWord old, intWord new, intWord flags]⟩
  | .execve filename argv envp => intCall p fuel ⟨59, [filename, argv, envp]⟩
  | .exit status => do
      let _ ← mySyscall p fuel (Wrapper.sysExit status).sysCall
      throw .spins
  | .fork => intCall p fuel ⟨56, [sigchld, 0, 0, 0, 0]⟩
  | .fsync fd => intCall p fuel (Wrapper.sysFsync fd).sysCall
  | .getdents64 fd dirp count => intCall p fuel (Wrapper.sysGetdents64 fd dirp count).sysCall
  | .geteuid => unsignedCall p fuel ⟨107, [0]⟩
  | .getpgid pid => intCall p fuel ⟨121, [intWord pid]⟩
  | .getpgrp => plainCall p fuel ⟨121, [intWord 0]⟩
  | .getpid => plainCall p fuel ⟨39, [0]⟩
  | .getppid => plainCall p fuel ⟨110, [0]⟩
  | .gettid => plainCall p fuel ⟨186, [0]⟩
  | .gettimeofday tv tz => intCall p fuel (Wrapper.sysGettimeofday tv tz).sysCall
  | .getuid => unsignedCall p fuel ⟨102, [0]⟩
  | .ioctl fd req value => intCall p fuel ⟨16, [intWord fd, req, value]⟩
  | .kill pid signal => intCall p fuel (Wrapper.sysKill pid signal).sysCall
  | .link old new =>
      intCall p fuel ⟨265, [intWord atFdcwd, old, intWord atFdcwd, new, 0]⟩
  | .lseek fd offset whence => longCall p fuel (Wrapper.sysLseek fd offset whence).sysCall
  | .mkdir path mode => intCall p fuel ⟨258, [intWord atFdcwd, path, mode.toUInt64]⟩
  | .mknod path mode dev =>
      intCall p fuel ⟨259, [intWord atFdcwd, path, mode.toUInt64, dev.toUInt64]⟩
  | .mmap addr length prot flags fd offset => do
      let ret ← mySyscall p fuel (Wrapper.sysMmap addr length prot flags fd offset).sysCall
      (libcPointer ret).leave
  | .munmap addr length => intCall p fuel (Wrapper.sysMunmap addr length).sysCall
  | .mount src tgt fst flags data => intCall p fuel ⟨165, [src, tgt, fst, flags, data]⟩
  | .openFile path flags mode =>
      -- the mode is taken from the arguments only when a file may be created
      intCall p fuel
        (Wrapper.sysOpen path flags (if flags.toUInt32 &&& oCreat ≠ 0 then mode else 0)).sysCall
  | .prctl option arg2 arg3 arg4 arg5 =>
      intCall p fuel ⟨157, [intWord option, arg2, arg3, arg4, arg5]⟩
  | .pivotRoot new old => intCall p fuel ⟨155, [new, old]⟩
  | .poll fds nfds timeout var => do
      if 0 ≤ timeout.toInt then onMachine (storeTimespec var timeout)
      intCall p fuel
        ⟨271, [fds, intWord nfds, if 0 ≤ timeout.toInt then var else 0, 0, 0]⟩
  | .read fd buf count => longCall p fuel (Wrapper.sysRead fd buf count).sysCall
  | .reboot cmd =>
      intCall p fuel
        (Wrapper.sysReboot linuxRebootMagic1.toInt32 linuxRebootMagic2.toInt32 cmd 0).sysCall
  | .schedYield => intCall p fuel ⟨24, [0]⟩
  | .select nfds rfds wfds efds timeout =>
      intCall p fuel (Wrapper.sysSelect nfds rfds wfds efds timeout).sysCall
  | .setpgid pid pgid => intCall p fuel ⟨109, [intWord pid, intWord pgid]⟩
  | .setsid => intCall p fuel ⟨112, [0]⟩
  | .stat path buf var => do
      let ret ← mySyscall p fuel (Wrapper.sysStat path var).sysCall
      -- the fields are copied even when the call has failed
      onMachine (copyStat buf var statFields)
      (libcInt ret).leave
  | .symlink old new => intCall p fuel ⟨266, [old, intWord atFdcwd, new]⟩
  | .umask mode => unsignedCall p fuel ⟨95, [mode.toUInt64]⟩
  | .umount2 path flags => intCall p fuel ⟨166, [path, intWord flags]⟩
  | .unlink path => intCall p fuel ⟨263, [intWord atFdcwd, path, 0]⟩
  | .wait status => intCall p fuel ⟨61, [intWord (-1), status, 0, 0]⟩
  | .wait4 pid status options rusage =>
      intCall p fuel ⟨61, [intWord pid, status, intWord options, rusage]⟩
  | .waitpid pid status options =>
      intCall p fuel ⟨61, [intWord pid, status, intWord options, 0]⟩
  | .write fd buf count => longCall p fuel (Wrapper.sysWrite fd buf count).sysCall
  | .memfdCreate name flags => intCall p fuel ⟨319, [name, flags.toUInt64]⟩
  | .msleep msecs var => onMachine (UefiLinux.msleep p fuel var msecs)
  | .sleep seconds var => onMachine (UefiLinux.sleep p fuel var seconds)
  | .usleep usecs var => onMachine (UefiLinux.usleep p fuel var usecs)
  | .tcsetpgrp fd pid var => do
      onMachine (storeBytes var (littleEndian 4 pid.toUInt32.toNat))
      intCall p fuel ⟨16, [intWord fd, tiocspgrp, var]⟩

end Functions

end UefiLinux
