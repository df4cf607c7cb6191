/-
Processes, power and memory: the handlers that do not touch descriptors.
-/
import UefiLinux.Paths
import UefiLinux.Time

namespace UefiLinux

open Progress Journal

variable (p : Platform)

def emuPid : Int := 2

def procExit (status : Int) : M PUnit := do
  let _ ← uefiCallWrapper p (.exit (if status ≠ 0 then efiEndOfFile else efiSuccess))

def procAbort : M PUnit := do
  let _ ← uefiCallWrapper p (.exit efiAborted)

def procKill (pid sig : Int) : M Int := do
  if pid = emuPid - 1 then return Errno.eperm.neg
  if pid ≠ emuPid then return Errno.esrch.neg
  if sig ≥ 30 then return Errno.einval.neg
  procAbort p
  throw .spins

def linuxRebootMagic1 : UInt32 := 0xfee1dead
def linuxRebootMagic2 : UInt32 := 0x28121969
def linuxRebootMagic2a : UInt32 := 0x05121996
def linuxRebootMagic2b : UInt32 := 0x16041998
def linuxRebootMagic2c : UInt32 := 0x20112000

def linuxRebootCmdCadOff : UInt32 := 0
def linuxRebootCmdCadOn : UInt32 := 0x89abcdef
def linuxRebootCmdHalt : UInt32 := 0xcdef0123
def linuxRebootCmdKexec : UInt32 := 0x45584543
def linuxRebootCmdPowerOff : UInt32 := 0x4321fedc
def linuxRebootCmdRestart : UInt32 := 0x1234567
def linuxRebootCmdRestart2 : UInt32 := 0xa1b2c3d4
def linuxRebootCmdSwSuspend : UInt32 := 0xd000fce1

/-- The magic numbers that `power_reboot` accepts. -/
def rebootMagicValid (magic1 magic2 : UInt32) : Bool :=
  decide (magic1 = linuxRebootMagic1) &&
    (decide (magic2 = linuxRebootMagic2) || decide (magic2 = linuxRebootMagic2a) ||
      decide (magic2 = linuxRebootMagic2b) || decide (magic2 = linuxRebootMagic2c))

/-- Print a message, ignoring the status. -/
def announce (text : List UInt16) : M PUnit := do
  let _ ← uefiCallWrapper p (.outputString text)

/-- Reset the system; should the firmware come back, the request has succeeded. -/
def resetAndReturn (kind : ResetType) (size : UInt64) (text : String) : M Int := do
  let _ ← uefiCallWrapper p (.resetSystem kind efiSuccess size (wide text))
  return 0

def powerReboot (magic1 magic2 cmd : UInt32) (arg : UInt64) : M Int := do
  if ¬ rebootMagicValid magic1 magic2 then return Errno.einval.neg
  if cmd = linuxRebootCmdCadOff ∨ cmd = linuxRebootCmdCadOn then
    return Errno.einval.neg
  if cmd = linuxRebootCmdHalt then
    announce p (wide "\r\nSystem halted.")
    throw .spins
  else if cmd = linuxRebootCmdKexec then return Errno.einval.neg
  else if cmd = linuxRebootCmdSwSuspend then return Errno.einval.neg
  else if cmd = linuxRebootCmdPowerOff then
    announce p (wide "\r\nPower down.")
    resetAndReturn p .shutdown (34 * 2) "LINUX_REBOOT_CMD_POWER_OFF called"
  else if cmd = linuxRebootCmdRestart then
    announce p (wide "\r\nRestarting system.")
    resetAndReturn p .warm 32 "LINUX_REBOOT_CMD_RESTART called"
  else if cmd = linuxRebootCmdRestart2 then
    announce p (wide "\r\nRestarting system with command '")
    let command ← bstrToWstr arg
    announce p command
    announce p (wide "'")
    resetAndReturn p .warm 33 "LINUX_REBOOT_CMD_RESTART2 called"
  else return Errno.einval.neg

/-- `fd_select`; the refusal value is not negated in the source. -/
def fdSelect (nfds : Int) (readfds writefds exceptfds timeout : UInt64) : M Int := do
  if nfds ≠ 0 ∨ readfds ≠ 0 ∨ writefds ≠ 0 ∨ exceptfds ≠ 0 then
    return Errno.enotsup.code
  timeSleep p timeout

def memMmap (_addr length : UInt64) (_prot _flags fd _offset : Int) : M UInt64 := do
  if fd > 0 then return UInt64.ofInt Errno.enotsup.neg
  let allocated ← uefiCallWrapper p (.allocatePool length)
  if efiError allocated.status then
    return UInt64.ofInt (failure allocated.status)
  return allocated.address

def memMunmap (addr _length : UInt64) : M Int := do
  let freed ← uefiCallWrapper p (.freePool addr)
  if efiError freed.status then return failure freed.status
  return 0

end UefiLinux
