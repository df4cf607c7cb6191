/-
The descriptor handlers: the guard they share, opening, closing, duplicating and
seeking.  Descriptors are numbered from `virtualFdBase`; the array is not.

Definitions carry the names of `linux-uefi.c`, written in camel case.  The part of
a handler that runs once the guard has produced the handle ends in `Taken`.
-/
import UefiLinux.Paths

namespace UefiLinux

open Progress Journal

def virtualFdBase : Int := 4

def toRealFd (fd : Int) : Int := fd - virtualFdBase

def toVirtualFd (fd : Int) : Int := fd + virtualFdBase

def fdRealFindFree (fds : Slots maxFds FileHandle) : Int :=
  match Fin.find? fun it => (fds it).isSome with
  | some it => it
  | none => -1

def fdRealForHandle (fds : Slots maxFds FileHandle) (handle : FileHandle) : Int :=
  match Fin.find? fun it => decide (fds it = some handle) with
  | some it => it
  | none => 0

def fdRealReset (fd : Int) : M Unit := fdsWrite fd none

/-- The second half of the guard at the head of the descriptor handlers, and the
handler's own code on the handle it takes. -/
def withOpenFd (fd : Int) (taken : FileHandle → M Int) : M Int := do
  if fd < virtualFdBase then return Errno.eacces.neg
  match ← fdsRead (toRealFd fd) with
  | none => return Errno.ebadf.neg
  | some handle => taken handle

/-- The whole guard at the head of the descriptor handlers. -/
def withFd (fd : Int) (taken : FileHandle → M Int) : M Int := do
  if fd > maxFds then return Errno.ebadf.neg
  withOpenFd fd taken

variable (p : Platform)

def fdEfiGetFileInfo (handle : FileHandle) : M Reply :=
  uefiCallWrapper p (.getInfo handle sizeofEfiFileInfo)

/-- `fd_efi_set_file_info`.  The source passes the address of its own pointer
parameter, so the firmware reads stack contents there and not the given info. -/
def fdEfiSetFileInfo (handle : FileHandle) (_info : EfiFileInfo) : M Reply := do
  let m : Machine ← get
  uefiCallWrapper p
    (.setInfo handle sizeofEfiFileInfo (p.residue m.trace).info)

def oWronly : UInt32 := 0o1
def oRdwr : UInt32 := 0o2
def oCreat : UInt32 := 0o100
def oAppend : UInt32 := 0o2000
def oDirectory : UInt32 := 0o200000

/-- `flags & bit`, as a condition -/
def hasFlag (flags bit : UInt32) : Bool := decide (flags &&& bit ≠ 0)

/-- The `OpenMode` that `fd_open` computes; always readable. -/
def openMode (flags : UInt32) : UInt64 :=
  efiFileModeRead |||
    (if hasFlag flags oAppend then efiFileModeWrite else 0) |||
    (if hasFlag flags oCreat then efiFileModeCreate else 0) |||
    (if hasFlag flags oWronly || hasFlag flags oRdwr then efiFileModeWrite else 0)

/-- The `Volume->Open` call that `fd_open` makes for a converted path. -/
def openCall (path : List UInt16) (flags : UInt32) : Call :=
  .volumeOpen path (openMode flags)
    (if hasFlag flags oDirectory then efiFileDirectory else 0)

def EfiFileInfo.isDirectory (info : EfiFileInfo) : Bool :=
  decide (info.fileAttribute &&& efiFileDirectory ≠ 0)

/-- What `fd_open` does to a freshly opened object before it looks at its kind:
seek to the end, truncate, or nothing. -/
def openEffects (handle : FileHandle) (flags : UInt32) (info : EfiFileInfo) :
    M PUnit := do
  if hasFlag flags oAppend then
    let _ ← uefiCallWrapper p (.setPosition handle 0xFFFFFFFFFFFFFFFF)
  else if openMode flags &&& efiFileModeWrite ≠ 0 then
    let _ ← fdEfiSetFileInfo p handle { info with fileSize := 0 }

/-- The result of `fd_open` for an object of the given kind. -/
def openResult (fd : Int) (flags : UInt32) (info : EfiFileInfo) : Int :=
  if hasFlag flags oDirectory then
    if info.isDirectory then toVirtualFd fd else Errno.enotdir.neg
  else if info.isDirectory then Errno.eisdir.neg
  else toVirtualFd fd

def fdOpen (pathname : UInt64) (flags : UInt32) : M Int := do
  let m : Machine ← get
  let fd := fdRealFindFree m.fds
  if fd < 0 then return Errno.emfile.neg
  let path ← bstrToWstr pathname
  let opened ← uefiCallWrapper p (openCall path flags)
  if efiError opened.status then return failure opened.status
  let got ← fdEfiGetFileInfo p opened.handle
  if efiError got.status then return failure got.status
  openEffects p opened.handle flags got.info
  return openResult fd flags got.info

def fdCloseTaken (fd : Int) (handle : FileHandle) : M Int := do
  fdRealReset (toRealFd fd)
  let m : Machine ← get
  if fdRealForHandle m.fds handle = 0 then
    let closed ← uefiCallWrapper p (.close handle)
    if efiError closed.status then return failure closed.status
  return 0

def fdClose (fd : Int) : M Int := withFd fd (fdCloseTaken p fd)

def fdFsyncTaken (handle : FileHandle) : M Int := do
  let flushed ← uefiCallWrapper p (.flush handle)
  if efiError flushed.status then return failure flushed.status
  return 0

def fdFsync (fd : Int) : M Int := withFd fd (fdFsyncTaken p)

def fdDupTaken (handle : FileHandle) : M Int := do
  let m : Machine ← get
  let newFd := fdRealFindFree m.fds
  if newFd < 0 then return Errno.emfile.neg
  fdsWrite newFd (some handle)
  return toVirtualFd newFd

def fdDup (oldFd : Int) : M Int := withFd oldFd fdDupTaken

/-- `fd_dup2` after it has closed what was at `new_fd` -/
def fdDup2Rest (oldFd newFd : Int) : M Int := do
  match ← fdsRead (toRealFd oldFd) with
  | none => return Errno.ebadf.neg
  | some handle =>
      if newFd < 0 then return Errno.emfile.neg
      -- the store goes to the virtual number, not to the real slot
      fdsWrite newFd (some handle)
      return toVirtualFd newFd

def fdDup2 (oldFd newFd : Int) : M Int := do
  if oldFd > maxFds then return Errno.ebadf.neg
  if oldFd < virtualFdBase then return Errno.eacces.neg
  if (← fdsRead (toRealFd newFd)).isSome then
    let res ← fdClose p newFd
    if res < 0 then return res
  fdDup2Rest oldFd newFd

/-- The common end of `fd_lseek` -/
def seekResult (status : EfiStatus) (offset64 : UInt64) : Int :=
  if efiError status then failure status else offset64.toInt64.toInt

/-- The `SEEK_CUR` branch of `fd_lseek`, into which `SEEK_END` falls through -/
def seekCurrent (handle : FileHandle) (offset : Int) : M Int := do
  let got ← uefiCallWrapper p (.getPosition handle)
  if efiError got.status then return failure got.status
  let offset64 := got.position + UInt64.ofInt offset
  let moved ← uefiCallWrapper p (.setPosition handle offset64)
  return seekResult moved.status offset64

/-- `fd_lseek` once it has taken the handle.  For any other `whence` both locals
are read without having been written. -/
def fdLseekTaken (offset whence : Int) (handle : FileHandle) : M Int := do
  if whence = 0 then
    let offset64 := UInt64.ofInt offset
    let moved ← uefiCallWrapper p (.setPosition handle offset64)
    return seekResult moved.status offset64
  if whence = 2 then
    let moved ← uefiCallWrapper p (.setPosition handle 0xFFFFFFFFFFFFFFFF)
    if efiError moved.status then return failure moved.status
    seekCurrent p handle offset
  else if whence = 1 then
    seekCurrent p handle offset
  else
    let m : Machine ← get
    return seekResult (p.residue m.trace).status (p.residue m.trace).offset64

def fdLseek (fd offset whence : Int) : M Int :=
  withFd fd (fdLseekTaken p offset whence)

end UefiLinux
