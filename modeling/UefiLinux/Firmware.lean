/-
The firmware as the emulation layer sees it: the calls it makes, the replies it
reads, and the errno values it turns failing statuses into.
-/
import UefiLinux.Library.Words

namespace UefiLinux

/-- The errno values the emulation layer returns, negated. -/
inductive Errno
  | eperm | enoent | esrch | eio | ebadf | eacces | enotdir | eisdir | einval
  | emfile | enospc | erofs | enosys | enotsup
deriving DecidableEq, Repr

def Errno.code : Errno → Int
  | .eperm => 1
  | .enoent => 2
  | .esrch => 3
  | .eio => 5
  | .ebadf => 9
  | .eacces => 13
  | .enotdir => 20
  | .eisdir => 21
  | .einval => 22
  | .emfile => 24
  | .enospc => 28
  | .erofs => 30
  | .enosys => 38
  | .enotsup => 95

/-- The value a handler returns for a refused or failed request. -/
def Errno.neg (e : Errno) : Int := -e.code

theorem Errno.neg_range (e : Errno) : -95 ≤ e.neg ∧ e.neg ≤ -1 := by
  cases e <;> decide

abbrev EfiStatus := UInt64

/-- `EFI_ERROR`: the status read as a signed word is negative. -/
def efiError (status : EfiStatus) : Bool := decide (status.toInt64 < 0)

def efiInvalidParameter : EfiStatus := 0x8000000000000002
def efiBufferTooSmall : EfiStatus := 0x8000000000000005
def efiWriteProtected : EfiStatus := 0x8000000000000008
def efiVolumeFull : EfiStatus := 0x800000000000000b
def efiNotFound : EfiStatus := 0x800000000000000e
def efiAccessDenied : EfiStatus := 0x800000000000000f
def efiAborted : EfiStatus := 0x8000000000000015
def efiEndOfFile : EfiStatus := 0x800000000000001f
def efiSuccess : EfiStatus := 0

def efiStatusToErrno (status : EfiStatus) : Errno :=
  let code := status &&& 0xffff
  if code = efiWriteProtected &&& 0xffff then .erofs
  else if code = efiAccessDenied &&& 0xffff then .eacces
  else if code = efiVolumeFull &&& 0xffff then .enospc
  else if code = efiNotFound &&& 0xffff then .enoent
  else if code = efiInvalidParameter &&& 0xffff then .einval
  else .eio

/-- `-efi_status_to_errno(status)` -/
def failure (status : EfiStatus) : Int := (efiStatusToErrno status).neg

theorem failure_range (status : EfiStatus) :
    -95 ≤ failure status ∧ failure status ≤ -1 :=
  (efiStatusToErrno status).neg_range

/-- No firmware status is reported as a bad descriptor. -/
theorem failure_ne_ebadf (status : EfiStatus) : failure status ≠ Errno.ebadf.neg := by
  unfold failure efiStatusToErrno
  simp only
  repeat' split
  all_goals decide

/-- An `EFI_FILE_HANDLE` other than the null pointer. -/
structure FileHandle where
  address : UInt64
  nonNull : address ≠ 0
deriving DecidableEq

def firstHandle : FileHandle := ⟨1, by decide⟩

/-- The fields of `EFI_TIME` that the conversion to Unix time reads. -/
structure EfiTime where
  year : UInt16
  month : UInt8
  day : UInt8
  hour : UInt8
  minute : UInt8
  second : UInt8
deriving DecidableEq, Repr

/-- `EFI_FILE_INFO`.  `fileName` is the contents of the buffer from the
`FileName` member on, NUL and whatever follows it included. -/
structure EfiFileInfo where
  fileSize : UInt64
  physicalSize : UInt64
  createTime : EfiTime
  lastAccessTime : EfiTime
  modificationTime : EfiTime
  fileAttribute : UInt64
  fileName : List UInt16
deriving DecidableEq, Repr

/-- `sizeof(EFI_FILE_INFO)` -/
def sizeofEfiFileInfo : UInt64 := 88

def efiFileModeRead : UInt64 := 1
def efiFileModeWrite : UInt64 := 2
def efiFileModeCreate : UInt64 := 0x8000000000000000
def efiFileDirectory : UInt64 := 0x10

inductive ResetType
  | warm | shutdown
deriving DecidableEq, Repr

/-- A firmware call with the arguments it is given. -/
inductive Call
  | volumeOpen (path : List UInt16) (mode attributes : UInt64)
  | close (handle : FileHandle)
  | flush (handle : FileHandle)
  | read (handle : FileHandle) (size : UInt64)
  | write (handle : FileHandle) (size : UInt64) (data : List UInt8)
  | getInfo (handle : FileHandle) (size : UInt64)
  | setInfo (handle : FileHandle) (size : UInt64) (info : EfiFileInfo)
  | getPosition (handle : FileHandle)
  | setPosition (handle : FileHandle) (position : UInt64)
  | getTime
  | stall (microseconds : UInt64)
  | allocatePool (size : UInt64)
  | freePool (address : UInt64)
  | outputString (text : List UInt16)
  | waitForEvent
  | readKeyStroke
  | exit (status : EfiStatus)
  | resetSystem (kind : ResetType) (status : EfiStatus) (size : UInt64)
      (text : List UInt16)
deriving DecidableEq

/-- The open file a call is made on. -/
def Call.handle? : Call → Option FileHandle
  | .close h | .flush h | .read h _ | .write h _ _ | .getInfo h _
  | .setInfo h _ _ | .getPosition h | .setPosition h _ => some h
  | _ => none

/-- The calls from which the firmware need not come back: the exit and the reset,
and the wait for a key that is never pressed.  Every other call returns. -/
def Call.mayNotReturn : Call → Bool
  | .exit _ | .resetSystem .. | .waitForEvent => true
  | _ => false

/-- What a call leaves behind: its status and its out-parameters, and whether a
call that need not come back did.  Each call reads only the parts it has. -/
structure Reply where
  returns : Bool := true
  status : EfiStatus := efiSuccess
  handle : FileHandle := firstHandle
  info : EfiFileInfo
  size : UInt64 := 0
  data : List UInt8 := []
  position : UInt64 := 0
  time : EfiTime
  key : UInt16 := 0
  address : UInt64 := 0

structure Event where
  call : Call
  reply : Reply

/-- Stack contents that the code reads before it has written them. -/
structure Residue where
  status : EfiStatus
  offset64 : UInt64
  info : EfiFileInfo

/-- Everything a run depends on besides the machine state: the address of the
opened volume, the firmware's reply to each call after each history, and the
stack contents found by reads of uninitialised locals. -/
structure Platform where
  volume : UInt64
  reply : List Event → Call → Reply
  residue : List Event → Residue

/-- The file info with every field zero, which names an empty file. -/
def EfiFileInfo.zero : EfiFileInfo where
  fileSize := 0
  physicalSize := 0
  createTime := ⟨0, 0, 0, 0, 0, 0⟩
  lastAccessTime := ⟨0, 0, 0, 0, 0, 0⟩
  modificationTime := ⟨0, 0, 0, 0, 0, 0⟩
  fileAttribute := 0
  fileName := [0]

/-- The reply with the given status and every out-parameter zero. -/
def Reply.ofStatus (status : EfiStatus) : Reply where
  status := status
  info := EfiFileInfo.zero
  time := ⟨0, 0, 0, 0, 0, 0⟩

/-- Firmware that answers by the call alone, with zeros on the stack. -/
def Platform.ofReply (reply : Call → Reply) : Platform where
  volume := 0
  reply := fun _ call => reply call
  residue := fun _ => ⟨efiSuccess, 0, EfiFileInfo.zero⟩

/-- Firmware that fails every call. -/
def failingFirmware : Platform := Platform.ofReply fun _ => Reply.ofStatus efiAborted

/-- Firmware that succeeds in every call. -/
def workingFirmware : Platform := Platform.ofReply fun _ => Reply.ofStatus efiSuccess

/-- The units of an `L"..."` literal, without its NUL. -/
def wide (text : String) : List UInt16 :=
  text.toList.map fun c => UInt16.ofNat c.toNat

end UefiLinux
