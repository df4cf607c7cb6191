/-
Directory entries and file status: the records that are laid out byte by byte in
the memory of the caller.
-/
import UefiLinux.Descriptors
import UefiLinux.Time

namespace UefiLinux

open Progress Journal

variable (p : Platform)

/-- `sizeof(struct linux_dirent64)`; `d_name` starts at offset 19. -/
def sizeofDirent : Nat := 24

/-- `sizeof(EFI_FILE_INFO[16])` -/
def scratchSize : UInt64 := 16 * sizeofEfiFileInfo

/-- The number of name units that fit in the scratch buffer. -/
def scratchUnits : Nat := 664

/-- The low bytes of a name up to its NUL, or nothing when no NUL comes before the
end of the buffer. -/
def scanName : (bound : Nat) → List UInt16 → Option (List UInt8)
  | 0, _ => none
  | _, [] => none
  | bound + 1, unit :: rest =>
      if unit = 0 then some []
      else (scanName bound rest).map (unit.toUInt8 :: ·)

theorem scanName_length {bound : Nat} {units : List UInt16} {name : List UInt8}
    (hscan : scanName bound units = some name) : name.length < bound := by
  induction bound generalizing units name with
  | zero => simp [scanName] at hscan
  | succ bound ih =>
      cases units with
      | nil => simp [scanName] at hscan
      | cons unit rest =>
          by_cases hend : unit = 0
          · simp only [scanName, hend, ↓reduceIte, Option.some.injEq] at hscan
            rw [← hscan]
            exact Nat.succ_pos bound
          · simp only [scanName, hend, ↓reduceIte, Option.map_eq_some_iff] at hscan
            obtain ⟨tail, htail, rfl⟩ := hscan
            have hlength := ih htail
            simp only [List.length_cons]
            omega

/-- The value stored in `d_reclen` and `d_off` for a name. -/
def direntReclen (name : List UInt8) : UInt16 := UInt16.ofNat (20 + name.length)

/-- The stores of one directory record at `dire`; `d_type` is left alone. -/
def storeDirent (dire : UInt64) (name : List UInt8) : M PUnit := do
  storeBytes (dire + 19) (name ++ [0])
  storeBytes dire (littleEndian 8 0)
  storeBytes (dire + 16) (littleEndian 2 (direntReclen name).toNat)
  storeBytes (dire + 8) (littleEndian 8 (direntReclen name).toNat)

/-- The loop of `fd_getdents64` with `left` passes to go.  The record pointer does
not depend on the pass. -/
def direntLoop (handle : FileHandle) (dire : UInt64) : Nat → UInt64 → M Int
  | 0, fres => return fres.toUInt32.toInt32.toInt
  | left + 1, fres => do
      let read ← uefiCallWrapper p (.read handle scratchSize)
      if efiError read.status then return failure read.status
      match scanName scratchUnits read.info.fileName with
      | none => throw (.fault .fileNameEnd)
      | some name =>
          storeDirent dire name
          direntLoop handle dire left (fres + (direntReclen name).toUInt64)

/-- `count / sizeof(struct linux_dirent64)`, taken in `size_t` and cut to `int` -/
def direntCount (count : Int) : Int :=
  (UInt64.ofInt count / UInt64.ofNat sizeofDirent).toUInt32.toInt32.toInt

def fdGetdents64Taken (dirp : UInt64) (count : Int) (handle : FileHandle) : M Int :=
  direntLoop p handle (dirp + UInt64.ofInt (direntCount count * sizeofDirent))
    (UInt32.ofInt (direntCount count)).toNat 0

def fdGetdents64 (fd : Int) (dirp : UInt64) (count : Int) : M Int :=
  withFd fd (fdGetdents64Taken p dirp count)

def emuUid : Nat := 1000
def emuGid : Nat := 1000

/-- The fields of `struct stat` that do not come from the file info. -/
def storeStatHeader (buf : UInt64) : M PUnit := do
  storeBytes buf (littleEndian 8 p.volume.toNat)
  storeBytes (buf + 8) (littleEndian 8 0)
  storeBytes (buf + 16) (littleEndian 8 1)
  storeBytes (buf + 24) (littleEndian 4 0o666)
  storeBytes (buf + 28) (littleEndian 4 emuUid)
  storeBytes (buf + 32) (littleEndian 4 emuGid)
  storeBytes (buf + 56) (littleEndian 8 0)
  storeBytes (buf + 80) (littleEndian 8 0)
  storeBytes (buf + 96) (littleEndian 8 0)
  storeBytes (buf + 112) (littleEndian 8 0)

/-- The fields of `struct stat` that come from the file info. -/
def storeStatInfo (buf : UInt64) (info : EfiFileInfo) : M PUnit := do
  storeBytes (buf + 48) (littleEndian 8 info.fileSize.toNat)
  storeBytes (buf + 64) (littleEndian 8 info.physicalSize.toNat)
  storeBytes (buf + 72)
    (littleEndian 8 (UInt64.ofInt (timeEfiTimeToTimeT info.lastAccessTime)).toNat)
  storeBytes (buf + 88)
    (littleEndian 8 (UInt64.ofInt (timeEfiTimeToTimeT info.modificationTime)).toNat)
  storeBytes (buf + 104)
    (littleEndian 8 (UInt64.ofInt (timeEfiTimeToTimeT info.createTime)).toNat)

def fdEfiStat (buf : UInt64) (handle : FileHandle) : M Int := do
  storeStatHeader p buf
  let got ← fdEfiGetFileInfo p handle
  if efiError got.status then return failure got.status
  storeStatInfo buf got.info
  return 0

def fdFstat (fd : Int) (buf : UInt64) : M Int := withFd fd (fdEfiStat p buf)

/-- The `Volume->Open` call that `fd_stat` makes for a converted path. -/
def statCall (path : List UInt16) : Call := .volumeOpen path efiFileModeRead 0

def fdStat (path buf : UInt64) : M Int := do
  let widePath ← bstrToWstr path
  let opened ← uefiCallWrapper p (statCall widePath)
  if efiError opened.status then return failure opened.status
  fdEfiStat p buf opened.handle

end UefiLinux
