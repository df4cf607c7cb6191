/-
The `struct stat` of the caller after a call that describes a file: what its fields hold
once the firmware has given the file info.
-/
import UefiLinux.Cells
import UefiLinux.Requests

namespace UefiLinux

open Progress Journal

section Layout

variable (mem : Memory) (buf : UInt64)

/-- The memory after the stores that come before the file info. -/
def statHeaderMemory (volume : UInt64) : Memory :=
  ((((((((((mem.store buf (littleEndian 8 volume.toNat)).store
    (buf + 8) (littleEndian 8 0)).store
    (buf + 16) (littleEndian 8 1)).store
    (buf + 24) (littleEndian 4 0o666)).store
    (buf + 28) (littleEndian 4 emuUid)).store
    (buf + 32) (littleEndian 4 emuGid)).store
    (buf + 56) (littleEndian 8 0)).store
    (buf + 80) (littleEndian 8 0)).store
    (buf + 96) (littleEndian 8 0)).store
    (buf + 112) (littleEndian 8 0))

/-- The word that a time is stored as. -/
def timeWord (time : EfiTime) : UInt64 := UInt64.ofInt (timeEfiTimeToTimeT time)

/-- The memory after the stores that come from the file info. -/
def statInfoMemory (info : EfiFileInfo) : Memory :=
  (((((mem.store (buf + 48) (littleEndian 8 info.fileSize.toNat)).store
    (buf + 64) (littleEndian 8 info.physicalSize.toNat)).store
    (buf + 72) (littleEndian 8 (timeWord info.lastAccessTime).toNat)).store
    (buf + 88) (littleEndian 8 (timeWord info.modificationTime).toNat)).store
    (buf + 104) (littleEndian 8 (timeWord info.createTime).toNat))

/-- The five words that come from the file info are read back as they were stored. -/
theorem statInfoMemory_load (info : EfiFileInfo) :
    (statInfoMemory mem buf info).load64 (buf + 48) = info.fileSize ∧
      (statInfoMemory mem buf info).load64 (buf + 64) = info.physicalSize ∧
      (statInfoMemory mem buf info).load64 (buf + 72) = timeWord info.lastAccessTime ∧
      (statInfoMemory mem buf info).load64 (buf + 88) = timeWord info.modificationTime ∧
      (statInfoMemory mem buf info).load64 (buf + 104) = timeWord info.createTime := by
  have hlater : ∀ read stored : UInt64, stored.toNat ≤ 104 ∧ read.toNat + 8 ≤ stored.toNat →
      ∀ (memory : Memory) (value : UInt64),
        (memory.store (buf + stored) (littleEndian 8 value.toNat)).load64 (buf + read) =
          memory.load64 (buf + read) := by
    rintro read stored ⟨hstored, hapart⟩ memory value
    have hlength : (littleEndian 8 value.toNat).length = 8 := rfl
    exact Memory.load64_store_of_apart (by omega) (by omega) (Or.inl hapart)
  rw [statInfoMemory]
  refine ⟨?_, ?_, ?_, ?_, ?_⟩
  · rw [hlater 48 104 (by decide), hlater 48 88 (by decide), hlater 48 72 (by decide),
      hlater 48 64 (by decide), Memory.load64_store]
  · rw [hlater 64 104 (by decide), hlater 64 88 (by decide), hlater 64 72 (by decide),
      Memory.load64_store]
  · rw [hlater 72 104 (by decide), hlater 72 88 (by decide), Memory.load64_store]
  · rw [hlater 88 104 (by decide), Memory.load64_store]
  · rw [Memory.load64_store]

end Layout

section Run

theorem storeStatHeader_run (p : Platform) (buf : UInt64) (m : Machine) :
    (storeStatHeader p buf).run m =
      .ok ⟨⟩ { m with mem := statHeaderMemory m.mem buf p.volume } := by
  simp only [storeStatHeader, EStateM.run_bind, storeBytes_run, statHeaderMemory]

theorem storeStatInfo_run (buf : UInt64) (info : EfiFileInfo) (m : Machine) :
    (storeStatInfo buf info).run m =
      .ok ⟨⟩ { m with mem := statInfoMemory m.mem buf info } := by
  simp only [storeStatInfo, EStateM.run_bind, storeBytes_run, statInfoMemory, timeWord]

variable (p : Platform) (m : Machine) (buf : UInt64) (handle : FileHandle)

/-- The machine in which the file info is asked for. -/
def headedMachine : Machine :=
  { m with mem := statHeaderMemory m.mem buf p.volume }

/-- The answer to the question for the file info. -/
def statInfoAnswer : Event :=
  p.answer (headedMachine p m buf) (.getInfo handle sizeofEfiFileInfo)

/-- The machine after a call that has described a file. -/
def describedMachine : Machine :=
  { (headedMachine p m buf).record (statInfoAnswer p m buf handle) with
    mem := statInfoMemory (headedMachine p m buf).mem buf
      (statInfoAnswer p m buf handle).reply.info }

theorem fdEfiStat_run :
    (fdEfiStat p buf handle).run m =
      if efiError (statInfoAnswer p m buf handle).reply.status then
        .ok (failure (statInfoAnswer p m buf handle).reply.status)
          ((headedMachine p m buf).record (statInfoAnswer p m buf handle))
      else .ok 0 (describedMachine p m buf handle) := by
  rw [fdEfiStat, run_bind_of_ok (storeStatHeader_run p buf m), fdEfiGetFileInfo,
    run_bind_of_ok (uefiCallWrapper_run p rfl _)]
  change (if efiError (statInfoAnswer p m buf handle).reply.status = true then _
    else _ : M Int).run ((headedMachine p m buf).record (statInfoAnswer p m buf handle)) = _
  split
  · rfl
  · rw [run_bind_of_ok (storeStatInfo_run buf _ _)]
    rfl

end Run

end UefiLinux
