/-
Enumerating a directory.  Every record of a call goes to one place behind the buffer,
so what the caller walks over is what its buffer held before; and the firmware's
signal for the end of the directory is not looked at.
-/
import UefiLinux.Cells
import UefiLinux.Closing

namespace UefiLinux

open Progress Journal Words

/-- The walk of a caller over the returned bytes, in steps of `d_reclen`.  A record
length that does not reach the next record, or passes the end, stops the walk. -/
def decodeDirents : (fuel : Nat) → List UInt8 → Option (List (List UInt8))
  | _, [] => some []
  | 0, _ => none
  | fuel + 1, bytes =>
      let reclen := ofLittleEndian ((bytes.drop 16).take 2)
      if reclen = 0 ∨ bytes.length < reclen then none
      else
        (decodeDirents fuel (bytes.drop reclen)).map
          (((bytes.drop 19).takeWhile (· ≠ 0)) :: ·)

section Directory

variable (p : Platform)

/-- Calling `fd_getdents64` until it returns zero, with the names that each call's
bytes decode to. -/
inductive Enumerates (fd : Int) (dirp : UInt64) (count : Int) :
    Machine → List (List UInt8) → Prop
  | done {m m' : Machine}
      (hrun : (fdGetdents64 p fd dirp count).run m = .ok 0 m') :
      Enumerates fd dirp count m []
  | more {m m' : Machine} {v : Int} {names rest : List (List UInt8)}
      (hrun : (fdGetdents64 p fd dirp count).run m = .ok v m') (hpos : 0 < v)
      (hdecode : decodeDirents v.toNat (m'.mem.bytes dirp v.toNat) = some names)
      (hrest : Enumerates fd dirp count m' rest) :
      Enumerates fd dirp count m (names ++ rest)

/-- The number of directory reads of a handle in a journal. -/
def readsOf (handle : FileHandle) (log : List Event) : Nat :=
  log.countP fun e => decide (e.call = .read handle scratchSize)

/-- From the given journal on, the directory reads of a handle give its names one by
one in order, and then succeed with a size of zero. -/
def Serves (handle : FileHandle) (base : List Event) (names : List (List UInt8)) :
    Prop :=
  ∀ new,
    efiError (p.reply (base ++ new) (.read handle scratchSize)).status = false ∧
    match names[readsOf handle new]? with
    | some name =>
        (p.reply (base ++ new) (.read handle scratchSize)).size =
            UInt64.ofNat (82 + 2 * name.length) ∧
          ∃ rest, (p.reply (base ++ new) (.read handle scratchSize)).info.fileName =
            name.map UInt8.toUInt16 ++ 0 :: rest
    | none => (p.reply (base ++ new) (.read handle scratchSize)).size = 0

end Directory

/-- Every enumeration of a directory with these names, through this descriptor and a
buffer of this size, finishes with exactly the names in order. -/
def EnumeratesDirectory (names : List (List UInt8)) (count : Nat) (fd : Int) : Prop :=
  ∀ (p : Platform) (m : Machine) (handle : FileHandle) (dirp : UInt64),
    m.openHandle fd = some handle → Serves p handle m.trace names →
      Enumerates p fd dirp count m names

section Count

variable {count : Nat}

/-- For a buffer size, the record count is its quotient by the record size. -/
theorem direntCount_natCast (hcount : count < 2 ^ 31) :
    direntCount count = ((count / 24 : Nat) : Int) := by
  have hquot : (UInt64.ofInt (count : Int) / UInt64.ofNat sizeofDirent).toNat =
      count / 24 := by
    rw [UInt64.toNat_div, toNat_ofInt_natCast (by omega)]
    rfl
  have hsmall : (UInt64.ofInt (count : Int) / UInt64.ofNat sizeofDirent).toNat <
      2 ^ 31 := by
    rw [hquot]
    omega
  rw [direntCount, toInt_low hsmall, hquot]

theorem passes_natCast (hcount : count < 2 ^ 31) :
    (UInt32.ofInt (direntCount count)).toNat = count / 24 := by
  rw [direntCount_natCast hcount]
  change (((count / 24 : Nat) : Int) % 2 ^ 32).toNat % 2 ^ 32 = count / 24
  omega

/-- Where `fd_getdents64` puts its records: behind the buffer's whole records. -/
theorem dire_toNat (hcount : count < 2 ^ 31) :
    (UInt64.ofInt (direntCount count * sizeofDirent)).toNat = 24 * (count / 24) := by
  have hproduct : direntCount count * sizeofDirent = ((24 * (count / 24) : Nat) : Int) := by
    rw [direntCount_natCast hcount]
    change ((count / 24 : Nat) : Int) * 24 = _
    omega
  rw [hproduct]
  exact toNat_ofInt_natCast (by omega)

end Count

section Stores

/-- A store leaves the addresses below it alone. -/
theorem store_of_lt {mem : Memory} {address x : UInt64} {bytes : List UInt8}
    (hx : x.toNat < address.toNat) (hfit : address.toNat + bytes.length ≤ 2 ^ 64) :
    mem.store address bytes x = mem x := by
  apply Memory.store_apply_of_outside
  rintro i hi rfl
  rw [UInt64.toNat_add, UInt64.toNat_ofNat'] at hx
  omega

/-- The memory after the stores of one record. -/
def direntMemory (mem : Memory) (dire : UInt64) (name : List UInt8) : Memory :=
  (((mem.store (dire + 19) (name ++ [0])).store dire (littleEndian 8 0)).store
    (dire + 16) (littleEndian 2 (direntReclen name).toNat)).store
      (dire + 8) (littleEndian 8 (direntReclen name).toNat)

theorem storeDirent_run (dire : UInt64) (name : List UInt8) (m : Machine) :
    (storeDirent dire name).run m =
      .ok ⟨⟩ { m with mem := direntMemory m.mem dire name } := rfl

/-- A record leaves the addresses below it alone. -/
theorem direntMemory_of_lt {mem : Memory} {dire x : UInt64} {name : List UInt8}
    (hx : x.toNat < dire.toNat) (hfit : dire.toNat + 1000 < 2 ^ 64)
    (hname : name.length < 664) : direntMemory mem dire name x = mem x := by
  have hoffset : ∀ k : UInt64, k.toNat < 20 →
      (dire + k).toNat = dire.toNat + k.toNat := by
    intro k hk
    rw [UInt64.toNat_add]
    exact Nat.mod_eq_of_lt (by omega)
  have h8 : (dire + 8).toNat = dire.toNat + 8 := hoffset 8 (by decide)
  have h16 : (dire + 16).toNat = dire.toNat + 16 := hoffset 16 (by decide)
  have h19 : (dire + 19).toNat = dire.toNat + 19 := hoffset 19 (by decide)
  rw [direntMemory,
    store_of_lt (by omega) (by rw [littleEndian_length]; omega),
    store_of_lt (by omega) (by rw [littleEndian_length]; omega),
    store_of_lt hx (by rw [littleEndian_length]; omega),
    store_of_lt (by omega) (by rw [List.length_append, List.length_singleton]; omega)]

end Stores

section Calls

variable (p : Platform)

/-- A whole call leaves the addresses below its records alone. -/
theorem direntLoop_mem {handle : FileHandle} {dire x : UInt64}
    (hx : x.toNat < dire.toNat) (hfit : dire.toNat + 1000 < 2 ^ 64) {left : Nat}
    {fres : UInt64} {m m' : Machine} {v : Int}
    (hrun : (direntLoop p handle dire left fres).run m = .ok v m') :
    m'.mem x = m.mem x := by
  induction left generalizing fres m with
  | zero =>
      rw [direntLoop, EStateM.run_pure, EStateM.Result.ok.injEq] at hrun
      rw [hrun.2]
  | succ left ih =>
      rw [direntLoop, run_bind_of_ok (uefiCallWrapper_run p rfl m)] at hrun
      split at hrun
      · rw [EStateM.run_pure, EStateM.Result.ok.injEq] at hrun
        rw [← hrun.2, Platform.after_mem]
      · split at hrun
        · cases hrun
        · rename_i name hscan
          rw [run_bind_of_ok (storeDirent_run dire name _)] at hrun
          have hname : name.length < scratchUnits := scanName_length hscan
          have hrecord : direntMemory (p.after m (.read handle scratchSize)).mem dire
              name x = (p.after m (.read handle scratchSize)).mem x :=
            direntMemory_of_lt hx hfit hname
          rw [ih hrun]
          exact hrecord

/-- On an exhausted directory whose stale name is empty, every pass adds a record of
twenty bytes. -/
theorem direntLoop_run_empty {handle : FileHandle} {dire : UInt64}
    (hserves : ∀ log, p.reply log (.read handle scratchSize) = Reply.ofStatus efiSuccess)
    (left : Nat) (fres : UInt64) (m : Machine) :
    ∃ m', (direntLoop p handle dire left fres).run m =
      .ok (fres + UInt64.ofNat left * 20).toUInt32.toInt32.toInt m' := by
  induction left generalizing fres m with
  | zero => exact ⟨m, by simp [direntLoop]⟩
  | succ left ih =>
      have hreply : (p.answer m (.read handle scratchSize)).reply =
          Reply.ofStatus efiSuccess := hserves m.trace
      have hok : ¬ efiError efiSuccess = true := by decide
      obtain ⟨m', hrest⟩ := ih (fres + (direntReclen []).toUInt64)
        { p.after m (.read handle scratchSize) with
          mem := direntMemory (p.after m (.read handle scratchSize)).mem dire [] }
      refine ⟨m', ?_⟩
      rw [direntLoop, run_bind_of_ok (uefiCallWrapper_run p rfl m), hreply]
      change (if efiError efiSuccess = true then _ else _ : M Int).run _ = _
      rw [if_neg hok]
      change (storeDirent dire [] >>= fun _ => direntLoop p handle dire left
        (fres + (direntReclen []).toUInt64)).run _ = _
      rw [run_bind_of_ok (storeDirent_run dire [] _), hrest]
      have hreclen : (direntReclen []).toUInt64 = 20 := by decide
      rw [hreclen, UInt64.ofNat_add, UInt64.add_mul, UInt64.add_assoc,
        UInt64.add_comm 20]
      rfl

end Calls

section Server

variable (handle : FileHandle) (names : List (List UInt8))

/-- The reply that describes a directory entry. -/
def entryReply (name : List UInt8) : Reply :=
  { Reply.ofStatus efiSuccess with
    size := UInt64.ofNat (82 + 2 * name.length)
    info := { EfiFileInfo.zero with fileName := name.map UInt8.toUInt16 ++ [0] } }

/-- Firmware that serves one directory from the start of the journal, and whose stale
file info names an empty file. -/
def directoryServer : Platform where
  volume := 0
  reply := fun log call =>
    if call = .read handle scratchSize then
      match names[readsOf handle log]? with
      | some name => entryReply name
      | none => Reply.ofStatus efiSuccess
    else Reply.ofStatus efiSuccess
  residue := fun _ => ⟨efiSuccess, 0, EfiFileInfo.zero⟩

theorem directoryServer_serves :
    Serves (directoryServer handle names) handle [] names := by
  intro new
  simp only [directoryServer, List.nil_append, ↓reduceIte]
  have hok : efiError efiSuccess = false := by decide
  cases names[readsOf handle new]? with
  | none => exact ⟨hok, rfl⟩
  | some name => exact ⟨hok, rfl, [], rfl⟩

end Server

section Law

variable {names : List (List UInt8)} {count : Nat}

/-- A buffer too small for one record of the declared size ends the enumeration at
once. -/
theorem fdGetdents64_run_small {p : Platform} {r : Fin maxFds} {handle : FileHandle}
    {m : Machine} (hpass : r.val ≤ 12) (hslot : m.fds r = some handle) (dirp : UInt64)
    (hsmall : count < 24) :
    (fdGetdents64 p (toVirtualFd r) dirp count).run m = .ok 0 m := by
  have hpasses : (UInt32.ofInt (direntCount count)).toNat = 0 := by
    rw [passes_natCast (by omega)]
    omega
  rw [fdGetdents64, withFd_run_of_slot hpass hslot, fdGetdents64Taken, hpasses]
  rfl

theorem decodeDirents_of_zero_reclen {fuel : Nat} {bytes : List UInt8}
    (hpos : bytes ≠ []) (hzero : ofLittleEndian ((bytes.drop 16).take 2) = 0) :
    decodeDirents fuel bytes = none := by
  cases bytes with
  | nil => exact absurd rfl hpos
  | cons byte rest =>
      cases fuel with
      | zero => rfl
      | succ fuel => simp only [decodeDirents, hzero, true_or, ↓reduceIte]

theorem ofLittleEndian_of_zero {bytes : List UInt8} (hzero : ∀ byte ∈ bytes, byte = 0) :
    ofLittleEndian bytes = 0 := by
  induction bytes with
  | nil => rfl
  | cons byte rest ih =>
      have hfirst : byte = 0 := hzero byte List.mem_cons_self
      have hrest := ih fun b hb => hzero b (List.mem_cons_of_mem byte hb)
      simp [ofLittleEndian, hfirst, hrest]

/-- The record length at the start of zeroed bytes is zero. -/
theorem reclen_of_zero (mem : Memory) (dirp : UInt64) (size : Nat)
    (h16 : mem (dirp + 16) = 0) (h17 : mem (dirp + 17) = 0) :
    ofLittleEndian (((mem.bytes dirp size).drop 16).take 2) = 0 := by
  apply ofLittleEndian_of_zero
  intro byte hbyte
  obtain ⟨i, hi, rfl⟩ := List.getElem_of_mem hbyte
  have hi2 : i < 2 := by
    rw [List.length_take] at hi
    omega
  simp only [Memory.bytes, List.getElem_take, List.getElem_drop, List.getElem_map,
    List.getElem_range]
  have hcases : i = 0 ∨ i = 1 := by omega
  rcases hcases with rfl | rfl
  · exact h16
  · exact h17

/-- An enumeration ends at once or goes on after a first call. -/
theorem Enumerates.cases_first {p : Platform} {fd : Int} {dirp : UInt64} {count : Int}
    {m : Machine} {all : List (List UInt8)}
    (henum : Enumerates p fd dirp count m all) :
    (all = [] ∧ ∃ m', (fdGetdents64 p fd dirp count).run m = .ok 0 m') ∨
      ∃ v m' names, (fdGetdents64 p fd dirp count).run m = .ok v m' ∧ 0 < v ∧
        decodeDirents v.toNat (m'.mem.bytes dirp v.toNat) = some names := by
  cases henum with
  | done hrun => exact Or.inl ⟨rfl, _, hrun⟩
  | more hrun hpos hdecode _ => exact Or.inr ⟨_, _, _, hrun, hpos, hdecode⟩

/-- The handler with its guard passed. -/
theorem fdGetdents64_run_of_slot (p : Platform) {r : Fin maxFds} {handle : FileHandle}
    {m : Machine} (hpass : r.val ≤ 12) (hslot : m.fds r = some handle)
    (hcount : count < 2 ^ 31) (dirp : UInt64) :
    (fdGetdents64 p (toVirtualFd r) dirp count).run m =
      (direntLoop p handle (dirp + UInt64.ofInt (direntCount count * sizeofDirent))
        (count / 24) 0).run m := by
  rw [fdGetdents64, withFd_run_of_slot hpass hslot, fdGetdents64Taken,
    passes_natCast hcount]

/-- An exhausted directory is never reported as ended when there is room for a record. -/
theorem fdGetdents64_ne_zero_of_empty {r : Fin maxFds} {handle : FileHandle} {m m' : Machine}
    (hpass : r.val ≤ 12) (hslot : m.fds r = some handle) (hcount : count < 2 ^ 31)
    (hreads : 24 ≤ count) (dirp : UInt64) :
    (fdGetdents64 (directoryServer handle []) (toVirtualFd r) dirp count).run m ≠
      .ok 0 m' := by
  intro hrun
  have hserves : ∀ log, (directoryServer handle []).reply log (.read handle scratchSize) =
      Reply.ofStatus efiSuccess := by
    intro log
    simp [directoryServer]
  obtain ⟨m'', hloop⟩ := direntLoop_run_empty (directoryServer handle []) hserves
    (count / 24) 0 m
  rw [fdGetdents64_run_of_slot _ hpass hslot hcount, hloop, EStateM.Result.ok.injEq] at hrun
  have hsum : ((0 : UInt64) + UInt64.ofNat (count / 24) * 20).toNat = count / 24 * 20 := by
    rw [UInt64.zero_add, UInt64.toNat_mul, UInt64.toNat_ofNat']
    change count / 24 % 2 ^ 64 * 20 % 2 ^ 64 = _
    omega
  rw [toInt_low (by omega)] at hrun
  omega

/-- The first record of a buffer that was zero is still zero after a call. -/
theorem fdGetdents64_keeps_zero {p : Platform} {r : Fin maxFds} {handle : FileHandle}
    {m m' : Machine} (hpass : r.val ≤ 12) (hslot : m.fds r = some handle)
    (hmem : ∀ x, m.mem x = 0) (hcount : count < 2 ^ 31) (hreads : 24 ≤ count)
    {dirp : UInt64} (hfit : dirp.toNat < 2 ^ 32) {v : Int}
    (hrun : (fdGetdents64 p (toVirtualFd r) dirp count).run m = .ok v m') {k : UInt64}
    (hk : k.toNat < 24) : m'.mem (dirp + k) = 0 := by
  have hdire : (dirp + UInt64.ofInt (direntCount count * sizeofDirent)).toNat =
      dirp.toNat + 24 * (count / 24) := by
    rw [UInt64.toNat_add, dire_toNat hcount]
    exact Nat.mod_eq_of_lt (by omega)
  have haddress : (dirp + k).toNat = dirp.toNat + k.toNat := by
    rw [UInt64.toNat_add]
    exact Nat.mod_eq_of_lt (by omega)
  rw [fdGetdents64_run_of_slot _ hpass hslot hcount] at hrun
  rw [direntLoop_mem _ (by omega) (by omega) hrun]
  exact hmem _

/-- Enumerating into a zeroed memory never succeeds when the buffer has room for a
record of the declared size. -/
theorem not_enumerates_of_reads {r : Fin maxFds} {handle : FileHandle} {m : Machine}
    (hpass : r.val ≤ 12) (hslot : m.fds r = some handle) (hmem : ∀ x, m.mem x = 0)
    (hcount : count < 2 ^ 31) (hreads : 24 ≤ count) {dirp : UInt64}
    (hfit : dirp.toNat < 2 ^ 32) :
    ¬ Enumerates (directoryServer handle names) (toVirtualFd r) dirp count m names := by
  intro henum
  rcases henum.cases_first with ⟨rfl, m', hrun⟩ | ⟨v, m', found, hrun, hpos, hdecode⟩
  · exact fdGetdents64_ne_zero_of_empty hpass hslot hcount hreads dirp hrun
  · have hbytes : m'.mem.bytes dirp v.toNat ≠ [] := by
      simp only [Memory.bytes, ne_eq, List.map_eq_nil_iff, List.range_eq_nil]
      omega
    have hkept : ∀ k : UInt64, k.toNat < 24 → m'.mem (dirp + k) = 0 :=
      fun k hk => fdGetdents64_keeps_zero hpass hslot hmem hcount hreads hfit hrun hk
    rw [decodeDirents_of_zero_reclen hbytes (reclen_of_zero _ _ _
      (hkept 16 (by decide)) (hkept 17 (by decide)))] at hdecode
    cases hdecode

/-- The descriptors that the guard refuses enumerate nothing. -/
theorem not_enumerates_of_refused {p : Platform} {fd : Int} (hhigh : 16 < fd)
    (dirp : UInt64) (count : Int) (m : Machine) (all : List (List UInt8)) :
    ¬ Enumerates p fd dirp count m all := by
  intro henum
  have hrefused : (fdGetdents64 p fd dirp count).run m = .ok Errno.ebadf.neg m := by
    rw [fdGetdents64, withFd_run_of_high hhigh]
  have hneg : Errno.ebadf.neg = -9 := rfl
  rcases henum.cases_first with ⟨_, m', hrun⟩ | ⟨v, m', _, hrun, hpos, _⟩
  · rw [hrefused, EStateM.Result.ok.injEq] at hrun
    omega
  · rw [hrefused, EStateM.Result.ok.injEq] at hrun
    omega

/-- A call that reads nothing gives no names. -/
theorem Enumerates.eq_nil_of_small {p : Platform} {r : Fin maxFds} {handle : FileHandle}
    {m : Machine} (hpass : r.val ≤ 12) (hslot : m.fds r = some handle) {dirp : UInt64}
    (hsmall : count < 24) {all : List (List UInt8)}
    (henum : Enumerates p (toVirtualFd r) dirp count m all) : all = [] := by
  rcases henum.cases_first with ⟨hall, _⟩ | ⟨v, m', _, hrun, hpos, _⟩
  · exact hall
  · rw [fdGetdents64_run_small hpass hslot dirp hsmall, EStateM.Result.ok.injEq] at hrun
    omega

/-- With one handle stored, no directory is enumerated unless it is empty, the buffer
has no room for a record of the declared size, and the guard passes. -/
theorem not_enumeratesDirectory {r : Fin maxFds} (hcount : count < 2 ^ 31)
    (hsome : ¬ (names = [] ∧ count < 24 ∧ toVirtualFd r ≤ 16)) :
    ¬ EnumeratesDirectory names count (toVirtualFd r) := by
  intro hdirectory
  have hslot : (Machine.blank.put r firstHandle).fds r = some firstHandle := by
    rw [Machine.put_fds, Function.update_self]
  have henum := hdirectory (directoryServer firstHandle names)
    (Machine.blank.put r firstHandle) firstHandle 4096
    (by rw [Machine.openHandle_toVirtualFd, hslot]) (directoryServer_serves _ names)
  by_cases hhigh : 16 < toVirtualFd r
  · exact not_enumerates_of_refused hhigh _ _ _ _ henum
  · have hpass : r.val ≤ 12 := toVirtualFd_le_iff.mp (not_lt.mp hhigh)
    by_cases hreads : 24 ≤ count
    · exact not_enumerates_of_reads hpass hslot (fun _ => rfl) hcount hreads
        (by decide) henum
    · have hnames := henum.eq_nil_of_small hpass hslot (by omega)
      exact hsome ⟨hnames, by omega, by omega⟩

end Law

/-- Directories are enumerated when there is nothing to read and no room to read it. -/
theorem enumeratesDirectory_iff_nothing (names : List (List UInt8)) {count : Nat}
    (hcount : count < 2 ^ 31) (r : Fin maxFds) :
    EnumeratesDirectory names count (toVirtualFd r) ↔
      names = [] ∧ count < 24 ∧ toVirtualFd r ≤ 16 := by
  constructor
  · intro hdirectory
    by_contra hsome
    exact not_enumeratesDirectory hcount hsome hdirectory
  · rintro ⟨rfl, hsmall, hlow⟩ p m handle dirp hopen _
    rw [Machine.openHandle_toVirtualFd] at hopen
    exact Enumerates.done
      (fdGetdents64_run_small (toVirtualFd_le_iff.mp hlow) hopen dirp hsmall)

/-- A directory with the files `a` and `bc` is not enumerated through a thousand bytes, an
empty one is through twenty. -/
theorem enumeratesDirectory_iff_nothing_two :
    ¬ EnumeratesDirectory [[97], [98, 99]] 1000 (toVirtualFd (0 : Fin maxFds)) ∧
      EnumeratesDirectory [] 20 (toVirtualFd (0 : Fin maxFds)) := by
  refine ⟨fun hdirectory => ?_, ?_⟩
  · have hnothing := (enumeratesDirectory_iff_nothing _ (by decide) 0).mp hdirectory
    exact absurd hnothing.1 (by decide)
  · exact (enumeratesDirectory_iff_nothing [] (by decide) 0).mpr ⟨rfl, by decide, by decide⟩

/-- A directory with the one file `a`, read through a buffer of a thousand bytes. -/
theorem one_file_is_not_enumerated :
    ¬ ∀ (names : List (List UInt8)) (count : Nat) (r : Fin maxFds), count < 2 ^ 31 →
      (∀ name ∈ names, 0 ∉ name ∧ 20 + name.length ≤ count) → r.val ≤ 12 →
        EnumeratesDirectory names count (toVirtualFd r) := by
  intro hall
  have hdirectory := hall [[97]] 1000 0 (by decide) (by decide) (by decide)
  exact not_enumeratesDirectory (by decide) (by simp) hdirectory

end UefiLinux
