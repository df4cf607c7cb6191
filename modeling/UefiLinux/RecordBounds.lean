/-
The bytes that a directory call stores.  Every record goes behind the whole records that
the buffer has room for, so only what is left over there can hold it.
-/
import UefiLinux.Enumeration
import Mathlib.Algebra.Order.BigOperators.Group.List
import Mathlib.Algebra.Order.Ring.Nat

namespace UefiLinux

open Progress Journal Patches Words

section Records

variable {mem : Memory} {dire x : UInt64} {name : List UInt8}

/-- The writes of one record. -/
def direntCells (dire : UInt64) (name : List UInt8) : List (UInt64 × UInt8) :=
  cells (dire + 19) (name ++ [0]) ++ cells dire (littleEndian 8 0) ++
    cells (dire + 16) (littleEndian 2 (direntReclen name).toNat) ++
      cells (dire + 8) (littleEndian 8 (direntReclen name).toNat)

theorem direntMemory_eq_patch :
    direntMemory mem dire name = patch mem (direntCells dire name) := by
  simp only [direntMemory, direntCells, patch_append, Memory.store_eq_patch]

theorem mem_points_direntCells : x ∈ points (direntCells dire name) ↔
    (∃ i < name.length + 1, x = dire + 19 + UInt64.ofNat i) ∨
      (∃ i < 8, x = dire + UInt64.ofNat i) ∨ (∃ i < 2, x = dire + 16 + UInt64.ofNat i) ∨
        ∃ i < 8, x = dire + 8 + UInt64.ofNat i := by
  simp only [direntCells, points_append, List.mem_append, mem_points_cells,
    littleEndian_length, List.length_append, List.length_singleton, or_assoc]

/-- A record stays within its length. -/
theorem offset_of_mem_direntCells (hwritten : x ∈ points (direntCells dire name)) :
    ∃ i < 20 + name.length, x = dire + UInt64.ofNat i := by
  rcases mem_points_direntCells.mp hwritten with
    ⟨i, hi, rfl⟩ | ⟨i, hi, rfl⟩ | ⟨i, hi, rfl⟩ | ⟨i, hi, rfl⟩
  · exact ⟨19 + i, by omega, add_add_ofNat dire 19 i⟩
  · exact ⟨i, by omega, rfl⟩
  · exact ⟨16 + i, by omega, add_add_ofNat dire 16 i⟩
  · exact ⟨8 + i, by omega, add_add_ofNat dire 8 i⟩

/-- The NUL of the name is the last byte of a record. -/
theorem last_mem_direntCells :
    dire + UInt64.ofNat (19 + name.length) ∈ points (direntCells dire name) :=
  mem_points_direntCells.mpr
    (Or.inl ⟨name.length, Nat.lt_succ_self _, (add_add_ofNat dire 19 name.length).symm⟩)

end Records

section Entries

/-- The firmware's replies to directory reads that follow one another. -/
def directoryReply (p : Platform) (handle : FileHandle) : List Event → Nat → Reply
  | log, 0 => p.reply log (.read handle scratchSize)
  | log, k + 1 =>
      directoryReply p handle
        (log ++ [⟨.read handle scratchSize, p.reply log (.read handle scratchSize)⟩]) k

/-- A reply is a failure, or it leaves a name with its NUL in the scratch buffer.  Behind
the last entry of a directory the name is what the buffer happens to hold. -/
def DeliversEntry (reply : Reply) : Option (List UInt16) → Prop
  | none => efiError reply.status = true
  | some name => efiError reply.status = false ∧ 0 ∉ name ∧ name.length < scratchUnits ∧
      ∃ rest, reply.info.fileName = name ++ 0 :: rest

/-- From the given journal on, the directory reads of a handle deliver these entries. -/
def Delivers (p : Platform) (handle : FileHandle) (log : List Event)
    (entries : Nat → Option (List UInt16)) : Prop :=
  ∀ k, DeliversEntry (directoryReply p handle log k) (entries k)

theorem Delivers.next {p : Platform} {handle : FileHandle} {m : Machine}
    {entries : Nat → Option (List UInt16)} (hdelivers : Delivers p handle m.trace entries) :
    Delivers p handle (p.after m (.read handle scratchSize)).trace
      fun k => entries (k + 1) :=
  fun k => hdelivers (k + 1)

theorem scanName_append {bound : Nat} {name rest : List UInt16} (hnul : 0 ∉ name)
    (hlength : name.length < bound) :
    scanName bound (name ++ 0 :: rest) = some (name.map UInt16.toUInt8) := by
  induction name generalizing bound with
  | nil =>
      cases bound with
      | zero => cases hlength
      | succ bound => rfl
  | cons unit name ih =>
      cases bound with
      | zero => cases hlength
      | succ bound =>
          rw [List.mem_cons, not_or] at hnul
          have hunit : ¬ unit = 0 := fun hzero => hnul.1 hzero.symm
          rw [List.cons_append, scanName, if_neg hunit,
            ih hnul.2 (Nat.lt_of_succ_lt_succ hlength)]
          rfl

/-- The names that so many passes store, up to the first failure. -/
def readNames : (left : Nat) → (Nat → Option (List UInt16)) → List (List UInt16)
  | 0, _ => []
  | left + 1, entries =>
      match entries 0 with
      | none => []
      | some name => name :: readNames left fun k => entries (k + 1)

theorem mem_readNames {left : Nat} {entries : Nat → Option (List UInt16)}
    {name : List UInt16} :
    name ∈ readNames left entries ↔
      ∃ k < left, entries k = some name ∧ ∀ j < k, entries j ≠ none := by
  induction left generalizing entries with
  | zero => simp [readNames]
  | succ left ih =>
      rw [readNames]
      cases hfirst : entries 0 with
      | none =>
          refine iff_of_false List.not_mem_nil ?_
          rintro ⟨k, _, hname, hbefore⟩
          cases k with
          | zero => cases hfirst.symm.trans hname
          | succ k => exact hbefore 0 (Nat.succ_pos k) hfirst
      | some first =>
          rw [List.mem_cons, ih]
          constructor
          · rintro (rfl | ⟨k, hk, hname, hbefore⟩)
            · exact ⟨0, Nat.succ_pos left, hfirst, fun j hj => absurd hj (Nat.not_lt_zero j)⟩
            · refine ⟨k + 1, Nat.succ_lt_succ hk, hname, ?_⟩
              intro j hj
              cases j with
              | zero => simp [hfirst]
              | succ j => exact hbefore j (Nat.lt_of_succ_lt_succ hj)
          · rintro ⟨k, hk, hname, hbefore⟩
            cases k with
            | zero => exact Or.inl (Option.some.inj (hname.symm.trans hfirst))
            | succ k =>
                exact Or.inr ⟨k, Nat.lt_of_succ_lt_succ hk, hname,
                  fun j hj => hbefore (j + 1) (Nat.succ_lt_succ hj)⟩

theorem readNames_length_le (left : Nat) (entries : Nat → Option (List UInt16)) :
    (readNames left entries).length ≤ left := by
  induction left generalizing entries with
  | zero => exact le_rfl
  | succ left ih =>
      rw [readNames]
      split
      · exact Nat.zero_le _
      · exact Nat.succ_le_succ (ih _)

/-- The writes of the records of these names, all at one place. -/
def recordCells (dire : UInt64) (names : List (List UInt16)) : List (UInt64 × UInt8) :=
  names.flatMap fun name => direntCells dire (name.map UInt16.toUInt8)

theorem mem_points_recordCells {dire x : UInt64} {names : List (List UInt16)} :
    x ∈ points (recordCells dire names) ↔
      ∃ name ∈ names, x ∈ points (direntCells dire (name.map UInt16.toUInt8)) := by
  simp only [points, recordCells, List.map_flatMap, List.mem_flatMap]

/-- The sum of the record lengths of these names. -/
def recordBytes (names : List (List UInt16)) : Nat :=
  (names.map fun name => 20 + name.length).sum

@[simp] theorem recordBytes_cons (name : List UInt16) (names : List (List UInt16)) :
    recordBytes (name :: names) = 20 + name.length + recordBytes names := by
  rw [recordBytes, List.map_cons, List.sum_cons]
  rfl

/-- The record length of a name that the scratch buffer holds, in the counter's type. -/
theorem direntReclen_word {name : List UInt16} (hlength : name.length < scratchUnits) :
    (direntReclen (name.map UInt16.toUInt8)).toUInt64 = UInt64.ofNat (20 + name.length) := by
  rw [scratchUnits] at hlength
  apply UInt64.toNat.inj
  rw [UInt16.toNat_toUInt64, direntReclen, UInt16.toNat_ofNat', List.length_map,
    UInt64.toNat_ofNat']
  omega

theorem recordBytes_le {names : List (List UInt16)} {room : Nat}
    (hroom : ∀ name ∈ names, 20 + name.length ≤ room) :
    recordBytes names ≤ names.length * room := by
  have hsum := List.sum_le_card_nsmul (names.map fun name => 20 + name.length) room
    (by simpa using hroom)
  rwa [List.length_map, Nat.nsmul_eq_mul] at hsum

end Entries

section Run

variable {p : Platform} {m : Machine} {handle : FileHandle}
  {entries : Nat → Option (List UInt16)}

/-- The loop writes the records of the names it reads, and counts their lengths unless a
read fails. -/
theorem direntLoop_run_entries (hdelivers : Delivers p handle m.trace entries)
    (dire : UInt64) (left : Nat) (fres : UInt64) :
    ∃ v m', (direntLoop p handle dire left fres).run m = .ok v m' ∧
      m'.mem = patch m.mem (recordCells dire (readNames left entries)) ∧
      (v < 0 ∨ v = (fres + UInt64.ofNat
        (recordBytes (readNames left entries))).toUInt32.toInt32.toInt) := by
  induction left generalizing m entries fres with
  | zero => exact ⟨_, m, rfl, rfl, Or.inr (by simp [readNames, recordBytes])⟩
  | succ left ih =>
      have hentry := hdelivers 0
      rw [direntLoop, run_bind_of_ok (uefiCallWrapper_run p rfl m), readNames]
      cases hfirst : entries 0 with
      | none =>
          rw [hfirst] at hentry
          have herror : efiError (p.answer m (.read handle scratchSize)).reply.status = true :=
            hentry
          rw [if_pos herror]
          refine ⟨_, p.after m (.read handle scratchSize), rfl, rfl, Or.inl ?_⟩
          have hrange := failure_range (p.answer m (.read handle scratchSize)).reply.status
          omega
      | some name =>
          rw [hfirst] at hentry
          obtain ⟨hok, hnul, hlength, rest, hname⟩ := hentry
          have hstatus :
              efiError (p.answer m (.read handle scratchSize)).reply.status = false := hok
          have hscan : scanName scratchUnits
              (p.answer m (.read handle scratchSize)).reply.info.fileName =
                some (name.map UInt16.toUInt8) :=
            (congrArg _ hname).trans (scanName_append hnul hlength)
          rw [hstatus, if_neg Bool.false_ne_true, hscan]
          simp only
          rw [run_bind_of_ok (storeDirent_run dire _ _)]
          obtain ⟨v, m', hrun, hmem, hv⟩ := @ih
            { p.after m (.read handle scratchSize) with
              mem := direntMemory m.mem dire (name.map UInt16.toUInt8) }
            (fun k => entries (k + 1)) hdelivers.next
            (fres + (direntReclen (name.map UInt16.toUInt8)).toUInt64)
          refine ⟨v, m', hrun, ?_, ?_⟩
          · rw [hmem, direntMemory_eq_patch, ← patch_append]
            rfl
          · rw [recordBytes_cons, UInt64.ofNat_add, ← UInt64.add_assoc,
              ← direntReclen_word hlength]
            exact hv

end Run

/-- Whatever the memory was, a call leaves every byte outside the buffer alone, and it
returns at most the size of the buffer. -/
def RecordsInBuffer (p : Platform) (m : Machine) (fd : Int) (dirp : UInt64) (count : Nat) :
    Prop :=
  ∀ mem : Memory,
    (∀ x, (∀ i < count, x ≠ dirp + UInt64.ofNat i) →
      (finalState ((fdGetdents64 p fd dirp count).run { m with mem := mem })).mem x = mem x) ∧
    ∀ v m', (fdGetdents64 p fd dirp count).run { m with mem := mem } = .ok v m' →
      0 ≤ v → v ≤ count

section Bound

variable {p : Platform} {m : Machine} {handle : FileHandle} {fd : Int} {dirp : UInt64}
  {entries : Nat → Option (List UInt16)} {count : Nat}

/-- The place behind the whole records of the buffer. -/
def recordPlace (dirp : UInt64) (count : Nat) : UInt64 :=
  dirp + UInt64.ofNat (24 * (count / 24))

theorem recordPlace_add {i : Nat} :
    recordPlace dirp count + UInt64.ofNat i =
      dirp + UInt64.ofNat (24 * (count / 24) + i) := by
  rw [recordPlace, UInt64.ofNat_add, UInt64.add_assoc]

variable (dirp) in
/-- A call through a passing descriptor, in any memory. -/
theorem fdGetdents64_run_entries (hpass : fd ≤ 16) (hcount : count < 2 ^ 31)
    (hopen : m.openHandle fd = some handle) (hdelivers : Delivers p handle m.trace entries)
    (mem : Memory) :
    ∃ v m', (fdGetdents64 p fd dirp count).run { m with mem := mem } = .ok v m' ∧
      m'.mem = patch mem (recordCells (recordPlace dirp count)
        (readNames (count / 24) entries)) ∧
      (v < 0 ∨ v = (UInt64.ofNat
        (recordBytes (readNames (count / 24) entries))).toUInt32.toInt32.toInt) := by
  have hopen' : { m with mem := mem }.openHandle fd = some handle := hopen
  have hplace : dirp + UInt64.ofInt (direntCount count * sizeofDirent) =
      recordPlace dirp count := by
    rw [recordPlace, ← dire_toNat hcount, UInt64.ofNat_toNat]
  rw [fdGetdents64, withFd_run_of_open hpass hopen', fdGetdents64Taken, hplace,
    passes_natCast hcount]
  have hloop := @direntLoop_run_entries p { m with mem := mem } handle entries hdelivers
    (recordPlace dirp count) (count / 24) 0
  rwa [UInt64.zero_add] at hloop

variable (dirp) in
/-- The records of a call stay in the buffer exactly when what is left behind the whole
records holds each of them. -/
theorem recordCells_in_buffer_iff (hdelivers : Delivers p handle m.trace entries)
    (hcount : count < 2 ^ 31) :
    (∀ x, (∀ i < count, x ≠ dirp + UInt64.ofNat i) →
      x ∉ points (recordCells (recordPlace dirp count) (readNames (count / 24) entries))) ↔
        ∀ name ∈ readNames (count / 24) entries, 20 + name.length ≤ count % 24 := by
  constructor
  · intro houtside name hname
    by_contra hlong
    obtain ⟨k, _, hentry, _⟩ := mem_readNames.mp hname
    have hlength : name.length < 664 := by
      have hdelivered := hdelivers k
      rw [hentry] at hdelivered
      exact hdelivered.2.2.1
    refine houtside (recordPlace dirp count + UInt64.ofNat (19 + name.length)) ?_ ?_
    · intro i hi heq
      rw [recordPlace_add, add_ofNat_inj (by omega) (by omega)] at heq
      omega
    · rw [mem_points_recordCells]
      refine ⟨name, hname, ?_⟩
      have hlast := @last_mem_direntCells (recordPlace dirp count)
        (name.map UInt16.toUInt8)
      rwa [List.length_map] at hlast
  · intro hroom x hout hwritten
    obtain ⟨name, hname, hrecord⟩ := mem_points_recordCells.mp hwritten
    obtain ⟨i, hi, rfl⟩ := offset_of_mem_direntCells hrecord
    rw [List.length_map] at hi
    have hfits := hroom name hname
    exact hout (24 * (count / 24) + i) (by omega) recordPlace_add

/-- The lengths of records that fit behind the whole records add up to no more than the
buffer. -/
theorem recordBytes_readNames_le
    (hroom : ∀ name ∈ readNames (count / 24) entries, 20 + name.length ≤ count % 24) :
    recordBytes (readNames (count / 24) entries) ≤ count := by
  have hbytes := recordBytes_le hroom
  have hpasses := readNames_length_le (count / 24) entries
  have hproduct : (readNames (count / 24) entries).length * (count % 24) ≤
      count / 24 * 24 :=
    Nat.mul_le_mul hpasses (Nat.mod_lt count (by decide)).le
  omega

theorem recordsInBuffer_iff_of_passes (hpass : fd ≤ 16) (hcount : count < 2 ^ 31)
    (hopen : m.openHandle fd = some handle) (hdelivers : Delivers p handle m.trace entries) :
    RecordsInBuffer p m fd dirp count ↔
      ∀ name ∈ readNames (count / 24) entries, 20 + name.length ≤ count % 24 := by
  constructor
  · intro hstores
    have hbytes : Nontrivial UInt8 := ⟨0, 1, by decide⟩
    rw [← recordCells_in_buffer_iff dirp hdelivers hcount]
    intro x hout
    rw [← forall_patch_eq_iff]
    intro mem
    obtain ⟨v, m', hrun, hmem, _⟩ :=
      fdGetdents64_run_entries dirp hpass hcount hopen hdelivers mem
    have hkept := (hstores mem).1 x hout
    rwa [hrun, finalState_ok, hmem] at hkept
  · intro hroom mem
    obtain ⟨v, m', hrun, hmem, hv⟩ :=
      fdGetdents64_run_entries dirp hpass hcount hopen hdelivers mem
    rw [hrun]
    constructor
    · intro x hout
      rw [finalState_ok, hmem]
      exact patch_of_not_mem ((recordCells_in_buffer_iff dirp hdelivers hcount).mpr hroom x hout)
    · intro v' m'' hsame hpos
      rw [EStateM.Result.ok.injEq] at hsame
      obtain ⟨rfl, rfl⟩ := hsame
      have hbytes := recordBytes_readNames_le hroom
      have hword : (UInt64.ofNat (recordBytes (readNames (count / 24) entries))).toNat =
          recordBytes (readNames (count / 24) entries) := by
        rw [UInt64.toNat_ofNat', Nat.mod_eq_of_lt (by omega)]
      rcases hv with hneg | hsum
      · omega
      · rw [hsum, toInt_low (by omega), hword]
        exact_mod_cast hbytes

end Bound

/-- The records of a directory stay in the caller's buffer exactly when the descriptor is
refused, or every name that is read fits, with the twenty bytes of its record, in what the
whole records of 24 bytes leave over. -/
theorem recordsInBuffer_iff_names_fit (p : Platform) (m : Machine) (fd : Int)
    (dirp : UInt64) {count : Nat} {handle : FileHandle}
    (entries : Nat → Option (List UInt16)) (hcount : count < 2 ^ 31)
    (hopen : m.openHandle fd = some handle)
    (hdelivers : Delivers p handle m.trace entries) :
    RecordsInBuffer p m fd dirp count ↔
      16 < fd ∨ ∀ k < count / 24, ∀ name, entries k = some name →
        (∀ j < k, entries j ≠ none) → 20 + name.length ≤ count % 24 := by
  by_cases hhigh : 16 < fd
  · refine iff_of_true ?_ (Or.inl hhigh)
    intro mem
    have hrun : (fdGetdents64 p fd dirp count).run { m with mem := mem } =
        .ok Errno.ebadf.neg { m with mem := mem } := by
      rw [fdGetdents64, withFd_run_of_high hhigh]
    rw [hrun]
    refine ⟨fun x _ => rfl, ?_⟩
    intro v m' hsame hpos
    rw [EStateM.Result.ok.injEq] at hsame
    have hneg : Errno.ebadf.neg = -9 := rfl
    omega
  · rw [or_iff_right hhigh, recordsInBuffer_iff_of_passes (not_lt.mp hhigh) hcount hopen
      hdelivers]
    constructor
    · intro hroom k hk name hname hbefore
      exact hroom name (mem_readNames.mpr ⟨k, hk, hname, hbefore⟩)
    · intro hroom name hname
      obtain ⟨k, hk, hentry, hbefore⟩ := mem_readNames.mp hname
      exact hroom k hk name hentry hbefore

/-- A machine with one file open, at descriptor 4. -/
def listedMachine : Machine := Machine.blank.put 0 firstHandle

theorem listedMachine_openHandle : listedMachine.openHandle 4 = some firstHandle := by decide

/-- The firmware that succeeds in every call delivers the empty name again and again. -/
theorem workingFirmware_delivers (log : List Event) :
    Delivers workingFirmware firstHandle log fun _ => some [] := by
  have hok : efiError efiSuccess = false := by decide
  intro k
  induction k generalizing log with
  | zero => exact ⟨hok, by decide, by decide, [], rfl⟩
  | succ k ih => exact ih _

theorem recordsInBuffer_iff_names_fit_working :
    RecordsInBuffer workingFirmware listedMachine 4 4096 47 ↔
      (16 : Int) < 4 ∨ ∀ k < 47 / 24, ∀ name : List UInt16, some [] = some name →
        (∀ j < k, some ([] : List UInt16) ≠ none) → 20 + name.length ≤ 47 % 24 :=
  recordsInBuffer_iff_names_fit workingFirmware listedMachine 4 4096 (fun _ => some [])
    (by decide) listedMachine_openHandle (workingFirmware_delivers _)

/-- In a buffer of 24 bytes even the record of an empty name lies behind the buffer. -/
theorem record_behind_buffer :
    ¬ ∀ (p : Platform) (m : Machine) (fd : Int) (dirp : UInt64) (count : Nat)
      (handle : FileHandle) (entries : Nat → Option (List UInt16)), count < 2 ^ 31 →
      m.openHandle fd = some handle → Delivers p handle m.trace entries →
        RecordsInBuffer p m fd dirp count := by
  intro hall
  have hstores := hall workingFirmware listedMachine 4 4096 24 firstHandle (fun _ => some [])
    (by decide) listedMachine_openHandle (workingFirmware_delivers _)
  have hroom := (recordsInBuffer_iff_of_passes (by decide) (by decide) listedMachine_openHandle
    (workingFirmware_delivers _)).mp hstores [] (by decide)
  exact absurd hroom (by decide)

end UefiLinux
