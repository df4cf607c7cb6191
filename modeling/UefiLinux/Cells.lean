/-
The cells of memory that a store writes: which addresses a store reaches, what is read
back from them, and which reads a store does not disturb.
-/
import UefiLinux.Machine
import UefiLinux.Library.Patches

namespace UefiLinux

open Patches

@[simp] theorem littleEndian_length (width value : Nat) :
    (littleEndian width value).length = width := by
  induction width generalizing value with
  | zero => rfl
  | succ width ih => simp [littleEndian, ih]

/-- The writes of a store, one byte after the other. -/
def cells (address : UInt64) : List UInt8 → List (UInt64 × UInt8)
  | [] => []
  | byte :: rest => (address, byte) :: cells (address + 1) rest

theorem Memory.store_eq_patch (mem : Memory) (address : UInt64) (bytes : List UInt8) :
    mem.store address bytes = patch mem (cells address bytes) := by
  induction bytes generalizing mem address with
  | nil => rfl
  | cons byte rest ih => exact ih (Function.update mem address byte) (address + 1)

theorem add_ofNat_succ (address : UInt64) (i : Nat) :
    address + 1 + UInt64.ofNat i = address + UInt64.ofNat (i + 1) := by
  rw [UInt64.ofNat_add, UInt64.add_assoc, UInt64.add_comm (UInt64.ofNat i)]
  rfl

/-- An offset from an offset is one offset. -/
theorem add_add_ofNat (base offset : UInt64) (i : Nat) :
    base + offset + UInt64.ofNat i = base + UInt64.ofNat (offset.toNat + i) := by
  rw [UInt64.ofNat_add, UInt64.ofNat_toNat, UInt64.add_assoc]

/-- Offsets that fit in a word name different addresses. -/
theorem add_ofNat_inj {address : UInt64} {i j : Nat} (hi : i < 2 ^ 64) (hj : j < 2 ^ 64) :
    address + UInt64.ofNat i = address + UInt64.ofNat j ↔ i = j := by
  rw [UInt64.add_right_inj, ← UInt64.toNat_inj, UInt64.toNat_ofNat', UInt64.toNat_ofNat',
    Nat.mod_eq_of_lt hi, Nat.mod_eq_of_lt hj]

theorem mem_cells {address : UInt64} {bytes : List UInt8} {cell : UInt64 × UInt8} :
    cell ∈ cells address bytes ↔
      ∃ i, ∃ hi : i < bytes.length, cell = (address + UInt64.ofNat i, bytes[i]) := by
  induction bytes generalizing address with
  | nil => simp [cells]
  | cons byte rest ih =>
      rw [cells, List.mem_cons, ih]
      constructor
      · rintro (rfl | ⟨i, hi, rfl⟩)
        · exact ⟨0, Nat.zero_lt_succ _, by simp⟩
        · exact ⟨i + 1, Nat.succ_lt_succ hi, by rw [add_ofNat_succ]; rfl⟩
      · rintro ⟨i, hi, rfl⟩
        cases i with
        | zero => exact Or.inl (by simp)
        | succ i =>
            exact Or.inr ⟨i, Nat.lt_of_succ_lt_succ hi, by rw [add_ofNat_succ]; rfl⟩

theorem mem_points_cells {address x : UInt64} {bytes : List UInt8} :
    x ∈ points (cells address bytes) ↔
      ∃ i < bytes.length, x = address + UInt64.ofNat i := by
  simp only [points, List.mem_map, mem_cells]
  constructor
  · rintro ⟨_, ⟨i, hi, rfl⟩, rfl⟩
    exact ⟨i, hi, rfl⟩
  · rintro ⟨i, hi, rfl⟩
    exact ⟨_, ⟨i, hi, rfl⟩, rfl⟩

theorem points_cells_nodup {address : UInt64} {bytes : List UInt8}
    (hlength : bytes.length ≤ 2 ^ 64) : (points (cells address bytes)).Nodup := by
  induction bytes generalizing address with
  | nil => exact List.nodup_nil
  | cons byte rest ih =>
      simp only [List.length_cons] at hlength
      refine List.nodup_cons.mpr ⟨?_, ih (by omega)⟩
      intro hagain
      obtain ⟨i, hi, heq⟩ := mem_points_cells.mp hagain
      rw [add_ofNat_succ] at heq
      have hzero : address + UInt64.ofNat 0 = address + UInt64.ofNat (i + 1) := by
        simpa using heq
      have hoffset := (add_ofNat_inj (by omega) (by omega)).mp hzero
      omega

/-- Consecutive bytes are read in two parts. -/
theorem Memory.bytes_add (mem : Memory) (address : UInt64) (first second : Nat) :
    mem.bytes address (first + second) =
      mem.bytes address first ++ mem.bytes (address + UInt64.ofNat first) second := by
  rw [Memory.bytes, List.range_add, List.map_append, List.map_map]
  congr 1
  apply List.map_congr_left
  intro i _
  rw [Function.comp_apply, UInt64.ofNat_add, UInt64.add_assoc]

/-- A stored byte is found at its address. -/
theorem Memory.store_apply {mem : Memory} {address : UInt64} {bytes : List UInt8}
    (hlength : bytes.length ≤ 2 ^ 64) {i : Nat} (hi : i < bytes.length) :
    mem.store address bytes (address + UInt64.ofNat i) = bytes[i] := by
  rw [Memory.store_eq_patch]
  exact patch_of_mem (points_cells_nodup hlength) (mem_cells.mpr ⟨i, hi, rfl⟩)

/-- An address that a store does not reach keeps its byte. -/
theorem Memory.store_apply_of_outside {mem : Memory} {address x : UInt64}
    {bytes : List UInt8} (hout : ∀ i < bytes.length, x ≠ address + UInt64.ofNat i) :
    mem.store address bytes x = mem x := by
  rw [Memory.store_eq_patch]
  apply patch_of_not_mem
  rw [mem_points_cells]
  rintro ⟨i, hi, heq⟩
  exact hout i hi heq

/-- A store is read back whole. -/
theorem Memory.bytes_store {mem : Memory} {address : UInt64} {bytes : List UInt8}
    (hlength : bytes.length ≤ 2 ^ 64) :
    (mem.store address bytes).bytes address bytes.length = bytes := by
  apply List.ext_getElem
  · simp [Memory.bytes]
  · intro i hi hi'
    simp only [Memory.bytes, List.getElem_map, List.getElem_range]
    exact Memory.store_apply hlength hi'

/-- A store at one offset of a structure leaves the bytes at another alone. -/
theorem Memory.bytes_store_of_apart {mem : Memory} {base stored read : UInt64}
    {bytes : List UInt8} {count : Nat} (hstored : stored.toNat + bytes.length ≤ 2 ^ 64)
    (hread : read.toNat + count ≤ 2 ^ 64)
    (hapart : read.toNat + count ≤ stored.toNat ∨
      stored.toNat + bytes.length ≤ read.toNat) :
    (mem.store (base + stored) bytes).bytes (base + read) count =
      mem.bytes (base + read) count := by
  apply List.map_congr_left
  intro i hi
  rw [List.mem_range] at hi
  apply Memory.store_apply_of_outside
  intro j hj heq
  rw [add_add_ofNat, add_add_ofNat, add_ofNat_inj (by omega) (by omega)] at heq
  omega

theorem ofLittleEndian_littleEndian (width value : Nat) :
    ofLittleEndian (littleEndian width value) = value % 256 ^ width := by
  induction width generalizing value with
  | zero => simp [littleEndian, ofLittleEndian, Nat.mod_one]
  | succ width ih =>
      rw [littleEndian, ofLittleEndian, ih, UInt8.toNat_ofNat']
      change value % 256 + 256 * (value / 256 % 256 ^ width) = value % 256 ^ (width + 1)
      rw [Nat.pow_succ, Nat.mul_comm (256 ^ width), Nat.mod_mul]

/-- A word that has been stored is read back. -/
theorem Memory.load64_store {mem : Memory} {address value : UInt64} :
    (mem.store address (littleEndian 8 value.toNat)).load64 address = value := by
  have hback : (mem.store address (littleEndian 8 value.toNat)).bytes address 8 =
      littleEndian 8 value.toNat := by
    have hlength : (littleEndian 8 value.toNat).length = 8 := rfl
    exact Memory.bytes_store (by rw [hlength]; decide)
  have hfits : value.toNat % 256 ^ 8 = value.toNat := Nat.mod_eq_of_lt value.toNat_lt
  rw [Memory.load64, hback, ofLittleEndian_littleEndian, hfits, UInt64.ofNat_toNat]

/-- A word at another offset of a structure is not disturbed by a store. -/
theorem Memory.load64_store_of_apart {mem : Memory} {base stored read : UInt64}
    {bytes : List UInt8} (hstored : stored.toNat + bytes.length ≤ 2 ^ 64)
    (hread : read.toNat + 8 ≤ 2 ^ 64)
    (hapart : read.toNat + 8 ≤ stored.toNat ∨
      stored.toNat + bytes.length ≤ read.toNat) :
    (mem.store (base + stored) bytes).load64 (base + read) = mem.load64 (base + read) := by
  rw [Memory.load64, Memory.load64, Memory.bytes_store_of_apart hstored hread hapart]

/-- Two words that have been stored one behind the other are read back. -/
theorem Memory.load64_store_pair (mem : Memory) (address first second : UInt64) :
    ((mem.store address (littleEndian 8 first.toNat)).store (address + 8)
        (littleEndian 8 second.toNat)).load64 address = first ∧
      ((mem.store address (littleEndian 8 first.toNat)).store (address + 8)
        (littleEndian 8 second.toNat)).load64 (address + 8) = second := by
  have hlength : (littleEndian 8 second.toNat).length = 8 := rfl
  have hapart : ∀ memory : Memory,
      (memory.store (address + 8) (littleEndian 8 second.toNat)).load64 (address + 0) =
        memory.load64 (address + 0) :=
    fun memory => Memory.load64_store_of_apart (by rw [hlength]; decide) (by decide)
      (Or.inl (by decide))
  rw [UInt64.add_zero] at hapart
  constructor
  · rw [hapart, Memory.load64_store]
  · rw [Memory.load64_store]

end UefiLinux
