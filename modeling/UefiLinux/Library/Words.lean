/-
Machine words and the integers they stand for: what a word made from an integer is
read back as, whole or cut to its low half.
-/
import Mathlib.Algebra.Order.Ring.Int

namespace Words

theorem toBitVec_ofInt (v : Int) :
    (UInt64.ofInt v).toBitVec = BitVec.ofInt 64 v := by
  apply BitVec.eq_of_toNat_eq
  rw [BitVec.toNat_ofInt]
  change (v % 2 ^ 64).toNat % 2 ^ 64 = _
  omega

/-- A signed integer is read back from its word. -/
theorem toInt_ofInt {v : Int} (hlow : -2 ^ 63 ≤ v) (hhigh : v < 2 ^ 63) :
    (UInt64.ofInt v).toInt64.toInt = v := by
  change (UInt64.ofInt v).toBitVec.toInt = v
  rw [toBitVec_ofInt, BitVec.toInt_ofInt, Int.bmod_def]
  omega

/-- A word is put together again from the signed integer it is read as. -/
theorem ofInt_toInt (w : UInt64) : UInt64.ofInt w.toInt64.toInt = w := by
  apply UInt64.toBitVec_inj.mp
  rw [toBitVec_ofInt]
  exact BitVec.ofInt_toInt

/-- A small signed integer is read back from the low half of its word. -/
theorem toInt_low_ofInt {v : Int} (hlow : -2 ^ 31 ≤ v) (hhigh : v < 2 ^ 31) :
    (UInt64.ofInt v).toUInt32.toInt32.toInt = v := by
  change ((UInt64.ofInt v).toBitVec.setWidth 32).toInt = v
  rw [toBitVec_ofInt, BitVec.toInt_setWidth, BitVec.toNat_ofInt, Int.bmod_def]
  omega

/-- The low half of a small word, read as a C integer. -/
theorem toInt_low {w : UInt64} (hsmall : w.toNat < 2 ^ 31) :
    w.toUInt32.toInt32.toInt = w.toNat := by
  change (w.toBitVec.setWidth 32).toInt = w.toNat
  have hbits : w.toBitVec.toNat = w.toNat := rfl
  rw [BitVec.toInt_setWidth, Int.bmod_def, hbits]
  omega

theorem ofInt_natCast (n : Nat) : UInt64.ofInt (n : Int) = UInt64.ofNat n := by
  apply UInt64.toNat.inj
  change ((n : Int) % 2 ^ 64).toNat % 2 ^ 64 = n % 2 ^ 64
  omega

theorem toNat_ofInt_natCast {n : Nat} (hsmall : n < 2 ^ 64) :
    (UInt64.ofInt (n : Int)).toNat = n := by
  rw [ofInt_natCast, UInt64.toNat_ofNat', Nat.mod_eq_of_lt hsmall]

theorem toNat_add_one {i : UInt32} (hsmall : i.toNat + 1 < 2 ^ 32) :
    (i + 1).toNat = i.toNat + 1 := by
  rw [UInt32.toNat_add]
  exact Nat.mod_eq_of_lt hsmall

theorem toUInt64_add_one {i : UInt32} (hsmall : i.toNat + 1 < 2 ^ 32) :
    (i + 1).toUInt64 = i.toUInt64 + 1 := by
  apply UInt64.toNat.inj
  rw [UInt32.toNat_toUInt64, toNat_add_one hsmall, UInt64.toNat_add, UInt32.toNat_toUInt64]
  exact (Nat.mod_eq_of_lt (by omega)).symm

/-- A unit put together from a byte and a zero high byte. -/
theorem toUInt16_or_zero (byte : UInt8) :
    byte.toUInt16 ||| (0 : UInt8).toUInt16 <<< 8 = byte.toUInt16 := by
  have hhigh : (0 : UInt8).toUInt16 <<< 8 = 0 := by decide
  rw [hhigh, UInt16.or_zero]

end Words
