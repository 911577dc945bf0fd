import Mathlib.Data.BitVec

/-! Masks of machine words as bit fields. A mask that keeps the high bits
rounds down to a power of two; a mask of `w` bits at position `k` selects a
field. Both are turned into shifts, whose values are known. -/
namespace BitField

variable {n : Nat}

theorem and_high (x : BitVec n) (k : Nat) :
    x &&& (BitVec.allOnes n <<< k) = x >>> k <<< k := by
  ext i hi
  by_cases h : i < k
  · simp [h]
  · have hk : k + (i - k) = i := by omega
    simp [h, hk, BitVec.getLsbD_eq_getElem hi]

theorem shift_down_up_toNat (x : BitVec n) (k : Nat) :
    (x >>> k <<< k).toNat = x.toNat / 2 ^ k * 2 ^ k := by
  rw [BitVec.toNat_shiftLeft, BitVec.toNat_ushiftRight, Nat.shiftLeft_eq,
    Nat.shiftRight_eq_div_pow]
  exact Nat.mod_eq_of_lt (Nat.lt_of_le_of_lt (Nat.div_mul_le_self _ _) x.isLt)

/-- Clearing the low `k` bits rounds down to a multiple of `2^k`. -/
theorem and_high_toNat (x : BitVec n) (k : Nat) :
    (x &&& (BitVec.allOnes n <<< k)).toNat = x.toNat / 2 ^ k * 2 ^ k := by
  rw [and_high, shift_down_up_toNat]

theorem and_field (x : BitVec n) (k w : Nat) :
    x &&& ((BitVec.allOnes w).setWidth n <<< k) = (x.extractLsb' k w).setWidth n <<< k := by
  ext i hi
  by_cases h : i < k
  · simp [h]
  · have hk : k + (i - k) = i := by omega
    by_cases hw : i - k < w
    · simp [h, hk, hw, BitVec.getLsbD_eq_getElem hi]
    · simp [h, hw]

/-- The `w`-bit field at `k`, shifted down and masked. -/
theorem shift_and_low (x : BitVec n) (k w : Nat) :
    (x >>> k) &&& (BitVec.allOnes w).setWidth n = (x.extractLsb' k w).setWidth n := by
  ext i hi
  by_cases hw : i < w <;> simp [hw]

theorem shift_and_low_setWidth (x : BitVec n) (k : Nat) {w : Nat} (hw : w ≤ n) :
    ((x >>> k) &&& (BitVec.allOnes w).setWidth n).setWidth w = x.extractLsb' k w := by
  rw [shift_and_low, BitVec.setWidth_setWidth_of_le _ hw, BitVec.setWidth_eq]

theorem extractLsb'_toNat_eq (x : BitVec n) (k w : Nat) :
    (x.extractLsb' k w).toNat = x.toNat / 2 ^ k % 2 ^ w := by
  rw [BitVec.extractLsb'_toNat, Nat.shiftRight_eq_div_pow]

end BitField
