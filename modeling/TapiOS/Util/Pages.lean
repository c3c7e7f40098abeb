import Mathlib.Data.BitVec

/-! Rounding 32-bit addresses to pages of 0x1000 bytes, as `addr & 0xFFFFF000`. -/
namespace TapiOS.Util

/-- `addr & 0xFFFFF000` -/
def pageAlign (addr : BitVec 32) : BitVec 32 := addr &&& 0xFFFFF000#32

/-- A mask of ones above bit `k` rounds down to a multiple of `2 ^ k`. -/
theorem and_mask_toNat {w : Nat} (addr : BitVec w) (k : Nat) :
    (addr &&& (BitVec.allOnes w <<< k)).toNat = addr.toNat / 2 ^ k * 2 ^ k := by
  have hs : addr &&& (BitVec.allOnes w <<< k) = (addr >>> k) <<< k := by
    apply BitVec.eq_of_getLsbD_eq
    intro i hi
    simp only [BitVec.getLsbD_and, BitVec.getLsbD_shiftLeft, BitVec.getLsbD_allOnes,
      BitVec.getLsbD_ushiftRight]
    by_cases h : i < k
    · simp [h]
    · simp [hi, h, show k + (i - k) = i by omega, show i - k < w by omega]
  have hb : addr.toNat / 2 ^ k * 2 ^ k < 2 ^ w :=
    (Nat.div_mul_le_self _ _).trans_lt addr.isLt
  rw [hs, BitVec.toNat_shiftLeft, BitVec.toNat_ushiftRight, Nat.shiftRight_eq_div_pow,
    Nat.shiftLeft_eq, Nat.mod_eq_of_lt hb]

theorem pageAlign_toNat (addr : BitVec 32) :
    (pageAlign addr).toNat = addr.toNat / 0x1000 * 0x1000 := by
  rw [pageAlign, show 0xFFFFF000#32 = BitVec.allOnes 32 <<< 12 by decide]
  exact and_mask_toNat addr 12

theorem pageAlign_of_aligned {addr : BitVec 32} (h : addr.toNat % 0x1000 = 0) :
    pageAlign addr = addr := by
  apply BitVec.eq_of_toNat_eq
  rw [pageAlign_toNat]
  omega

end TapiOS.Util
