import Mathlib.Data.BitVec

/-!
# The bit scans of util.h

`bsf` and `bsr` leave their destination unchanged when the source is zero. The
two macros work on one bitmap word; a variable shift takes its count modulo 32,
as the `shl` the compiler emits does.
-/
namespace TapiOS.Util

open BitVec (twoPow)

abbrev Word := BitVec 32

instance : LawfulBEq Word := inferInstance

/-- `bsf out, src`: the position of the lowest set bit. -/
def bsf (out : Int) (src : Word) : Int :=
  if src = 0 then out else src.ctz.toNat

/-- `bsr out, src`: the position of the highest set bit. -/
def bsr (out : Int) (src : Word) : Int :=
  if src = 0 then out else 31 - src.clz.toNat

/-- `1 << n` on a 32-bit operand. -/
def shiftOne (n : Int) : Word := twoPow 32 (n % 32).toNat

/-- GET_AND_SET_MSB: the scanned position and the updated word. -/
def getAndSetMsb (out : Int) (w : Word) : Int × Word :=
  let out := bsf out w
  let w := if out > 0 then w ||| shiftOne (out - 1) else w ||| shiftOne 31
  (if out = 0 then 32 else out, w)

/-- GET_AND_SET_LSB: the scanned position plus one and the updated word. The output is only
written, so the word is in its register before the scan: a zero word leaves zero there. -/
def getAndSetLsb (w : Word) : Int × Word :=
  let out := bsr 0 w + 1
  (out, w ||| shiftOne out)

theorem shiftOne_eq_twoPow {n : Nat} (hn : n < 32) : shiftOne n = twoPow 32 n := by
  unfold shiftOne
  congr 1
  omega

theorem getLsbD_or_twoPow (w : Word) (n i : Nat) (hn : n < 32) :
    (w ||| twoPow 32 n).getLsbD i = (w.getLsbD i || decide (n = i)) := by
  simp [BitVec.getLsbD_twoPow, hn]

/-- The bit the MSB macro sets is the one below the lowest set bit. Only when the
lowest bit of the word is set does it fall back to bit 31 without looking at it. -/
theorem getAndSetMsb_spec (w : Word) :
    ∃ m : Nat, 1 ≤ m ∧ m ≤ 32 ∧
      getAndSetMsb 0 w = ((m : Int), w ||| twoPow 32 (m - 1)) ∧
      (w.getLsbD 0 = false → w.getLsbD (m - 1) = false) ∧
      (w.getLsbD 0 → m = 32) := by
  by_cases hz : w = 0
  · subst hz
    exact ⟨32, by decide, by decide, by decide, by simp, by simp⟩
  have hset := BitVec.getLsbD_true_ctz_of_ne_zero hz
  have hlt : w.ctz.toNat < 32 := BitVec.ctz_lt_iff_ne_zero.mpr hz
  by_cases hp : w.ctz.toNat = 0
  · rw [hp] at hset
    refine ⟨32, by decide, by decide, ?_, ?_, fun _ => rfl⟩
    · simp [getAndSetMsb, bsf, hp, shiftOne]
    · intro h
      rw [hset] at h
      cases h
  · have hclear := BitVec.getLsbD_false_of_lt_ctz (x := w) (i := w.ctz.toNat - 1) (by omega)
    refine ⟨w.ctz.toNat, by omega, by omega, ?_, fun _ => hclear, ?_⟩
    · have hs : ((w.ctz.toNat : Int) - 1) = ((w.ctz.toNat - 1 : Nat) : Int) := by omega
      have hpos : (w.ctz.toNat : Int) > 0 := by omega
      have hne : (w.ctz.toNat : Int) ≠ 0 := by omega
      simp only [getAndSetMsb, bsf, hz, ↓reduceIte, hpos, hne]
      rw [hs, shiftOne_eq_twoPow (by omega)]
    · intro h
      have := BitVec.getLsbD_false_of_lt_ctz (x := w) (i := 0) (by omega)
      rw [h] at this
      cases this

/-- On a word whose top bit is clear the LSB macro sets the bit above the highest set
bit, and bit 1 of a zero word. -/
theorem getAndSetLsb_spec {w : Word} (hw : w.getLsbD 31 = false) :
    ∃ k : Nat, k < 32 ∧ getAndSetLsb w = ((k : Int), w ||| twoPow 32 k) ∧
      w.getLsbD k = false := by
  by_cases hz : w = 0
  · subst hz
    exact ⟨1, by decide, by decide, by decide⟩
  have hlt : w.clz.toNat < 32 := BitVec.clz_lt_iff_ne_zero.mpr hz
  have hpos : w.clz.toNat ≠ 0 := by
    intro h0
    have hset := BitVec.getLsbD_true_clz_of_ne_zero (by decide) hz
    rw [h0, hw] at hset
    cases hset
  have hle := BitVec.toNat_lt_two_pow_sub_clz (x := w)
  refine ⟨32 - w.clz.toNat, by omega, ?_, Nat.testBit_lt_two_pow hle⟩
  have hk : (31 : Int) - w.clz.toNat + 1 = ((32 - w.clz.toNat : Nat) : Int) := by omega
  simp only [getAndSetLsb, bsr, hz, ↓reduceIte, hk]
  rw [shiftOne_eq_twoPow (by omega)]

/-- With its top bit set the scan ends at 32 and the shift wraps to the lowest bit. -/
theorem getAndSetLsb_top {w : Word} (hw : w.getLsbD 31) :
    getAndSetLsb w = (32, w ||| twoPow 32 0) := by
  have hz : w ≠ 0 := by
    intro h
    subst h
    simp at hw
  have hclz : w.clz.toNat = 0 := by
    by_contra hpos
    have hle := BitVec.toNat_lt_two_pow_sub_clz (x := w)
    have hlt : w.toNat < 2 ^ 31 :=
      hle.trans_le (Nat.pow_le_pow_right (by decide) (by omega))
    have hclear : w.getLsbD 31 = false := Nat.testBit_lt_two_pow hlt
    rw [hw] at hclear
    cases hclear
  have hshift : shiftOne (31 - ((0 : Nat) : Int) + 1) = twoPow 32 0 := by decide
  simp only [getAndSetLsb, bsr, hz, ↓reduceIte, hclz, hshift]
  rfl

end TapiOS.Util
