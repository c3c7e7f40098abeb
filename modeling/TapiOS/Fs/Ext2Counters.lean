import Mathlib.Algebra.BigOperators.Intervals
import Mathlib.Algebra.Order.BigOperators.Group.Finset
import TapiOS.Fs.Ext2Inodes

/-!
# Free counters

The descriptor of a group counts the clear bits of its bitmaps and the superblock the sum
over all groups. The totals of the superblock are never stored to, so they are true only as
long as nothing is allocated.
-/
namespace TapiOS.Fs.Ext2

open Util Lib

def sbUnallocatedBlocks (m : Mem) (sb : Word) : Word := m.word (sb + 12#32)
def sbUnallocatedInodes (m : Mem) (sb : Word) : Word := m.word (sb + 16#32)

/-- The number of clear bits among the first `n` of a bitmap. -/
def clearBits (m : Mem) (a : Word) (n : Nat) : Nat :=
  ((Finset.range n).filter (fun k => bitAt m a k = false)).card

/-- All four counters are true. -/
structure CountersTrue (L : Layout) (m : Mem) : Prop where
  blocks : ∀ g < L.blockgroups, (descUnallocatedBlocks m (L.descAddr g)).toNat =
    clearBits m (L.blockAddr (L.bitmapBlockNo g)) (8 * L.blockSize)
  inodes : ∀ g < L.blockgroups, (descUnallocatedInodes m (L.descAddr g)).toNat =
    clearBits m (L.blockAddr (L.bitmapInodeNo g)) (8 * L.blockSize)
  totalBlocks : (sbUnallocatedBlocks m L.sb).toNat =
    ∑ g ∈ Finset.range L.blockgroups, (descUnallocatedBlocks m (L.descAddr g)).toNat
  totalInodes : (sbUnallocatedInodes m L.sb).toNat =
    ∑ g ∈ Finset.range L.blockgroups, (descUnallocatedInodes m (L.descAddr g)).toNat

/-- A write that finds no block. -/
def Call.Idle (L : Layout) (m : Mem) : Call → Prop
  | .write _ _ _ => ∀ groups g, getBlockgroupCount m L.sb = .ok groups →
      firstGroup m L.sb descUnallocatedBlocks groups = some g → NoBlock L m g
  | .newInode _ _ _ => False

section Bits
variable {m m' : Mem} {a : Word} {n : Nat}

theorem clearBits_congr (h : ∀ k < n, bitAt m' a k = bitAt m a k) :
    clearBits m' a n = clearBits m a n := by
  rw [clearBits]
  congr 1
  apply Finset.filter_congr
  intro k hk
  rw [h k (Finset.mem_range.mp hk)]

theorem clearBits_lt {b : Nat} (hb : b < n) (hclear : bitAt m a b = false)
    (h : ∀ k < n, bitAt m' a k = (bitAt m a k || decide (k = b))) :
    clearBits m' a n < clearBits m a n := by
  apply Finset.card_lt_card
  rw [Finset.ssubset_iff_of_subset]
  · refine ⟨b, by simp [hb, hclear], ?_⟩
    simp [h b hb]
  · intro k hk
    obtain ⟨hr, hk⟩ := Finset.mem_filter.mp hk
    rw [h k (Finset.mem_range.mp hr), Bool.or_eq_false_iff] at hk
    exact Finset.mem_filter.mpr ⟨hr, hk.1⟩

end Bits

section Totals
variable {L : Geometry} {m m' : Mem}

theorem Plain.totals_eq (hp : Plain L) (h : Set.EqOn m' m (L.zone .super)) :
    sbUnallocatedBlocks m' L.sb = sbUnallocatedBlocks m L.sb ∧
      sbUnallocatedInodes m' L.sb = sbUnallocatedInodes m L.sb := by
  have hsb : L.sb = L.cell (L.zoneStart .super) := by simp [Layout.cell, Layout.zoneStart]
  exact ⟨word_of_eqOn h (hp.part_subset hsb (by simp [Layout.zoneSize])),
    word_of_eqOn h (hp.part_subset hsb (by simp [Layout.zoneSize]))⟩

theorem sum_groups_lt {f f' : Nat → Nat} (h0 : f' 0 < f 0)
    (hle : ∀ g < L.blockgroups, g ≠ 0 → f' g = f g) :
    ∑ g ∈ Finset.range L.blockgroups, f' g < ∑ g ∈ Finset.range L.blockgroups, f g := by
  apply Finset.sum_lt_sum
  · intro g hg
    by_cases hg0 : g = 0
    · rw [hg0]; exact h0.le
    · exact (hle g (Finset.mem_range.mp hg) hg0).le
  · exact ⟨0, Finset.mem_range.mpr L.blockgroups_pos, h0⟩

theorem CountersTrue.totalBlocks_eq (h : CountersTrue L m) :
    (sbUnallocatedBlocks m L.sb).toNat = ∑ g ∈ Finset.range L.blockgroups,
      clearBits m (L.blockAddr (L.bitmapBlockNo g)) (8 * L.blockSize) :=
  h.totalBlocks.trans (Finset.sum_congr rfl fun g hg => h.blocks g (Finset.mem_range.mp hg))

theorem CountersTrue.totalInodes_eq (h : CountersTrue L m) :
    (sbUnallocatedInodes m L.sb).toNat = ∑ g ∈ Finset.range L.blockgroups,
      clearBits m (L.blockAddr (L.bitmapInodeNo g)) (8 * L.blockSize) :=
  h.totalInodes.trans (Finset.sum_congr rfl fun g hg => h.inodes g (Finset.mem_range.mp hg))

variable (hc : Consistent L m) (hp : Plain L)
include hc hp

/-- With a block attached the total of free blocks is too large. -/
theorem Attaches.counters_false (h2 : L.blockSize = 2048) {n b : Nat} (ha : Attaches L m m' n b)
    (hm : CountersTrue L m) : ¬CountersTrue L m' := by
  intro hm'
  have htotal := (hp.totals_eq (ha.keeps hc hp h2 (z := .super) trivial (by simp))).1
  have hlt : ∑ g ∈ Finset.range L.blockgroups,
        clearBits m' (L.blockAddr (L.bitmapBlockNo g)) (8 * L.blockSize) <
      ∑ g ∈ Finset.range L.blockgroups,
        clearBits m (L.blockAddr (L.bitmapBlockNo g)) (8 * L.blockSize) := by
    refine sum_groups_lt (clearBits_lt ha.lt ha.free ha.bit) fun g hg hg0 => ?_
    refine clearBits_congr fun k hk => ?_
    have h := ha.blockBit_eq hc hp h2 hg hk
    simpa [Layout.blockBit, hg0] using h
  rw [← hm.totalBlocks_eq, ← hm'.totalBlocks_eq, htotal] at hlt
  exact Nat.lt_irrefl _ hlt

/-- A new inode makes the total of free inodes too large. -/
theorem newInode_counters_false {dir : Word} {path : Text} {flags : Word} {r : NewInode}
    (hv : (Call.newInode dir path flags).Proper L m)
    (ha : (Call.newInode dir path flags).Allowed L m)
    (h : ext2NewInode m L.sb dir path flags = .ok (r, m')) (hm : CountersTrue L m) :
    ¬CountersTrue L m' := by
  intro hm'
  obtain ⟨n, m₁, hcr, -, hcases⟩ := newInode_cases hc hp hv ha h
  -- the totals and the inode bitmaps behind the creation of the inode
  have hlast : sbUnallocatedInodes m' L.sb = sbUnallocatedInodes m₁ L.sb ∧
      ∀ g < L.blockgroups, ∀ k < 8 * L.blockSize, L.inodeBit m' g k = L.inodeBit m₁ g k := by
    rcases hcases with ⟨-, rfl, -⟩ | ⟨h2, -, b, -, -, hat, -⟩
    · exact ⟨rfl, fun _ _ _ _ => rfl⟩
    · have hc₁ := hcr.consistent hc hp
      refine ⟨(hp.totals_eq (hat.keeps hc₁ hp h2 (z := .super) trivial (by simp))).2, ?_⟩
      intro g hg k hk
      exact hp.bitAt_eq hk (hat.keeps hc₁ hp h2 (z := .inodeBitmap g) hg (by simp))
  have htotal := hlast.1.trans (hp.totals_eq (hcr.keeps hc hp (z := .super) trivial (by simp))).2
  have hbit : ∀ g < L.blockgroups, ∀ k < 8 * L.blockSize,
      L.inodeBit m' g k = (L.inodeBit m g k || decide (g = 0 ∧ k = n - 1)) :=
    fun g hg k hk => (hlast.2 g hg k hk).trans (hcr.inodeBit_eq hc hp hg hk)
  have hlt : ∑ g ∈ Finset.range L.blockgroups,
        clearBits m' (L.blockAddr (L.bitmapInodeNo g)) (8 * L.blockSize) <
      ∑ g ∈ Finset.range L.blockgroups,
        clearBits m (L.blockAddr (L.bitmapInodeNo g)) (8 * L.blockSize) := by
    refine sum_groups_lt (clearBits_lt hcr.lt hcr.free fun k hk => ?_) fun g hg hg0 => ?_
    · simpa [Layout.inodeBit] using hbit 0 L.blockgroups_pos k hk
    · refine clearBits_congr fun k hk => ?_
      simpa [Layout.inodeBit, hg0] using hbit g hg k hk
  rw [← hm.totalInodes_eq, ← hm'.totalInodes_eq, htotal] at hlt
  exact Nat.lt_irrefl _ hlt

omit hp in
/-- One call keeps the counters true exactly when it is idle. -/
theorem step_counters {c : Call} {o : Answer} (hv : c.Proper L m) (ha : c.Allowed L m)
    (hm : CountersTrue L m) (h : step L.sb m c = .ok (o, m')) : CountersTrue L m' ↔ c.Idle L m := by
  rcases step_cases h with ⟨no, f, data, r, rfl, rfl, hw⟩ | ⟨dir, path, flags, r, rfl, rfl, hw⟩
  · rcases ext2Write_cases hc ha.1 hv ha.2 hw with ⟨-, rfl, hidle⟩ | ⟨h2, ⟨groups, g, hgroups, hg, hyes⟩, b, -, hat⟩
    · exact iff_of_true hm hidle
    · exact iff_of_false (hat.counters_false hc ha.1 h2 hm)
        fun hidle => hyes (hidle groups g hgroups hg)
  · exact iff_of_false (newInode_counters_false hc ha.1 hv ha hw hm) id

end Totals

section Run
variable {L : Geometry} {m : Mem} {calls : List Call} {tr : List (Transition Mem Call Answer)}

theorem Call.Idle.allowed (hp : Plain L) {c : Call} (h : c.Idle L m) : c.Allowed L m := by
  cases c with
  | write no f data => exact ⟨hp, fun groups g hgroups hg => (h groups g hgroups hg).ok⟩
  | newInode dir path flags => exact absurd h id

/-- Along a run whose calls are all idle the counters stay true; when the calls meet the
condition of the isolation results, they stay true only then. -/
theorem counters_true_iff_idle (hp : Plain L.toLayout) (hc : Consistent L.toLayout m)
    (hm : CountersTrue L.toLayout m) (hr : run (step L.sb) m calls = some tr)
    (hv : ∀ x ∈ tr, x.input.Proper L.toLayout x.pre) :
    ((∀ x ∈ tr, x.input.Idle L.toLayout x.pre) → ∀ x ∈ tr, CountersTrue L.toLayout x.post) ∧
      ((∀ x ∈ tr, x.input.Allowed L.toLayout x.pre) →
        (∀ x ∈ tr, CountersTrue L.toLayout x.post) →
          ∀ x ∈ tr, x.input.Idle L.toLayout x.pre) := by
  have hiff : (∀ x ∈ tr, x.input.Allowed L.toLayout x.pre) →
      ((∀ x ∈ tr, CountersTrue L.toLayout x.post) ↔ ∀ x ∈ tr, x.input.Idle L.toLayout x.pre) :=
    fun ha => run_property_iff_under
      (K := fun m c => c.Proper L.toLayout m ∧ c.Allowed L.toLayout m)
      (fun m c o m' hc hk h => (step_isolated hc hk.1 hk.2 h).consistent)
      (fun m c o m' hc hm hk h => step_counters hc hk.1 hk.2 hm h)
      hr hc hm fun x hx => ⟨hv x hx, ha x hx⟩
  exact ⟨fun hidle => (hiff fun x hx => (hidle x hx).allowed hp).mpr hidle,
    fun ha => (hiff ha).mp⟩

end Run

/-! The small image with no free block, and with no or one free inode. -/

theorem mapWord_full (k : Nat) :
    (Seed.mapWord 0xFFFFFFFF#32 0xFFFFFFFF#32 (k / 32)).getLsbD (k % 32) := by
  have hones : ∀ j < 32, (0xFFFFFFFF#32).getLsbD j := by decide
  have hw : Seed.mapWord 0xFFFFFFFF#32 0xFFFFFFFF#32 (k / 32) = 0xFFFFFFFF#32 := by
    rw [Seed.mapWord]
    split_ifs <;> rfl
  rw [hw]
  exact hones _ (Nat.mod_lt k (by decide))

theorem clearBits_full {m : Mem} {a : Word} {n : Nat} (h : ∀ k < n, bitAt m a k) :
    clearBits m a n = 0 := by
  rw [clearBits, Finset.card_eq_zero, Finset.filter_eq_empty_iff]
  intro k hk
  rw [h k (Finset.mem_range.mp hk)]
  decide

def fullSeed : Seed :=
  ⟨0xFFFFFFFF#32, 0xFFFFFFFF#32, 0xFFFFFFFF#32, 0xFFFFFFFF#32, 0#32, 0#32⟩

theorem fullSeed_counters : CountersTrue smallLayout fullSeed.image := by
  have hblocks : clearBits fullSeed.image (smallLayout.blockAddr 2) (8 * 2048) = 0 :=
    clearBits_full fun k hk => (fullSeed.image_blockBit hk).trans (mapWord_full k)
  have hinodes : clearBits fullSeed.image (smallLayout.blockAddr 3) (8 * 2048) = 0 :=
    clearBits_full fun k hk => (fullSeed.image_inodeBit hk).trans (mapWord_full k)
  refine ⟨fun g hg => ?_, fun g hg => ?_, by decide, by decide⟩
  · rw [Nat.lt_one_iff.mp hg]
    refine Eq.trans ?_ hblocks.symm
    decide
  · rw [Nat.lt_one_iff.mp hg]
    refine Eq.trans ?_ hinodes.symm
    decide

/-- A write to the full image. -/
def idleWrite : Call := .write 3#32 ⟨0#32, 0#32⟩ [0xAA#8]

theorem counters_true_full : ∃ x, run (step 0xC0200400) fullSeed.image [idleWrite] = some [x] ∧
    x.output = .written ⟨-1, none, ⟨0#32, 0#32⟩⟩ ∧ CountersTrue smallLayout x.post := by
  obtain ⟨r, hs, ho⟩ : ∃ r, step 0xC0200400 fullSeed.image idleWrite = .ok r ∧
      r.1 = .written ⟨-1, none, ⟨0#32, 0#32⟩⟩ := exists_ok (by decide)
  have hproper : idleWrite.Proper smallLayout fullSeed.image :=
    ⟨⟨by decide, by decide⟩, by decide⟩
  have hidle : idleWrite.Idle smallLayout fullSeed.image := by
    intro groups g hgroups hg
    have hle : groups ≤ 1 := Describes.getBlockgroupCount_le (L := smallGeometry)
      fullSeed.image_describes smallGeometry_plain hgroups
    have hlt := firstGroup_lt (L := smallGeometry) hg
    have hnone : firstGroup fullSeed.image 0xC0200400 descUnallocatedBlocks 1 = none := by
      decide
    have hone : groups = 1 := by omega
    rw [hone] at hg
    exact absurd (hg.symm.trans hnone) (by simp)
  refine ⟨_, run_single hs, ho, ?_⟩
  exact (counters_true_iff_idle (L := smallGeometry) smallGeometry_plain
    (fullSeed.image_consistent (by decide)) fullSeed_counters (run_single hs)
    (List.forall_mem_singleton.mpr hproper)).1 (List.forall_mem_singleton.mpr hidle) _
    (.head _)

/-- Only inode 32 is free. -/
def oneInode : Seed :=
  ⟨0xFFFFFFFF#32, 0xFFFFFFFF#32, 0x7FFFFFFF#32, 0xFFFFFFFF#32, 0#32, 1#32⟩

theorem oneInode_counters : CountersTrue smallLayout oneInode.image := by
  have hblocks : clearBits oneInode.image (smallLayout.blockAddr 2) (8 * 2048) = 0 :=
    clearBits_full fun k hk => (oneInode.image_blockBit hk).trans (mapWord_full k)
  have hlow : ∀ k < 64, (Seed.mapWord 0x7FFFFFFF#32 0xFFFFFFFF#32 (k / 32)).getLsbD (k % 32) =
      decide (k ≠ 31) := by decide
  have hinodes : clearBits oneInode.image (smallLayout.blockAddr 3) (8 * 2048) = 1 := by
    rw [clearBits, Finset.card_eq_one]
    refine ⟨31, Finset.ext fun k => ?_⟩
    rw [Finset.mem_filter, Finset.mem_range, Finset.mem_singleton]
    refine ⟨fun h => ?_, fun h => ?_⟩
    · have hbit := (oneInode.image_inodeBit h.1).symm.trans h.2
      by_cases hk : k < 64
      · rw [show Seed.mapWord oneInode.inodes0 oneInode.inodes1 (k / 32) =
          Seed.mapWord 0x7FFFFFFF#32 0xFFFFFFFF#32 (k / 32) from rfl, hlow k hk] at hbit
        simpa using hbit
      · rw [Seed.mapWord_high _ _ (by omega)] at hbit
        cases hbit
    · rw [h]
      exact ⟨by decide, (oneInode.image_inodeBit (by decide)).trans (hlow 31 (by decide))⟩
  refine ⟨fun g hg => ?_, fun g hg => ?_, by decide, by decide⟩
  · rw [Nat.lt_one_iff.mp hg]
    refine Eq.trans ?_ hblocks.symm
    decide
  · rw [Nat.lt_one_iff.mp hg]
    refine Eq.trans ?_ hinodes.symm
    decide

/-- Creating a file takes the last inode. The descriptor then counts no free inode, but the
superblock still counts one. -/
theorem superblock_total_stale : Consistent smallLayout oneInode.image ∧
    CountersTrue smallLayout oneInode.image ∧
    ∃ x, run (step 0xC0200400) oneInode.image [.newInode 2#32 [0x78#8] 0x8000#32] = some [x] ∧
      x.output.inodeNo = some 32 ∧ sbUnallocatedInodes x.post 0xC0200400 = 1#32 ∧
      descUnallocatedInodes x.post (smallLayout.descAddr 0) = 0#16 ∧
      ¬CountersTrue smallLayout x.post := by
  refine ⟨oneInode.image_consistent (by decide), oneInode_counters, ?_⟩
  obtain ⟨r, hs, hno, htotal, hdesc⟩ :
      ∃ r, step 0xC0200400 oneInode.image (.newInode 2#32 [0x78#8] 0x8000#32) = .ok r ∧
        r.1.inodeNo = some 32 ∧ sbUnallocatedInodes r.2 0xC0200400 = 1#32 ∧
        descUnallocatedInodes r.2 (smallLayout.descAddr 0) = 0#16 := exists_ok (by decide +kernel)
  refine ⟨_, run_single hs, hno, htotal, hdesc, fun hm => ?_⟩
  have hsum : (sbUnallocatedInodes r.2 0xC0200400).toNat =
      ∑ g ∈ Finset.range 1, (descUnallocatedInodes r.2 (smallLayout.descAddr g)).toNat :=
    hm.totalInodes
  rw [Finset.sum_range_one, htotal, hdesc] at hsum
  exact absurd hsum (by decide)

end TapiOS.Fs.Ext2
