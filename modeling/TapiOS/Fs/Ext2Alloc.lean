import TapiOS.Fs.Ext2Image

/-!
# Changes that keep an image consistent

A free block is attached to an inode as its first block, or a free inode is taken and named
in a directory. Both are stated by the zones they change and by what the changed fields
hold afterwards; the order of the stores does not matter here.
-/
namespace TapiOS.Fs.Ext2

open Util
open BitVec (ofNat)

variable {x k l n' g : Nat}

/-- The record of an inode and the bytes of all its blocks are the same. -/
structure SameFile (L : Layout) (m m' : Mem) (n : Nat) : Prop where
  record : Set.EqOn m' m (L.zone (.record n))
  blocks : ∀ l x, L.Holds m n l x → Set.EqOn m' m (L.zone (.data x))

namespace Plain
variable {L : Geometry} (hp : Plain L) {m m' : Mem}
include hp

theorem bitAt_eq (hk : k < 8 * L.blockSize) (h : Set.EqOn m' m (L.zone (.data x))) :
    bitAt m' (L.blockAddr x) k = bitAt m (L.blockAddr x) k := by
  have hbs := hp.blockSize
  have hin : L.blockAddr x + ofNat 32 (k / 8) ∈ L.zone (.data x) :=
    add_mem_span _ (by simp only [Layout.zoneSize]; omega) (by simp only [Layout.zoneSize]; omega)
  rw [bitAt, h hin, bitAt]

/-- The superblock and the descriptors' block numbers are all that the layout is read from. -/
theorem describes_of_eqOn (hd : Describes L m) (hs : Set.EqOn m' m (L.zone .super))
    (hf : ∀ g < L.blockgroups, Set.EqOn m' m (L.zone (.fields g))) : Describes L m' := by
  have hsb : L.sb = L.cell (L.zoneStart .super) := by simp [Layout.cell, Layout.zoneStart]
  have hword : ∀ c, c + 4 ≤ 1024 →
      m'.word (L.sb + ofNat 32 c) = m.word (L.sb + ofNat 32 c) :=
    fun c hc => word_of_eqOn hs (hp.part_subset hsb hc)
  have hhalf : m'.half (L.sb + 88#32) = m.half (L.sb + 88#32) :=
    half_of_eqOn hs (hp.part_subset hsb (by simp [Layout.zoneSize]))
  have hdesc : ∀ g < L.blockgroups, ∀ c, c + 4 ≤ 12 →
      m'.word (L.descAddr g + ofNat 32 c) = m.word (L.descAddr g + ofNat 32 c) :=
    fun g hg c hc => word_of_eqOn (hf g hg) (hp.part_subset rfl hc)
  have h0 : m'.word L.sb = m.word L.sb := by simpa using hword 0 (by decide)
  have hd0 : ∀ g < L.blockgroups, m'.word (L.descAddr g) = m.word (L.descAddr g) := by
    intro g hg
    simpa using hdesc g hg 0 (by decide)
  obtain ⟨h1, h2, h3, h4, h5, h6, h7, h8, h9, h10⟩ := hd
  refine ⟨?_, ?_, ?_, ?_, ?_, ?_, ?_, ?_, ?_, ?_⟩
  · rw [← h1, BLOCKSIZE, sbBlockSizeShift, hword 24 (by decide), BLOCKSIZE, sbBlockSizeShift]
  · rw [← h2]; exact hword 20 (by decide)
  · rw [← h3]; exact hword 32 (by decide)
  · rw [← h4]; exact hword 40 (by decide)
  · rw [← h5]; exact hword 4 (by decide)
  · rw [← h6]; exact h0
  · rw [← h7, sbInodeSize, sbInodeSize, hword 76 (by decide), hhalf]
  · intro g hg; rw [← h8 g hg]; exact hd0 g hg
  · intro g hg; rw [← h9 g hg]; exact hdesc g hg 4 (by decide)
  · intro g hg; rw [← h10 g hg]; exact hdesc g hg 8 (by decide)

/-- A pointer leads to the same blocks while the blocks of block numbers stay the same. -/
theorem covers_congr {lvl : Nat} {b : Word}
    (h : ∀ l x, 0 < l → L.Covers m lvl b l x → Set.EqOn m' m (L.zone (.data x))) :
    L.Covers m' lvl b l x ↔ L.Covers m lvl b l x := by
  induction lvl generalizing b with
  | zero => exact Iff.rfl
  | succ lvl ih =>
    refine and_congr_right fun hb => or_congr_right ?_
    have hblock := h (lvl + 1) b.toNat (by omega) ⟨hb, .inl ⟨rfl, rfl⟩⟩
    refine exists_congr fun j => and_congr_right fun hj => ?_
    have hentry : entry m' (L.blockAddr b.toNat) j = entry m (L.blockAddr b.toNat) j :=
      word_of_eqOn hblock (hp.part_subset rfl (by simp only [Layout.zoneSize]; omega))
    rw [hentry]
    exact ih fun l x hl hx => h l x hl ⟨hb, .inr ⟨j, hj, hx⟩⟩

variable {n : Nat}

theorem record_fields (h : Set.EqOn m' m (L.zone (.record n))) :
    hasBlocks m' (L.recordAddr n) = hasBlocks m (L.recordAddr n) ∧
      ∀ i < 15, entry m' (inodeBlocks (L.recordAddr n)) i =
        entry m (inodeBlocks (L.recordAddr n)) i := by
  have hpart := hp.start_subset (z := .record n) (a := L.recordAddr n) (n := 2) rfl
    (by simp [Layout.zoneSize])
  refine ⟨by rw [hasBlocks, half_of_eqOn h hpart, hasBlocks], fun i hi => ?_⟩
  simp only [entry, inodeBlocks, add_ofNat_add]
  exact word_of_eqOn h (hp.part_subset rfl (by simp only [Layout.zoneSize]; omega))

theorem holds_congr (hr : Set.EqOn m' m (L.zone (.record n)))
    (hb : ∀ l x, 0 < l → L.Holds m n l x → Set.EqOn m' m (L.zone (.data x))) :
    L.Holds m' n l x ↔ L.Holds m n l x := by
  have hf := hp.record_fields hr
  simp only [Layout.Holds]
  rw [hf.1]
  refine and_congr_right fun hk => exists_congr fun i => and_congr_right fun hi => ?_
  rw [hf.2 i hi]
  exact hp.covers_congr fun l x hl hx => hb l x hl ⟨hk, i, hi, hx⟩

theorem holds_of_sameFile (h : SameFile L m m' n) : L.Holds m' n l x ↔ L.Holds m n l x :=
  hp.holds_congr h.record fun l x _ hx => h.blocks l x hx

theorem sameFile_trans {m'' : Mem} (h : SameFile L m m' n) (h' : SameFile L m' m'' n) :
    SameFile L m m'' n :=
  ⟨h'.record.trans h.record, fun l x hx =>
    (h'.blocks l x ((hp.holds_of_sameFile h).mpr hx)).trans (h.blocks l x hx)⟩

end Plain

/-- Block `b` of the first group becomes the first block of inode `n`. -/
structure Attaches (L : Layout) (m m' : Mem) (n b : Nat) : Prop where
  live : L.Live m n
  lt : b < 8 * L.blockSize
  free : L.blockBit m 0 b = false
  changes : ChangesOnly (L.zones {.data b, .record n, .blockBitmap 0, .counts 0}) m m'
  bit : ∀ k < 8 * L.blockSize, L.blockBit m' 0 k = (L.blockBit m 0 k || decide (k = b))
  kind : hasBlocks m' (L.recordAddr n) = hasBlocks m (L.recordAddr n)
  first : entry m' (inodeBlocks (L.recordAddr n)) 0 = ofNat 32 b
  rest : ∀ i, 0 < i → i < 15 →
    entry m' (inodeBlocks (L.recordAddr n)) i = entry m (inodeBlocks (L.recordAddr n)) i

/-- Inode `n` of the first group is taken without blocks; block `d` may get its name. -/
structure Creates (L : Layout) (m m' : Mem) (n d : Nat) : Prop where
  pos : 1 ≤ n
  lt : n - 1 < 8 * L.blockSize
  free : L.inodeBit m 0 (n - 1) = false
  named : ∃ p, L.Live m p ∧ L.Holds m p 0 d
  changes : ChangesOnly (L.zones {.inodeBitmap 0, .counts 0, .record n, .data d}) m m'
  bit : ∀ k < 8 * L.blockSize, L.inodeBit m' 0 k = (L.inodeBit m 0 k || decide (k = n - 1))
  empty : ∀ i < 15, entry m' (inodeBlocks (L.recordAddr n)) i = 0#32

section Attach
variable {L : Geometry} {m m' : Mem} {n b : Nat}

/-- The bitmap of its group has a bit for every block. -/
theorem Geometry.group_lt (L : Geometry) (hx : x < L.blocks) :
    (x - L.superblockBlocknum) / L.blocksInBlockgroup < L.blockgroups ∧
      (x - L.superblockBlocknum) % L.blocksInBlockgroup < 8 * L.blockSize := by
  have hle := L.blocks_le
  have hpos := Nat.mul_pos L.blockgroups_pos L.blocksInBlockgroup_pos
  refine ⟨?_, (Nat.mod_lt _ L.blocksInBlockgroup_pos).trans_le L.blocksInBlockgroup_le⟩
  apply Nat.div_lt_of_lt_mul
  rw [Nat.mul_comm]
  omega

/-- With blocks of 2048 bytes the numbers of the blocks are those of their bits. -/
theorem Geometry.superblock_zero (L : Geometry) (h2 : L.blockSize = 2048) :
    L.superblockBlocknum = 0 := by
  rw [L.superblock_eq, h2]

theorem marked_eq (h2 : L.blockSize = 2048) (x : Nat) :
    L.marked m x = L.blockBit m (x / L.blocksInBlockgroup) (x % L.blocksInBlockgroup) := by
  rw [Layout.marked, L.superblock_zero h2, Nat.sub_zero]

/-- A clear bit of the first group is that of a block that is not metadata. -/
theorem Consistent.clear_bit (hc : Consistent L m) (h2 : L.blockSize = 2048)
    (hb : b < 8 * L.blockSize) (hfree : L.blockBit m 0 b = false) :
    b < L.blocksInBlockgroup ∧ L.HasZone (.data b) ∧ L.marked m b = false := by
  have h0 := L.superblock_zero h2
  have hpad := hc.block_padding 0 L.blockgroups_pos b hb
  rw [hfree] at hpad
  have hlt : b < L.blocksInBlockgroup := by
    by_contra hge
    exact absurd (hpad (.inl (by omega))) (by decide)
  have hblocks : b < L.blocks := by
    by_contra hge
    exact absurd (hpad (.inr (by omega))) (by decide)
  have hmarked : L.marked m b = false := by
    rw [marked_eq h2, Nat.div_eq_of_lt hlt, Nat.mod_eq_of_lt hlt, hfree]
  refine ⟨hlt, ⟨hblocks, fun hmeta => ?_⟩, hmarked⟩
  rw [hc.metadata_marked b hmeta (by omega)] at hmarked
  cases hmarked

theorem Consistent.held_zone (hc : Consistent L m) (hn : L.Live m n') (hx : L.Holds m n' l x) :
    L.HasZone (.data x) ∧ L.marked m x := by
  have h := hc.held n' l x hn hx
  exact ⟨⟨h.2.1, h.2.2.1⟩, h.2.2.2⟩

variable (hc : Consistent L m) (hp : Plain L) (h2 : L.blockSize = 2048)
  (ha : Attaches L m m' n b)
include hc hp h2 ha

theorem Attaches.keeps {z : Zone} (hz : L.HasZone z)
    (hne : z ≠ .data b ∧ z ≠ .record n ∧ z ≠ .blockBitmap 0 ∧ z ≠ .counts 0) :
    Set.EqOn m' m (L.zone z) := by
  refine hp.keeps ha.changes ?_ hz (by simpa using hne)
  intro z' hz'
  rcases hz' with rfl | rfl | rfl | rfl
  · exact (hc.clear_bit h2 ha.lt ha.free).2.1
  · exact ha.live.1
  · exact L.blockgroups_pos
  · exact L.blockgroups_pos

theorem Attaches.blockBit_eq (hg : g < L.blockgroups) (hk : k < 8 * L.blockSize) :
    L.blockBit m' g k = (L.blockBit m g k || decide (g = 0 ∧ k = b)) := by
  by_cases h0 : g = 0
  · subst h0
    simpa using ha.bit k hk
  · have hz : Set.EqOn m' m (L.zone (.blockBitmap g)) :=
      ha.keeps hc hp h2 hg (by simp [h0])
    rw [Layout.blockBit, hp.bitAt_eq hk hz]
    simp [Layout.blockBit, h0]

theorem Attaches.marked_eq_or (hx : x < L.blocks) :
    L.marked m' x = (L.marked m x || decide (x = b)) := by
  have hgk := L.group_lt hx
  rw [L.superblock_zero h2, Nat.sub_zero] at hgk
  rw [marked_eq h2, marked_eq h2, ha.blockBit_eq hc hp h2 hgk.1 hgk.2]
  congr 2
  have hlt := (hc.clear_bit h2 ha.lt ha.free).1
  refine propext ⟨fun h => ?_, fun h => ?_⟩
  · rw [← Nat.div_add_mod x L.blocksInBlockgroup, h.1, h.2]
    omega
  · rw [h]
    exact ⟨Nat.div_eq_of_lt hlt, Nat.mod_eq_of_lt hlt⟩

theorem Attaches.live_iff (n' : Nat) : L.Live m' n' ↔ L.Live m n' := by
  refine and_congr_right fun hi => ?_
  have hg := L.inodeGroup_lt hi
  have hk : L.inodeIndex n' < 8 * L.blockSize :=
    (L.inodeIndex_lt n').trans_le L.inodesInBlockgroup_le
  have hz : Set.EqOn m' m (L.zone (.inodeBitmap (L.inodeGroup n'))) :=
    ha.keeps hc hp h2 hg (by simp)
  rw [Layout.inodeBit, hp.bitAt_eq hk hz, Layout.inodeBit]

theorem Attaches.held_kept (hl : L.Live m n') (hx : L.Holds m n' l x) :
    Set.EqOn m' m (L.zone (.data x)) := by
  have hz := hc.held_zone hl hx
  refine ha.keeps hc hp h2 hz.1 ⟨fun h => ?_, by simp, by simp, by simp⟩
  cases h
  rw [(hc.clear_bit h2 ha.lt ha.free).2.2] at hz
  cases hz.2

theorem Attaches.sameFile (hl : L.Live m n') (hne : n' ≠ n) : SameFile L m m' n' where
  record := ha.keeps hc hp h2 hl.1 (by simp [hne])
  blocks _ _ hx := ha.held_kept hc hp h2 hl hx

theorem Attaches.holds_cases (hl : L.Live m n') (hx : L.Holds m' n' l x) :
    L.Holds m n' l x ∨ n' = n ∧ l = 0 ∧ x = b := by
  by_cases hne : n' = n
  · subst hne
    obtain ⟨hk, i, hi, hcov⟩ := hx
    rw [ha.kind] at hk
    by_cases h0 : i = 0
    · subst h0
      rw [ha.first] at hcov
      have hfit := L.blocks_fit
      rw [h2] at hfit
      have hlt := (hc.clear_bit h2 ha.lt ha.free).2.1.1
      refine .inr ⟨rfl, hcov.2.1, ?_⟩
      rw [hcov.2.2, toNat_ofNat_of_lt (by omega)]
    · rw [ha.rest i (by omega) hi] at hcov
      refine .inl ⟨hk, i, hi, (hp.covers_congr fun l x _ hx => ?_).mp hcov⟩
      exact ha.held_kept hc hp h2 hl ⟨hk, i, hi, hx⟩
  · exact .inl ((hp.holds_of_sameFile (ha.sameFile hc hp h2 hl hne)).mp hx)

theorem Attaches.consistent : Consistent L m' where
  describes := hp.describes_of_eqOn hc.describes
    (ha.keeps hc hp h2 trivial (by simp))
    (fun g hg => ha.keeps hc hp h2 (z := .fields g) hg (by simp))
  metadata_marked x hx hle := by
    obtain ⟨r, hr, hpl⟩ := hx
    rw [ha.marked_eq_or hc hp h2 (hpl ▸ L.place_lt r hr),
      hc.metadata_marked x ⟨r, hr, hpl⟩ hle, Bool.true_or]
  block_padding g hg k hk hpad := by
    rw [ha.blockBit_eq hc hp h2 hg hk, hc.block_padding g hg k hk hpad, Bool.true_or]
  inode_padding g hg k hk hpad := by
    have hz : Set.EqOn m' m (L.zone (.inodeBitmap g)) := ha.keeps hc hp h2 hg (by simp)
    rw [Layout.inodeBit, hp.bitAt_eq hk hz]
    exact hc.inode_padding g hg k hk hpad
  held n' l x hl hx := by
    have hl' := (ha.live_iff hc hp h2 n').mp hl
    have hfresh := (hc.clear_bit h2 ha.lt ha.free).2.1
    rcases ha.holds_cases hc hp h2 hl' hx with h | ⟨-, -, rfl⟩
    · have hx' := hc.held n' l x hl' h
      refine ⟨hx'.1, hx'.2.1, hx'.2.2.1, ?_⟩
      rw [ha.marked_eq_or hc hp h2 hx'.2.1, hx'.2.2.2, Bool.true_or]
    · refine ⟨by rw [L.superblock_zero h2]; omega, hfresh.1, hfresh.2, ?_⟩
      simp [ha.marked_eq_or hc hp h2 hfresh.1]
  one_owner n₁ l₁ n₂ l₂ x hl₁ hl₂ hx₁ hx₂ := by
    have hl₁' := (ha.live_iff hc hp h2 n₁).mp hl₁
    have hl₂' := (ha.live_iff hc hp h2 n₂).mp hl₂
    have hfresh : ∀ n' l, L.Live m n' → ¬L.Holds m n' l b := by
      intro n' l hl h
      have hm := (hc.held_zone hl h).2
      rw [(hc.clear_bit h2 ha.lt ha.free).2.2] at hm
      cases hm
    rcases ha.holds_cases hc hp h2 hl₁' hx₁ with h₁ | ⟨rfl, rfl, rfl⟩
    · rcases ha.holds_cases hc hp h2 hl₂' hx₂ with h₂ | ⟨rfl, rfl, rfl⟩
      · exact hc.one_owner n₁ l₁ n₂ l₂ x hl₁' hl₂' h₁ h₂
      · exact absurd h₁ (hfresh n₁ l₁ hl₁')
    · rcases ha.holds_cases hc hp h2 hl₂' hx₂ with h₂ | ⟨rfl, rfl, -⟩
      · exact absurd h₂ (hfresh n₂ l₂ hl₂')
      · exact ⟨rfl, rfl⟩

end Attach

section Create
variable {L : Geometry} {m m' : Mem} {n d : Nat}

/-- A clear bit of the first inode bitmap is that of an inode not in use. -/
theorem Consistent.clear_inode (hc : Consistent L m) (hk : k < 8 * L.blockSize)
    (hfree : L.inodeBit m 0 k = false) :
    L.IsInode (k + 1) ∧ L.inodeGroup (k + 1) = 0 ∧ L.inodeIndex (k + 1) = k ∧
      ¬L.Live m (k + 1) := by
  have hlt : k < L.inodesInBlockgroup := by
    by_contra hge
    have hpad := hc.inode_padding 0 L.blockgroups_pos k hk (by omega)
    rw [hfree] at hpad
    cases hpad
  have hg : L.inodeGroup (k + 1) = 0 := Nat.div_eq_of_lt hlt
  have hi : L.inodeIndex (k + 1) = k := Nat.mod_eq_of_lt hlt
  have hle := Nat.mul_le_mul_right L.inodesInBlockgroup (Nat.succ_le_iff.mpr L.blockgroups_pos)
  refine ⟨⟨by omega, by omega⟩, hg, hi, fun hl => ?_⟩
  have hbit := hl.2
  rw [hg, hi, hfree] at hbit
  cases hbit

variable (hc : Consistent L m) (hp : Plain L) (ha : Creates L m m' n d)
include hc ha

theorem Creates.inode : L.IsInode n ∧ L.inodeGroup n = 0 ∧ L.inodeIndex n = n - 1 ∧
    ¬L.Live m n := by
  have h := hc.clear_inode ha.lt ha.free
  rwa [Nat.sub_add_cancel ha.pos] at h

include hp

theorem Creates.keeps {z : Zone} (hz : L.HasZone z)
    (hne : z ≠ .inodeBitmap 0 ∧ z ≠ .counts 0 ∧ z ≠ .record n ∧ z ≠ .data d) :
    Set.EqOn m' m (L.zone z) := by
  refine hp.keeps ha.changes ?_ hz (by simpa using hne)
  intro z' hz'
  obtain ⟨p, hl, hd⟩ := ha.named
  rcases hz' with rfl | rfl | rfl | rfl
  · exact L.blockgroups_pos
  · exact L.blockgroups_pos
  · exact (ha.inode hc).1
  · exact (hc.held_zone hl hd).1

theorem Creates.blockBit_eq (hg : g < L.blockgroups) (hk : k < 8 * L.blockSize) :
    L.blockBit m' g k = L.blockBit m g k := by
  have hz : Set.EqOn m' m (L.zone (.blockBitmap g)) := ha.keeps hc hp hg (by simp)
  rw [Layout.blockBit, hp.bitAt_eq hk hz, Layout.blockBit]

theorem Creates.marked_eq (hx : x < L.blocks) : L.marked m' x = L.marked m x := by
  have h := L.group_lt hx
  exact ha.blockBit_eq hc hp h.1 h.2

theorem Creates.inodeBit_eq (hg : g < L.blockgroups) (hk : k < 8 * L.blockSize) :
    L.inodeBit m' g k = (L.inodeBit m g k || decide (g = 0 ∧ k = n - 1)) := by
  by_cases h0 : g = 0
  · subst h0
    simpa using ha.bit k hk
  · have hz : Set.EqOn m' m (L.zone (.inodeBitmap g)) := ha.keeps hc hp hg (by simp [h0])
    rw [Layout.inodeBit, hp.bitAt_eq hk hz]
    simp [Layout.inodeBit, h0]

theorem Creates.live_iff (n' : Nat) : L.Live m' n' ↔ L.Live m n' ∨ n' = n := by
  obtain ⟨hn, hg0, hi0, -⟩ := ha.inode hc
  refine ⟨fun h => ?_, fun h => ?_⟩
  · have hk : L.inodeIndex n' < 8 * L.blockSize :=
      (L.inodeIndex_lt n').trans_le L.inodesInBlockgroup_le
    have hbit := h.2
    rw [ha.inodeBit_eq hc hp (L.inodeGroup_lt h.1) hk, Bool.or_eq_true, decide_eq_true_iff] at hbit
    rcases hbit with hbit | hbit
    · exact .inl ⟨h.1, hbit⟩
    · exact .inr (L.inode_ext h.1 hn (hbit.1.trans hg0.symm) (hbit.2.trans hi0.symm))
  · have hi : L.IsInode n' := by
      rcases h with h | h
      · exact h.1
      · exact h ▸ hn
    have hk : L.inodeIndex n' < 8 * L.blockSize :=
      (L.inodeIndex_lt n').trans_le L.inodesInBlockgroup_le
    refine ⟨hi, ?_⟩
    rw [ha.inodeBit_eq hc hp (L.inodeGroup_lt hi) hk]
    rcases h with h | rfl
    · rw [h.2, Bool.true_or]
    · simp [hg0, hi0]

/-- Blocks of block numbers are not touched: `d` is a data block. -/
theorem Creates.index_kept (hl : L.Live m n') (h0 : 0 < l) (hx : L.Holds m n' l x) :
    Set.EqOn m' m (L.zone (.data x)) := by
  obtain ⟨p, hlp, hd⟩ := ha.named
  refine ha.keeps hc hp (hc.held_zone hl hx).1 ⟨by simp, by simp, by simp, fun h => ?_⟩
  cases h
  have hlevel := (hc.one_owner n' l p 0 x hl hlp hx hd).2
  omega

theorem Creates.record_kept (hl : L.Live m n') : Set.EqOn m' m (L.zone (.record n')) := by
  refine ha.keeps hc hp hl.1 ⟨by simp, by simp, fun h => ?_, by simp⟩
  cases h
  exact (ha.inode hc).2.2.2 hl

theorem Creates.sameFile {p : Nat} (hlp : L.Live m p) (hd : L.Holds m p 0 d) (hl : L.Live m n')
    (hne : n' ≠ p) : SameFile L m m' n' where
  record := ha.record_kept hc hp hl
  blocks l x hx := by
    refine ha.keeps hc hp (hc.held_zone hl hx).1 ⟨by simp, by simp, by simp, fun h => ?_⟩
    cases h
    exact hne (hc.one_owner n' l p 0 d hl hlp hx hd).1

theorem Creates.holds_iff (hl : L.Live m n') : L.Holds m' n' l x ↔ L.Holds m n' l x :=
  hp.holds_congr (ha.record_kept hc hp hl) fun _ _ h0 hx => ha.index_kept hc hp hl h0 hx

omit hc hp in
theorem Creates.holds_none (l x : Nat) : ¬L.Holds m' n l x := by
  intro h
  obtain ⟨-, i, hi, hcov⟩ := h
  rw [ha.empty i hi] at hcov
  cases hlvl : i - FINAL_DIRECT_BLOCK with
  | zero => rw [hlvl] at hcov; exact hcov.1 rfl
  | succ lvl => rw [hlvl] at hcov; exact hcov.1 rfl

theorem Creates.holds_live (hl : L.Live m' n') (hx : L.Holds m' n' l x) :
    L.Live m n' ∧ L.Holds m n' l x := by
  rcases (ha.live_iff hc hp n').mp hl with h | rfl
  · exact ⟨h, (ha.holds_iff hc hp h).mp hx⟩
  · exact absurd hx (ha.holds_none l x)

theorem Creates.consistent : Consistent L m' where
  describes := hp.describes_of_eqOn hc.describes
    (ha.keeps hc hp trivial (by simp))
    (fun g hg => ha.keeps hc hp (z := .fields g) hg (by simp))
  metadata_marked x hx hle := by
    obtain ⟨r, hr, hpl⟩ := hx
    rw [ha.marked_eq hc hp (hpl ▸ L.place_lt r hr)]
    exact hc.metadata_marked x ⟨r, hr, hpl⟩ hle
  block_padding g hg k hk hpad := by
    rw [ha.blockBit_eq hc hp hg hk]
    exact hc.block_padding g hg k hk hpad
  inode_padding g hg k hk hpad := by
    rw [ha.inodeBit_eq hc hp hg hk, hc.inode_padding g hg k hk hpad, Bool.true_or]
  held n' l x hl hx := by
    have h := ha.holds_live hc hp hl hx
    have hx' := hc.held n' l x h.1 h.2
    rw [ha.marked_eq hc hp hx'.2.1]
    exact hx'
  one_owner n₁ l₁ n₂ l₂ x hl₁ hl₂ hx₁ hx₂ := by
    have h₁ := ha.holds_live hc hp hl₁ hx₁
    have h₂ := ha.holds_live hc hp hl₂ hx₂
    exact hc.one_owner n₁ l₁ n₂ l₂ x h₁.1 h₂.1 h₁.2 h₂.2

end Create
end TapiOS.Fs.Ext2
