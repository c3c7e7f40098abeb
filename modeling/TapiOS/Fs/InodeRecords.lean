import TapiOS.Fs.Ext2Image

/-!
# Where inode records are, read_inode of fs/ext2.c

The record of an inode is found through the descriptor of its group. read_inode takes the
descriptor table to be 2048 bytes behind the start of the image and a record to be 128 bytes
long, whatever the superblock says; the layout of ext2 puts the table into the block behind
the superblock's and reads the length of a record from the superblock.
-/
namespace TapiOS.Fs.Ext2

open Util
open BitVec (ofNat ofNat_add ofNat_toNat setWidth_eq toNat_ofNat)

/-- The record of inode `n` if the descriptor table is at offset `start` of the image and
records are `size` bytes long. -/
def recordAt (m : Mem) (sb : Word) (start size n : Nat) : Word :=
  let image := sb - 1024#32
  let perGroup := (sbInodesInBlockgroup m sb).toNat
  let desc := image + ofNat 32 (start + 32 * ((n - 1) / perGroup))
  image + ofNat 32 ((BLOCKSIZE m sb).toNat * (descInodeTableBlock m desc).toNat +
    (n - 1) % perGroup * size)

/-- The block behind the one of the superblock, which is at offset 1024. -/
def tableOffset (m : Mem) (sb : Word) : Nat :=
  (BLOCKSIZE m sb).toNat * (1024 / (BLOCKSIZE m sb).toNat + 1)

def layoutRecord (m : Mem) (sb : Word) (n : Nat) : Word :=
  recordAt m sb (tableOffset m sb) (sbInodeSize m sb) n

structure ValidSuperblock (m : Mem) (sb : Word) : Prop where
  shift : (sbBlockSizeShift m sb).toNat ≤ 21
  perGroup : 0 < (sbInodesInBlockgroup m sb).toNat
  inodes : 0 < (sbInodes m sb).toNat

/-- With this superblock, whatever the rest of the image is: read_inode finds every record
where the layout has it, and in a proper image no two records share a byte. -/
structure InodesLocated (m₀ : Mem) (sb : Word) : Prop where
  address : ∀ m, Set.EqOn m m₀ (span sb 1024) → ∀ n, 1 ≤ n → n ≤ (sbInodes m₀ sb).toNat →
    readInode m sb (ofNat 32 n) = .ok (layoutRecord m sb n)
  apart : ∀ m, Set.EqOn m m₀ (span sb 1024) → ∀ L : Geometry, L.sb = sb → Describes L.toLayout m →
    ∀ n n' a a', L.IsInode n → L.IsInode n' → n ≠ n' →
      readInode m sb (ofNat 32 n) = .ok a → readInode m sb (ofNat 32 n') = .ok a' →
      Disjoint (span a (sbInodeSize m sb)) (span a' (sbInodeSize m sb))

section Address
variable {m m' : Mem} {sb : Word}

theorem ValidSuperblock.blocksize (h : ValidSuperblock m sb) : BLOCKSIZE m sb ≠ 0#32 := by
  have hpow : ∀ k < 22, 1024#32 <<< k ≠ 0#32 := by decide
  exact hpow _ ((Nat.mod_le _ 32).trans_lt (Nat.lt_succ_of_le h.shift))

theorem readInode_recordAt (hp : 0 < (sbInodesInBlockgroup m sb).toNat)
    (hb : BLOCKSIZE m sb ≠ 0#32) {n : Nat} (h1 : 1 ≤ n)
    (hn : n < 2 ^ 32) : readInode m sb (ofNat 32 n) = .ok (recordAt m sb 2048 128 n) := by
  have hne : ¬ (sbInodesInBlockgroup m sb = 0#32 ∨ BLOCKSIZE m sb = 0#32) := by
    rintro (h | h)
    · rw [h] at hp
      exact absurd hp (by decide)
    · exact hb h
  have hsub : ofNat 32 n - 1#32 = ofNat 32 (n - 1) := by
    apply BitVec.eq_of_toNat_eq
    simp only [BitVec.toNat_sub, toNat_ofNat]
    omega
  have hper := ofNat_toNat 32 (sbInodesInBlockgroup m sb)
  rw [setWidth_eq] at hper
  have hdiv : ofNat 32 (n - 1) / sbInodesInBlockgroup m sb =
      ofNat 32 ((n - 1) / (sbInodesInBlockgroup m sb).toNat) := by
    rw [← ofNat_div (by omega) (sbInodesInBlockgroup m sb).isLt, hper]
  have hmod : ofNat 32 (n - 1) % sbInodesInBlockgroup m sb =
      ofNat 32 ((n - 1) % (sbInodesInBlockgroup m sb).toNat) := by
    rw [← ofNat_mod (by omega) (sbInodesInBlockgroup m sb).isLt, hper]
  have hdesc : ∀ g, blockgroupDescriptor sb (ofNat 32 g) =
      sb - 1024#32 + ofNat 32 (2048 + 32 * g) := by
    intro g
    have htable : sb + 1024#32 = sb - 1024#32 + 2048#32 := by bv_omega
    rw [blockgroupDescriptor, SUPERBLOCK_SIZE, descriptorSize, htable, ofNat_add,
      BitVec.ofNat_mul, BitVec.add_assoc]
  have hsum : ∀ (b t : Word) (i : Nat), ofNat 32 (b.toNat * t.toNat + i * 128) =
      b * t + 128#32 * ofNat 32 i := by
    intro b t i
    rw [ofNat_add, BitVec.ofNat_mul, BitVec.ofNat_mul, ofNat_toNat,
      ofNat_toNat, setWidth_eq, setWidth_eq, BitVec.mul_comm 128#32]
  simp only [readInode, if_neg hne, hsub, hdiv, hmod, hdesc, recordAt, getBlock, SUPERBLOCK_SIZE,
    inodeSize, hsum, BitVec.add_assoc]

theorem superblock_congr (h : Set.EqOn m' m (span sb 1024)) :
    BLOCKSIZE m' sb = BLOCKSIZE m sb ∧
      sbInodesInBlockgroup m' sb = sbInodesInBlockgroup m sb ∧
      sbInodes m' sb = sbInodes m sb ∧ sbInodeSize m' sb = sbInodeSize m sb := by
  have hword : ∀ o, o + 4 ≤ 1024 → m'.word (sb + ofNat 32 o) = m.word (sb + ofNat 32 o) :=
    fun o ho => word_of_eqOn h (span_add_subset sb ho (by decide))
  have hhalf : m'.half (sb + 88#32) = m.half (sb + 88#32) :=
    half_of_eqOn h (span_add_subset sb (o := 88) (n := 2) (by decide) (by decide))
  have hfirst : m'.word sb = m.word sb := by
    have h0 := hword 0 (by decide)
    rwa [BitVec.add_zero] at h0
  have hshift : sbBlockSizeShift m' sb = sbBlockSizeShift m sb := hword 24 (by decide)
  refine ⟨by rw [BLOCKSIZE, hshift, BLOCKSIZE], hword 40 (by decide), hfirst, ?_⟩
  rw [sbInodeSize, hhalf, hword 76 (by decide), sbInodeSize]

theorem BLOCKSIZE_toNat (h : (sbBlockSizeShift m sb).toNat ≤ 21) :
    (BLOCKSIZE m sb).toNat = 1024 * 2 ^ (sbBlockSizeShift m sb).toNat := by
  have hpow : 2 ^ (sbBlockSizeShift m sb).toNat ≤ 2 ^ 21 := Nat.pow_le_pow_right (by decide) h
  rw [BLOCKSIZE, Nat.mod_eq_of_lt (by omega), BitVec.toNat_shiftLeft, Nat.shiftLeft_eq]
  show 1024 * 2 ^ (sbBlockSizeShift m sb).toNat % 2 ^ 32 = _
  omega

/-- In blocks of 1024 and of 2048 bytes the table is where read_inode expects it. -/
theorem tableOffset_small (h : (sbBlockSizeShift m sb).toNat ≤ 1) : tableOffset m sb = 2048 := by
  have hb := @BLOCKSIZE_toNat m sb (by omega)
  have hcases : (sbBlockSizeShift m sb).toNat = 0 ∨ (sbBlockSizeShift m sb).toNat = 1 := by omega
  rw [tableOffset, hb]
  rcases hcases with h0 | h1
  · rw [h0]
    decide
  · rw [h1]
    decide

/-- Larger blocks hold the superblock in block 0, and the table in block 1. -/
theorem tableOffset_large (h : 2 ≤ (sbBlockSizeShift m sb).toNat)
    (hv : (sbBlockSizeShift m sb).toNat ≤ 21) :
    tableOffset m sb = (BLOCKSIZE m sb).toNat ∧ 4096 ≤ (BLOCKSIZE m sb).toNat ∧
      (BLOCKSIZE m sb).toNat ≤ 2 ^ 31 := by
  have hlow : 2 ^ 2 ≤ 2 ^ (sbBlockSizeShift m sb).toNat := Nat.pow_le_pow_right (by decide) h
  have hhigh : 2 ^ (sbBlockSizeShift m sb).toNat ≤ 2 ^ 21 := Nat.pow_le_pow_right (by decide) hv
  have hb := BLOCKSIZE_toNat hv
  have hdiv : 1024 / (BLOCKSIZE m sb).toNat = 0 := Nat.div_eq_of_lt (by omega)
  refine ⟨?_, by omega, by omega⟩
  rw [tableOffset, hdiv]
  omega

end Address

/-! ## Records do not overlap -/

section Apart
variable {L : Geometry} {m : Mem} {n n' : Nat}

theorem Geometry.tables_apart {g g' : Nat} (hg : g < L.blockgroups) (hg' : g' < L.blockgroups)
    (hne : g ≠ g') : L.inodeTableBlock g + L.tableBlocks ≤ L.inodeTableBlock g' ∨
      L.inodeTableBlock g' + L.tableBlocks ≤ L.inodeTableBlock g := by
  have hbefore : ∀ {a b}, a < L.blockgroups → b < L.blockgroups → a ≠ b →
      L.inodeTableBlock a ≤ L.inodeTableBlock b →
      L.inodeTableBlock a + L.tableBlocks ≤ L.inodeTableBlock b := by
    intro a b ha hb hab hle
    by_contra hlt
    -- the first block of the second table is a block of the first one
    have hrole := L.place_inj (.inodeTable a (L.inodeTableBlock b - L.inodeTableBlock a))
      (.inodeTable b 0) ⟨ha, by omega⟩ ⟨hb, by omega⟩ (by simp only [Layout.place]; omega)
    rw [Role.inodeTable.injEq] at hrole
    exact hab hrole.1
  rcases Nat.le_total (L.inodeTableBlock g) (L.inodeTableBlock g') with h | h
  · exact .inl (hbefore hg hg' hne h)
  · exact .inr (hbefore hg' hg (Ne.symm hne) h)

theorem Geometry.record_le (L : Geometry) (n : Nat) :
    L.recordSize * L.inodeIndex n + L.recordSize ≤ L.blockSize * L.tableBlocks := by
  obtain ⟨s, hs⟩ := L.blockSize_eq
  have hpos : 0 < L.blockSize := by
    rw [hs]
    exact Nat.mul_pos (by decide) (Nat.pow_pos (by decide))
  have hi := L.inodeIndex_lt n
  have hmul := Nat.mul_le_mul_left L.recordSize (Nat.succ_le_iff.mpr hi)
  rw [Nat.mul_succ] at hmul
  have hround := Nat.div_add_mod (L.recordSize * L.inodesInBlockgroup + L.blockSize - 1) L.blockSize
  have hlt := Nat.mod_lt (L.recordSize * L.inodesInBlockgroup + L.blockSize - 1) hpos
  rw [Layout.tableBlocks]
  omega

theorem Geometry.records_apart (hn : L.IsInode n) (hn' : L.IsInode n') (hne : n ≠ n') :
    Disjoint (span (L.recordAddr n) L.recordSize) (span (L.recordAddr n') L.recordSize) := by
  by_cases hz : L.recordSize = 0
  · rw [Set.disjoint_left]
    intro x hx
    rw [hz] at hx
    exact absurd hx (Nat.not_lt_zero _)
  have hle := L.record_le n
  have hle' := L.record_le n'
  have hg := L.inodeGroup_lt hn
  have hg' := L.inodeGroup_lt hn'
  have htb : 0 < L.tableBlocks := by
    rcases Nat.eq_zero_or_pos L.tableBlocks with h0 | h0
    · rw [h0, Nat.mul_zero] at hle
      omega
    · exact h0
  have hfit : ∀ g, g < L.blockgroups →
      L.blockSize * L.inodeTableBlock g + L.blockSize * L.tableBlocks ≤ 2 ^ 32 := by
    intro g hg
    have hlast := L.place_lt (.inodeTable g (L.tableBlocks - 1)) ⟨hg, by omega⟩
    simp only [Layout.place] at hlast
    have hmul := Nat.mul_le_mul_left L.blockSize
      (show L.inodeTableBlock g + L.tableBlocks ≤ L.blocks by omega)
    rw [Nat.mul_add] at hmul
    exact hmul.trans L.blocks_fit
  have h1 := hfit _ hg
  have h2 := hfit _ hg'
  apply span_disjoint _ _ (by omega) (by omega)
  by_cases he : L.inodeGroup n = L.inodeGroup n'
  · have hi : L.inodeIndex n ≠ L.inodeIndex n' := fun hi => hne (L.inode_ext hn hn' he hi)
    rw [he]
    rcases Nat.lt_or_gt_of_ne hi with hlt | hlt
    · have hmul := Nat.mul_le_mul_left L.recordSize (Nat.succ_le_iff.mpr hlt)
      rw [Nat.mul_succ] at hmul
      omega
    · have hmul := Nat.mul_le_mul_left L.recordSize (Nat.succ_le_iff.mpr hlt)
      rw [Nat.mul_succ] at hmul
      omega
  · rcases L.tables_apart hg hg' he with h | h
    · have hmul := Nat.mul_le_mul_left L.blockSize h
      rw [Nat.mul_add] at hmul
      omega
    · have hmul := Nat.mul_le_mul_left L.blockSize h
      rw [Nat.mul_add] at hmul
      omega

/-- The number of bytes of a block fits a word: the superblock and the descriptors are in two
different blocks. -/
theorem Geometry.blockSize_lt (L : Geometry) : L.blockSize < 2 ^ 32 := by
  have hgroups := L.blockgroups_pos
  obtain ⟨s, hs⟩ := L.blockSize_eq
  have hpos : 0 < L.blockSize := by
    rw [hs]
    exact Nat.mul_pos (by decide) (Nat.pow_pos (by decide))
  have hdesc : 1 ≤ L.descriptorBlocks := by
    rw [Layout.descriptorBlocks, Nat.one_le_div_iff hpos]
    omega
  have hlast := L.place_lt (.system 1) (by simp only [Layout.HasRole]; omega)
  simp only [Layout.place] at hlast
  have hmul := Nat.mul_le_mul_left L.blockSize (Nat.succ_le_iff.mpr hlast)
  have hfit := L.blocks_fit
  omega

theorem Describes.layoutRecord_eq (hd : Describes L m) (hn : L.IsInode n) :
    layoutRecord m L.sb n = L.recordAddr n := by
  have hb : (BLOCKSIZE m L.sb).toNat = L.blockSize := by
    rw [hd.blockSize, toNat_ofNat_of_lt L.blockSize_lt]
  have hper : (sbInodesInBlockgroup m L.sb).toNat = L.inodesInBlockgroup := by
    have hfit := L.inodes_fit
    have hle := Nat.le_mul_of_pos_left L.inodesInBlockgroup L.blockgroups_pos
    rw [hd.inodesInBlockgroup, toNat_ofNat_of_lt (by omega)]
  have hoffset : tableOffset m L.sb = L.blockSize * (L.superblockBlocknum + 1) := by
    rw [tableOffset, hb, L.superblock_eq]
  have htable : descInodeTableBlock m (L.sb - 1024#32 + ofNat 32
      (L.blockSize * (L.superblockBlocknum + 1) + 32 * ((n - 1) / L.inodesInBlockgroup))) =
      ofNat 32 (L.inodeTableBlock (L.inodeGroup n)) :=
    hd.inodeTableBlock _ (L.inodeGroup_lt hn)
  simp only [layoutRecord, recordAt, hb, hper, hoffset, htable, hd.recordSize]
  congr 1
  apply BitVec.eq_of_toNat_eq
  rw [toNat_ofNat, toNat_ofNat, Nat.add_mod, Nat.mul_mod_mod, ← Nat.add_mod,
    Nat.mul_comm ((n - 1) % L.inodesInBlockgroup)]
  rfl

end Apart

/-! ## Which superblocks read_inode serves -/

section Located
variable {m : Mem} {sb : Word}

/-- The superblock asks for what read_inode assumes. Of a record size other than 128 nothing is
seen as long as each table has one record only. -/
structure Expected (m : Mem) (sb : Word) : Prop where
  shift : (sbBlockSizeShift m sb).toNat ≤ 1
  size : sbInodeSize m sb = 128 ∨ (sbInodes m sb).toNat ≤ 1 ∨
    (sbInodesInBlockgroup m sb).toNat ≤ 1

theorem Expected.address (h : Expected m sb) (hv : ValidSuperblock m sb) {m' : Mem}
    (hm : Set.EqOn m' m (span sb 1024)) {n : Nat} (h1 : 1 ≤ n) (hn : n ≤ (sbInodes m sb).toNat) :
    readInode m' sb (ofNat 32 n) = .ok (layoutRecord m' sb n) := by
  obtain ⟨hb, hper, hinodes, hsize⟩ := superblock_congr hm
  have hoffset : tableOffset m' sb = 2048 := by
    rw [tableOffset, hb]
    exact tableOffset_small h.shift
  rw [readInode_recordAt (by rw [hper]; exact hv.perGroup) (by rw [hb]; exact hv.blocksize) h1
    (by omega), layoutRecord, hoffset]
  simp only [recordAt, hper, hsize]
  rcases h.size with h128 | hone | hone
  · rw [h128]
  · have h0 : n - 1 = 0 := by omega
    rw [h0, Nat.zero_mod, Nat.zero_mul, Nat.zero_mul]
  · have h0 : (sbInodesInBlockgroup m sb).toNat = 1 := by
      have hpos := hv.perGroup
      omega
    rw [h0, Nat.mod_one, Nat.zero_mul, Nat.zero_mul]

/-- With larger blocks, the two places for the table may hold different block numbers. -/
theorem large_blocks_differ (hv : ValidSuperblock m sb) (h : 2 ≤ (sbBlockSizeShift m sb).toNat) :
    ∃ m', Set.EqOn m' m (span sb 1024) ∧
      readInode m' sb (ofNat 32 1) ≠ .ok (layoutRecord m' sb 1) := by
  obtain ⟨hoffset, hlow, hhigh⟩ := tableOffset_large h hv.shift
  set b := (BLOCKSIZE m sb).toNat with hb
  set image := sb - 1024#32 with himage
  -- the table's first entry says block 0 at the wrong place and block 1 at the right one
  set m₁ := m.setWord (image + ofNat 32 2048 + 8#32) 0#32 with hm₁
  set m₂ := m₁.setWord (image + ofNat 32 b + 8#32) 1#32 with hm₂
  have hplace : ∀ o, image + ofNat 32 o + 8#32 = image + ofNat 32 (o + 8) :=
    fun o => add_ofNat_add image o 8
  have hc₁ : ChangesOnly (span (image + ofNat 32 (2048 + 8)) 4) m m₁ := by
    rw [← hplace]
    exact m.setWord_changes _ _
  have hc₂ : ChangesOnly (span (image + ofNat 32 (b + 8)) 4) m₁ m₂ := by
    rw [← hplace]
    exact m₁.setWord_changes _ _
  have hsb : sb = image + ofNat 32 1024 := by
    rw [himage]
    bv_omega
  have hsame : Set.EqOn m₂ m (span sb 1024) := by
    have h₁ : Set.EqOn m₁ m (span sb 1024) := by
      apply hc₁.keeps
      rw [hsb]
      exact span_disjoint image (.inl (by decide)) (by decide) (by decide)
    have h₂ : Set.EqOn m₂ m₁ (span sb 1024) := by
      apply hc₂.keeps
      rw [hsb]
      exact span_disjoint image (.inl (by omega)) (by decide) (by omega)
    exact h₂.trans h₁
  have hright : descInodeTableBlock m₂ (image + ofNat 32 b) = 1#32 :=
    Mem.word_setWord m₁ _ _
  have hwrong : descInodeTableBlock m₂ (image + ofNat 32 2048) = 0#32 := by
    have hkeep : Set.EqOn m₂ m₁ (span (image + ofNat 32 (2048 + 8)) 4) :=
      hc₂.keeps (span_disjoint image (.inl (by omega)) (by decide) (by omega))
    rw [descInodeTableBlock, hplace, word_of_eqOn hkeep subset_rfl, ← hplace]
    exact Mem.word_setWord m _ _
  refine ⟨m₂, hsame, ?_⟩
  obtain ⟨hblock, hper, -, -⟩ := superblock_congr hsame
  have hoff : tableOffset m₂ sb = b := by
    rw [tableOffset, hblock]
    exact hoffset
  rw [readInode_recordAt (by rw [hper]; exact hv.perGroup) (by rw [hblock]; exact hv.blocksize)
    (by decide) (by decide), layoutRecord, hoff]
  simp only [recordAt, hblock, ← himage, ← hb, Nat.sub_self, Nat.zero_div, Nat.zero_mod, Nat.mul_zero,
    Nat.zero_mul, Nat.add_zero, hright, hwrong]
  intro he
  have hz := congrArg BitVec.toNat ((BitVec.add_right_inj image).mp (Except.ok.inj he))
  change b * 0 % 2 ^ 32 = b * 1 % 2 ^ 32 at hz
  omega

end Located

/-- read_inode follows the layout exactly for superblocks with blocks of 1024 or 2048 bytes
and records of 128 bytes, or with no second record in any table. -/
theorem inodes_located_iff (m : Mem) (sb : Word) (hv : ValidSuperblock m sb) :
    InodesLocated m sb ↔ Expected m sb := by
  constructor
  · intro h
    have hshift : (sbBlockSizeShift m sb).toNat ≤ 1 := by
      by_contra hlarge
      obtain ⟨m', hm, hne⟩ := large_blocks_differ hv (by omega)
      exact hne (h.address m' hm 1 (Nat.le_refl 1) hv.inodes)
    refine ⟨hshift, ?_⟩
    by_contra hsize
    rw [not_or, not_or] at hsize
    obtain ⟨hsize, hinodes, hper⟩ := hsize
    -- the second record of the first table
    have hsecond := h.address m (Set.eqOn_refl _ _) 2 (by decide) (by omega)
    have hone : (2 - 1) % (sbInodesInBlockgroup m sb).toNat = 1 := Nat.mod_eq_of_lt (by omega)
    rw [readInode_recordAt hv.perGroup hv.blocksize (by decide) (by decide), layoutRecord,
      tableOffset_small hshift] at hsecond
    simp only [recordAt, hone] at hsecond
    have hsum := congrArg BitVec.toNat ((BitVec.add_right_inj _).mp (Except.ok.inj hsecond))
    rw [toNat_ofNat, toNat_ofNat] at hsum
    have hlt : sbInodeSize m sb < 2 ^ 16 := by
      rw [sbInodeSize]
      split
      · exact (m.half (sb + 88#32)).isLt
      · decide
    omega
  · intro h
    refine ⟨fun m' hm n h1 hn => h.address hv hm h1 hn, ?_⟩
    intro m' hm L hL hd n n' a a' hn hn' hne ha ha'
    subst hL
    obtain ⟨-, -, hinodes, -⟩ := superblock_congr hm
    have htotal : (sbInodes m L.sb).toNat = L.blockgroups * L.inodesInBlockgroup := by
      rw [← hinodes, hd.inodes, toNat_ofNat_of_lt L.inodes_fit]
    rw [h.address hv hm hn.1 (htotal ▸ hn.2), hd.layoutRecord_eq hn] at ha
    rw [h.address hv hm hn'.1 (htotal ▸ hn'.2), hd.layoutRecord_eq hn'] at ha'
    rw [← Except.ok.inj ha, ← Except.ok.inj ha', hd.recordSize]
    exact L.records_apart hn hn' hne

/-- A superblock with 8 inodes in one group, blocks of 1024 bytes, and records of `size`
bytes. -/
def superblockImage (size : BitVec 16) : Mem :=
  ((((Mem.setWord (fun _ => 0) 0x400 8).setWord 0x428 8).setWord 0x44C 1).setHalf 0x458 size)

theorem inodes_located_iff_sample : InodesLocated (superblockImage 128) 0x400 :=
  (inodes_located_iff (superblockImage 128) 0x400 ⟨by decide, by decide, by decide⟩).mpr
    ⟨by decide, .inl (by decide)⟩

/-- With records of 256 bytes, inode 2 is looked for in the middle of inode 1. -/
theorem inode_size_ignored : ¬ ∀ m sb, ValidSuperblock m sb → InodesLocated m sb := by
  intro h
  have hsecond := (h (superblockImage 256) 0x400 ⟨by decide, by decide, by decide⟩).address _
    (Set.eqOn_refl _ _) 2 (by decide) (by decide)
  exact absurd hsecond (by decide)

end TapiOS.Fs.Ext2
