import TapiOS.Fs.DirBlock
import TapiOS.Fs.Ext2Alloc

/-!
# The stores of ext2_write and ext2_new_inode

On an image with blocks of 2048 bytes the addresses that the kernel computes are those of
the layout. There a write attaches a block and a new inode is created as in `Ext2Alloc`,
as long as the block bitmap offers a free bit in its first word.
-/
namespace TapiOS.Fs.Ext2

open Util
open BitVec (ofNat ofNat_add ofNat_toNat setWidth_eq toNat_ofNat twoPow)

variable {n groups g p : Nat} {bitmap flags : Word} {data : List Byte} {path : Text}

section Addresses
variable {L : Geometry} {m : Mem} (hd : Describes L m)
include hd

theorem Describes.getBlock_eq (x : Nat) : getBlock m L.sb (ofNat 32 x) = L.blockAddr x := by
  rw [getBlock, hd.blockSize, Layout.blockAddr, Layout.cell, BitVec.ofNat_mul]
  rfl

omit hd in
theorem Plain.blockgroupDescriptor_eq (hp : Plain L) (g : Nat) :
    blockgroupDescriptor L.sb (ofNat 32 g) = L.descAddr g := by
  have htable : L.sb + 1024#32 = L.sb - 1024#32 + 2048#32 := by bv_omega
  rw [blockgroupDescriptor, Layout.descAddr, Layout.cell, hp.table_eq, ofNat_add, BitVec.ofNat_mul 32 g, SUPERBLOCK_SIZE, descriptorSize, htable,
    BitVec.add_assoc]

theorem Describes.blockSize_toNat (hp : Plain L) : (BLOCKSIZE m L.sb).toNat = L.blockSize := by
  have hbs := hp.blockSize
  rw [hd.blockSize, toNat_ofNat_of_lt (by omega)]

theorem Describes.readInode_eq (hp : Plain L) (hn : L.IsInode n) :
    readInode m L.sb (ofNat 32 n) = .ok (L.recordAddr n) := by
  have hfit := L.inodes_fit
  have hle := hn.2
  have hpos := hn.1
  have hN := L.inodesInBlockgroup_le
  have hN0 := L.inodesInBlockgroup_pos
  have hg := L.inodeGroup_lt hn
  have hbs := hp.blockSize
  have hsub : ofNat 32 n - 1#32 = ofNat 32 (n - 1) := by
    apply BitVec.eq_of_toNat_eq
    simp only [BitVec.toNat_sub, toNat_ofNat]
    omega
  have hne : ¬ (ofNat 32 L.inodesInBlockgroup = 0#32 ∨ BLOCKSIZE m L.sb = 0#32) := by
    rw [hd.blockSize]
    rintro (h | h) <;>
    · have ht := congrArg BitVec.toNat h
      simp only [toNat_ofNat] at ht
      omega
  have hn' : n - 1 < 2 ^ 32 := by omega
  have hN' : L.inodesInBlockgroup < 2 ^ 32 := by omega
  have hdiv : ofNat 32 (n - 1) / ofNat 32 L.inodesInBlockgroup =
      ofNat 32 (L.inodeGroup n) := ofNat_div hn' hN'
  have hmod : ofNat 32 (n - 1) % ofNat 32 L.inodesInBlockgroup =
      ofNat 32 (L.inodeIndex n) := ofNat_mod hn' hN'
  simp only [readInode, hd.inodesInBlockgroup, if_neg hne, hsub, hdiv, hmod,
    hp.blockgroupDescriptor_eq, hd.inodeTableBlock _ hg, hd.getBlock_eq]
  rw [Layout.recordAddr, Layout.blockAddr, Layout.cell, Layout.cell, hp.recordSize,
    ofNat_add, BitVec.ofNat_mul (128), BitVec.add_assoc]
  rfl

/-- The groups that the loops visit have a descriptor. -/
theorem Describes.getBlockgroupCount_le (hp : Plain L)
    (h : getBlockgroupCount m L.sb = .ok groups) : groups ≤ L.blockgroups := by
  have hfit := L.inodes_fit
  have hN := L.inodesInBlockgroup_le
  have hN0 := L.inodesInBlockgroup_pos
  have hbs := hp.blockSize
  have hN' : L.inodesInBlockgroup < 2 ^ 32 := by omega
  have hcount : divRoundUp (sbInodes m L.sb) (sbInodesInBlockgroup m L.sb) =
      ofNat 32 L.blockgroups := by
    rw [divRoundUp, hd.inodes, hd.inodesInBlockgroup, ofNat_div hfit hN', ofNat_mod hfit hN',
      Nat.mul_div_cancel _ hN0, Nat.mul_mod_left]
    simp
  rw [getBlockgroupCount] at h
  split_ifs at h
  · dsimp only at h
    rw [hcount] at h
    split_ifs at h with hne
    rw [not_not.mp hne] at h
    cases h
    have hlt : (ofNat 32 L.blockgroups).toNat ≤ L.blockgroups := by
      exact Nat.mod_le _ _
    rw [BitVec.toInt_eq_toNat_cond]
    split_ifs <;> omega

end Addresses

/-! Obtaining a block. -/

/-- Word `i` of the block bitmap of a group. -/
def bitmapWord (L : Layout) (m : Mem) (g i : Nat) : Word :=
  m.word (L.blockAddr (L.bitmapBlockNo g) + ofNat 32 (4 * i))

/-- The bitmap is full, or it is that of the first group and the top bit of its first word
is clear, with blocks of 2048 bytes, or set and all other words are full. -/
def BitmapOk (L : Layout) (m : Mem) (g : Nat) : Prop :=
  (∀ i < L.blockSize / 4, bitmapWord L m g i = 0xFFFFFFFF#32) ∨
    g = 0 ∧ (L.blockSize = 2048 ∧ (bitmapWord L m 0 0).getLsbD 31 = false ∨
      (bitmapWord L m 0 0).getLsbD 31 ∧
        ∀ i, 0 < i → i < L.blockSize / 4 → bitmapWord L m 0 i = 0xFFFFFFFF#32)

/-- The bitmap offers no block: it is full, or the scan of the first word runs out of it and
all other words are full. -/
def NoBlock (L : Layout) (m : Mem) (g : Nat) : Prop :=
  (∀ i < L.blockSize / 4, bitmapWord L m g i = 0xFFFFFFFF#32) ∨
    g = 0 ∧ (bitmapWord L m 0 0).getLsbD 31 ∧
      ∀ i, 0 < i → i < L.blockSize / 4 → bitmapWord L m 0 i = 0xFFFFFFFF#32

variable {m : Mem}

theorem NoBlock.ok {L : Layout} (h : NoBlock L m g) : BitmapOk L m g := by
  rcases h with hfull | ⟨h0, hrest⟩
  · exact .inl hfull
  · exact .inr ⟨h0, .inr hrest⟩

theorem freeBlockLoop_full {left i : Nat}
    (h : ∀ j, i ≤ j → j < i + left → m.word (bitmap + ofNat 32 (4 * j)) = 0xFFFFFFFF#32) :
    freeBlockLoop bitmap left i m = (-1, m) := by
  induction left generalizing i with
  | zero => rfl
  | succ left ih =>
    rw [freeBlockLoop, if_pos (h i (by omega) (by omega))]
    exact ih fun j hj hlt => h j (by omega) (by omega)

theorem freeBlockLoop_first (left : Nat) (h : m.word bitmap ≠ 0xFFFFFFFF#32) {out : Int}
    {w : Word} (hr : getAndSetLsb (m.word bitmap) = (out, w)) :
    freeBlockLoop bitmap (left + 1) 0 m =
      if out = 32 then freeBlockLoop bitmap left 1 (m.setWord bitmap w)
      else (out, m.setWord bitmap w) := by
  rw [freeBlockLoop]
  simp [if_neg h, hr]

/-- Block `k` marked in the bitmap of the first group. -/
def markBlock (L : Layout) (m : Mem) (k : Nat) : Mem :=
  m.setWord (L.blockAddr (L.bitmapBlockNo 0))
    (m.word (L.blockAddr (L.bitmapBlockNo 0)) ||| twoPow 32 k)

section Alloc
variable {L : Geometry} {m : Mem} (hc : Consistent L m) (hp : Plain L)

theorem bitmapWord_zero (L : Layout) (m : Mem) (g : Nat) :
    bitmapWord L m g 0 = m.word (L.blockAddr (L.bitmapBlockNo g)) := by
  rw [bitmapWord, BitVec.add_zero]

include hc

/-- The block of the superblock is metadata, so the lowest bit of the first bitmap is set. -/
theorem Consistent.first_bit : (bitmapWord L m 0 0).getLsbD 0 := by
  have hrole : L.HasRole (.system L.superblockBlocknum) := by
    simp only [Layout.HasRole]
    omega
  have hm := hc.metadata_marked L.superblockBlocknum ⟨_, hrole, rfl⟩ le_rfl
  rw [Layout.marked, Nat.sub_self, Nat.zero_div, Nat.zero_mod, Layout.blockBit,
    bitAt_eq_word _ _ (by decide)] at hm
  rw [bitmapWord_zero, hm]

include hp

/-- get_free_block finds nothing and changes nothing, or it marks a clear bit of the first
word and returns its position. -/
theorem getFreeBlock_cases (hok : BitmapOk L m g) :
    NoBlock L m g ∧ getFreeBlock m L.sb (ofNat 32 (L.bitmapBlockNo g)) = (-1, m) ∨
      ¬NoBlock L m g ∧ g = 0 ∧ L.blockSize = 2048 ∧ ∃ k < 32, L.blockBit m 0 k = false ∧
        getFreeBlock m L.sb (ofNat 32 (L.bitmapBlockNo g)) =
          ((k : Int), markBlock L m k) := by
  have hbs := hp.blockSize
  rw [getFreeBlock, hc.describes.getBlock_eq, hc.describes.blockSize_toNat hp]
  rcases hok with hfull | ⟨rfl, hok⟩
  · exact .inl ⟨.inl hfull, freeBlockLoop_full fun j _ hj => hfull j (by omega)⟩
  obtain ⟨left, hleft⟩ : ∃ left, L.blockSize / 4 = left + 1 := ⟨L.blockSize / 4 - 1, by omega⟩
  by_cases hones : bitmapWord L m 0 0 = 0xFFFFFFFF#32
  · rcases hok with ⟨-, htop⟩ | ⟨htop, hrest⟩
    · rw [hones] at htop
      exact absurd htop (by decide)
    · refine .inl ⟨.inr ⟨rfl, htop, hrest⟩, freeBlockLoop_full fun j _ hj => ?_⟩
      by_cases h0 : j = 0
      · rw [h0]; exact hones
      · exact hrest j (by omega) (by omega)
  rw [bitmapWord_zero] at hones
  rcases hok with ⟨h2, htop⟩ | ⟨htop, hrest⟩
  · obtain ⟨k, hk, hr, hclear⟩ := getAndSetLsb_spec htop
    rw [bitmapWord_zero] at hr hclear
    have hne : (k : Int) ≠ 32 := by omega
    have hsome : ¬NoBlock L m 0 := by
      intro hno
      rcases hno with hfull | ⟨-, htop', -⟩
      · exact hones ((bitmapWord_zero _ _ _).symm.trans (hfull 0 (by omega)))
      · rw [htop] at htop'
        cases htop'
    refine .inr ⟨hsome, rfl, h2, k, hk, ?_, ?_⟩
    · rw [Layout.blockBit, bitAt_eq_word _ _ hk, hclear]
    · rw [hleft, freeBlockLoop_first left hones hr, if_neg hne, markBlock]
  · -- the shift by 32 sets the lowest bit, which is set already
    have hbit := hc.first_bit
    have hr := getAndSetLsb_top htop
    have hsame : bitmapWord L m 0 0 ||| twoPow 32 0 =
        bitmapWord L m 0 0 := by
      apply BitVec.eq_of_getLsbD_eq
      intro j _
      rw [getLsbD_or_twoPow _ _ _ (by decide)]
      by_cases hj : 0 = j
      · subst hj
        rw [hbit, Bool.true_or]
      · simp [hj]
    rw [hsame, bitmapWord_zero] at hr
    rw [hleft, freeBlockLoop_first left hones hr, Mem.setWord_self]
    exact .inl ⟨.inr ⟨rfl, htop, hrest⟩,
      freeBlockLoop_full fun j hj hlt => hrest j (by omega) (by omega)⟩

omit hc in
theorem Plain.describes_of_changes {m' : Mem} {Z : Set Zone} (hd : Describes L m)
    (h : ChangesOnly (L.zones Z) m m') (hZ : ∀ z ∈ Z, L.HasZone z) (hs : .super ∉ Z)
    (hf : ∀ g, .fields g ∉ Z) : Describes L m' :=
  hp.describes_of_eqOn hd (hp.keeps h hZ trivial hs) fun g hg => hp.keeps h hZ hg (hf g)

/-- Bit `k` of a bitmap of the first group is set, and the count at offset `12 + o` of its
descriptor is stored. -/
def takeBit (L : Layout) (m : Mem) (z : Zone) (o k : Nat) (count : BitVec 16) : Mem :=
  (m.setWord (L.cell (L.zoneStart z)) (m.word (L.cell (L.zoneStart z)) ||| twoPow 32 k)).setHalf
    (L.descAddr 0 + ofNat 32 (12 + o)) count

def takeBlock (L : Layout) (m : Mem) (k : Nat) (count : BitVec 16) : Mem :=
  takeBit L m (.blockBitmap 0) 0 k count

omit hc hp in
theorem takeBlock_eq (L : Layout) (m : Mem) (k : Nat) (count : BitVec 16) :
    takeBlock L m k count = (markBlock L m k).setHalf (L.descAddr 0 + 12#32) count := rfl

def takeInode (L : Layout) (m : Mem) (k : Nat) (count : BitVec 16) : Mem :=
  takeBit L m (.inodeBitmap 0) 2 k count

section Take
omit hc
variable (m) {z : Zone} {o k : Nat} (count : BitVec 16)

theorem takeBit_changes (hz : L.zoneSize z = L.blockSize) (ho : o + 2 ≤ 4) :
    ChangesOnly (L.zones {z, .counts 0}) m (takeBit L m z o k count) := by
  have hbs := hp.blockSize
  have h1 := (hp.start_subset (z := z) (n := 4) rfl (by omega)).trans
    (L.zone_subset_zones (Z := {z, .counts 0}) (by simp))
  have h2 := (hp.counts_subset 0 ho).trans (L.zone_subset_zones (Z := {z, .counts 0}) (by simp))
  exact ((ChangesOnly.refl _ _).setWord h1).setHalf h2

theorem takeBit_bit {j : Nat} (hz : L.HasZone z) (hne : z ≠ .counts 0)
    (hs : L.zoneSize z = L.blockSize) (ho : o + 2 ≤ 4) (hk : k < 32) (hj : j < 8 * L.blockSize) :
    bitAt (takeBit L m z o k count) (L.cell (L.zoneStart z)) j =
      (bitAt m (L.cell (L.zoneStart z)) j || decide (j = k)) := by
  have hbs := hp.blockSize
  have hin : L.cell (L.zoneStart z) + ofNat 32 (j / 8) ∈ L.zone z :=
    add_mem_span _ (by omega) (by omega)
  have hkeep := (Mem.setHalf_changes (m.setWord (L.cell (L.zoneStart z))
    (m.word (L.cell (L.zoneStart z)) ||| twoPow 32 k))
    (L.descAddr 0 + ofNat 32 (12 + o)) count).keeps (Set.disjoint_of_subset_right
      (hp.counts_subset 0 ho) (hp.zone_disjoint hz L.blockgroups_pos hne))
  rw [bitAt, takeBit, hkeep hin]
  exact bitAt_set m _ hk (by omega)

theorem describes_takeBit (hd : Describes L m) (hz : L.HasZone z) (hs : L.zoneSize z = L.blockSize)
    (hsup : z ≠ .super) (hf : ∀ g, z ≠ .fields g) (ho : o + 2 ≤ 4) :
    Describes L (takeBit L m z o k count) := by
  refine hp.describes_of_changes hd (takeBit_changes m hp count hs ho) ?_
    (by simp [hsup.symm]) (fun g => by simp [(hf g).symm])
  intro z' hz'
  rcases hz' with rfl | rfl
  · exact hz
  · exact L.blockgroups_pos

theorem takeBlock_record (hn : L.IsInode n) :
    Set.EqOn (takeBlock L m k count) m (L.zone (.record n)) := by
  refine hp.keeps (takeBit_changes m hp count (z := .blockBitmap 0) rfl (o := 0) (by decide)) ?_ hn
    (by simp)
  intro z hz
  rcases hz with rfl | rfl
  · exact L.blockgroups_pos
  · exact L.blockgroups_pos

end Take

/-- Behind the allocation only the record of the inode and the new block change. -/
theorem attaches_of_stores {m' : Mem} {k : Nat} {count : BitVec 16} (h2 : L.blockSize = 2048)
    (hn : L.Live m n) (hk : k < 32) (hfree : L.blockBit m 0 k = false)
    (hch : ChangesOnly (L.zones {.data k, .record n}) (takeBlock L m k count) m')
    (hkind : hasBlocks m' (L.recordAddr n) = hasBlocks (takeBlock L m k count) (L.recordAddr n))
    (hfirst : entry m' (inodeBlocks (L.recordAddr n)) 0 = ofNat 32 k)
    (hrest : ∀ i, 0 < i → i < 15 → entry m' (inodeBlocks (L.recordAddr n)) i =
      entry (takeBlock L m k count) (inodeBlocks (L.recordAddr n)) i) : Attaches L m m' n k := by
  have hb : k < 8 * L.blockSize := by omega
  have hdata := (hc.clear_bit h2 hb hfree).2.1
  have htake : ChangesOnly (L.zones {.blockBitmap 0, .counts 0}) m (takeBlock L m k count) :=
    takeBit_changes m hp count rfl (by decide)
  have hrec := takeBlock_record m hp (k := k) count hn.1
  have hmap : Set.EqOn m' (takeBlock L m k count) (L.zone (.blockBitmap 0)) := by
    refine hp.keeps hch ?_ L.blockgroups_pos (by simp)
    intro z hz
    rcases hz with rfl | rfl
    · exact hdata
    · exact hn.1
  have hfields := hp.record_fields hrec
  refine ⟨hn, hb, hfree, ?_, fun j hj => ?_, hkind.trans hfields.1, hfirst,
    fun i h0 hi => (hrest i h0 hi).trans (hfields.2 i hi)⟩
  · refine (htake.mono (L.zones_mono ?_)).trans (hch.mono (L.zones_mono ?_))
    · intro z hz
      simp only [Set.mem_insert_iff, Set.mem_singleton_iff] at hz ⊢
      tauto
    · intro z hz
      simp only [Set.mem_insert_iff, Set.mem_singleton_iff] at hz ⊢
      tauto
  · rw [Layout.blockBit, hp.bitAt_eq hj hmap]
    exact takeBit_bit m hp count L.blockgroups_pos (by simp) rfl (by decide) hk hj

end Alloc

/-! The record of an inode. -/

theorem hasBlocks_congr {m m' : Mem} {r : Word} (h : m'.half r = m.half r) :
    hasBlocks m' r = hasBlocks m r := by
  rw [hasBlocks, h, hasBlocks]

section Record
variable (m : Mem) (r v : Word)

theorem record_of_size : hasBlocks (m.setWord (r + 4#32) v) r = hasBlocks m r ∧
    ∀ i < 15, entry (m.setWord (r + 4#32) v) (inodeBlocks r) i = entry m (inodeBlocks r) i := by
  have h := m.setWord_changes (r + 4#32) v
  have h0 := span_disjoint (o := 0) (n := 2) (p := 4) (k := 4) r (by decide) (by decide) (by decide)
  rw [BitVec.add_zero] at h0
  refine ⟨by rw [hasBlocks, half_of_eqOn (h.keeps h0) (Set.Subset.refl _), hasBlocks], ?_⟩
  intro i hi
  simp only [entry, inodeBlocks, add_ofNat_add]
  exact word_of_eqOn (h.keeps (span_disjoint r (by omega) (by omega) (by omega)))
    (Set.Subset.refl _)

theorem record_of_first : (m.setWord (inodeBlocks r) v).half r = m.half r ∧
    entry (m.setWord (inodeBlocks r) v) (inodeBlocks r) 0 = v ∧
    ∀ i, 0 < i → i < 15 →
      entry (m.setWord (inodeBlocks r) v) (inodeBlocks r) i = entry m (inodeBlocks r) i := by
  have h := m.setWord_changes (inodeBlocks r) v
  have h0 := span_disjoint (o := 0) (n := 2) (p := 40) (k := 4) r (by decide) (by decide)
    (by decide)
  rw [BitVec.add_zero] at h0
  refine ⟨half_of_eqOn (h.keeps h0) (Set.Subset.refl _), ?_, ?_⟩
  · rw [entry, BitVec.add_zero, Mem.word_setWord]
  · intro i hpos hi
    have hd := span_disjoint (o := 40 + 4 * i) (n := 4) (p := 40) (k := 4) r (by omega) (by omega)
      (by decide)
    rw [← add_ofNat_add] at hd
    exact word_of_eqOn (h.keeps hd) (Set.Subset.refl _)

end Record

section Write
variable {L : Geometry} {m : Mem} (hc : Consistent L m) (hp : Plain L)
include hc hp

theorem takeBlock_describes (k : Nat) (count : BitVec 16) : Describes L (takeBlock L m k count) :=
  describes_takeBit m hp _ hc.describes L.blockgroups_pos rfl (by simp) (by simp) (by decide)

theorem storeData_attaches {k : Nat} {f : OpenFile} (h2 : L.blockSize = 2048) (hn : L.Live m n)
    (hk : k < 32) (hfree : L.blockBit m 0 k = false) (hlen : data.length ≤ L.blockSize) :
    ∃ r m', storeData (markBlock L m k) L.sb (ofNat 32 n) (L.descAddr 0) k f data =
      .ok (r, m') ∧ r.obtained = some (k : Int) ∧ Attaches L m m' n k := by
  have hdata := (hc.clear_bit h2 (by omega) hfree).2.1
  simp only [storeData]
  rw [← takeBlock_eq]
  generalize hm₂ : takeBlock L m k _ = m₂
  have hd : Describes L m₂ := hm₂ ▸ takeBlock_describes hc hp k _
  have hsize := hd.blockSize_toNat hp
  rw [hd.readInode_eq hp hn.1]
  simp only [hsize, if_neg (Nat.not_lt.mpr hlen), BitVec.ofInt_natCast, hd.getBlock_eq]
  refine ⟨_, _, rfl, rfl, ?_⟩
  have hblock : span (L.blockAddr k) data.length ⊆ L.zone (.data k) := hp.start_subset rfl hlen
  have hrec : Set.EqOn (m₂.setBytes (L.blockAddr k) data) m₂ (L.zone (.record n)) :=
    (m₂.setBytes_changes _ _).keeps
      (Set.disjoint_of_subset_right hblock (hp.zone_disjoint hn.1 hdata (by simp)))
  have h3 := hp.record_fields hrec
  have h4 := record_of_size (m₂.setBytes (L.blockAddr k) data) (L.recordAddr n)
    (Mem.word (m₂.setBytes (L.blockAddr k) data) (L.recordAddr n + 4#32) +
      ofNat 32 data.length)
  have h5 := record_of_first ((m₂.setBytes (L.blockAddr k) data).setWord (L.recordAddr n + 4#32)
    (Mem.word (m₂.setBytes (L.blockAddr k) data) (L.recordAddr n + 4#32) +
      ofNat 32 data.length)) (L.recordAddr n) (ofNat 32 k)
  subst hm₂
  refine attaches_of_stores hc hp h2 hn hk hfree ?_ (((hasBlocks_congr h5.1).trans h4.1).trans
    h3.1) h5.2.1
    fun i h0 hi => ((h5.2.2 i h0 hi).trans (h4.2 i hi)).trans (h3.2 i hi)
  have hzd := L.zone_subset_zones (z := .data k) (Z := {.data k, .record n}) (by simp)
  have hzr := L.zone_subset_zones (z := .record n) (Z := {.data k, .record n}) (by simp)
  refine (((ChangesOnly.refl _ _).setBytes _ (hblock.trans hzd)).setWord ?_).setWord ?_
  · exact (hp.part_subset (z := .record n) rfl (by simp [Layout.zoneSize])).trans hzr
  · exact (hp.part_subset (z := .record n) rfl (by simp [Layout.zoneSize])).trans hzr

omit hc hp in
theorem firstGroup_lt {unallocated : Mem → Word → BitVec 16}
    (h : firstGroup m L.sb unallocated groups = some g) : g < groups :=
  List.mem_range.mp (List.mem_of_find?_eq_some h)

/-- A write that finds no block changes nothing; one that does attaches it. -/
theorem ext2Write_cases {no : Word} {f : OpenFile} {r : WriteResult} {m' : Mem}
    (hn : L.Live m no.toNat) (hok : ∀ groups g, getBlockgroupCount m L.sb = .ok groups →
      firstGroup m L.sb descUnallocatedBlocks groups = some g → BitmapOk L m g)
    (h : ext2Write m L.sb no f data = .ok (r, m')) :
    r.obtained = none ∧ m' = m ∧ (∀ groups g, getBlockgroupCount m L.sb = .ok groups →
        firstGroup m L.sb descUnallocatedBlocks groups = some g → NoBlock L m g) ∨
      L.blockSize = 2048 ∧ (∃ groups g, getBlockgroupCount m L.sb = .ok groups ∧
        firstGroup m L.sb descUnallocatedBlocks groups = some g ∧ ¬NoBlock L m g) ∧
        ∃ b : Nat, r.obtained = some (b : Int) ∧ Attaches L m m' no.toNat b := by
  have hno : ofNat 32 no.toNat = no := by rw [ofNat_toNat, setWidth_eq]
  rw [← hno, ext2Write, hc.describes.blockSize_toNat hp] at h
  by_cases hlen : L.blockSize < data.length
  · rw [if_pos hlen] at h
    cases h
  rw [if_neg hlen] at h
  cases hgroups : getBlockgroupCount m L.sb with
  | error e => rw [hgroups] at h; cases h
  | ok groups =>
    simp only [hgroups] at h
    cases hg : firstGroup m L.sb descUnallocatedBlocks groups with
    | none =>
      rw [hg] at h
      cases h
      refine .inl ⟨rfl, rfl, fun groups' g' hgroups' hg' => ?_⟩
      cases hgroups'
      rw [hg] at hg'
      cases hg'
    | some g =>
      have hlt := (firstGroup_lt hg).trans_le (hc.describes.getBlockgroupCount_le hp hgroups)
      simp only [hg] at h
      by_cases hpos : f.pos ≠ 0#32
      · rw [if_pos hpos] at h
        cases h
      rw [if_neg hpos, hp.blockgroupDescriptor_eq, hc.describes.bitmapBlockNo g hlt] at h
      rcases getFreeBlock_cases hc hp (hok groups g hgroups hg) with
        ⟨hno, hnone⟩ | ⟨hyes, rfl, h2, k, hk, hfree, hsome⟩
      · simp only [hnone] at h
        cases h
        refine .inl ⟨rfl, rfl, fun groups' g' hgroups' hg' => ?_⟩
        cases hgroups'
        rw [hg] at hg'
        cases hg'
        exact hno
      · have hk0 : ¬(k : Int) < 0 := by omega
        simp only [hsome, if_neg hk0] at h
        obtain ⟨r', m'', heq, hr, ha⟩ := storeData_attaches hc hp (f := f) h2 hn hk hfree
          (Nat.not_lt.mp hlen)
        rw [heq] at h
        cases h
        exact .inr ⟨h2, ⟨groups, 0, rfl, hg, hyes⟩, k, hr, ha⟩

end Write

/-! Creating an inode. -/

/-- Word 0 of the inode bitmap of the first group. -/
def inodeWord (L : Layout) (m : Mem) : Word := m.word (L.blockAddr (L.bitmapInodeNo 0))

theorem freeInodeLoop_first {desc : Word} (left : Nat) (h : m.word bitmap ≠ 0xFFFFFFFF#32)
    {out : Int} {w : Word} (hr : getAndSetLsb (m.word bitmap) = (out, w)) :
    freeInodeLoop bitmap desc (left + 1) 0 m = (out, (m.setWord bitmap w).setHalf (desc + 14#32)
      (descUnallocatedInodes (m.setWord bitmap w) desc - 1#16)) := by
  rw [freeInodeLoop]
  simp [if_neg h, hr]

theorem initInode_changes (m : Mem) (r flags : Word) :
    ChangesOnly (span r 128) m (initInode m r flags) := by
  have hpart : ∀ o n, o + n ≤ 128 → span (r + ofNat 32 o) n ⊆ span r 128 :=
    fun o n h => span_add_subset r h (by decide)
  have hstart : ∀ n ≤ 128, span r n ⊆ span r 128 := by
    intro n hn
    have h := hpart 0 n (by omega)
    rwa [BitVec.add_zero] at h
  have h1 := (ChangesOnly.refl (span r 128) m).setBytes (List.replicate 128 0#8)
    (hstart _ (by simp))
  have h2 := (h1.setHalf (v := flags.setWidth 16) (hstart 2 (by decide))).setHalf (v := 1#16)
    (hpart 26 2 (by decide))
  exact ((h2.setWord (hpart 4 4 (by decide))).setWord (hpart 108 4 (by decide))).set
    (hpart 117 1 (by decide))

theorem initInode_empty (m : Mem) (r flags : Word) {i : Nat} (hi : i < 15) :
    entry (initInode m r flags) (inodeBlocks r) i = 0#32 := by
  have hzero : ∀ o < 128, m.setBytes r (List.replicate 128 0#8) (r + ofNat 32 o) = 0#8 := by
    intro o ho
    rw [Mem.setBytes_byte _ _ _ (by simpa using ho) (by simp), List.getElem_replicate]
  -- the stores behind the clearing are outside of the block numbers
  have hout : ∀ o n, o + n ≤ 40 ∨ 100 ≤ o → o + n ≤ 128 →
      span (r + ofNat 32 o) n ⊆ (span (r + ofNat 32 40) 60)ᶜ := by
    intro o n h hle
    exact Set.subset_compl_iff_disjoint_right.mpr
      (span_disjoint r (by omega) (by omega) (by decide))
  have hhead := hout 0 2 (by decide) (by decide)
  rw [BitVec.add_zero] at hhead
  have h2 := ((ChangesOnly.refl _ (m.setBytes r (List.replicate 128 0#8))).setHalf
    (v := flags.setWidth 16) hhead).setHalf (v := 1#16) (hout 26 2 (by decide) (by decide))
  have h5 := ((h2.setWord (v := 0#32) (hout 4 4 (by decide) (by decide))).setWord (v := 0#32)
    (hout 108 4 (by decide) (by decide))).set (v := 0#8) (hout 117 1 (by decide) (by decide))
  have hkeep := h5.keeps (Set.disjoint_compl_right_iff_subset.mpr (Set.Subset.refl _))
  have hsub : span (r + ofNat 32 (40 + 4 * i)) 4 ⊆ span (r + ofNat 32 40) 60 :=
    span_subset r (by omega) (by omega) (by decide)
  rw [entry, inodeBlocks, add_ofNat_add]
  refine (word_of_eqOn hkeep hsub).trans ?_
  have hbytes : ∀ j < 4, m.setBytes r (List.replicate 128 0#8)
      (r + ofNat 32 (40 + 4 * i) + ofNat 32 j) = 0#8 := by
    intro j hj
    rw [add_ofNat_add]
    exact hzero _ (by omega)
  have h0 := hbytes 0 (by decide)
  rw [BitVec.add_zero] at h0
  rw [Mem.word, h0, hbytes 1 (by decide), hbytes 2 (by decide), hbytes 3 (by decide)]
  rfl

theorem initInode_kind (m : Mem) (r flags : Word) :
    (initInode m r flags).half r = flags.setWidth 16 := by
  have hout : ∀ o n, 2 ≤ o → o + n ≤ 128 → span (r + ofNat 32 o) n ⊆ (span r 2)ᶜ := by
    intro o n h hle
    have hd := span_disjoint (o := o) (n := n) (p := 0) (k := 2) r (by omega) (by omega) (by decide)
    rw [BitVec.add_zero] at hd
    exact Set.subset_compl_iff_disjoint_right.mpr hd
  have h1 := ((ChangesOnly.refl (span r 2)ᶜ ((m.setBytes r (List.replicate 128 0#8)).setHalf r
    (flags.setWidth 16))).setHalf (v := 1#16) (hout 26 2 (by decide) (by decide))).setWord
    (v := 0#32) (hout 4 4 (by decide) (by decide))
  have h2 := (h1.setWord (v := 0#32) (hout 108 4 (by decide) (by decide))).set (v := 0#8)
    (hout 117 1 (by decide) (by decide))
  have hkeep := h2.keeps (Set.disjoint_compl_right_iff_subset.mpr (Set.Subset.refl _))
  exact (half_of_eqOn hkeep (Set.Subset.refl _)).trans (Mem.half_setHalf _ _ _)

/-- The type of the new inode `n`, and its name behind the entries of block `d`. -/
structure Inserted (L : Layout) (m m' : Mem) (n d : Nat) (name : Text) (flags : Word) : Prop where
  kind : m'.half (L.recordAddr n) = flags.setWidth 16
  entries : ∀ es, 0#32 ∉ L.zone (.data d) → name.length ≤ 255 →
    Entries m (L.blockAddr d) 0 L.blockSize es →
      Entries m' (L.blockAddr d) 0 L.blockSize (es ++ [⟨ofNat 32 n, name⟩])

/-- Block `b` lists the new directory `n` under '.' and '..'. -/
structure Filled (L : Layout) (m m' : Mem) (n b : Nat) : Prop where
  kind : m'.half (L.recordAddr n) = m.half (L.recordAddr n)
  entries : Entries m' (L.blockAddr b) 0 L.blockSize
    [⟨ofNat 32 n, [dot]⟩, ⟨ofNat 32 n, [dot, dot]⟩]

section Create
variable {L : Geometry} {m : Mem} (hc : Consistent L m) (hp : Plain L)
include hc hp

omit hc in
theorem super_subset (o n : Nat) (h : o + n ≤ 1024) :
    span (L.sb + ofNat 32 o) n ⊆ L.zone .super := by
  have hsb : L.sb = L.cell (L.zoneStart .super) := by
    rw [Layout.cell, Layout.zoneStart, BitVec.sub_add_cancel]
  rw [hsb]
  exact hp.part_subset rfl (by simpa [Layout.zoneSize] using h)

/-- A new directory gets a block, or there is none and nothing changes any more. -/
theorem newDirectory_cases (hn : L.Live m n) (hok : BitmapOk L m 0) :
    newDirectory m L.sb (L.descAddr 0) (L.recordAddr n) (n : Int) = (⟨none, none⟩, m) ∨
      L.blockSize = 2048 ∧ ∃ (b : Nat) (m' : Mem),
        newDirectory m L.sb (L.descAddr 0) (L.recordAddr n) (n : Int) =
          (⟨some (n : Int), some (b : Int)⟩, m') ∧ Attaches L m m' n b ∧
          Filled L m m' n b := by
  have hfree := getFreeBlock_cases hc hp hok
  rw [newDirectory, hc.describes.bitmapBlockNo 0 L.blockgroups_pos]
  rcases hfree with ⟨-, hnone⟩ | ⟨-, -, h2, k, hk, hclear, hsome⟩
  · rw [hnone]
    exact .inl rfl
  · have hk0 : ¬(k : Int) < 0 := by omega
    simp only [hsome, if_neg hk0, BitVec.ofInt_natCast]
    refine .inr ⟨h2, k, _, rfl, ?_⟩
    have hdata := (hc.clear_bit h2 (by omega) hclear).2.1
    rw [← takeBlock_eq]
    generalize hm₂ : takeBlock L m k _ = m₂
    have hd : Describes L m₂ := hm₂ ▸ takeBlock_describes hc hp k _
    rw [hd.getBlock_eq]
    have h3 := record_of_first m₂ (L.recordAddr n) (ofNat 32 k)
    generalize hm₃ : m₂.setWord (inodeBlocks (L.recordAddr n)) (ofNat 32 k) = m₃ at h3
    have hblock : span (L.blockAddr k) 24 ⊆ L.zone (.data k) :=
      hp.start_subset rfl (by simp only [Layout.zoneSize]; omega)
    have hwrite := writeDirectoryStructure_changes m₃ L.sb (L.blockAddr k) (ofNat 32 n)
    have hrec := hwrite.keeps (Set.disjoint_of_subset_right hblock
      (hp.zone_disjoint (z := .record n) hn.1 hdata (by simp)))
    have h4 := hp.record_fields hrec
    have hzd := L.zone_subset_zones (z := .data k) (Z := {.data k, .record n}) (by simp)
    have hzr := L.zone_subset_zones (z := .record n) (Z := {.data k, .record n}) (by simp)
    have h₂₃ : ChangesOnly (L.zone (.record n)) m₂ m₃ :=
      hm₃ ▸ (ChangesOnly.refl _ _).setWord (hp.part_subset (z := .record n) rfl
        (by simp [Layout.zoneSize]))
    have hhead := hp.start_subset (z := .record n) (a := L.recordAddr n) (n := 2) rfl
      (by simp [Layout.zoneSize])
    have hd₃ : BLOCKSIZE m₃ L.sb = ofNat 32 L.blockSize := by
      have hsup : Set.EqOn m₃ m₂ (L.zone .super) :=
        h₂₃.keeps (hp.zone_disjoint trivial hn.1 (by simp))
      rw [← hd.blockSize, BLOCKSIZE, BLOCKSIZE, sbBlockSizeShift, sbBlockSizeShift,
        word_of_eqOn hsup (super_subset hp 24 4 (by decide))]
    have hentries := writeDirectoryStructure_entries m₃
      (ofNat 32 n) (Set.disjoint_of_subset (super_subset hp 24 4 (by decide)) hblock
        (hp.zone_disjoint trivial hdata (by simp))) (by rw [hd₃, h2]; decide)
      (by rw [hd₃, h2]; decide) (by rw [hd₃, h2]; decide)
    rw [hd₃, toNat_ofNat_of_lt (by omega)] at hentries
    have htake : Set.EqOn m₂ m (L.zone (.record n)) := hm₂ ▸ takeBlock_record m hp _ hn.1
    have hkind : (writeDirectoryStructure m₃ L.sb (L.blockAddr k) (ofNat 32 n)).half
        (L.recordAddr n) = m.half (L.recordAddr n) :=
      ((half_of_eqOn hrec hhead).trans h3.1).trans (half_of_eqOn htake hhead)
    subst hm₂
    refine ⟨attaches_of_stores hc hp h2 hn hk hclear ?_ (h4.1.trans (hasBlocks_congr h3.1))
      ((h4.2 0 (by decide)).trans h3.2.1) fun i h0 hi => (h4.2 i hi).trans (h3.2.2 i h0 hi),
      hkind, hentries⟩
    exact (h₂₃.mono hzr).trans (hwrite.mono (hblock.trans hzd))

omit hc in
theorem BitmapOk.congr {m' : Mem} (h : BitmapOk L m 0)
    (he : Set.EqOn m' m (L.zone (.blockBitmap 0))) : BitmapOk L m' 0 := by
  have hbs := hp.blockSize
  have hword : ∀ i < L.blockSize / 4, bitmapWord L m' 0 i = bitmapWord L m 0 i :=
    fun i hi => word_of_eqOn he (hp.part_subset rfl (by simp only [Layout.zoneSize]; omega))
  rcases h with hfull | ⟨h0, ⟨h2, htop⟩ | ⟨htop, hrest⟩⟩
  · exact .inl fun i hi => (hword i hi).trans (hfull i hi)
  · exact .inr ⟨h0, .inl ⟨h2, by rw [hword 0 (by omega), htop]⟩⟩
  · exact .inr ⟨h0, .inr ⟨by rw [hword 0 (by omega), htop],
      fun i hi hlt => (hword i hlt).trans (hrest i hi hlt)⟩⟩

/-- The parent is a directory with a first block, into which the name fits. -/
structure NameFits (L : Layout) (m : Mem) (p : Nat) (name : Text) : Prop where
  kind : hasBlocks m (L.recordAddr p)
  first : entry m (inodeBlocks (L.recordAddr p)) 0 ≠ 0#32
  fits : EntryFits m (L.blockAddr (entry m (inodeBlocks (L.recordAddr p)) 0).toNat)
    (ofNat 32 L.blockSize) name

/-- The first block of an inode. -/
def firstBlock (L : Layout) (m : Mem) (p : Nat) : Nat :=
  (entry m (inodeBlocks (L.recordAddr p)) 0).toNat

omit hc hp in
theorem NameFits.holds {name : Text} (h : NameFits L m p name) : L.Holds m p 0 (firstBlock L m p) :=
  ⟨h.kind, 0, by decide, h.first, rfl, rfl⟩

/-- Inode `k + 1` is marked and its record is cleared; it has no name yet. -/
structure Clears (L : Layout) (m m' : Mem) (k : Nat) : Prop where
  changes : ChangesOnly (L.zones {.inodeBitmap 0, .counts 0, .record (k + 1)}) m m'
  bit : ∀ j < 8 * L.blockSize, L.inodeBit m' 0 j = (L.inodeBit m 0 j || decide (j = k))
  empty : ∀ i < 15, entry m' (inodeBlocks (L.recordAddr (k + 1))) i = 0#32

omit hc in
theorem clears_initInode {k : Nat} (count : BitVec 16) (flags : Word) (hk : k < 32)
    (hino : L.IsInode (k + 1)) : Clears L m
      (initInode (takeInode L m k count) (L.recordAddr (k + 1)) flags) k := by
  have hinit : ChangesOnly (L.zone (.record (k + 1))) (takeInode L m k count)
      (initInode (takeInode L m k count) (L.recordAddr (k + 1)) flags) :=
    initInode_changes _ _ _
  have htake : ChangesOnly (L.zones {.inodeBitmap 0, .counts 0}) m
      (takeInode L m k count) := takeBit_changes m hp count rfl (by decide)
  refine ⟨?_, fun j hj => ?_, fun i hi => initInode_empty _ _ _ hi⟩
  · refine (htake.mono (L.zones_mono ?_)).trans (hinit.mono (L.zone_subset_zones (by simp)))
    intro z hz
    simp only [Set.mem_insert_iff, Set.mem_singleton_iff] at hz ⊢
    tauto
  · have hmap : Set.EqOn _ (takeInode L m k count) (L.zone (.inodeBitmap 0)) :=
      hinit.keeps (hp.zone_disjoint L.blockgroups_pos hino (by simp))
    rw [Layout.inodeBit, hp.bitAt_eq hj hmap]
    exact takeBit_bit m hp count L.blockgroups_pos (by simp) rfl (by decide) hk hj

section Cleared
variable {m' : Mem} {k : Nat} (hino : L.IsInode (k + 1)) (hcl : Clears L m m' k)
include hino hcl
omit hc

theorem Clears.keeps {z : Zone} (hz : L.HasZone z)
    (hne : z ≠ .inodeBitmap 0 ∧ z ≠ .counts 0 ∧ z ≠ .record (k + 1)) :
    Set.EqOn m' m (L.zone z) := by
  refine hp.keeps hcl.changes ?_ hz (by simpa using hne)
  intro z' hz'
  rcases hz' with rfl | rfl | rfl
  · exact L.blockgroups_pos
  · exact L.blockgroups_pos
  · exact hino

theorem Clears.describes (hd : Describes L m) : Describes L m' :=
  hp.describes_of_eqOn hd (hcl.keeps hp hino trivial (by simp))
    fun g hg => hcl.keeps hp hino (z := .fields g) hg (by simp)

/-- With the name in the directory's block the inode is created. -/
theorem Clears.creates {m'' : Mem} {d : Nat} (hk : k < 8 * L.blockSize)
    (hfree : L.inodeBit m 0 k = false) (hl : L.Live m p) (hd : L.Holds m p 0 d)
    (hdata : L.HasZone (.data d)) (hch : ChangesOnly (L.zone (.data d)) m' m'') :
    Creates L m m'' (k + 1) d := by
  have hrec : Set.EqOn m'' m' (L.zone (.record (k + 1))) :=
    hch.keeps (hp.zone_disjoint hino hdata (by simp))
  have hmap : Set.EqOn m'' m' (L.zone (.inodeBitmap 0)) :=
    hch.keeps (hp.zone_disjoint L.blockgroups_pos hdata (by simp))
  refine ⟨by omega, hk, hfree, ⟨p, hl, hd⟩, ?_, fun j hj => ?_, fun i hi => ?_⟩
  · refine (hcl.changes.mono (L.zones_mono ?_)).trans (hch.mono (L.zone_subset_zones (by simp)))
    intro z hz
    simp only [Set.mem_insert_iff, Set.mem_singleton_iff] at hz ⊢
    tauto
  · rw [Layout.inodeBit, hp.bitAt_eq hj hmap]
    exact hcl.bit j hj
  · rw [(hp.record_fields hrec).2 i hi]
    exact hcl.empty i hi

end Cleared

/-- Behind the allocation of inode `k + 1`: its record is cleared and its name is stored in
the directory's block. -/
theorem createInode_creates {k : Nat} {count : BitVec 16} (hl : L.Live m p)
    (hname : NameFits L m p (basename path)) (hk : k < 32) (hfree : L.inodeBit m 0 k = false) :
    ∃ m', Creates L m m' (k + 1) (firstBlock L m p) ∧
      Inserted L m m' (k + 1) (firstBlock L m p) (basename path) flags ∧
      createInode (takeInode L m k count) L.sb (ofNat 32 p) (L.descAddr 0)
        ((k + 1 : Nat) : Int) path flags =
        .ok (if flags &&& 0x4000#32 ≠ 0#32 then
          newDirectory m' L.sb (L.descAddr 0) (L.recordAddr (k + 1)) ((k + 1 : Nat) : Int)
          else (⟨some ((k + 1 : Nat) : Int), none⟩, m')) := by
  have hbs := hp.blockSize
  obtain ⟨hino, -, -, hnew⟩ := hc.clear_inode (by omega) hfree
  have hdata := (hc.held_zone hl hname.holds).1
  have hd₁ : Describes L (takeInode L m k count) :=
    describes_takeBit m hp _ hc.describes L.blockgroups_pos rfl (by simp) (by simp) (by decide)
  have hcl := clears_initInode (m := m) hp count flags hk hino
  have hkind := initInode_kind (takeInode L m k count) (L.recordAddr (k + 1)) flags
  rw [createInode]
  simp only [BitVec.ofInt_natCast, hd₁.readInode_eq hp hino]
  generalize initInode (takeInode L m k count) (L.recordAddr (k + 1)) flags = m₂ at hcl hkind
  have hd₂ := hcl.describes hp hino hc.describes
  have hne : p ≠ k + 1 := fun h => hnew (h ▸ hl)
  have hrec := hcl.keeps hp hino (z := .record p) hl.1 (by simp [hne])
  have hblock := hcl.keeps hp hino hdata (by simp)
  have hsize : (BLOCKSIZE m₂ L.sb).toNat = L.blockSize := hd₂.blockSize_toNat hp
  have hw : (ofNat 32 L.blockSize).toNat = L.blockSize := by rw [← hd₂.blockSize, hsize]
  have hfits : EntryFits m₂ (L.blockAddr (firstBlock L m p)) (BLOCKSIZE m₂ L.sb)
      (basename path) := by
    rw [hd₂.blockSize]
    refine hname.fits.congr (by omega) ?_
    rw [hw]
    exact hblock
  obtain ⟨m₃, hins, hch⟩ := doInsert_changes hfits
  have hentry : getBlock m₂ L.sb (entry m₂ (inodeBlocks (L.recordAddr p)) 0) =
      L.blockAddr (firstBlock L m p) := by
    rw [(hp.record_fields hrec).2 0 (by decide), ← hd₂.getBlock_eq, firstBlock,
      ofNat_toNat, setWidth_eq]
  rw [hsize] at hch
  have hch' : ChangesOnly (L.zone (.data (firstBlock L m p))) m₂ m₃ := hch
  have hrec₃ : Set.EqOn m₃ m₂ (L.zone (.record (k + 1))) :=
    hch'.keeps (hp.zone_disjoint hino hdata (by simp))
  have hhead := hp.start_subset (z := .record (k + 1)) (a := L.recordAddr (k + 1)) (n := 2) rfl
    (by simp [Layout.zoneSize])
  refine ⟨m₃, hcl.creates hp hino (by omega) hfree hl hname.holds hdata hch',
    ⟨(half_of_eqOn hrec₃ hhead).trans hkind, ?_⟩, ?_⟩
  · intro es hnull hlen hes
    have hne : es ≠ [] := hes.ne_nil (by omega)
    have hes₂ := hes.congr_block (by omega) hblock
    rw [← hsize] at hes₂
    obtain ⟨m₄, hins', hes₄⟩ := doInsert_entries _
      (by rw [hsize]; exact hnull) hes₂ hne hlen hfits
    obtain rfl : m₃ = m₄ := Except.ok.inj (hins.symm.trans hins')
    rwa [hsize] at hes₄
  simp only [hd₂.readInode_eq hp hl.1, hentry, hins]
  split_ifs <;> rfl

/-- The inodes are looked for in the first group, and the top bit of the first word of its
bitmap is clear. -/
def InodesOk (L : Layout) (m : Mem) : Prop :=
  ∀ groups g, getBlockgroupCount m L.sb = .ok groups →
    firstGroup m L.sb descUnallocatedInodes groups = some g →
      g = 0 ∧ (inodeWord L m).getLsbD 31 = false

variable (hl : L.Live m p) (hname : NameFits L m p (basename path))
  (hgroups : getBlockgroupCount m L.sb = .ok groups)
  (hg : firstGroup m L.sb descUnallocatedInodes groups = some 0)
  (htop : (inodeWord L m).getLsbD 31 = false)
include hl hname hgroups hg htop

/-- The inode is taken from the first group and its name is stored; what is left to do is the
block of a directory. -/
theorem ext2NewInode_creates :
    ∃ (n : Nat) (m₁ : Mem), Creates L m m₁ n (firstBlock L m p) ∧
      Inserted L m m₁ n (firstBlock L m p) (basename path) flags ∧
      ext2NewInode m L.sb (ofNat 32 p) path flags =
        .ok (if flags &&& 0x4000#32 ≠ 0#32 then
          newDirectory m₁ L.sb (L.descAddr 0) (L.recordAddr n) (n : Int)
          else (⟨some (n : Int), none⟩, m₁)) := by
  have hbs := hp.blockSize
  obtain ⟨k, hk, hr, hclear⟩ := getAndSetLsb_spec htop
  have hones : inodeWord L m ≠ 0xFFFFFFFF#32 := by
    intro hones
    rw [hones] at htop
    exact absurd htop (by decide)
  have hfree : L.inodeBit m 0 k = false := by
    rw [Layout.inodeBit, bitAt_eq_word _ _ hk]
    exact hclear
  obtain ⟨left, hleft⟩ : ∃ left, L.blockSize / 4 = left + 1 := ⟨L.blockSize / 4 - 1, by omega⟩
  obtain ⟨m₁, hcr, hins, heq⟩ := createInode_creates hc hp hl hname hk hfree
  refine ⟨k + 1, m₁, hcr, hins, ?_⟩
  rw [← heq, ext2NewInode]
  simp only [hgroups, hg, hp.blockgroupDescriptor_eq,
    hc.describes.bitmapInodeNo 0 L.blockgroups_pos, hc.describes.getBlock_eq,
    hc.describes.blockSize_toNat hp, hleft, freeInodeLoop_first left hones hr]
  rfl

/-- Without a block NULL is returned, and the inode and its name stay. -/
theorem ext2NewInode_full (hdir : flags &&& 0x4000#32 ≠ 0#32)
    (hfull : ∀ i < L.blockSize / 4, bitmapWord L m 0 i = 0xFFFFFFFF#32) :
    ∃ (n : Nat) (m₁ : Mem), Creates L m m₁ n (firstBlock L m p) ∧
      Inserted L m m₁ n (firstBlock L m p) (basename path) flags ∧
      ext2NewInode m L.sb (ofNat 32 p) path flags = .ok (⟨none, none⟩, m₁) := by
  obtain ⟨n, m₁, hcr, hins, heq⟩ := ext2NewInode_creates hc hp hl hname hgroups hg htop
  refine ⟨n, m₁, hcr, hins, ?_⟩
  rw [heq, if_pos hdir]
  have hc₁ := hcr.consistent hc hp
  have hkeep := hcr.keeps hc hp (z := .blockBitmap 0) L.blockgroups_pos (by simp)
  have hfull₁ : ∀ i < L.blockSize / 4, bitmapWord L m₁ 0 i = 0xFFFFFFFF#32 := by
    intro i hi
    rw [← hfull i hi]
    exact word_of_eqOn hkeep (hp.part_subset rfl (by simp only [Layout.zoneSize]; omega))
  rw [newDirectory, hc₁.describes.bitmapBlockNo 0 L.blockgroups_pos]
  rcases getFreeBlock_cases hc₁ hp (.inl hfull₁) with ⟨-, hnone⟩ | ⟨hsome, -⟩
  · rw [hnone]
    rfl
  · exact absurd (.inl hfull₁) hsome

end Create
end TapiOS.Fs.Ext2
