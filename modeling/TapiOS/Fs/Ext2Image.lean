import Mathlib.Data.Set.Lattice
import TapiOS.Fs.Ext2Write
import TapiOS.Util.Frames

/-!
# Consistent ext2 images

What an image is for, apart from how the kernel reads it: a layout names the blocks of the
metadata, every block has a bit in the bitmap of its group, and the block numbers in the
inodes span the blocks of each file. `Consistent` is what a file system check would accept.
-/
namespace TapiOS.Fs.Ext2

open Util
open BitVec (ofNat)

variable {n : Nat}

/-- Where the pieces of an image lie; block numbers and sizes are natural numbers. -/
structure Layout where
  sb : Word
  blockSize : Nat
  superblockBlocknum : Nat
  blocksInBlockgroup : Nat
  inodesInBlockgroup : Nat
  blocks : Nat
  blockgroups : Nat
  recordSize : Nat
  bitmapBlockNo : Nat → Nat
  bitmapInodeNo : Nat → Nat
  inodeTableBlock : Nat → Nat

/-- What a metadata block is for: the boot block, the superblock and the descriptor table
are the first blocks of the image. -/
inductive Role where
  | system (j : Nat)
  | blockBitmap (g : Nat)
  | inodeBitmap (g : Nat)
  | inodeTable (g j : Nat)
  deriving DecidableEq

namespace Layout
variable (L : Layout)

def descriptorBlocks : Nat := (32 * L.blockgroups + L.blockSize - 1) / L.blockSize

def tableBlocks : Nat := (L.recordSize * L.inodesInBlockgroup + L.blockSize - 1) / L.blockSize

/-- The roles an image of this layout has. -/
def HasRole : Role → Prop
  | .system j => j < L.superblockBlocknum + 1 + L.descriptorBlocks
  | .blockBitmap g => g < L.blockgroups
  | .inodeBitmap g => g < L.blockgroups
  | .inodeTable g j => g < L.blockgroups ∧ j < L.tableBlocks

def place : Role → Nat
  | .system j => j
  | .blockBitmap g => L.bitmapBlockNo g
  | .inodeBitmap g => L.bitmapInodeNo g
  | .inodeTable g j => L.inodeTableBlock g + j

def Metadata (x : Nat) : Prop := ∃ r, L.HasRole r ∧ L.place r = x

/-- The address of the byte at an offset of the image. -/
def cell (o : Nat) : Word := L.sb - 1024#32 + ofNat 32 o

def blockAddr (x : Nat) : Word := L.cell (L.blockSize * x)

/-- The descriptor table is in the block behind the superblock's. -/
def descAddr (g : Nat) : Word :=
  L.cell (L.blockSize * (L.superblockBlocknum + 1) + 32 * g)

def inodeGroup (n : Nat) : Nat := (n - 1) / L.inodesInBlockgroup

def inodeIndex (n : Nat) : Nat := (n - 1) % L.inodesInBlockgroup

def recordAddr (n : Nat) : Word :=
  L.cell (L.blockSize * L.inodeTableBlock (L.inodeGroup n) + L.recordSize * L.inodeIndex n)

end Layout

/-- The layout of an ext2 image: the superblock is 1024 bytes from its start, the metadata
blocks are inside of the image and no block has two roles. -/
structure Geometry extends Layout where
  blockSize_eq : ∃ s, blockSize = 1024 * 2 ^ s
  superblock_eq : superblockBlocknum = 1024 / blockSize
  blocksInBlockgroup_pos : 0 < blocksInBlockgroup
  blocksInBlockgroup_le : blocksInBlockgroup ≤ 8 * blockSize
  inodesInBlockgroup_pos : 0 < inodesInBlockgroup
  inodesInBlockgroup_le : inodesInBlockgroup ≤ 8 * blockSize
  blockgroups_pos : 0 < blockgroups
  blocks_fit : blockSize * blocks ≤ 2 ^ 32
  inodes_fit : blockgroups * inodesInBlockgroup < 2 ^ 32
  blocks_le : blocks ≤ superblockBlocknum + blockgroups * blocksInBlockgroup
  place_lt : ∀ r, toLayout.HasRole r → toLayout.place r < blocks
  place_inj : ∀ r r', toLayout.HasRole r → toLayout.HasRole r' →
    toLayout.place r = toLayout.place r' → r = r'

instance : Coe Geometry Layout := ⟨Geometry.toLayout⟩

/-- The size of an inode record that the superblock states. -/
def sbInodeSize (m : Mem) (sb : Word) : Nat :=
  if 1 ≤ (m.word (sb + 76#32)).toNat then (m.half (sb + 88#32)).toNat else 128

/-- The superblock and the descriptors state the layout. -/
structure Describes (L : Layout) (m : Mem) : Prop where
  blockSize : BLOCKSIZE m L.sb = ofNat 32 L.blockSize
  superblockBlocknum : sbSuperblockBlocknum m L.sb = ofNat 32 L.superblockBlocknum
  blocksInBlockgroup : sbBlocksInBlockgroup m L.sb = ofNat 32 L.blocksInBlockgroup
  inodesInBlockgroup : sbInodesInBlockgroup m L.sb = ofNat 32 L.inodesInBlockgroup
  blocks : sbBlocks m L.sb = ofNat 32 L.blocks
  inodes : sbInodes m L.sb = ofNat 32 (L.blockgroups * L.inodesInBlockgroup)
  recordSize : sbInodeSize m L.sb = L.recordSize
  bitmapBlockNo : ∀ g < L.blockgroups,
    descBitmapBlockNo m (L.descAddr g) = ofNat 32 (L.bitmapBlockNo g)
  bitmapInodeNo : ∀ g < L.blockgroups,
    descBitmapInodeNo m (L.descAddr g) = ofNat 32 (L.bitmapInodeNo g)
  inodeTableBlock : ∀ g < L.blockgroups,
    descInodeTableBlock m (L.descAddr g) = ofNat 32 (L.inodeTableBlock g)

/-- The type of the inode is none of those that keep something else than block numbers in
`blocks`: pipes, devices, symbolic links and sockets. -/
def hasBlocks (m : Mem) (inode : Word) : Bool :=
  decide (m.half inode &&& 0xF000#16 ∉ [0x1000#16, 0x2000#16, 0x6000#16, 0xA000#16, 0xC000#16])

namespace Layout
variable (L : Layout) (m : Mem)

def blockBit (g k : Nat) : Bool := bitAt m (L.blockAddr (L.bitmapBlockNo g)) k

def inodeBit (g k : Nat) : Bool := bitAt m (L.blockAddr (L.bitmapInodeNo g)) k

/-- The bit that stands for a block. -/
def marked (x : Nat) : Bool :=
  L.blockBit m ((x - L.superblockBlocknum) / L.blocksInBlockgroup)
    ((x - L.superblockBlocknum) % L.blocksInBlockgroup)

def IsInode (n : Nat) : Prop := 1 ≤ n ∧ n ≤ L.blockgroups * L.inodesInBlockgroup

/-- An inode number in use. -/
def Live (n : Nat) : Prop :=
  L.IsInode n ∧ L.inodeBit m (L.inodeGroup n) (L.inodeIndex n)

/-- Pointer `b` of level `lvl` leads to block `x`, where level 0 is file data and the levels
above are blocks of block numbers. -/
def Covers : Nat → Word → Nat → Nat → Prop
  | 0, b, l, x => b ≠ 0#32 ∧ l = 0 ∧ x = b.toNat
  | lvl + 1, b, l, x => b ≠ 0#32 ∧ ((l = lvl + 1 ∧ x = b.toNat) ∨
      ∃ j < L.blockSize / 4, Covers lvl (entry m (L.blockAddr b.toNat) j) l x)

/-- Block `x` belongs to inode `n`. The last three of its 15 pointers are indirect. -/
def Holds (n l x : Nat) : Prop :=
  hasBlocks m (L.recordAddr n) ∧
    ∃ i < 15, L.Covers m (i - FINAL_DIRECT_BLOCK) (entry m (inodeBlocks (L.recordAddr n)) i) l x

end Layout

/-- What a file system check accepts: metadata and the blocks of files are marked used, the
bits behind the last block and the last inode are set, and every block of a file belongs to
one inode, at one level, and is not metadata. -/
structure Consistent (L : Layout) (m : Mem) : Prop where
  describes : Describes L m
  metadata_marked : ∀ x, L.Metadata x → L.superblockBlocknum ≤ x → L.marked m x
  block_padding : ∀ g < L.blockgroups, ∀ k < 8 * L.blockSize,
    L.blocksInBlockgroup ≤ k ∨
      L.blocks ≤ L.superblockBlocknum + g * L.blocksInBlockgroup + k → L.blockBit m g k
  inode_padding : ∀ g < L.blockgroups, ∀ k < 8 * L.blockSize,
    L.inodesInBlockgroup ≤ k → L.inodeBit m g k
  held : ∀ n l x, L.Live m n → L.Holds m n l x →
    L.superblockBlocknum ≤ x ∧ x < L.blocks ∧ ¬L.Metadata x ∧ L.marked m x
  one_owner : ∀ n l n' l' x, L.Live m n → L.Live m n' → L.Holds m n l x → L.Holds m n' l' x →
    n = n' ∧ l = l'

/-! The image in pieces that no two things share. -/

inductive Zone where
  | super
  | fields (g : Nat)
  | counts (g : Nat)
  | blockBitmap (g : Nat)
  | inodeBitmap (g : Nat)
  | record (n : Nat)
  | data (x : Nat)
  deriving DecidableEq

variable {z z' : Zone} {Z : Set Zone}

namespace Layout
variable (L : Layout)

def zoneStart : Zone → Nat
  | .super => 1024
  | .fields g => L.blockSize * (L.superblockBlocknum + 1) + 32 * g
  | .counts g => L.blockSize * (L.superblockBlocknum + 1) + 32 * g + 12
  | .blockBitmap g => L.blockSize * L.bitmapBlockNo g
  | .inodeBitmap g => L.blockSize * L.bitmapInodeNo g
  | .record n => L.blockSize * L.inodeTableBlock (L.inodeGroup n) + L.recordSize * L.inodeIndex n
  | .data x => L.blockSize * x

/-- A descriptor is its three block numbers and the two counts of what is unallocated. -/
def zoneSize : Zone → Nat
  | .super => 1024
  | .fields _ => 12
  | .counts _ => 4
  | .record _ => 128
  | .blockBitmap _ | .inodeBitmap _ | .data _ => L.blockSize

def HasZone : Zone → Prop
  | .super => True
  | .fields g | .counts g | .blockBitmap g | .inodeBitmap g => g < L.blockgroups
  | .record n => L.IsInode n
  | .data x => x < L.blocks ∧ ¬L.Metadata x

def zone (z : Zone) : Set Word := span (L.cell (L.zoneStart z)) (L.zoneSize z)

def zones (Z : Set Zone) : Set Word := ⋃ z ∈ Z, L.zone z

theorem zone_subset_zones (hz : z ∈ Z) : L.zone z ⊆ L.zones Z :=
  Set.subset_biUnion_of_mem hz

theorem zones_mono {Z' : Set Zone} (h : Z ⊆ Z') : L.zones Z ⊆ L.zones Z' :=
  Set.biUnion_subset_biUnion_left h

end Layout

namespace Geometry
variable {L : Geometry}

theorem inodeGroup_lt (hn : L.IsInode n) : L.inodeGroup n < L.blockgroups := by
  apply Nat.div_lt_of_lt_mul
  have h1 := hn.1
  have h2 := hn.2
  rw [Nat.mul_comm]
  omega

theorem inodeIndex_lt (n : Nat) : L.inodeIndex n < L.inodesInBlockgroup :=
  Nat.mod_lt _ L.inodesInBlockgroup_pos

theorem inode_ext {n' : Nat} (hn : L.IsInode n) (hn' : L.IsInode n')
    (hg : L.inodeGroup n = L.inodeGroup n') (hi : L.inodeIndex n = L.inodeIndex n') : n = n' := by
  have h1 : n - 1 = n' - 1 := Nat.ext_div_mod hg hi
  have h2 := hn.1
  have h3 := hn'.1
  omega

end Geometry

/-- Blocks of 1024 or 2048 bytes and inode records of 128: the images in which the kernel
looks for the descriptor table and for the inodes where they are. -/
structure Plain (L : Layout) : Prop where
  blockSize : L.blockSize = 1024 ∨ L.blockSize = 2048
  recordSize : L.recordSize = 128

namespace Plain
variable {L : Geometry} (hp : Plain L.toLayout)
include hp

/-- In both cases the descriptor table starts at offset 2048. -/
theorem sizes : L.blockSize = 1024 ∧ L.superblockBlocknum = 1 ∨
    L.blockSize = 2048 ∧ L.superblockBlocknum = 0 := by
  have hs := L.superblock_eq
  rcases hp.blockSize with h | h
  · exact .inl ⟨h, by rw [hs, h]⟩
  · exact .inr ⟨h, by rw [hs, h]⟩

theorem table_eq : L.blockSize * (L.superblockBlocknum + 1) = 2048 := by
  rcases hp.sizes with ⟨h, h0⟩ | ⟨h, h0⟩ <;> rw [h, h0]

end Plain

namespace Layout
variable (L : Layout)

/-- The block a zone lies in. -/
def home : Zone → Nat
  | .super => L.superblockBlocknum
  | .fields g | .counts g => L.superblockBlocknum + 1 + 32 * g / L.blockSize
  | .blockBitmap g => L.bitmapBlockNo g
  | .inodeBitmap g => L.bitmapInodeNo g
  | .record n => L.inodeTableBlock (L.inodeGroup n) + L.recordSize * L.inodeIndex n / L.blockSize
  | .data x => x

/-- The role of that block. -/
def zoneRole : Zone → Option Role
  | .super => some (.system L.superblockBlocknum)
  | .fields g | .counts g => some (.system (L.superblockBlocknum + 1 + 32 * g / L.blockSize))
  | .blockBitmap g => some (.blockBitmap g)
  | .inodeBitmap g => some (.inodeBitmap g)
  | .record n =>
    some (.inodeTable (L.inodeGroup n) (L.recordSize * L.inodeIndex n / L.blockSize))
  | .data _ => none

end Layout

namespace Plain
variable {L : Geometry} (hp : Plain L.toLayout)
include hp

theorem role_home {r : Role} (hz : L.HasZone z) (hr : L.zoneRole z = some r) :
    L.HasRole r ∧ L.place r = L.home z := by
  have hdesc : ∀ g < L.blockgroups, 32 * g / L.blockSize < L.descriptorBlocks := by
    intro g hg
    rw [Layout.descriptorBlocks]
    rcases hp.sizes with ⟨h, -⟩ | ⟨h, -⟩ <;> rw [h] <;> omega
  cases z with
  | super =>
    cases hr
    exact ⟨by simp only [Layout.HasRole]; omega, rfl⟩
  | fields g =>
    cases hr
    have h := hdesc g hz
    exact ⟨by simp only [Layout.HasRole]; omega, rfl⟩
  | counts g =>
    cases hr
    have h := hdesc g hz
    exact ⟨by simp only [Layout.HasRole]; omega, rfl⟩
  | blockBitmap g => cases hr; exact ⟨hz, rfl⟩
  | inodeBitmap g => cases hr; exact ⟨hz, rfl⟩
  | record n =>
    cases hr
    have hi := L.inodeIndex_lt n
    refine ⟨⟨L.inodeGroup_lt hz, ?_⟩, rfl⟩
    rw [Layout.tableBlocks, hp.recordSize]
    rcases hp.sizes with ⟨h, -⟩ | ⟨h, -⟩ <;> rw [h] <;> omega
  | data x => cases hr

theorem home_lt (hz : L.HasZone z) : L.home z < L.blocks := by
  cases hr : L.zoneRole z with
  | some r =>
    have h := hp.role_home hz hr
    rw [← h.2]
    exact L.place_lt r h.1
  | none =>
    cases z with
    | data x => exact hz.1
    | _ => cases hr

theorem zone_in_home (z : Zone) : L.blockSize * L.home z ≤ L.zoneStart z ∧
    L.zoneStart z + L.zoneSize z ≤ L.blockSize * L.home z + L.blockSize := by
  have hrs := hp.recordSize
  rcases hp.sizes with ⟨h, h0⟩ | ⟨h, h0⟩
  · cases z <;> simp only [Layout.home, Layout.zoneStart, Layout.zoneSize, h, h0, hrs] <;> omega
  · cases z <;> simp only [Layout.home, Layout.zoneStart, Layout.zoneSize, h, h0, hrs] <;> omega

theorem zone_fits (hz : L.HasZone z) : L.zoneStart z + L.zoneSize z ≤ 2 ^ 32 := by
  have h1 := hp.home_lt hz
  have h2 := L.blocks_fit
  have h3 := (hp.zone_in_home z).2
  have h4 := Nat.mul_le_mul_left L.blockSize (Nat.succ_le_iff.mpr h1)
  rw [Nat.mul_succ] at h4
  omega

theorem part_subset {a : Word} {o : Nat} (ha : a = L.cell (L.zoneStart z))
    (hn : o + n ≤ L.zoneSize z) : span (a + ofNat 32 o) n ⊆ L.zone z := by
  have hsize : L.zoneSize z ≤ 2 ^ 32 := by
    have h := hp.zone_in_home z
    have hbs := hp.blockSize
    omega
  rw [ha]
  exact span_add_subset _ hn hsize

theorem start_subset {a : Word} (ha : a = L.cell (L.zoneStart z)) (hn : n ≤ L.zoneSize z) :
    span a n ⊆ L.zone z := by
  have h := hp.part_subset (o := 0) (n := n) ha (by omega)
  rwa [BitVec.add_zero] at h

theorem counts_subset (g : Nat) {o : Nat} (hn : o + n ≤ 4) :
    span (L.descAddr g + ofNat 32 (12 + o)) n ⊆ L.zone (.counts g) := by
  have ha : L.descAddr g + ofNat 32 12 = L.cell (L.zoneStart (.counts g)) :=
    add_ofNat_add _ _ _
  rw [← add_ofNat_add]
  exact hp.part_subset ha hn

/-- Zones in one block share its role. -/
theorem role_eq_of_home (hz : L.HasZone z) (hz' : L.HasZone z') (hh : L.home z = L.home z') :
    L.zoneRole z = L.zoneRole z' := by
  cases hr : L.zoneRole z with
  | none =>
    cases z with
    | data x =>
      cases hr' : L.zoneRole z' with
      | none => rfl
      | some r =>
        have h := hp.role_home hz' hr'
        exact absurd ⟨r, h.1, h.2.trans hh.symm⟩ hz.2
    | _ => cases hr
  | some r =>
    have h := hp.role_home hz hr
    cases hr' : L.zoneRole z' with
    | none =>
      cases z' with
      | data x => exact absurd ⟨r, h.1, h.2.trans hh⟩ hz'.2
      | _ => cases hr'
    | some r' =>
      have h' := hp.role_home hz' hr'
      rw [L.place_inj r r' h.1 h'.1 (by rw [h.2, h'.2, hh])]

/-- The records of two inodes, and the parts of two descriptors, are next to each other. -/
theorem apart_of_role (hz : L.HasZone z) (hz' : L.HasZone z') (hne : z ≠ z')
    (hh : L.home z = L.home z') (hr : L.zoneRole z = L.zoneRole z') :
    L.zoneStart z + L.zoneSize z ≤ L.zoneStart z' ∨
      L.zoneStart z' + L.zoneSize z' ≤ L.zoneStart z := by
  cases z <;> cases z' <;>
    simp only [Layout.zoneRole, Option.some.injEq, Role.system.injEq, Role.blockBitmap.injEq,
      Role.inodeBitmap.injEq, Role.inodeTable.injEq, reduceCtorEq] at hr
  case record.record n n' =>
    have hi : L.inodeIndex n ≠ L.inodeIndex n' := by
      intro hi
      exact hne (congrArg Zone.record (L.inode_ext hz hz' hr.1 hi))
    simp only [Layout.zoneStart, Layout.zoneSize, hr.1, hp.recordSize]
    omega
  case data.data => exact absurd (congrArg Zone.data hh) hne
  case super.super => exact absurd rfl hne
  case blockBitmap.blockBitmap => exact absurd (congrArg Zone.blockBitmap hr) hne
  case inodeBitmap.inodeBitmap => exact absurd (congrArg Zone.inodeBitmap hr) hne
  case fields.fields g g' =>
    have hg : g ≠ g' := fun h => hne (congrArg Zone.fields h)
    simp only [Layout.zoneStart, Layout.zoneSize]
    omega
  case counts.counts g g' =>
    have hg : g ≠ g' := fun h => hne (congrArg Zone.counts h)
    simp only [Layout.zoneStart, Layout.zoneSize]
    omega
  all_goals
    simp only [Layout.zoneStart, Layout.zoneSize, hp.table_eq]
    omega

theorem zone_disjoint (hz : L.HasZone z) (hz' : L.HasZone z') (hne : z ≠ z') :
    Disjoint (L.zone z) (L.zone z') := by
  apply span_disjoint _ _ (hp.zone_fits hz) (hp.zone_fits hz')
  by_cases hh : L.home z = L.home z'
  · exact hp.apart_of_role hz hz' hne hh (hp.role_eq_of_home hz hz' hh)
  · have h1 := hp.zone_in_home z
    have h2 := hp.zone_in_home z'
    rcases hp.blockSize with h | h <;> rw [h] at h1 h2 <;> omega

theorem keeps {m m' : Mem} (h : ChangesOnly (L.zones Z) m m') (hZ : ∀ z' ∈ Z, L.HasZone z')
    (hz : L.HasZone z) (hn : z ∉ Z) : Set.EqOn m' m (L.zone z) := by
  apply h.keeps
  rw [Layout.zones, Set.disjoint_iUnion₂_right]
  intro z' hz'
  exact hp.zone_disjoint hz (hZ z' hz') (fun he => hn (he ▸ hz'))

end Plain
end TapiOS.Fs.Ext2
