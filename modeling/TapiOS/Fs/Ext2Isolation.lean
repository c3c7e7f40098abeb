import TapiOS.Fs.Ext2Steps
import TapiOS.Lib.Runs

/-!
# Block isolation

Runs of ext2_write and ext2_new_inode on an image. Under a condition on the bitmaps and the
directory before each call, every block obtained was free, the image stays consistent and no
other file changes.
-/
namespace TapiOS.Fs.Ext2

open Util Lib
open BitVec (ofNat ofNat_add)

variable {k : Nat} {dir flags : Word} {path : Text}

inductive Call where
  | write (inodeNo : Word) (f : OpenFile) (data : List Byte)
  | newInode (dir : Word) (path : Text) (flags : Word)

variable {c : Call}

inductive Answer where
  | written (r : WriteResult)
  | created (r : NewInode)
  deriving DecidableEq, Repr

variable {o : Answer}

/-- The block number that the call got from get_free_block. -/
def Answer.obtained : Answer → Option Int
  | .written r => r.obtained
  | .created r => r.obtained

/-- The number of the new inode. -/
def Answer.inodeNo : Answer → Option Int
  | .written _ => none
  | .created r => r.inodeNo

def step (sb : Word) (m : Mem) : Call → Except Stop (Answer × Mem)
  | .write inodeNo f data => (ext2Write m sb inodeNo f data).map fun r => (.written r.1, r.2)
  | .newInode dir path flags => (ext2NewInode m sb dir path flags).map fun r => (.created r.1, r.2)

/-- The file that is written, or the directory that gets a new entry. -/
def Call.target : Call → Nat
  | .write inodeNo _ _ => inodeNo.toNat
  | .newInode dir _ _ => dir.toNat

/-- Calls are made on inodes in use; a new inode is made in a directory. -/
def Call.Proper (L : Layout) (m : Mem) : Call → Prop
  | .write inodeNo _ _ => L.Live m inodeNo.toNat
  | .newInode dir _ _ =>
    L.Live m dir.toNat ∧ m.half (L.recordAddr dir.toNat) &&& 0xF000#16 = 0x4000#16

/-- The block bitmap a write looks at can be used. -/
def BlocksOk (L : Layout) (m : Mem) : Prop :=
  ∀ groups g, getBlockgroupCount m L.sb = .ok groups →
    firstGroup m L.sb descUnallocatedBlocks groups = some g → BitmapOk L m g

/-- The condition on the image before a call. -/
def Call.Allowed (L : Layout) (m : Mem) : Call → Prop
  | .write _ _ _ => Plain L ∧ BlocksOk L m
  | .newInode dir path flags => Plain L ∧ InodesOk L m ∧
      entry m (inodeBlocks (L.recordAddr dir.toNat)) 0 ≠ 0#32 ∧
      EntryFits m (L.blockAddr (firstBlock L m dir.toNat)) (ofNat 32 L.blockSize)
        (basename path) ∧
      (flags &&& 0x4000#32 ≠ 0#32 → BitmapOk L m 0)

/-- The group that a block belongs to. -/
def Layout.blockGroup (L : Layout) (x : Nat) : Nat :=
  (x - L.superblockBlocknum) / L.blocksInBlockgroup

/-- What may change for an obtained block: its bytes, its bitmap and the counts of its group. -/
def obtainedZones (L : Layout) (o : Option Int) : Set Zone :=
  {z | ∃ b : Nat, o = some (b : Int) ∧
    z ∈ ({.data b, .blockBitmap (L.blockGroup b), .counts (L.blockGroup b)} : Set Zone)}

/-- A write changes nothing else but its own inode, and that only with a block. A new inode
changes its own record, its bit, the counts of its group and the block of the directory. -/
def Confined (L : Layout) (x : Transition Mem Call Answer) : Prop :=
  match x.input with
  | .write inodeNo _ _ => ChangesOnly (L.zones (obtainedZones L x.output.obtained ∪
      {z | x.output.obtained ≠ none ∧ z = .record inodeNo.toNat})) x.pre x.post
  | .newInode dir _ _ => ∃ n, ¬L.Live x.pre n ∧ L.Live x.post n ∧
      ChangesOnly (L.zones (obtainedZones L x.output.obtained ∪
        {.record n, .inodeBitmap (L.inodeGroup n), .counts (L.inodeGroup n),
          .data (firstBlock L x.pre dir.toNat)})) x.pre x.post

/-- Block isolation for one call. -/
structure Isolated (L : Layout) (x : Transition Mem Call Answer) : Prop where
  fresh : ∀ i, x.output.obtained = some i → ∃ b : Nat, i = (b : Int) ∧
    L.superblockBlocknum ≤ b ∧ b < L.blocks ∧
    L.marked x.pre b = false ∧ L.marked x.post b
  bits : ∀ g < L.blockgroups, ∀ k < 8 * L.blockSize,
    L.blockBit x.post g k ≠ L.blockBit x.pre g k → ∃ b : Nat, x.output.obtained = some (b : Int) ∧
      b = L.superblockBlocknum + g * L.blocksInBlockgroup + k
  consistent : Consistent L x.post
  files : ∀ n, L.Live x.pre n → n ≠ x.input.target → SameFile L x.pre x.post n
  confined : Confined L x

section Step
variable {L : Geometry} {m m' : Mem} {n b : Nat} (hc : Consistent L m)
  (hp : Plain L)

omit hp in
theorem isolated_same (hw : ∃ no f data, c = .write no f data) (ho : o.obtained = none)
    (hc : Consistent L m) : Isolated L ⟨m, c, o, m⟩ where
  fresh i hi := by simp [ho] at hi
  bits g _ k _ h := absurd rfl h
  consistent := hc
  files n _ _ := ⟨Set.eqOn_refl _ _, fun _ _ _ => Set.eqOn_refl _ _⟩
  confined := by
    obtain ⟨no, f, data, rfl⟩ := hw
    exact ChangesOnly.refl _ _

include hc hp

section Attaches
variable (h2 : L.blockSize = 2048) (ha : Attaches L m m' n b)
include h2 ha

theorem Attaches.fresh :
    L.superblockBlocknum ≤ b ∧ b < L.blocks ∧ L.marked m b = false ∧ L.marked m' b := by
  obtain ⟨-, hz, hm⟩ := hc.clear_bit h2 ha.lt ha.free
  refine ⟨by rw [L.superblock_zero h2]; omega, hz.1, hm, ?_⟩
  simp [ha.marked_eq_or hc hp h2 hz.1]

theorem Attaches.bits {g : Nat} (hg : g < L.blockgroups) (hk : k < 8 * L.blockSize)
    (hne : L.blockBit m' g k ≠ L.blockBit m g k) :
    b = L.superblockBlocknum + g * L.blocksInBlockgroup + k := by
  rw [ha.blockBit_eq hc hp h2 hg hk] at hne
  by_cases h : g = 0 ∧ k = b
  · rw [h.1, h.2, L.superblock_zero h2]
    omega
  · simp [h] at hne

omit hp in
theorem Attaches.blockGroup_eq : L.blockGroup b = 0 := by
  rw [Layout.blockGroup, L.superblock_zero h2]
  exact Nat.div_eq_of_lt (hc.clear_bit h2 ha.lt ha.free).1

omit hp in
theorem Attaches.zones {Z : Set Zone} (hn : .record n ∈ Z) :
    ChangesOnly (L.zones (obtainedZones L (some (b : Int)) ∪ Z)) m m' := by
  refine ha.changes.mono (L.zones_mono ?_)
  intro z hz
  have hg := ha.blockGroup_eq hc h2
  rcases hz with rfl | rfl | rfl | rfl
  · exact .inl ⟨b, rfl, by simp⟩
  · exact .inr hn
  · exact .inl ⟨b, rfl, by simp [hg]⟩
  · exact .inl ⟨b, rfl, by simp [hg]⟩

end Attaches

theorem write_isolated {no : Word} {f : OpenFile} {data : List Byte} {r : WriteResult}
    (hl : L.Live m no.toNat) (hok : BlocksOk L m) (h : ext2Write m L.sb no f data = .ok (r, m')) :
    Isolated L ⟨m, .write no f data, .written r, m'⟩ := by
  rcases ext2Write_cases hc hp hl hok h with ⟨ho, rfl, -⟩ | ⟨h2, -, b, ho, ha⟩
  · exact isolated_same ⟨_, _, _, rfl⟩ ho hc
  · refine ⟨fun i hi => ?_, fun g hg k hk hne => ?_, ha.consistent hc hp h2,
      fun n hn hne => ha.sameFile hc hp h2 hn hne, ?_⟩
    · obtain rfl : (b : Int) = i := Option.some.inj (ho.symm.trans hi)
      exact ⟨b, rfl, ha.fresh hc hp h2⟩
    · exact ⟨b, ho, ha.bits hc hp h2 hg hk hne⟩
    · simp only [Confined, Answer.obtained, ho]
      exact ha.zones hc h2 (by simp)

omit hp in
theorem Creates.zones {d : Nat} (ha : Creates L m m' n d) (Z : Set Zone) :
    ChangesOnly (L.zones (Z ∪ {.record n, .inodeBitmap (L.inodeGroup n), .counts (L.inodeGroup n),
      .data d})) m m' := by
  refine ha.changes.mono (L.zones_mono ?_)
  intro z hz
  have hg := (ha.inode hc).2.1
  rcases hz with rfl | rfl | rfl | rfl
  · exact .inr (by simp [hg])
  · exact .inr (by simp [hg])
  · exact .inr (by simp)
  · exact .inr (by simp)

section NewInode
variable (hv : (Call.newInode dir path flags).Proper L m)
  (ha : (Call.newInode dir path flags).Allowed L m)
include hv ha

omit hc hp in
theorem Call.Allowed.nameFits : NameFits L m dir.toNat (basename path) := by
  obtain ⟨-, -, hfirst, hfits, -⟩ := ha
  refine ⟨?_, hfirst, hfits⟩
  rw [hasBlocks, hv.2]
  decide

/-- A new inode is created; a directory then gets a block if there is one. -/
theorem newInode_cases {r : NewInode} (h : ext2NewInode m L.sb dir path flags = .ok (r, m')) :
    ∃ (n : Nat) (m₁ : Mem), Creates L m m₁ n (firstBlock L m dir.toNat) ∧
      Inserted L m m₁ n (firstBlock L m dir.toNat) (basename path) flags ∧
      (r.obtained = none ∧ m' = m₁ ∧
          (flags &&& 0x4000#32 = 0#32 ∧ r.inodeNo = some (n : Int) ∨ r.inodeNo = none) ∨
        L.blockSize = 2048 ∧ flags &&& 0x4000#32 ≠ 0#32 ∧ ∃ b : Nat, r.obtained = some (b : Int) ∧
          r.inodeNo = some (n : Int) ∧ Attaches L m₁ m' n b ∧
          Filled L m₁ m' n b) := by
  have hword : ofNat 32 dir.toNat = dir := by rw [BitVec.ofNat_toNat, BitVec.setWidth_eq]
  rw [← hword] at h
  have hreach : ∃ groups g, getBlockgroupCount m L.sb = .ok groups ∧
      firstGroup m L.sb descUnallocatedInodes groups = some g := by
    rw [ext2NewInode] at h
    cases hgroups : getBlockgroupCount m L.sb with
    | error e => rw [hgroups] at h; cases h
    | ok groups =>
      simp only [hgroups] at h
      cases hg : firstGroup m L.sb descUnallocatedInodes groups with
      | none => rw [hg] at h; cases h
      | some g => exact ⟨groups, g, rfl, hg⟩
  obtain ⟨groups, g, hgroups, hg⟩ := hreach
  obtain ⟨rfl, htop⟩ := ha.2.1 groups g hgroups hg
  obtain ⟨n, m₁, hcr, hins, heq⟩ := ext2NewInode_creates hc hp hv.1
    (Call.Allowed.nameFits hv ha) hgroups hg htop
  have h' := heq.symm.trans h
  refine ⟨n, m₁, hcr, hins, ?_⟩
  by_cases hdir : flags &&& 0x4000#32 ≠ 0#32
  · rw [if_pos hdir] at h'
    have hc₁ := hcr.consistent hc hp
    have hn₁ := (hcr.live_iff hc hp n).mpr (.inr rfl)
    have hok₁ := (ha.2.2.2.2 hdir).congr hp
      (hcr.keeps hc hp (z := .blockBitmap 0) L.blockgroups_pos (by simp))
    rcases newDirectory_cases hc₁ hp hn₁ hok₁ with hnone | ⟨h2, b, m₂, hsome, ha, hfill⟩
    · rw [hnone] at h'
      cases h'
      exact .inl ⟨rfl, rfl, .inr rfl⟩
    · rw [hsome] at h'
      cases h'
      exact .inr ⟨h2, hdir, b, rfl, rfl, ha, hfill⟩
  · rw [if_neg hdir] at h'
    cases h'
    exact .inl ⟨rfl, rfl, .inl ⟨not_not.mp hdir, rfl⟩⟩

theorem newInode_isolated {r : NewInode} (h : ext2NewInode m L.sb dir path flags = .ok (r, m')) :
    Isolated L ⟨m, .newInode dir path flags, .created r, m'⟩ := by
  have hname := Call.Allowed.nameFits hv ha
  obtain ⟨n, m₁, hcr, -, hcases⟩ := newInode_cases hc hp hv ha h
  have hdead := (hcr.inode hc).2.2.2
  have hlive := (hcr.live_iff hc hp n).mpr (.inr rfl)
  have hc₁ := hcr.consistent hc hp
  have hfiles₁ := fun n' (hl : L.Live m n') hne => hcr.sameFile hc hp hv.1 hname.holds hl hne
  rcases hcases with ⟨ho, rfl, -⟩ | ⟨h2, -, b, ho, -, hat, -⟩
  · refine ⟨fun i hi => ?_, fun g hg k hk hne => ?_, hc₁, hfiles₁, n, hdead, hlive, hcr.zones hc _⟩
    · simp [Answer.obtained, ho] at hi
    · exact absurd (hcr.blockBit_eq hc hp hg hk) hne
  · have hfresh := hat.fresh hc₁ hp h2
    refine ⟨fun i hi => ?_, fun g hg k hk hne => ?_, hat.consistent hc₁ hp h2, fun n' hl hne => ?_,
      n, hdead, (hat.live_iff hc₁ hp h2 n).mpr hlive, ?_⟩
    · obtain rfl : (b : Int) = i := Option.some.inj (ho.symm.trans hi)
      rw [hcr.marked_eq hc hp hfresh.2.1] at hfresh
      exact ⟨b, rfl, hfresh⟩
    · rw [← hcr.blockBit_eq hc hp hg hk] at hne
      exact ⟨b, ho, hat.bits hc₁ hp h2 hg hk hne⟩
    · have hl₁ := (hcr.live_iff hc hp n').mpr (.inl hl)
      have hn' : n' ≠ n := fun he => hdead (he ▸ hl)
      exact hp.sameFile_trans (hfiles₁ n' hl hne) (hat.sameFile hc₁ hp h2 hl₁ hn')
    · refine (hcr.zones hc _).trans ?_
      simp only [Answer.obtained, ho]
      exact hat.zones hc₁ h2 (by simp)

end NewInode

omit hp hc in
theorem step_cases {sb : Word} (h : step sb m c = .ok (o, m')) :
    (∃ no f data r, c = .write no f data ∧ o = .written r ∧
        ext2Write m sb no f data = .ok (r, m')) ∨
      ∃ dir path flags r, c = .newInode dir path flags ∧ o = .created r ∧
        ext2NewInode m sb dir path flags = .ok (r, m') := by
  cases c with
  | write no f data =>
    obtain ⟨r, hw, he⟩ := map_eq_ok h
    cases he
    exact .inl ⟨no, f, data, r.1, rfl, rfl, hw⟩
  | newInode dir path flags =>
    obtain ⟨r, hw, he⟩ := map_eq_ok h
    cases he
    exact .inr ⟨dir, path, flags, r.1, rfl, rfl, hw⟩

omit hp in
theorem step_isolated (hv : c.Proper L m) (ha : c.Allowed L m) (h : step L.sb m c = .ok (o, m')) :
    Isolated L ⟨m, c, o, m'⟩ := by
  rcases step_cases h with ⟨no, f, data, r, rfl, rfl, hw⟩ | ⟨dir, path, flags, r, rfl, rfl, hw⟩
  · exact write_isolated hc ha.1 hv ha.2 hw
  · exact newInode_isolated hc ha.1 hv ha hw

end Step

theorem run_consistent {L : Geometry} {m : Mem} {calls : List Call}
    {tr : List (Transition Mem Call Answer)} (hc : Consistent L m)
    (hr : run (step L.sb) m calls = some tr) (hv : ∀ x ∈ tr, x.input.Proper L x.pre)
    (ha : ∀ x ∈ tr, x.input.Allowed L x.pre) : ∀ x ∈ tr, Consistent L x.pre := by
  have hinv := run_invariant (I := Consistent L) (C := fun m c => c.Proper L m ∧ c.Allowed L m)
    (fun m c o m' hc hca h => (step_isolated hc hca.1 hca.2 h).consistent) hr hc
    fun x hx => ⟨hv x hx, ha x hx⟩
  exact fun x hx => (hinv x hx).1

/-- In every run of proper calls that meet the condition, blocks are isolated. -/
theorem blocks_isolated {L : Geometry} {m : Mem} {calls : List Call}
    {tr : List (Transition Mem Call Answer)} (hc : Consistent L.toLayout m)
    (hr : run (step L.sb) m calls = some tr) (hv : ∀ x ∈ tr, x.input.Proper L.toLayout x.pre)
    (ha : ∀ x ∈ tr, x.input.Allowed L.toLayout x.pre) : ∀ x ∈ tr, Isolated L.toLayout x := by
  intro x hx
  exact step_isolated (run_consistent hc hr hv ha x hx) (hv x hx) (ha x hx) (run_step hr x hx)

/-! A small image: 64 blocks of 2048 bytes and 64 inodes in one group, with block 8 as the
root directory. The first two words of both bitmaps are parameters. -/

structure Seed where
  blocks0 : Word
  blocks1 : Word
  inodes0 : Word
  inodes1 : Word
  freeBlocks : Word
  freeInodes : Word

namespace Seed
variable (s : Seed)

/-- The superblock, from word 256 of the image on. -/
def superWord (w : Nat) : Word :=
  if w = 256 then 64#32 else if w = 257 then 64#32 else if w = 259 then s.freeBlocks
  else if w = 260 then s.freeInodes else if w = 262 then 1#32
  else if w = 264 then 16384#32 else if w = 266 then 64#32 else 0#32

def descriptorWord (w : Nat) : Word :=
  if w = 0 then 2#32 else if w = 1 then 3#32 else if w = 2 then 4#32
  else if w = 3 then s.freeBlocks ||| s.freeInodes <<< 16 else 0#32

/-- A bitmap of which two words are in use. -/
def mapWord (w0 w1 : Word) (w : Nat) : Word :=
  if w = 0 then w0 else if w = 1 then w1 else 0xFFFFFFFF#32

/-- The entries '.' and '..' of the root directory. -/
def rootWord (w : Nat) : Word :=
  if w = 0 then 2#32 else if w = 1 then 0x0201000C#32 else if w = 2 then 0x2E#32
  else if w = 3 then 2#32 else if w = 4 then 0x020207F4#32 else if w = 5 then 0x2E2E#32 else 0#32

def imageWord (w : Nat) : Word :=
  if w < 512 then s.superWord w
  else if w < 1024 then s.descriptorWord (w - 512)
  else if w < 1536 then mapWord s.blocks0 s.blocks1 (w - 1024)
  else if w < 2048 then mapWord s.inodes0 s.inodes1 (w - 1536)
  else if w < 4096 then if w = 2080 then 0x41ED#32 else if w = 2090 then 8#32 else 0#32
  else rootWord (w - 4096)

/-- The image lies behind the kernel. -/
def image : Mem := fun a =>
  wordByte (s.imageWord ((a - 0xC0200000#32).toNat / 4)) ((a - 0xC0200000#32).toNat % 4)

theorem image_at {o : Nat} (ho : o < 2 ^ 32) :
    s.image (0xC0200000#32 + ofNat 32 o) = wordByte (s.imageWord (o / 4)) (o % 4) := by
  rw [image, BitVec.add_comm, BitVec.add_sub_cancel, toNat_ofNat_of_lt ho]

theorem image_word {w : Nat} (hw : 4 * w + 4 ≤ 2 ^ 32) :
    s.image.word (0xC0200000#32 + ofNat 32 (4 * w)) = s.imageWord w := by
  apply BitVec.eq_of_getLsbD_eq
  intro k hk
  have hd : (4 * w + k / 8) / 4 = w := by omega
  have hm : (4 * w + k / 8) % 4 = k / 8 := by omega
  have hk8 : k % 8 < 8 := Nat.mod_lt _ (by decide)
  have hsum : 8 * (k / 8) + k % 8 = k := by omega
  rw [Mem.word_getLsbD _ _ hk, BitVec.add_assoc, ← ofNat_add, s.image_at (by omega), hd, hm,
    wordByte, BitVec.getLsbD_extractLsb', hsum]
  simp [hk8]

end Seed

def smallLayout : Layout where
  sb := 0xC0200400#32
  blockSize := 2048
  superblockBlocknum := 0
  blocksInBlockgroup := 16384
  inodesInBlockgroup := 64
  blocks := 64
  blockgroups := 1
  recordSize := 128
  bitmapBlockNo _ := 2
  bitmapInodeNo _ := 3
  inodeTableBlock _ := 4

theorem smallLayout_role {r : Role} (hr : smallLayout.HasRole r) :
    (∃ j < 2, r = .system j) ∨ r = .blockBitmap 0 ∨ r = .inodeBitmap 0 ∨
      ∃ j < 4, r = .inodeTable 0 j := by
  cases r with
  | system j => exact .inl ⟨j, hr, rfl⟩
  | blockBitmap g =>
    have hg : g < 1 := hr
    exact .inr (.inl (by rw [Nat.lt_one_iff.mp hg]))
  | inodeBitmap g =>
    have hg : g < 1 := hr
    exact .inr (.inr (.inl (by rw [Nat.lt_one_iff.mp hg])))
  | inodeTable g j =>
    have hg : g < 1 := hr.1
    exact .inr (.inr (.inr ⟨j, hr.2, by rw [Nat.lt_one_iff.mp hg]⟩))

def smallGeometry : Geometry where
  toLayout := smallLayout
  blockSize_eq := ⟨1, rfl⟩
  superblock_eq := rfl
  blocksInBlockgroup_pos := by decide
  blocksInBlockgroup_le := by decide
  inodesInBlockgroup_pos := by decide
  inodesInBlockgroup_le := by decide
  blockgroups_pos := by decide
  blocks_fit := by decide
  inodes_fit := by decide
  blocks_le := by decide
  place_lt r hr := by
    rcases smallLayout_role hr with ⟨j, hj, rfl⟩ | rfl | rfl | ⟨j, hj, rfl⟩ <;>
      simp only [Layout.place, smallLayout] <;> omega
  place_inj r r' hr hr' h := by
    rcases smallLayout_role hr with ⟨j, hj, rfl⟩ | rfl | rfl | ⟨j, hj, rfl⟩ <;>
      rcases smallLayout_role hr' with ⟨j', hj', rfl⟩ | rfl | rfl | ⟨j', hj', rfl⟩ <;>
      simp only [Layout.place, smallLayout] at h <;>
      first | rfl | omega | simpa using h

theorem smallGeometry_plain : Plain smallGeometry.toLayout := ⟨.inr rfl, rfl⟩

namespace Seed
variable (s : Seed)

theorem smallLayout_cell (o : Nat) : smallLayout.cell o = 0xC0200000#32 + ofNat 32 o := by
  simp [Layout.cell, smallLayout]

theorem image_bit {x : Nat} (hx : x < 64) (hk : k < 8 * 2048) :
    bitAt s.image (smallLayout.blockAddr x) k =
      (s.imageWord (512 * x + k / 32)).getLsbD (k % 32) := by
  have ha : smallLayout.blockAddr x = 0xC0200000#32 + ofNat 32 (2048 * x) :=
    smallLayout_cell _
  have hd : (2048 * x + k / 8) / 4 = 512 * x + k / 32 := by omega
  have hsum : 8 * ((2048 * x + k / 8) % 4) + k % 8 = k % 32 := by omega
  have hk8 : k % 8 < 8 := Nat.mod_lt _ (by decide)
  rw [bitAt, ha, BitVec.add_assoc, ← ofNat_add, s.image_at (by omega), hd, wordByte,
    BitVec.getLsbD_extractLsb', hsum]
  simp [hk8]

theorem image_blockBit (hk : k < 8 * 2048) : bitAt s.image (smallLayout.blockAddr 2) k =
      (mapWord s.blocks0 s.blocks1 (k / 32)).getLsbD (k % 32) := by
  rw [s.image_bit (by decide) hk, imageWord, if_neg (by omega), if_neg (by omega),
    if_pos (by omega), Nat.add_sub_cancel_left]

theorem image_inodeBit (hk : k < 8 * 2048) : bitAt s.image (smallLayout.blockAddr 3) k =
      (mapWord s.inodes0 s.inodes1 (k / 32)).getLsbD (k % 32) := by
  rw [s.image_bit (by decide) hk, imageWord, if_neg (by omega), if_neg (by omega),
    if_neg (by omega), if_pos (by omega), Nat.add_sub_cancel_left]

theorem mapWord_high (w0 w1 : Word) (hk : 64 ≤ k) :
    (mapWord w0 w1 (k / 32)).getLsbD (k % 32) := by
  have hones : ∀ j < 32, (0xFFFFFFFF#32).getLsbD j := by decide
  rw [mapWord, if_neg (by omega), if_neg (by omega)]
  exact hones _ (Nat.mod_lt k (by decide))

theorem image_describes : Describes smallLayout s.image := by
  have hw : ∀ w < 2 ^ 29, s.image.word (0xC0200000#32 + ofNat 32 (4 * w)) = s.imageWord w :=
    fun w hw => s.image_word (by omega)
  have hdesc : ∀ g < smallLayout.blockgroups, smallLayout.descAddr g = 0xC0200800#32 := by
    intro g hg
    have h0 : g = 0 := Nat.lt_one_iff.mp hg
    rw [h0]
    rfl
  have hshift : sbBlockSizeShift s.image smallLayout.sb = 1#32 := hw 262 (by decide)
  have hversion : s.image.word (smallLayout.sb + 76#32) = 0#32 := hw 275 (by decide)
  refine ⟨?_, hw 261 (by decide), hw 264 (by decide), hw 266 (by decide), hw 257 (by decide),
    hw 256 (by decide), ?_, ?_, ?_, ?_⟩
  · rw [BLOCKSIZE, hshift]
    rfl
  · rw [sbInodeSize, hversion]
    rfl
  · intro g hg
    rw [hdesc g hg]
    exact hw 512 (by decide)
  · intro g hg
    rw [hdesc g hg]
    exact hw 513 (by decide)
  · intro g hg
    rw [hdesc g hg]
    exact hw 514 (by decide)

/-- Inode 2 has one block; no other inode has any. -/
theorem image_entry {n i : Nat} (hn : smallLayout.IsInode n) (hi : i < 15) :
    entry s.image (inodeBlocks (smallLayout.recordAddr n)) i =
      if n = 2 ∧ i = 0 then 8#32 else 0#32 := by
  have h64 : n ≤ 1 * 64 := hn.2
  have hg : (n - 1) / 64 = 0 := by omega
  have hidx : (n - 1) % 64 = n - 1 := by omega
  have ha : inodeBlocks (smallLayout.recordAddr n) + ofNat 32 (4 * i) =
      0xC0200000#32 + ofNat 32 (4 * (2048 + 32 * (n - 1) + 10 + i)) := by
    rw [inodeBlocks, Layout.recordAddr, smallLayout_cell, BitVec.add_assoc, BitVec.add_assoc,
      ← ofNat_add, ← ofNat_add]
    simp only [smallLayout, Layout.inodeGroup, Layout.inodeIndex, hg, hidx]
    congr 2
    omega
  rw [entry, ha, s.image_word (by omega), imageWord, if_neg (by omega), if_neg (by omega),
    if_neg (by omega), if_neg (by omega), if_pos (by omega), if_neg (by omega)]
  split_ifs <;> first | rfl | omega

theorem image_holds {n l x : Nat} (hn : smallLayout.IsInode n)
    (h : smallLayout.Holds s.image n l x) : n = 2 ∧ l = 0 ∧ x = 8 := by
  obtain ⟨-, i, hi, hcov⟩ := h
  rw [s.image_entry hn hi] at hcov
  by_cases h2 : n = 2 ∧ i = 0
  · rw [if_pos h2, h2.2] at hcov
    exact ⟨h2.1, hcov.2.1, hcov.2.2⟩
  · rw [if_neg h2] at hcov
    cases hlvl : i - FINAL_DIRECT_BLOCK with
    | zero => rw [hlvl] at hcov; exact absurd rfl hcov.1
    | succ lvl => rw [hlvl] at hcov; exact absurd rfl hcov.1

/-- The image is consistent when its first nine blocks are marked. -/
theorem image_consistent (hb : ∀ k < 9, s.blocks0.getLsbD k) :
    Consistent smallLayout s.image := by
  have hmarked : ∀ x < 9, smallLayout.marked s.image x := by
    intro x hx
    have hbit := s.image_blockBit (k := x) (by omega)
    have hd : x / 32 = 0 := by omega
    have hm : x % 32 = x := by omega
    rw [hd, hm] at hbit
    have hmark : smallLayout.marked s.image x = bitAt s.image (smallLayout.blockAddr 2) x := by
      have hmod : (x - 0) % 16384 = x := by omega
      change bitAt s.image (smallLayout.blockAddr 2) ((x - 0) % 16384) = _
      rw [hmod]
    rw [hmark, hbit]
    exact hb x hx
  refine ⟨s.image_describes, ?_, ?_, ?_, ?_, ?_⟩
  · intro x hx _
    obtain ⟨r, hr, hpl⟩ := hx
    apply hmarked
    rcases smallLayout_role hr with ⟨j, hj, rfl⟩ | rfl | rfl | ⟨j, hj, rfl⟩ <;>
      simp only [Layout.place, smallLayout] at hpl <;> omega
  · intro g hg k hk hpad
    have hk64 : 64 ≤ k := by
      have h0 : g = 0 := Nat.lt_one_iff.mp hg
      rw [h0] at hpad
      simp only [smallLayout] at hpad
      omega
    have hk' : k < 8 * 2048 := hk
    exact (s.image_blockBit hk').trans (mapWord_high _ _ hk64)
  · intro g hg k hk hpad
    have hk64 : 64 ≤ k := hpad
    have hk' : k < 8 * 2048 := hk
    exact (s.image_inodeBit hk').trans (mapWord_high _ _ hk64)
  · intro n l x hl hx
    obtain ⟨-, -, rfl⟩ := s.image_holds hl.1 hx
    refine ⟨by decide, by decide, fun hmeta => ?_, hmarked 8 (by decide)⟩
    obtain ⟨r, hr, hpl⟩ := hmeta
    rcases smallLayout_role hr with ⟨j, hj, rfl⟩ | rfl | rfl | ⟨j, hj, rfl⟩ <;>
      simp only [Layout.place, smallLayout] at hpl <;> omega
  · intro n l n' l' x hl hl' hx hx'
    obtain ⟨rfl, rfl, -⟩ := s.image_holds hl.1 hx
    obtain ⟨rfl, rfl, -⟩ := s.image_holds hl'.1 hx'
    exact ⟨rfl, rfl⟩

end Seed

/-- The call that creates directory "x" in the root. -/
def makeX : Call := .newInode 2#32 [0x78#8] 0x4000#32

/-- Nine blocks and two inodes are in use. -/
def freshSeed : Seed := ⟨0x1FF#32, 0#32, 3#32, 0#32, 55#32, 62#32⟩

theorem freshSeed_proper : makeX.Proper smallLayout freshSeed.image := by
  refine ⟨⟨⟨by decide, by decide⟩, by decide⟩, by decide⟩

theorem freshSeed_allowed : makeX.Allowed smallLayout freshSeed.image := by
  have htop : (inodeWord smallLayout freshSeed.image).getLsbD 31 = false := by decide
  refine ⟨smallGeometry_plain, fun groups g hgroups hg => ?_, by decide,
    ⟨0xC020400C#32, by decide, by decide⟩,
    fun _ => .inr ⟨rfl, .inl ⟨rfl, by decide⟩⟩⟩
  have hle : groups ≤ 1 := Describes.getBlockgroupCount_le (L := smallGeometry)
    freshSeed.image_describes smallGeometry_plain hgroups
  have hlt := firstGroup_lt (L := smallGeometry) hg
  exact ⟨by omega, htop⟩

theorem freshSeed_step : ∃ m', step 0xC0200400 freshSeed.image makeX =
    .ok (.created ⟨some 3, some 9⟩, m') := by
  obtain ⟨r, hs, ho⟩ : ∃ r, step 0xC0200400 freshSeed.image makeX = .ok r ∧
      r.1 = .created ⟨some 3, some 9⟩ := exists_ok (by decide +kernel)
  exact ⟨r.2, by rw [hs, ← ho]⟩

theorem blocks_isolated_newDirectory :
    ∃ tr, run (step 0xC0200400) freshSeed.image [makeX] = some tr ∧
    tr.map (·.output.obtained) = [some 9] ∧ ∀ x ∈ tr, Isolated smallLayout x := by
  obtain ⟨m', hs⟩ := freshSeed_step
  refine ⟨_, run_single hs, rfl, blocks_isolated (L := smallGeometry)
    (freshSeed.image_consistent (by decide)) (run_single hs)
    (List.forall_mem_singleton.mpr freshSeed_proper)
    (List.forall_mem_singleton.mpr freshSeed_allowed)⟩

/-- The first 33 blocks and three inodes are in use. -/
def usedSeed : Seed := ⟨0xFFFFFFFF#32, 1#32, 7#32, 0#32, 31#32, 61#32⟩

/-- Writing one byte to inode 3 obtains block 1, which holds the descriptor table: the index
within the second bitmap word is taken as the block number. -/
theorem descriptor_table_obtained : Consistent smallLayout usedSeed.image ∧
    (Call.write 3#32 ⟨0#32, 0#32⟩ [0xAA#8]).Proper smallLayout usedSeed.image ∧
    ∃ x, run (step 0xC0200400) usedSeed.image [.write 3#32 ⟨0#32, 0#32⟩ [0xAA#8]] = some [x] ∧
      x.output.obtained = some 1 ∧ smallLayout.marked x.pre 1 ∧ ¬Isolated smallLayout x := by
  have hm : smallLayout.marked usedSeed.image 1 := by decide
  refine ⟨usedSeed.image_consistent (by decide), ⟨⟨by decide, by decide⟩, by decide⟩, ?_⟩
  obtain ⟨r, hs, ho⟩ :
      ∃ r, step 0xC0200400 usedSeed.image (.write 3#32 ⟨0#32, 0#32⟩ [0xAA#8]) = .ok r ∧
      r.1.obtained = some 1 := exists_ok (by decide)
  refine ⟨_, run_single hs, ho, hm, fun hiso => ?_⟩
  obtain ⟨b, hb, -, -, hfree, -⟩ := hiso.fresh 1 ho
  obtain rfl : 1 = b := by omega
  rw [hm] at hfree
  cases hfree

end TapiOS.Fs.Ext2
