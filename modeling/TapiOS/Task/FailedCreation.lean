import TapiOS.Fs.DirInsert
import TapiOS.Task.DirectoryRuns

/-!
# Creating a directory on a full disk

ext2_new_inode takes the inode and stores the name before it asks for a block. Without one it
returns NULL, and vfs_new_inode writes through that pointer.
-/
namespace TapiOS.Task

open Lib Util Fs
open Ext2 (Seed atInsert doInsert ext2NewInode firstGroup freshSeed smallLayout)

/-- A call of ext2_new_inode: the image, the number of the directory and the type. -/
structure NewCall where
  image : Mem
  dirNo : Word
  flags : Word

/-- The machine and the directory with which `_mkdir` comes to vfs_new_inode. -/
def mkdirDir (sb : Word) (s : Machine) (p : Nat) (path : Text) (mode : Word) :
    Option (Machine × Word) :=
  if PATH_MAX ≤ path.length then none
  else match getdirHelper (ext2Driver s sb) s.kernel p path with
  | .error _ => none
  | .ok (dir, v) =>
    if dir = 0 then none
    else match (s.withVfs v).openFile sb p path mode with
    | .error _ => none
    | .ok (fd, s) => if 0 ≤ fd then none else some (s, dir)

/-- The call of ext2_new_inode in a system call, if it comes to one. -/
def newCall (sb : Word) (s : Machine) (c : NameCall) : Option NewCall :=
  match c.kind with
  | .openFile flags => (createDir (ext2Driver s sb) s.kernel c.p c.path flags).map
      fun dir => ⟨s.image, dir.inodeNo, 0x8000⟩
  | .mkdir mode =>
    match mkdirDir sb s c.p c.path mode with
    | none => none
    | some (s, dir) =>
      let node := s.kernel.vfs.inodes dir
      if node.acts.iAct && node.acts.creates then some ⟨s.image, node.inodeNo, 0x4000⟩ else none

/-- The group from which ext2_new_inode takes its inode. -/
def inodeGroup (m : Mem) (sb : Word) : Option Word :=
  match Ext2.getBlockgroupCount m sb with
  | .error _ => none
  | .ok groups => (firstGroup m sb Ext2.descUnallocatedInodes groups).map
      fun g => Ext2.blockgroupDescriptor sb (BitVec.ofNat 32 g)

/-- The block that get_free_block finds for the group with this descriptor. -/
def freeBlock (m : Mem) (sb desc : Word) : Int :=
  (Ext2.getFreeBlock m sb (Ext2.descBitmapBlockNo m desc)).1

/-- No block is needed, or the bitmap of the group has one. -/
def BlockLeft (sb : Word) (nc : NewCall) : Prop :=
  nc.flags &&& 0x4000#32 = 0#32 ∨
    ∃ desc, inodeGroup nc.image sb = some desc ∧ 0 ≤ freeBlock nc.image sb desc

/-- An inode is found and the name is inserted, and these stores do not matter for
get_free_block. -/
def Inserts (sb : Word) (nc : NewCall) (path : Text) : Prop :=
  ∃ p m, atInsert nc.image sb nc.dirNo nc.flags = .ok p ∧
    doInsert p.mem sb p.base (BitVec.ofInt 32 p.index) (basename path) = .ok m ∧
    freeBlock m sb p.desc = freeBlock nc.image sb p.desc

/-- If ext2_new_inode returns NULL, the call returns a negative error, and the image and the
cached inodes are as before. -/
def FailsCleanly (sb : Word) (s : Machine) (c : NameCall) : Prop :=
  ∀ nc m', newCall sb (s.enter c) c = some nc →
    ext2NewInode nc.image sb nc.dirNo c.path nc.flags = .ok (⟨none, none⟩, m') →
    ∃ ret s', nameStep sb s c = .ok (ret, s') ∧ ret < 0 ∧ s'.image = s.image ∧
      s'.kernel.vfs.inodes = s.kernel.vfs.inodes

section Fails
variable {sb : Word} {s : Machine} {c : NameCall} {nc : NewCall}

theorem atInsert_group {m : Mem} {dirNo flags : Word} {p : Ext2.Insertion}
    (h : atInsert m sb dirNo flags = .ok p) : inodeGroup m sb = some p.desc := by
  unfold atInsert at h
  unfold inodeGroup
  cases hgroups : Ext2.getBlockgroupCount m sb with
  | error e =>
    simp only [hgroups] at h
    cases h
  | ok groups =>
    cases hgroup : firstGroup m sb Ext2.descUnallocatedInodes groups with
    | none =>
      simp only [hgroups, hgroup] at h
      cases h
    | some g =>
      simp only [hgroups, hgroup] at h
      split_ifs at h
      split at h
      · cases h
      · split at h
        · cases h
        · cases h
          dsimp only
          rw [hgroup]
          rfl

/-- NULL is returned exactly if a block is needed and none is left. -/
theorem newInode_null_iff {path : Text} (h : Inserts sb nc path) :
    (∃ m', ext2NewInode nc.image sb nc.dirNo path nc.flags = .ok (⟨none, none⟩, m')) ↔
      ¬BlockLeft sb nc := by
  obtain ⟨p, m, hp, hins, hfree⟩ := h
  have hgroup := atInsert_group hp
  have hleft : BlockLeft sb nc ↔ nc.flags &&& 0x4000#32 = 0#32 ∨ 0 ≤ freeBlock m sb p.desc := by
    unfold BlockLeft
    rw [hgroup, hfree]
    simp
  rw [Ext2.ext2NewInode_eq, hp, hleft]
  simp only [Ext2.insertAndFinish, hins]
  by_cases hflags : nc.flags &&& 0x4000#32 = 0#32
  · simp [hflags]
  · unfold Ext2.newDirectory freeBlock
    by_cases hneg : (Ext2.getFreeBlock m sb (Ext2.descBitmapBlockNo m p.desc)).1 < 0
    · simp only [if_pos hneg]
      simp [hflags, hneg]
    · simp only [if_neg hneg]
      simp [hflags, not_lt.mp hneg]

theorem mkdir_creates {t : Machine} {p : Nat} {path : Text} {mode dir : Word}
    (h : mkdirDir sb s p path mode = some (t, dir)) :
    s.mkdir sb p path mode =
      match vfsNewInode (ext2Driver t sb) t.kernel.vfs dir path 0x4000 with
      | .error e => .error e
      | .ok (node, v) => .ok (if node = 0 then -EPERM else 0, ⟨{ t.kernel with vfs := v },
          imageAfter t.image sb (t.kernel.vfs.inodes dir) path 0x4000, t.stack⟩) := by
  unfold mkdirDir at h
  unfold Machine.mkdir
  by_cases hlen : PATH_MAX ≤ path.length
  · rw [if_pos hlen] at h
    cases h
  rw [if_neg hlen] at h ⊢
  cases hdir : getdirHelper (ext2Driver s sb) s.kernel p path with
  | error e =>
    simp only [hdir] at h
    cases h
  | ok r =>
    obtain ⟨dir', v⟩ := r
    simp only [hdir] at h ⊢
    by_cases hzero : dir' = 0
    · rw [if_pos hzero] at h
      cases h
    rw [if_neg hzero] at h ⊢
    cases hopen : (s.withVfs v).openFile sb p path mode with
    | error e =>
      simp only [hopen] at h
      cases h
    | ok r =>
      obtain ⟨fd, t'⟩ := r
      simp only [hopen] at h ⊢
      by_cases hfd : 0 ≤ fd
      · rw [if_pos hfd] at h
        cases h
      rw [if_neg hfd] at h
      cases h
      exact if_neg hfd

/-- `_mkdir` does not come back from ext2_new_inode without a block. -/
theorem mkdir_faults {m' : Mem} {mode : Word} (hkind : c.kind = .mkdir mode)
    (hcall : newCall sb (s.enter c) c = some nc)
    (h : ext2NewInode nc.image sb nc.dirNo c.path nc.flags = .ok (⟨none, none⟩, m')) :
    nameStep sb s c = .error .fault := by
  unfold newCall at hcall
  unfold nameStep
  simp only [hkind] at hcall ⊢
  cases hdir : mkdirDir sb (s.enter c) c.p c.path mode with
  | none =>
    simp only [hdir] at hcall
    cases hcall
  | some r =>
    obtain ⟨t, dir⟩ := r
    simp only [hdir] at hcall
    split_ifs at hcall with hacts
    cases hcall
    obtain ⟨hact, hcreates⟩ := Bool.and_eq_true_iff.mp hacts
    have hnone : (ext2Driver t sb).create (t.kernel.vfs.inodes dir) c.path 0x4000 = none := by
      simp only [ext2Driver, h]
      rfl
    rw [mkdir_creates hdir]
    unfold vfsNewInode
    rw [if_neg (by simp [hact]), if_pos hcreates, hnone]

/-- A system call that has inserted the name fails cleanly exactly if it cannot fail there: it
needs no block or there is one left. -/
theorem fails_cleanly_iff (hcall : newCall sb (s.enter c) c = some nc)
    (hins : Inserts sb nc c.path) : FailsCleanly sb s c ↔ BlockLeft sb nc := by
  constructor
  · intro h
    by_contra hno
    obtain ⟨m', hnull⟩ := (newInode_null_iff hins).mpr hno
    obtain ⟨ret, s', hstep, -⟩ := h nc m' hcall hnull
    cases hkind : c.kind with
    | openFile flags =>
      -- a file is made with type 0x8000 and needs no block
      unfold newCall at hcall
      simp only [hkind] at hcall
      obtain ⟨dir, -, rfl⟩ := Option.map_eq_some_iff.mp hcall
      exact hno (.inl (show 0x8000#32 &&& 0x4000#32 = 0#32 by decide))
    | mkdir mode =>
      rw [mkdir_faults hkind hcall hnull] at hstep
      cases hstep
  · intro hleft nc' m' hcall' hnull
    cases hcall.symm.trans hcall'
    exact absurd hleft ((newInode_null_iff hins).mp ⟨m', hnull⟩)

end Fails

section Samples

/-- Without O_CREAT the `_open` in `_mkdir` leaves the image alone. -/
theorem newCall_image {sb : Word} {s : Machine} {c : NameCall} {nc : NewCall} {mode : Word}
    (hkind : c.kind = .mkdir mode) (hmode : mode &&& O_CREAT = 0)
    (h : newCall sb s c = some nc) : nc.image = s.image := by
  have hopen : ∀ {s t : Machine} {fd : Int}, s.openFile sb c.p c.path mode = .ok (fd, t) →
      t.image = s.image := by
    intro s t fd ho
    have hdir : createDir (ext2Driver s sb) s.kernel c.p c.path mode = none := by
      unfold createDir openPlan
      simp only [hmode, ne_eq, not_true_eq_false, and_false, if_false]
      split
      next he =>
        split_ifs at he
        · cases he
        split at he
        · cases he
        · cases he
        · split_ifs at he <;> cases he
      · rfl
    unfold Machine.openFile at ho
    simp only [hdir] at ho
    split at ho
    · cases ho
    · cases ho
      rfl
  unfold newCall at h
  simp only [hkind] at h
  cases hdir : mkdirDir sb s c.p c.path mode with
  | none =>
    simp only [hdir] at h
    cases h
  | some r =>
    simp only [hdir] at h
    split_ifs at h
    cases h
    unfold mkdirDir at hdir
    split_ifs at hdir
    split at hdir
    · cases hdir
    · split_ifs at hdir
      split at hdir
      · cases hdir
      · rename_i ho
        split_ifs at hdir
        cases hdir
        have him := hopen ho
        exact him

/-- The call that makes the directory in the root, as the other samples have it. -/
theorem newCall_root {image : Mem} {c : NameCall} {mode : Word} (hkind : c.kind = .mkdir mode)
    (hmode : mode &&& O_CREAT = 0)
    (h : (newCall 0xC0200400 (Machine.enter ⟨rootOnly.kernel, image, fun _ => []⟩ c) c).map
      (fun nc => (nc.dirNo, nc.flags)) = some (2#32, 0x4000#32)) :
    newCall 0xC0200400 (Machine.enter ⟨rootOnly.kernel, image, fun _ => []⟩ c) c =
      some ⟨image, 2, 0x4000⟩ := by
  obtain ⟨nc, hnc, he⟩ := Option.map_eq_some_iff.mp h
  have him := newCall_image hkind hmode hnc
  obtain ⟨image', dirNo, flags⟩ := nc
  cases he
  have him' : image' = image := him
  rw [hnc, him']
  rfl

theorem fails_cleanly_iff_mkdirX : FailsCleanly 0xC0200400 rootOnly (mkdirCall [slash, 0x78]) := by
  have hcall : newCall 0xC0200400 (rootOnly.enter (mkdirCall [slash, 0x78]))
      (mkdirCall [slash, 0x78]) = some ⟨freshSeed.image, 2, 0x4000⟩ :=
    newCall_root rfl rfl (by decide)
  have hins : Inserts 0xC0200400 ⟨freshSeed.image, 2, 0x4000⟩ [slash, 0x78] := by
    obtain ⟨p, hp, heval⟩ : ∃ p, atInsert freshSeed.image 0xC0200400 2 0x4000 = .ok p ∧
        ∃ m ∈ (doInsert p.mem 0xC0200400 p.base (BitVec.ofInt 32 p.index)
          (basename [slash, 0x78])).toOption,
          freeBlock m 0xC0200400 p.desc = freeBlock freshSeed.image 0xC0200400 p.desc :=
      exists_ok (by decide +kernel)
    obtain ⟨m, hm, hfree⟩ := exists_ok heval
    exact ⟨p, m, hp, hm, hfree⟩
  have hgroup : inodeGroup freshSeed.image 0xC0200400 = some 0xC0200800 := by decide
  have hfree : freeBlock freshSeed.image 0xC0200400 0xC0200800 = 9 := by decide
  exact (fails_cleanly_iff hcall hins).mpr (.inr ⟨0xC0200800, hgroup, by rw [hfree]; decide⟩)

/-- All blocks and two inodes are in use. -/
def noBlocks : Seed := ⟨0xFFFFFFFF#32, 0xFFFFFFFF#32, 3#32, 0#32, 0#32, 62#32⟩

theorem noBlocks_full {i : Nat} (hi : i < 2048 / 4) :
    Ext2.bitmapWord smallLayout noBlocks.image 0 i = 0xFFFFFFFF#32 := by
  have ha : smallLayout.blockAddr 2 + BitVec.ofNat 32 (4 * i) =
      0xC0200000#32 + BitVec.ofNat 32 (4 * (1024 + i)) := by
    rw [Nat.mul_add, BitVec.ofNat_add, ← BitVec.add_assoc]
    rfl
  show noBlocks.image.word (smallLayout.blockAddr 2 + BitVec.ofNat 32 (4 * i)) = _
  rw [ha, noBlocks.image_word (by omega), Seed.imageWord, if_neg (by omega),
    if_neg (by omega), if_pos (by omega), Seed.mapWord]
  split_ifs <;> rfl

/-- `_mkdir("/x")` on such an image stops at the NULL pointer, with one more inode marked. -/
theorem inode_without_directory : Ext2.Consistent smallLayout noBlocks.image ∧
    nameStep 0xC0200400 { rootOnly with image := noBlocks.image } (mkdirCall [slash, 0x78]) =
      .error .fault ∧
    (∃ k m', ext2NewInode noBlocks.image 0xC0200400 2 [slash, 0x78] 0x4000 =
        .ok (⟨none, none⟩, m') ∧
      smallLayout.inodeBit noBlocks.image 0 k = false ∧
      smallLayout.inodeBit m' 0 k) ∧
    ¬FailsCleanly 0xC0200400 { rootOnly with image := noBlocks.image }
      (mkdirCall [slash, 0x78]) := by
  have hc : Ext2.Consistent smallLayout noBlocks.image := noBlocks.image_consistent (by decide)
  have hcall : newCall 0xC0200400 (Machine.enter { rootOnly with image := noBlocks.image }
      (mkdirCall [slash, 0x78])) (mkdirCall [slash, 0x78]) = some ⟨noBlocks.image, 2, 0x4000⟩ :=
    newCall_root rfl rfl (by decide +kernel)
  have hlive : smallLayout.Live noBlocks.image 2 := ⟨⟨by decide, by decide⟩, by decide⟩
  have hname : Ext2.NameFits smallLayout noBlocks.image 2 (basename [slash, 0x78]) :=
    ⟨by decide +kernel, by decide, 0xC020400C#32, by decide, by decide⟩
  have hgroup : firstGroup noBlocks.image 0xC0200400 Ext2.descUnallocatedInodes 1 = some 0 := by
    decide
  obtain ⟨n, m', hcr, -, hnull⟩ := Ext2.ext2NewInode_full (L := Ext2.smallGeometry) hc
    Ext2.smallGeometry_plain hlive hname rfl hgroup (by decide)
    (by decide : 0x4000#32 &&& 0x4000#32 ≠ 0#32) (fun i hi => noBlocks_full hi)
  have hfault :
      nameStep 0xC0200400 { rootOnly with image := noBlocks.image } (mkdirCall [slash, 0x78]) =
      .error .fault := mkdir_faults rfl hcall hnull
  refine ⟨hc, hfault, ⟨n - 1, m', hnull, hcr.free, ?_⟩, ?_⟩
  · have hbit := hcr.bit _ hcr.lt
    rw [decide_eq_true rfl, Bool.or_true] at hbit
    exact hbit
  · intro h
    obtain ⟨ret, s', hstep, -⟩ := h _ m' hcall hnull
    rw [hfault] at hstep
    cases hstep

end Samples

end TapiOS.Task
