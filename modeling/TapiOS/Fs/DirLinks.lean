import TapiOS.Fs.DirInsert
import TapiOS.Fs.Ext2Isolation

/-!
# The links of a new directory

ext2_new_inode gives a new directory a block with the entries '.' and '..'. Both get the
number of the new directory: write_directory_structure is not told the parent's.
-/
namespace TapiOS.Fs.Ext2

open Util Lib
open BitVec (ofInt ofNat)

/-- The number that the scan of the inode bitmap gives out. -/
def nextInodeNo (m : Mem) (sb : Word) : Option Word :=
  match getBlockgroupCount m sb with
  | .error _ => none
  | .ok groups => (firstGroup m sb descUnallocatedInodes groups).map fun g =>
    let desc := blockgroupDescriptor sb (ofNat 32 g)
    ofInt 32 ((freeInodeLoop (getBlock m sb (descBitmapInodeNo m desc)) desc
      ((BLOCKSIZE m sb).toNat / 4) 0 m).1 + 1)

/-- The block of the directory holds '.' and '..' and nothing else, '.' leads to itself and
'..' to its parent. -/
structure LinkedBothWays (m : Mem) (sb inodeNo parent base : Word) : Prop where
  block : ∃ es, Entries m base 0 (BLOCKSIZE m sb).toNat es ∧
    es.map (·.name) = [[dot], [dot, dot]]
  self : ext2Search m sb inodeNo [dot] = .ok (some ⟨inodeNo, [dot]⟩)
  parent : ext2Search m sb inodeNo [dot, dot] = .ok (some ⟨parent, [dot, dot]⟩)

/-- What the call writes lies apart: the block size is as before, and the record of the new
directory can be read again and names its block, which does not contain address 0. -/
structure WrittenApart (m m' : Mem) (sb inodeNo base : Word) : Prop where
  size : BLOCKSIZE m' sb = BLOCKSIZE m sb
  found : ∃ inode, DirectoryAt m' sb inodeNo inode base
  null : 0#32 ∉ span base (BLOCKSIZE m' sb).toNat

/-- Creating a directory with this parent and path. -/
def createDirectory (sb : Word) (m : Mem) (c : Word × Text) : Except Stop (NewInode × Mem) :=
  ext2NewInode m sb c.1 c.2 0x4000

/-- The call returns a new directory. -/
def Makes (sb : Word) (x : Transition Mem (Word × Text) NewInode) : Prop :=
  ∃ no b, x.output = ⟨some no, some b⟩ ∧
    WrittenApart x.pre x.post sb (ofInt 32 no) (getBlock x.post sb (ofInt 32 b))

/-- The directory that the call returns is linked both ways. -/
def Linked (sb : Word) (x : Transition Mem (Word × Text) NewInode) : Prop :=
  ∀ no b, x.output = ⟨some no, some b⟩ → LinkedBothWays x.post sb (ofInt 32 no) x.input.1
    (getBlock x.post sb (ofInt 32 b))

/-- The next free number is that of the parent, so that the directory is its own parent, and
the size of the second entry fits into its 16 bits. -/
def OwnParent (m : Mem) (sb parent : Word) : Prop :=
  nextInodeNo m sb = some parent ∧ 1024 ≤ (BLOCKSIZE m sb).toNat ∧ (BLOCKSIZE m sb).toNat ≤ 65536

section Created
variable {m m' : Mem} {sb dirNo block inode : Word} {path : Text} {no b : Int}

/-- Fields at other places of their lines are apart. -/
theorem span_disjoint_line {a c : Word} {i n j k : Nat} (ha : lineOffset sb a = ofNat 5 i)
    (hc : lineOffset sb c = ofNat 5 j) (hn : i + n ≤ 32) (hk : j + k ≤ 32)
    (h : i + n ≤ j ∨ j + k ≤ i) : Disjoint (span a n) (span c k) := by
  have hplace : ∀ {x d : Word} {p q : Nat}, lineOffset sb d = ofNat 5 p → p + q ≤ 32 →
      x ∈ span d q → ∃ r < q, lineOffset sb x = ofNat 5 (p + r) := by
    intro x d p q hd hq hx
    refine ⟨(x - d).toNat, hx, ?_⟩
    have he : x = d + (x - d) := by rw [BitVec.add_comm, BitVec.sub_add_cancel]
    have hw : (x - d).setWidth 5 = ofNat 5 (x - d).toNat := by
      apply BitVec.eq_of_toNat_eq
      rw [BitVec.toNat_setWidth, BitVec.toNat_ofNat]
    calc lineOffset sb x = lineOffset sb (d + (x - d)) := by rw [← he]
      _ = ofNat 5 (p + (x - d).toNat) := by
        rw [lineOffset_add, hd, hw, BitVec.ofNat_add]
  rw [Set.disjoint_left]
  intro x hx hx'
  obtain ⟨r, hr, h1⟩ := hplace ha hn hx
  obtain ⟨r', hr', h2⟩ := hplace hc hk hx'
  have he := congrArg BitVec.toNat (h1.symm.trans h2)
  rw [BitVec.toNat_ofNat, BitVec.toNat_ofNat] at he
  omega

theorem lineOffset_shift (sb : Word) : lineOffset sb (sb + 24#32) = ofNat 5 24 := by
  rw [lineOffset_add]
  unfold lineOffset
  rw [BitVec.sub_self]
  rfl

/-- The block of a directory does not meet the block size. -/
theorem shift_apart_block (m : Mem) (sb block : Word) :
    Disjoint (span (sb + 24#32) 4) (span (getBlock m sb block) 24) :=
  span_disjoint_line (i := 24) (j := 0) (lineOffset_shift sb) (lineOffset_getBlock m sb block)
    (by decide) (by decide) (.inr (by decide))

theorem blockSize_keeps {A : Set Word} (h : ChangesOnly A m m')
    (hapart : Disjoint (span (sb + 24#32) 4) A) : BLOCKSIZE m' sb = BLOCKSIZE m sb := by
  have hshift := word_of_eqOn (h.keeps hapart) (Set.Subset.refl _)
  rw [BLOCKSIZE, BLOCKSIZE, sbBlockSizeShift, sbBlockSizeShift, hshift]

theorem atInsert_next {flags : Word} {p : Insertion} (h : atInsert m sb dirNo flags = .ok p) :
    nextInodeNo m sb = some (ofInt 32 p.index) ∧
      ∃ m₁, readInode m₁ sb (ofInt 32 p.index) = .ok p.inode := by
  unfold atInsert at h
  unfold nextInodeNo
  cases hgroups : getBlockgroupCount m sb with
  | error e =>
    simp only [hgroups] at h
    cases h
  | ok groups =>
    cases hgroup : firstGroup m sb descUnallocatedInodes groups with
    | none =>
      simp only [hgroups, hgroup] at h
      cases h
    | some g =>
      simp only [hgroups, hgroup] at h
      split_ifs at h
      split at h
      · cases h
      · rename_i inode hrec
        split at h
        · cases h
        · cases h
          refine ⟨?_, _, hrec⟩
          dsimp only
          rw [hgroup]
          rfl

theorem newInode_directory
    (h : ext2NewInode m sb dirNo path 0x4000 = .ok (⟨some no, some b⟩, m')) :
    nextInodeNo m sb = some (ofInt 32 no) ∧
    ∃ m₀ m₁, BLOCKSIZE m₁ sb = BLOCKSIZE m₀ sb ∧
      m' = writeDirectoryStructure m₀ sb (getBlock m₁ sb (ofInt 32 b))
        (ofInt 32 no) := by
  rw [ext2NewInode_eq] at h
  cases hp : atInsert m sb dirNo 0x4000 with
  | error e =>
    simp only [hp] at h
    cases h
  | ok p =>
    obtain ⟨hnext, m₁, hrec⟩ := atInsert_next hp
    simp only [hp, insertAndFinish] at h
    split at h
    · cases h
    · rw [if_pos (by decide)] at h
      unfold newDirectory at h
      dsimp only at h
      split_ifs at h
      · simp at h
      obtain ⟨⟨rfl, rfl⟩, rfl⟩ := h
      refine ⟨hnext, _, _, ?_, rfl⟩
      -- the block number goes to another place of its line than the block size
      have hline : lineOffset sb (inodeBlocks p.inode) = ofNat 5 8 := by
        unfold inodeBlocks
        rw [lineOffset_add, lineOffset_record hrec]
        rfl
      have hapart := span_disjoint_line (n := 4) (k := 4) (lineOffset_shift sb) hline (by decide)
        (by decide) (.inr (by decide))
      exact (blockSize_keeps (Mem.setWord_changes _ _ _) hapart).symm

/-- The sizes of the two entries; that of the second is cut to 16 bits. -/
theorem writeDirectoryStructure_sizes {block : Word} (m : Mem) (inodeIndex : Word)
    (hsb : Disjoint (span (sb + 24#32) 4) (span block 24)) :
    entrySize (writeDirectoryStructure m sb block inodeIndex) block = 12#16 ∧
      entrySize (writeDirectoryStructure m sb block inodeIndex) (block + 12#32) =
        (BLOCKSIZE m sb - 12#32).setWidth 16 := by
  rw [writeDirectoryStructure_eq, secondEntry_blockSize m inodeIndex hsb]
  have h16 : block + 12#32 + 4#32 = block + 16#32 := add_ofNat_add block 12 4
  constructor
  · simp [entrySize, secondEntry, firstEntry, Mem.half, Mem.setWord, Mem.setHalf, Mem.set,
      BitVec.add_assoc]
  · have hd := span_disjoint (o := 16) (n := 2) (p := 12) (k := 4) block (by decide) (by decide)
      (by decide)
    rw [entrySize, h16, half_of_eqOn ((Mem.setWord_changes _ _ _).keeps hd) (Set.Subset.refl _),
      Mem.half_setHalf]

theorem blockSize_mod (m : Mem) (sb : Word) : (BLOCKSIZE m sb).toNat % 1024 = 0 := by
  have h : ∀ k < 32, (1024#32 <<< k).toNat % 1024 = 0 := by decide
  exact h _ (Nat.mod_lt _ (by decide))

/-- Two entries tile a block of the new directory only if it has at most 64 KiB. -/
theorem two_entries_size {block : Word} {inodeIndex : Word} {e f : DirEntry}
    (hsb : Disjoint (span (sb + 24#32) 4) (span block 24))
    (hm' : m' = writeDirectoryStructure m sb block inodeIndex)
    (h : Entries m' block 0 (BLOCKSIZE m sb).toNat [e, f]) :
    1024 ≤ (BLOCKSIZE m sb).toNat ∧ (BLOCKSIZE m sb).toNat ≤ 65536 := by
  obtain ⟨hs1, hs2⟩ := writeDirectoryStructure_sizes m inodeIndex hsb
  rw [← hm'] at hs1 hs2
  have hmod := blockSize_mod m sb
  generalize hhi : (BLOCKSIZE m sb).toNat = hi at h
  cases h with
  | cons hd hmin h4 hrest =>
    rw [BitVec.add_zero] at hd
    subst hd
    rw [hs1] at hrest
    cases hrest with
    | cons hd hmin h4 hrest =>
      cases hrest with
      | nil =>
        have h12 : (12#16).toNat = 12 := rfl
        omega

/-- The new directory is linked both ways exactly if it is its own parent. -/
theorem linkedBothWays_iff
    (h : ext2NewInode m sb dirNo path 0x4000 = .ok (⟨some no, some b⟩, m'))
    (hw : WrittenApart m m' sb (ofInt 32 no) (getBlock m' sb (ofInt 32 b))) :
    LinkedBothWays m' sb (ofInt 32 no) dirNo (getBlock m' sb (ofInt 32 b)) ↔
      OwnParent m sb dirNo := by
  obtain ⟨hnext, m₀, m₁, h₁, hm'⟩ := newInode_directory h
  obtain ⟨inode, hdir⟩ := hw.found
  have happart := shift_apart_block m₁ sb (ofInt 32 b)
  have h₀ : BLOCKSIZE m' sb = BLOCKSIZE m₀ sb := by
    rw [hm']
    exact blockSize_keeps (writeDirectoryStructure_changes _ _ _ _) happart
  have hbase : getBlock m₁ sb (ofInt 32 b) = getBlock m' sb (ofInt 32 b) := by
    rw [getBlock, h₁, ← h₀, getBlock]
  rw [hbase] at hm' happart
  have hmod := blockSize_mod m₀ sb
  have hentries : 1024 ≤ (BLOCKSIZE m₀ sb).toNat → (BLOCKSIZE m₀ sb).toNat ≤ 65536 →
      Entries m' (getBlock m' sb (ofInt 32 b)) 0 (BLOCKSIZE m' sb).toNat
        [⟨ofInt 32 no, [dot]⟩, ⟨ofInt 32 no, [dot, dot]⟩] := by
    intro hmin hmax
    have he := writeDirectoryStructure_entries m₀ (ofInt 32 no) happart (by omega) hmax
      (by omega)
    rw [← hm', ← h₀] at he
    exact he
  have hsearch : 1024 ≤ (BLOCKSIZE m₀ sb).toNat → (BLOCKSIZE m₀ sb).toNat ≤ 65536 →
      ext2Search m' sb (ofInt 32 no) [dot] = .ok (some ⟨ofInt 32 no, [dot]⟩) ∧
      ext2Search m' sb (ofInt 32 no) [dot, dot] =
        .ok (some ⟨ofInt 32 no, [dot, dot]⟩) := by
    intro hmin hmax
    have hs := hdir.search hw.null (hentries hmin hmax).tiles
    exact ⟨hs _, hs _⟩
  rw [OwnParent, hnext, ← hw.size, h₀]
  constructor
  · intro hl
    obtain ⟨es, hes, hnames⟩ := hl.block
    obtain ⟨e, f, rfl⟩ : ∃ e f, es = [e, f] := by
      have hlen := congrArg List.length hnames
      rw [List.length_map] at hlen
      exact List.length_eq_two.mp hlen
    rw [h₀] at hes
    obtain ⟨hmin, hmax⟩ := two_entries_size happart hm' hes
    have he := (hsearch hmin hmax).2.symm.trans hl.parent
    simp only [Except.ok.injEq, Option.some.injEq, DirEntry.mk.injEq, and_true] at he
    exact ⟨congrArg some he, hmin, hmax⟩
  · intro hown
    obtain ⟨hno, hmin, hmax⟩ := hown
    have he : ofInt 32 no = dirNo := Option.some.inj hno
    obtain ⟨hself, hparent⟩ := hsearch hmin hmax
    refine ⟨⟨_, hentries hmin hmax, rfl⟩, hself, ?_⟩
    rw [hparent, he]

end Created

/-- In every sequence of creations the new directories are linked both ways exactly if each
is its own parent. -/
theorem directories_linked_iff {sb : Word} {m : Mem} {calls : List (Word × Text)}
    {tr : List (Transition Mem (Word × Text) NewInode)}
    (hr : run (createDirectory sb) m calls = some tr) (hmade : ∀ x ∈ tr, Makes sb x) :
    (∀ x ∈ tr, Linked sb x) ↔ ∀ x ∈ tr, OwnParent x.pre sb x.input.1 := by
  apply forall₂_congr
  intro x hx
  obtain ⟨no, b, hout, hw⟩ := hmade x hx
  have hs : ext2NewInode x.pre sb x.input.1 x.input.2 0x4000 = .ok (x.output, x.post) :=
    run_step hr x hx
  rw [hout] at hs
  rw [← linkedBothWays_iff hs hw]
  constructor
  · intro hl
    exact hl no b hout
  · intro hl no' b' hout'
    rw [hout, NewInode.mk.injEq] at hout'
    obtain rfl := Option.some.inj hout'.1
    obtain rfl := Option.some.inj hout'.2
    exact hl

/-- An image whose bitmap has inode 1 in use and the root directory free, with an entry of the
size of the block in its first block and a bitmap of the blocks in block 5, where 16 are in
use. -/
def freeRoot : Mem := imageOf
  [(0x10005, 4), (0x10400, 8), (0x10404, 64), (0x10420, 64), (0x10428, 8), (0x10800, 5),
    (0x10804, 3), (0x10808, 4), (0x1080E, 8), (0x10C00, 1), (0x11400, 0xFF), (0x11401, 0xFF)]

/-- The call gives out these numbers, and the record of the new directory is at this address
and names this block. -/
def makesAt (sb : Word) (m : Mem) (c : Word × Text) (no b : Int) (inode base : Word) : Bool :=
  match createDirectory sb m c with
  | .error _ => false
  | .ok (r, m') => decide (r = ⟨some no, some b⟩) && decide (BLOCKSIZE m' sb = BLOCKSIZE m sb) &&
    decide ((readInode m' sb (ofInt 32 no)).toOption = some inode) && isDir m' inode &&
    decide (getBlock m' sb (entry m' (inodeBlocks inode) 0) = base) &&
    decide (getBlock m' sb (ofInt 32 b) = base)

theorem makes_of_makesAt {sb inode base : Word} {c : Word × Text} {m : Mem} {no b : Int}
    (h : makesAt sb m c no b inode base)
    (hnull : 0#32 ∉ span base (BLOCKSIZE m sb).toNat) :
    ∃ m', createDirectory sb m c = .ok (⟨some no, some b⟩, m') ∧
      Makes sb ⟨m, c, ⟨some no, some b⟩, m'⟩ := by
  unfold makesAt at h
  cases hs : createDirectory sb m c with
  | error e =>
    rw [hs] at h
    cases h
  | ok r =>
    obtain ⟨out, m'⟩ := r
    simp only [hs, Bool.and_eq_true, decide_eq_true_eq] at h
    obtain ⟨⟨⟨⟨⟨rfl, hsize⟩, hrec⟩, hdir⟩, hfirst⟩, rfl⟩ := h
    refine ⟨m', rfl, no, b, rfl, hsize, ⟨inode, toOption_eq_some hrec, hdir, hfirst⟩, ?_⟩
    rw [hsize]
    exact hnull

theorem directories_linked_iff_freeRoot :
    ∃ x, run (createDirectory 0x10400) freeRoot [(2, [0x78])] = some [x] ∧
      x.output = ⟨some 2, some 16⟩ ∧ Linked 0x10400 x := by
  have hsize : BLOCKSIZE freeRoot 0x10400 = 1024#32 := by decide
  have hnull : 0#32 ∉ span 0x14000#32 (BLOCKSIZE freeRoot 0x10400).toNat := by
    rw [hsize, mem_span]
    decide
  have heval : makesAt 0x10400 freeRoot (2, [0x78]) 2 16 0x11080 0x14000 := by decide +kernel
  obtain ⟨m', hs, hmakes⟩ := makes_of_makesAt heval hnull
  have hnext : nextInodeNo freeRoot 0x10400 = some 2 := by decide
  have hown : OwnParent freeRoot 0x10400 2 := by
    rw [OwnParent, hsize]
    exact ⟨hnext, by decide, by decide⟩
  have hrun : run (createDirectory 0x10400) freeRoot [(2, [0x78])] = some [_] := run_single hs
  have h := (directories_linked_iff hrun (List.forall_mem_singleton.mpr hmakes)).mpr
    (List.forall_mem_singleton.mpr hown)
  exact ⟨_, hrun, rfl, List.forall_mem_singleton.mp h⟩

/-- A directory made in the root directory 2 of a consistent image is inode 3, and its '..' is
inode 3, too. -/
theorem dotdot_leads_to_itself : Consistent smallLayout freshSeed.image ∧
    ∃ x, run (createDirectory 0xC0200400) freshSeed.image [(2, [0x78])] = some [x] ∧
      Makes 0xC0200400 x ∧ x.output.inodeNo = some 3 ∧
      ext2Search x.post 0xC0200400 3 [dot, dot] = .ok (some ⟨3, [dot, dot]⟩) ∧
      ¬Linked 0xC0200400 x := by
  have hsize : BLOCKSIZE freshSeed.image 0xC0200400 = 2048#32 := by decide
  have hnull : 0#32 ∉ span 0xC0204800#32 (BLOCKSIZE freshSeed.image 0xC0200400).toNat := by
    rw [hsize, mem_span]
    decide
  have heval : makesAt 0xC0200400 freshSeed.image (2, [0x78]) 3 9 0xC0202100 0xC0204800 := by
    decide +kernel
  obtain ⟨m', hs, hmakes⟩ := makes_of_makesAt heval hnull
  have hfound : (createDirectory 0xC0200400 freshSeed.image (2, [0x78])).toOption.map
      (fun r => (ext2Search r.2 0xC0200400 3 [dot, dot]).toOption) =
      some (some (some ⟨3, [dot, dot]⟩)) := by decide +kernel
  rw [hs] at hfound
  have hsearch : ext2Search m' 0xC0200400 3 [dot, dot] = .ok (some ⟨3, [dot, dot]⟩) :=
    toOption_eq_some (Option.some.inj hfound)
  refine ⟨freshSeed.image_consistent (by decide), _, run_single hs, hmakes, rfl, hsearch, ?_⟩
  intro hl
  have he := hsearch.symm.trans (hl 3 9 rfl).parent
  simp at he

end TapiOS.Fs.Ext2
