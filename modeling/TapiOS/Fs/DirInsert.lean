import TapiOS.Fs.DirBlock
import TapiOS.Lib.Runs
import TapiOS.Util.Strings

/-!
# Inserting into a directory, what ext2_search then finds

do_insert takes the slack of the last entry without looking at how much there is, and
copies the name with its terminator. If calculate_dir_size of the new entry fits, the
block lists one entry more; the terminator may still go to the first byte of the next
block, which holds no field that a search reads except the lower half of the type.
-/
namespace TapiOS.Fs.Ext2

open Lib Util
open BitVec (ofNat ofInt ofNat_toNat)

/-- The directory `inodeNo`, with its inode and its first block at these addresses. -/
structure DirectoryAt (m : Mem) (sb inodeNo inode base : Word) : Prop where
  record : readInode m sb inodeNo = .ok inode
  isDir : isDir m inode
  block : getBlock m sb (entry m (inodeBlocks inode) 0) = base

/-- The descriptor that read_inode looks at. -/
def descriptorOf (m : Mem) (sb inodeNo : Word) : Word :=
  blockgroupDescriptor sb ((inodeNo - 1#32) / sbInodesInBlockgroup m sb)

/-- The fields that lead to the first block of a directory. -/
def headFields (m : Mem) (sb inodeNo inode : Word) : Set Word :=
  span (sb + 24#32) 4 ∪ span (sb + 40#32) 4 ∪ span (descriptorOf m sb inodeNo + 8#32) 4 ∪
    span inode 2 ∪ span (inode + 40#32) 4

section Search
variable {m m' : Mem} {sb inodeNo inode base : Word} {es : List DirEntry}

theorem DirectoryAt.search (h : DirectoryAt m sb inodeNo inode base)
    (hnull : 0#32 ∉ span base (BLOCKSIZE m sb).toNat)
    (hes : Tiles m base 0 (BLOCKSIZE m sb).toNat es) (name : Text) :
    ext2Search m sb inodeNo name = .ok (es.find? fun e => decide (e.name = name)) := by
  have hlen := hes.length_le
  have hs := hes.search hnull name (n := (BLOCKSIZE m sb).toNat + 1) (by omega)
  rw [BitVec.add_zero] at hs
  unfold ext2Search
  rw [h.record]
  dsimp only
  rw [if_neg (by simp [h.isDir]), h.block, hs]

/-- ISDIR looks at the upper half of the type only. -/
theorem isDir_congr (h : m' (inode + 1#32) = m (inode + 1#32)) :
    Ext2.isDir m' inode = Ext2.isDir m inode := by
  have hlow : ∀ a b c : Byte, (a ++ b) &&& 0x4000#16 = (a ++ c) &&& 0x4000#16 := by
    intro a b c
    apply BitVec.eq_of_getLsbD_eq
    intro i hi
    simp only [BitVec.getLsbD_and, BitVec.getLsbD_append]
    by_cases h8 : i < 8
    · have hz : (0x4000#16).getLsbD i = false := by
        revert h8
        revert i
        decide
      rw [hz, Bool.and_false, Bool.and_false]
    · rw [if_neg h8, if_neg h8]
  unfold Ext2.isDir Mem.half
  rw [h, hlow _ (m' inode) (m inode)]

/-- Blocks, descriptors and inodes start at multiples of 32 from the superblock. -/
def lineOffset (sb a : Word) : BitVec 5 := (a - sb).setWidth 5

theorem lineOffset_add (sb a b : Word) :
    lineOffset sb (a + b) = lineOffset sb a + b.setWidth 5 := by
  unfold lineOffset
  rw [show a + b - sb = a - sb + b from add_sub_right_comm _ _ _,
    BitVec.setWidth_add _ _ (by decide)]

theorem blockSize_setWidth (m : Mem) (sb : Word) : (BLOCKSIZE m sb).setWidth 5 = 0#5 := by
  have hbits : ∀ j < 5, (1024#32).getLsbD j = false := by decide
  apply BitVec.eq_of_getLsbD_eq
  intro i hi
  rw [BLOCKSIZE, BitVec.getLsbD_setWidth, BitVec.getLsbD_shiftLeft, hbits _ (by omega)]
  simp

theorem lineOffset_getBlock (m : Mem) (sb block : Word) :
    lineOffset sb (getBlock m sb block) = 0#5 := by
  unfold getBlock
  rw [lineOffset_add, BitVec.setWidth_mul _ _ (by decide), blockSize_setWidth, BitVec.zero_mul]
  unfold lineOffset
  rw [show sb - SUPERBLOCK_SIZE - sb = -SUPERBLOCK_SIZE from sub_sub_cancel_left _ _]
  rfl

theorem lineOffset_descriptor (sb group : Word) :
    lineOffset sb (blockgroupDescriptor sb group) = 0#5 := by
  unfold blockgroupDescriptor
  rw [lineOffset_add, lineOffset_add, BitVec.setWidth_mul _ _ (by decide)]
  unfold lineOffset
  rw [BitVec.sub_self]
  simp [SUPERBLOCK_SIZE, descriptorSize]

theorem lineOffset_record (h : readInode m sb inodeNo = .ok inode) :
    lineOffset sb inode = 0#5 := by
  unfold readInode at h
  dsimp only at h
  split at h
  · cases h
  · cases h
    rw [lineOffset_add, lineOffset_getBlock, BitVec.setWidth_mul _ _ (by decide)]
    simp [inodeSize]

/-- Memory that is the same in the fields, but for their bytes at such places, has the same
directory. -/
theorem DirectoryAt.congr (h : DirectoryAt m sb inodeNo inode base)
    (he : ∀ x ∈ headFields m sb inodeNo inode, lineOffset sb x ≠ 0#5 → m' x = m x) :
    BLOCKSIZE m' sb = BLOCKSIZE m sb ∧ DirectoryAt m' sb inodeNo inode base := by
  have hfield : ∀ a, lineOffset sb a = 8#5 ∨ lineOffset sb a = 24#5 →
      span a 4 ⊆ headFields m sb inodeNo inode → m'.word a = m.word a := by
    intro a ha hsub
    apply Mem.word_congr
    intro i hi
    apply he _ (hsub (add_mem_span a hi (by decide)))
    rw [lineOffset_add]
    have hne : ∀ i < 4, (8#5 + (ofNat 32 i).setWidth 5 ≠ 0#5) ∧
        24#5 + (ofNat 32 i).setWidth 5 ≠ 0#5 := by decide
    rcases ha with ha | ha
    · rw [ha]
      exact (hne i hi).1
    · rw [ha]
      exact (hne i hi).2
  have hself : lineOffset sb sb = 0#5 := by
    unfold lineOffset
    rw [BitVec.sub_self]
    rfl
  have hshift : sbBlockSizeShift m' sb = sbBlockSizeShift m sb := by
    apply hfield
    · rw [lineOffset_add, hself]
      decide
    · exact fun x hx => .inl (.inl (.inl (.inl hx)))
  have hgroup : sbInodesInBlockgroup m' sb = sbInodesInBlockgroup m sb := by
    apply hfield
    · rw [lineOffset_add, hself]
      decide
    · exact fun x hx => .inl (.inl (.inl (.inr hx)))
  have htable : descInodeTableBlock m' (descriptorOf m sb inodeNo) =
      descInodeTableBlock m (descriptorOf m sb inodeNo) := by
    apply hfield
    · rw [lineOffset_add, descriptorOf, lineOffset_descriptor]
      decide
    · exact fun x hx => .inl (.inl (.inr hx))
  have hfirst : entry m' (inodeBlocks inode) 0 = entry m (inodeBlocks inode) 0 := by
    have h0 : inodeBlocks inode + ofNat 32 (4 * 0) = inode + 40#32 := BitVec.add_zero _
    unfold entry
    rw [h0]
    apply hfield
    · rw [lineOffset_add, lineOffset_record h.record]
      decide
    · exact fun x hx => .inr hx
  have htype : m' (inode + 1#32) = m (inode + 1#32) := by
    apply he
    · exact .inl (.inr (add_mem_span inode (i := 1) (by decide) (by decide)))
    · rw [lineOffset_add, lineOffset_record h.record]
      decide
  have hbs : BLOCKSIZE m' sb = BLOCKSIZE m sb := by rw [BLOCKSIZE, hshift, BLOCKSIZE]
  have hget : ∀ b, getBlock m' sb b = getBlock m sb b := by
    intro b
    rw [getBlock, hbs, getBlock]
  refine ⟨hbs, ?_, ?_, ?_⟩
  · have hrec := h.record
    unfold readInode at hrec ⊢
    dsimp only at hrec ⊢
    rw [hgroup, hbs, hget]
    unfold descriptorOf at htable
    rw [htable]
    exact hrec
  · rw [isDir_congr htype]
    exact h.isDir
  · rw [hfirst, hget]
    exact h.block

/-- The byte behind a block is the first one of the next. -/
theorem lineOffset_blockEnd (h : DirectoryAt m sb inodeNo inode base) :
    lineOffset sb (base + BLOCKSIZE m sb) = 0#5 := by
  rw [lineOffset_add, ← h.block, lineOffset_getBlock, blockSize_setWidth]
  rfl

theorem mem_span_succ {x a : Word} {n : Nat} (h : x ∈ span a (n + 1)) (hx : x ∉ span a n) :
    x = a + ofNat 32 n := by
  rw [mem_span] at h hx
  have hn : (x - a).toNat = n := by omega
  rw [← hn, ofNat_toNat, BitVec.setWidth_eq, BitVec.add_comm, BitVec.sub_add_cancel]

/-- Stores into the first block of a directory, and to the byte behind it, leave the way
to the block alone. -/
theorem DirectoryAt.kept (h : DirectoryAt m sb inodeNo inode base)
    (hapart : Disjoint (headFields m sb inodeNo inode) (span base (BLOCKSIZE m sb).toNat))
    (hch : ChangesOnly (span base ((BLOCKSIZE m sb).toNat + 1)) m m') :
    BLOCKSIZE m' sb = BLOCKSIZE m sb ∧ DirectoryAt m' sb inodeNo inode base := by
  apply h.congr
  intro x hx hline
  apply hch
  intro hmem
  have he := mem_span_succ hmem (Set.disjoint_left.mp hapart hx)
  rw [ofNat_toNat] at he
  rw [he] at hline
  exact hline (lineOffset_blockEnd h)

end Search

section Insert
variable {m : Mem} {sb base inodeNo : Word} {es : List DirEntry}

/-- A name that fits is appended to the entries, and ext2_search finds every name that it
found before, and the new one if it found none of that name. -/
theorem doInsert_lists (name : CString) (hlen : name.text.length ≤ 255)
    (hnull : 0#32 ∉ span base (BLOCKSIZE m sb).toNat)
    (hes : Entries m base 0 (BLOCKSIZE m sb).toNat es) (hne : es ≠ [])
    (hfit : SlackFits m base (BLOCKSIZE m sb) name.text) :
    ∃ m', doInsert m sb base inodeNo name.text = .ok m' ∧
      Entries m' base 0 (BLOCKSIZE m sb).toNat (es ++ [⟨inodeNo, name.text⟩]) ∧
      ∀ dirNo inode, DirectoryAt m sb dirNo inode base →
        Disjoint (headFields m sb dirNo inode) (span base (BLOCKSIZE m sb).toNat) →
        (∀ other e, ext2Search m sb dirNo other = .ok (some e) →
          ext2Search m' sb dirNo other = .ok (some e)) ∧
        (ext2Search m sb dirNo name.text = .ok none →
          ext2Search m' sb dirNo name.text = .ok (some ⟨inodeNo, name.text⟩)) := by
  obtain ⟨m', hins, hch, hes'⟩ := doInsert_appends inodeNo hnull hes hne hlen hfit
  refine ⟨m', hins, hes', ?_⟩
  intro dirNo inode hdir hapart
  obtain ⟨hbs, hdir'⟩ := hdir.kept hapart hch
  have hold := hdir.search hnull hes.tiles
  have hnew := hdir'.search (by rw [hbs]; exact hnull) (by rw [hbs]; exact hes'.tiles)
  constructor
  · intro other e hfound
    rw [hold] at hfound
    rw [hnew, List.find?_append, Except.ok.inj hfound]
    rfl
  · intro hnone
    rw [hold] at hnone
    rw [hnew, List.find?_append, Except.ok.inj hnone]
    simp

end Insert

section Sample

/-! A small image of one group with eight inodes: the superblock at 0x10400, the bitmap of
the inodes at 0x10C00, the inode of directory 1 at 0x11000 and its block at 0x12000, where
'.' takes 1000 bytes and '..' the last 24. -/

/-- Memory with these bytes and zero elsewhere. -/
def imageOf (bytes : List (Nat × Byte)) : Mem := fun a => (bytes.lookup a.toNat).getD 0

def sample : Mem := imageOf
  [(0x10400, 8), (0x10404, 64), (0x10420, 64), (0x10428, 8), (0x10804, 3), (0x10808, 4),
    (0x1080E, 6), (0x10C00, 3), (0x11000, 0xED), (0x11001, 0x41), (0x11028, 8),
    (0x12000, 1), (0x12004, 0xE8), (0x12005, 3), (0x12006, 1), (0x12007, 2), (0x12008, 0x2E),
    (0x123E8, 1), (0x123EC, 24), (0x123EE, 2), (0x123EF, 2), (0x123F0, 0x2E), (0x123F1, 0x2E)]

theorem sample_blockSize : BLOCKSIZE sample 0x10400 = 1024 := by decide

theorem sample_null : 0#32 ∉ span 0x12000 (BLOCKSIZE sample 0x10400).toNat := by
  rw [sample_blockSize, mem_span]
  decide

theorem sample_entries : Entries sample 0x12000 0 (BLOCKSIZE sample 0x10400).toNat
    [⟨1, [dot]⟩, ⟨1, [dot, dot]⟩] := by
  have h1 : Entries sample 0x12000 1000 1024 [⟨1, [dot, dot]⟩] := by
    refine .cons (d := 0x123E8) (by decide) (by decide) (by decide) ?_
    exact .nil _
  refine .cons (d := 0x12000) (by decide) (by decide) (by decide) ?_
  exact h1

theorem sample_directory : DirectoryAt sample 0x10400 1 0x11000 0x12000 :=
  ⟨by decide, by decide, by decide⟩

theorem sample_apart : Disjoint (headFields sample 0x10400 1 0x11000)
    (span 0x12000 (BLOCKSIZE sample 0x10400).toNat) := by
  have hdesc : descriptorOf sample 0x10400 1 = 0x10800 := by decide
  rw [sample_blockSize]
  apply Set.disjoint_left.mpr
  intro x hx hblock
  unfold headFields at hx
  rw [hdesc] at hx
  simp only [Set.mem_union, mem_span] at hx hblock
  bv_omega

/-- "abcd" takes all of the slack. -/
def abcd : CString := ⟨[0x61, 0x62, 0x63, 0x64], by decide⟩

theorem sample_fits : SlackFits sample 0x12000 (BLOCKSIZE sample 0x10400) abcd.text :=
  ⟨0x123E8, by decide +kernel, by decide⟩

theorem doInsert_lists_sample : ∃ m', doInsert sample 0x10400 0x12000 2 abcd.text = .ok m' ∧
    ext2Search m' 0x10400 1 abcd.text = .ok (some ⟨2, abcd.text⟩) := by
  obtain ⟨m', hins, -, hsearch⟩ := @doInsert_lists sample 0x10400 0x12000 2 _ abcd (by decide)
    sample_null sample_entries (by decide) sample_fits
  exact ⟨m', hins, (hsearch 1 _ sample_directory sample_apart).2 (by decide +kernel)⟩

end Sample

section Stores

/-! The single stores of do_insert. -/

def storesOf (a : Word) : List Byte → List (Word × Byte)
  | [] => []
  | b :: bs => (a, b) :: storesOf (a + 1#32) bs

def applyStores (m : Mem) (stores : List (Word × Byte)) : Mem :=
  stores.foldl (fun m s => m.set s.1 s.2) m

def putEntryStores (d inodeNo : Word) (name : Text) (size : BitVec 16) : List (Word × Byte) :=
  storesOf (d + 8#32) (nameBytes name) ++
    [(d + 7#32, 2#8), (d + 6#32, ofNat 8 (min name.length 256))] ++
    storesOf d (wordBytes inodeNo) ++ storesOf (d + 4#32) (halfBytes size)

/-- The stores of do_insert when advance_to_last ends at `d`. -/
def insertStores (m : Mem) (d inodeNo : Word) (name : Text) : List (Word × Byte) :=
  let newsize := calculateDirSize m d
  storesOf (d + 4#32) (halfBytes newsize) ++
    putEntryStores (advance (m.setHalf (d + 4#32) newsize) d) inodeNo name (entrySize m d - newsize)

variable {m : Mem} {base d inodeNo : Word} {name : Text}

theorem applyStores_append (m : Mem) (s t : List (Word × Byte)) :
    applyStores m (s ++ t) = applyStores (applyStores m s) t := List.foldl_append

theorem applyStores_storesOf (m : Mem) (a : Word) (bs : List Byte) :
    applyStores m (storesOf a bs) = m.setBytes a bs := by
  induction bs generalizing m a with
  | nil => rfl
  | cons b bs ih => exact ih (m.set a b) (a + 1#32)

theorem setBytes_halfBytes (m : Mem) (a : Word) (h : BitVec 16) :
    m.setBytes a (halfBytes h) = m.setHalf a h := rfl

theorem setBytes_wordBytes (m : Mem) (a w : Word) : m.setBytes a (wordBytes w) = m.setWord a w := by
  have h2 : a + 1#32 + 1#32 = a + 2#32 := add_ofNat_add a 1 1
  have h3 : a + 2#32 + 1#32 = a + 3#32 := add_ofNat_add a 2 1
  simp only [wordBytes, Mem.setBytes, Mem.setWord, h2, h3]

theorem applyStores_putEntry (m : Mem) (d inodeNo : Word) (name : Text) (size : BitVec 16) :
    applyStores m (putEntryStores d inodeNo name size) = putEntry m d inodeNo name size := by
  unfold putEntryStores
  rw [applyStores_append, applyStores_append, applyStores_append, applyStores_storesOf,
    applyStores_storesOf, applyStores_storesOf, setBytes_wordBytes]
  rfl

theorem doInsert_stores {sb : Word} (hlast : advanceToLast m base (BLOCKSIZE m sb) = some d) :
    doInsert m sb base inodeNo name = .ok (applyStores m (insertStores m d inodeNo name)) := by
  unfold doInsert insertStores
  rw [hlast, applyStores_append, applyStores_storesOf, setBytes_halfBytes, applyStores_putEntry]

theorem mem_storesOf {s : Word × Byte} {a : Word} {bs : List Byte} (h : s ∈ storesOf a bs) :
    ∃ i < bs.length, s.1 = a + ofNat 32 i := by
  induction bs generalizing a with
  | nil => cases h
  | cons b bs ih =>
    obtain rfl | h := List.mem_cons.mp h
    · exact ⟨0, by simp, (BitVec.add_zero a).symm⟩
    · obtain ⟨i, hi, hs⟩ := ih h
      refine ⟨i + 1, by simpa using hi, ?_⟩
      rw [hs, Nat.add_comm]
      exact add_ofNat_add a 1 i

theorem last_mem_storesOf (a : Word) (bs : List Byte) (b : Byte) :
    (a + ofNat 32 bs.length, b) ∈ storesOf a (bs ++ [b]) := by
  induction bs generalizing a with
  | nil =>
    rw [List.length_nil, BitVec.add_zero]
    exact List.mem_singleton_self _
  | cons c bs ih =>
    apply List.mem_cons_of_mem
    have h := ih (a + 1#32)
    rw [show a + 1#32 + ofNat 32 bs.length = a + ofNat 32 (1 + bs.length) from
      add_ofNat_add a 1 bs.length, Nat.add_comm] at h
    exact h

theorem blockSize_le (m : Mem) (sb : Word) : (BLOCKSIZE m sb).toNat ≤ 2 ^ 31 := by
  have h : ∀ k < 32, (1024#32 <<< k).toNat ≤ 2 ^ 31 := by decide
  exact h _ (Nat.mod_lt _ (by decide))

variable (inodeNo) in
/-- Every store is inside of the block exactly if the one of the terminator is. -/
theorem insertStores_inside_iff {size : Word} {mid : Nat} (hsize : size.toNat ≤ 2 ^ 31)
    (hd : d = base + ofNat 32 mid) (hhi : mid + (entrySize m d).toNat = size.toNat)
    (hmin : (calculateDirSize m d).toNat ≤ (entrySize m d).toNat) (hlen : name.length ≤ 255) :
    (∀ s ∈ insertStores m d inodeNo name, s.1 ∈ span base size.toNat) ↔
      (calculateDirSize m d).toNat + 9 + name.length ≤ (entrySize m d).toNat := by
  have hadv : advance (m.setHalf (d + 4#32) (calculateDirSize m d)) d =
      base + ofNat 32 (mid + (calculateDirSize m d).toNat) := by
    rw [advance_eq hd, entrySize, Mem.half_setHalf]
  have hin : ∀ o < 2 ^ 32, base + ofNat 32 o ∈ span base size.toNat ↔ o < size.toNat := by
    intro o ho
    rw [mem_span, BitVec.add_comm, BitVec.add_sub_cancel, toNat_ofNat_of_lt ho]
  unfold insertStores putEntryStores
  dsimp only
  rw [hadv, nameBytes_eq hlen]
  generalize hc : (calculateDirSize m d).toNat = c at *
  constructor
  · intro hall
    have hnul := hall _ (List.mem_append_right _ (List.mem_append_left _ (List.mem_append_left _
      (List.mem_append_left _ (last_mem_storesOf _ name 0#8)))))
    rw [show base + ofNat 32 (mid + c) + 8#32 = _ from add_ofNat_add base (mid + c) 8,
      add_ofNat_add, hin _ (by omega)] at hnul
    omega
  · intro hle s hs
    have hpart : ∀ o i, o + i < size.toNat →
        base + ofNat 32 o + ofNat 32 i ∈ span base size.toNat := by
      intro o i ho
      rw [add_ofNat_add, hin _ (by omega)]
      exact ho
    have hpart2 : ∀ o j i, o + j + i < size.toNat →
        base + ofNat 32 o + ofNat 32 j + ofNat 32 i ∈
          span base size.toNat := by
      intro o j i ho
      rw [add_ofNat_add]
      exact hpart o (j + i) (by omega)
    simp only [List.mem_append, List.mem_cons, List.not_mem_nil, or_false] at hs
    rcases hs with hs | (((hs | rfl | rfl) | hs) | hs)
    · obtain ⟨i, hi, hs⟩ := mem_storesOf hs
      rw [hs, hd]
      exact hpart2 mid 4 i (by simp [halfBytes] at hi; omega)
    · obtain ⟨i, hi, hs⟩ := mem_storesOf hs
      rw [hs]
      exact hpart2 (mid + c) 8 i (by simp at hi; omega)
    · exact hpart (mid + c) 7 (by omega)
    · exact hpart (mid + c) 6 (by omega)
    · obtain ⟨i, hi, hs⟩ := mem_storesOf hs
      rw [hs]
      exact hpart (mid + c) i (by simp [wordBytes] at hi; omega)
    · obtain ⟨i, hi, hs⟩ := mem_storesOf hs
      rw [hs]
      exact hpart2 (mid + c) 4 i (by simp [halfBytes] at hi; omega)

end Stores

section Create

/-- ext2_new_inode where it calls do_insert on the directory block at `base`. -/
structure Insertion where
  mem : Mem
  desc : Word
  inode : Word
  index : Int
  base : Word

/-- The part of ext2_new_inode in front of that call. -/
def atInsert (m : Mem) (sb dirNo flags : Word) : Except Stop Insertion :=
  match getBlockgroupCount m sb with
  | .error e => .error e
  | .ok groups =>
    match firstGroup m sb descUnallocatedInodes groups with
    | none => .error .panic
    | some g =>
      let desc := blockgroupDescriptor sb (ofNat 32 g)
      let (index, m) := freeInodeLoop (getBlock m sb (descBitmapInodeNo m desc)) desc
        ((BLOCKSIZE m sb).toNat / 4) 0 m
      let index := index + 1
      if index < 0 then .error .panic
      else
        match readInode m sb (ofInt 32 index) with
        | .error e => .error e
        | .ok inode =>
          let m := initInode m inode flags
          match readInode m sb dirNo with
          | .error e => .error e
          | .ok fsdir =>
            .ok ⟨m, desc, inode, index, getBlock m sb (entry m (inodeBlocks fsdir) 0)⟩

/-- The call and the part behind it. -/
def insertAndFinish (p : Insertion) (sb flags : Word) (path : Text) :
    Except Stop (NewInode × Mem) :=
  match doInsert p.mem sb p.base (ofInt 32 p.index) (basename path) with
  | .error e => .error e
  | .ok m =>
    if flags &&& 0x4000#32 ≠ 0#32 then .ok (newDirectory m sb p.desc p.inode p.index)
    else .ok (⟨some p.index, none⟩, m)

theorem ext2NewInode_eq (m : Mem) (sb dirNo flags : Word) (path : Text) :
    ext2NewInode m sb dirNo path flags =
      match atInsert m sb dirNo flags with
      | .error e => .error e
      | .ok p => insertAndFinish p sb flags path := by
  unfold ext2NewInode atInsert createInode insertAndFinish
  cases getBlockgroupCount m sb with
  | error e => rfl
  | ok groups =>
    dsimp only
    cases firstGroup m sb descUnallocatedInodes groups with
    | none => rfl
    | some g =>
      dsimp only
      split
      · rfl
      · cases readInode _ sb _ with
        | error e => rfl
        | ok inode =>
          dsimp only
          cases readInode _ sb dirNo with
          | error e => rfl
          | ok fsdir => rfl

/-- The stores of do_insert stay in the directory's block, the block is tiled by entries of
nonzero size after them, and ext2_new_inode returns NULL for a name without space. -/
structure CreatesSafely (m : Mem) (sb dirNo flags : Word) (path : Text) : Prop where
  inside : ∃ p d, atInsert m sb dirNo flags = .ok p ∧
    advanceToLast p.mem p.base (BLOCKSIZE p.mem sb) = some d ∧
    ∀ s ∈ insertStores p.mem d (ofInt 32 p.index) (basename path),
      s.1 ∈ span p.base (BLOCKSIZE p.mem sb).toNat
  tiled : ∃ p m' es, atInsert m sb dirNo flags = .ok p ∧
    doInsert p.mem sb p.base (ofInt 32 p.index) (basename path) = .ok m' ∧
    Tiles m' p.base 0 (BLOCKSIZE p.mem sb).toNat es
  reports : ∀ p, atInsert m sb dirNo flags = .ok p →
    ¬ SlackFits p.mem p.base (BLOCKSIZE p.mem sb) (basename path) →
    ∃ r m', ext2NewInode m sb dirNo path flags = .ok (r, m') ∧ r.inodeNo = none

variable {m : Mem} {sb dirNo flags : Word} {path : Text} {es : List DirEntry} {p : Insertion}

/-- ext2_new_inode inserts its entry safely exactly if the slack of the last entry holds
the header, the name and its terminator. -/
theorem newInode_safe_iff (hp : atInsert m sb dirNo flags = .ok p)
    (hnull : 0#32 ∉ span p.base (BLOCKSIZE p.mem sb).toNat)
    (hes : Entries p.mem p.base 0 (BLOCKSIZE p.mem sb).toNat es) (hne : es ≠ [])
    (hlen : (basename path).length ≤ 255) :
    CreatesSafely m sb dirNo flags path ↔
      EntryFits p.mem p.base (BLOCKSIZE p.mem sb) (basename path) := by
  obtain ⟨-, -, mid, d, -, -, -, hd, hlast, hhi, hmin, h4⟩ := hes.at_last hnull hne
  have hfits := entryFits_iff hlen hlast hd hhi
  have hinside := insertStores_inside_iff (ofInt 32 p.index)
    (blockSize_le p.mem sb) hd hhi hmin hlen
  constructor
  · intro h
    obtain ⟨q, d', hq, hd', hall⟩ := h.inside
    cases hp.symm.trans hq
    cases hlast.symm.trans hd'
    exact hfits.mpr (hinside.mp hall)
  · intro h
    have hle := hfits.mp h
    obtain ⟨m', hins, hes'⟩ := doInsert_entries (ofInt 32 p.index) hnull hes hne hlen h
    refine ⟨⟨p, d, hp, hlast, hinside.mpr hle⟩, ⟨p, m', _, hp, hins, hes'.tiles⟩, ?_⟩
    intro q hq hno
    cases hp.symm.trans hq
    have hmax := (neededSize_bounds hlen).2.2
    have hc4 := (calculateDirSize_bounds p.mem d).2.2.2
    exact absurd ⟨d, hlast, by omega⟩ hno

theorem sample_atInsert : ∃ p, atInsert sample 0x10400 1 0x81A4 = .ok p ∧ p.base = 0x12000 ∧
    BLOCKSIZE p.mem 0x10400 = 1024 ∧ Entries p.mem 0x12000 0 1024
      [⟨1, [dot]⟩, ⟨1, [dot, dot]⟩] ∧
    advanceToLast p.mem 0x12000 1024 = some 0x123E8 ∧ entrySize p.mem 0x123E8 = 24 ∧
    calculateDirSize p.mem 0x123E8 = 12 := by
  obtain ⟨p, hp, hbase, hsize, he1, hs1, hc1, he2, hlast, hs2, hc2⟩ :
      ∃ p, atInsert sample 0x10400 1 0x81A4 = .ok p ∧ p.base = 0x12000 ∧
        BLOCKSIZE p.mem 0x10400 = 1024 ∧
        dirEntry p.mem 0x12000 = ⟨1, [dot]⟩ ∧ entrySize p.mem 0x12000 = 1000 ∧
        calculateDirSize p.mem 0x12000 = 12 ∧ dirEntry p.mem 0x123E8 = ⟨1, [dot, dot]⟩ ∧
        advanceToLast p.mem 0x12000 1024 = some 0x123E8 ∧ entrySize p.mem 0x123E8 = 24 ∧
        calculateDirSize p.mem 0x123E8 = 12 := exists_ok (by decide +kernel)
  refine ⟨p, hp, hbase, hsize, ?_, hlast, hs2, hc2⟩
  have h2 : Entries p.mem 0x12000 1000 1024 [⟨1, [dot, dot]⟩] := by
    rw [← he2]
    refine .cons (by decide) (by rw [hs2, hc2]; decide) (by rw [hs2]; decide) ?_
    rw [hs2]
    exact .nil _
  rw [← he1]
  refine .cons (by decide) (by rw [hs1, hc1]; decide) (by rw [hs1]; decide) ?_
  rw [hs1]
  exact h2

/-- A name of one byte. -/
theorem newInode_safe_short : CreatesSafely sample 0x10400 1 0x81A4 [slash, 0x61] := by
  obtain ⟨p, hp, hbase, hsize, hes, hlast, hs, hc⟩ := sample_atInsert
  have hname : basename [slash, 0x61] = [0x61] := by decide
  have h1024 : (1024 : Word).toNat = 1024 := rfl
  rw [← h1024, ← hbase, ← hsize] at hes
  apply (newInode_safe_iff hp ?_ hes (by decide) (by decide)).mpr
  · rw [hbase, hsize, hname]
    exact ⟨0x123E8, hlast, by rw [hc]; decide⟩
  · rw [hbase, hsize, mem_span]
    decide

/-- "abcd" fits by calculate_dir_size, but its terminator goes into the next block. -/
theorem newInode_writes_next_block :
    ¬ CreatesSafely sample 0x10400 1 0x81A4 [slash, 0x61, 0x62, 0x63, 0x64] := by
  intro h
  have heval : (atInsert sample 0x10400 1 0x81A4).toOption.any (fun p =>
      (advanceToLast p.mem p.base (BLOCKSIZE p.mem 0x10400)).any fun d =>
        (insertStores p.mem d (ofInt 32 p.index)
            (basename [slash, 0x61, 0x62, 0x63, 0x64])).any
          (fun s => decide ((BLOCKSIZE p.mem 0x10400).toNat ≤ (s.1 - p.base).toNat))) := by
    decide +kernel
  obtain ⟨p, d, hp, hd, hall⟩ := h.inside
  simp only [hp, Except.toOption, Option.any_some, hd] at heval
  obtain ⟨s, hs, hout⟩ := List.any_eq_true.mp heval
  have hin := hall s hs
  rw [mem_span] at hin
  have hout := of_decide_eq_true hout
  omega

end Create
end TapiOS.Fs.Ext2
