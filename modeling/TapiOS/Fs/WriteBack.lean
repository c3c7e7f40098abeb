import TapiOS.Fs.DirInsert
import TapiOS.Fs.Ext2Reads

/-!
# Writing a file and reading it back, fs/ext2.c

ext2_write stores the data in a block that get_free_block gives it, adds the count to both
copies of the size and makes the block the first one of the file. Whatever the first block
held before is no longer part of the file.
-/
namespace TapiOS.Fs.Ext2

open Lib Util
open BitVec (ofNat ofInt)

variable {f : OpenFile} {r : WriteResult}

/-- The descriptor and the block number that ext2_write takes, if it gets one. -/
def taken (m : Mem) (sb : Word) : Option (Word × Int) :=
  match getBlockgroupCount m sb with
  | .error _ => none
  | .ok groups =>
    match firstGroup m sb descUnallocatedBlocks groups with
    | none => none
    | some g =>
      let desc := blockgroupDescriptor sb (ofNat 32 g)
      let index := (getFreeBlock m sb (descBitmapBlockNo m desc)).1
      if index < 0 then none else some (desc, index)

theorem ext2Write_taken {m m' : Mem} {sb inodeNo : Word} {data : List Byte}
    (h : ext2Write m sb inodeNo f data = .ok (r, m')) (hret : r.ret = data.length) :
    data.length ≤ (BLOCKSIZE m sb).toNat ∧ ∃ desc index, taken m sb = some (desc, index) ∧
      storeData (getFreeBlock m sb (descBitmapBlockNo m desc)).2 sb inodeNo desc index f data =
        .ok (r, m') := by
  unfold ext2Write at h
  unfold taken
  by_cases hlen : (BLOCKSIZE m sb).toNat < data.length
  · rw [if_pos hlen] at h
    cases h
  rw [if_neg hlen] at h
  refine ⟨not_lt.mp hlen, ?_⟩
  cases hgroups : getBlockgroupCount m sb with
  | error e =>
    simp only [hgroups] at h
    cases h
  | ok groups =>
    simp only [hgroups] at h ⊢
    cases hg : firstGroup m sb descUnallocatedBlocks groups with
    | none =>
      simp only [hg] at h
      cases h
      simp only at hret
      omega
    | some g =>
      simp only [hg] at h ⊢
      split_ifs at h with hpos hindex
      · cases h
        simp only at hret
        omega
      · rw [if_neg hindex]
        exact ⟨_, _, rfl, h⟩

/-! Where the things are that a write and a later read touch. -/

section Regions
variable (m : Mem) (sb inodeNo inode desc : Word) (index : Int) (size : Nat)

/-- The bitmap and the counter of the group. -/
def groupRegion : Set Word :=
  span (getBlock m sb (descBitmapBlockNo m desc)) (BLOCKSIZE m sb).toNat ∪ span (desc + 12#32) 2

/-- The block that is taken. -/
def takenRegion : Set Word :=
  span (getBlock m sb (ofInt 32 index)) (BLOCKSIZE m sb).toNat

/-- size_low and blocks[0] of the inode. -/
def storedRegion : Set Word := span (inode + 4#32) 4 ∪ span (inode + 40#32) 4

/-- The other fields that lead to the inode and its blocks. -/
def fixedRegion : Set Word :=
  span (sb + 24#32) 4 ∪ span (sb + 40#32) 4 ∪ span (descriptorOf m sb inodeNo + 8#32) 4 ∪
    span inode 2 ∪ span (inode + 44#32) 56

/-- The entries of indirect blocks that lead to block `b` of a file. -/
def pathRegion (blocks : Word) (b : Nat) : Set Word :=
  let q := (BLOCKSIZE m sb).toNat / 4
  if b < 12 then ∅
  else if b < 12 + q then
    span (entryAddr m sb blocks SINGLY_INDIRECT_BLOCK + ofNat 32 (4 * (b - 12))) 4
  else
    span (entryAddr m sb blocks DOUBLY_INDIRECT_BLOCK +
      ofNat 32 (4 * ((b - (12 + q)) / q))) 4 ∪
    span (entryAddr m sb (entryAddr m sb blocks DOUBLY_INDIRECT_BLOCK) ((b - (12 + q)) / q) +
      ofNat 32 (4 * ((b - (12 + q)) % q))) 4

/-- The blocks of the file behind the first, and the way to them. -/
def restRegion : Set Word :=
  {x | ∃ b, 1 ≤ b ∧ b * (BLOCKSIZE m sb).toNat < size ∧
    (x ∈ pathRegion m sb (inodeBlocks inode) b ∨
      x ∈ span (fileAddr m sb (inodeBlocks inode) b) (BLOCKSIZE m sb).toNat)}

/-- The image keeps these things apart, and the block that is taken is none of them. -/
structure Separate : Prop where
  taken : Disjoint (takenRegion m sb index) (groupRegion m sb desc ∪ storedRegion inode ∪
    fixedRegion m sb inodeNo inode ∪ restRegion m sb inode size)
  kept : Disjoint (fixedRegion m sb inodeNo inode ∪ restRegion m sb inode size)
    (groupRegion m sb desc ∪ storedRegion inode)
  stored : Disjoint (storedRegion inode) (groupRegion m sb desc)

end Regions

section Stores

theorem freeBlockLoop_changes {bitmap : Word} {n : Nat} (hn : n ≤ 2 ^ 32) {left i : Nat}
    {m : Mem} (h : 4 * (i + left) ≤ n) :
    ChangesOnly (span bitmap n) m (freeBlockLoop bitmap left i m).2 := by
  induction left generalizing i m with
  | zero => exact ChangesOnly.refl _ _
  | succ left ih =>
    have hword : ∀ w, ChangesOnly (span bitmap n) m
        (m.setWord (bitmap + ofNat 32 (4 * i)) w) := by
      intro w
      exact (ChangesOnly.refl _ m).setWord (span_add_subset bitmap (by omega) hn)
    unfold freeBlockLoop
    dsimp only
    split
    · exact ih (by omega)
    · split
      · exact (hword _).trans (ih (by omega))
      · exact hword _

theorem getFreeBlock_changes (m : Mem) (sb bitmapBlockNo : Word) :
    ChangesOnly (span (getBlock m sb bitmapBlockNo) (BLOCKSIZE m sb).toNat) m
      (getFreeBlock m sb bitmapBlockNo).2 :=
  freeBlockLoop_changes (BLOCKSIZE m sb).isLt.le (by omega)

variable {m m' : Mem} {sb inodeNo inode desc : Word} {index : Int} {size : Nat}

/-- Memory that keeps the fixed fields has the same inode with the same later blocks. -/
theorem fixed_kept (h : Set.EqOn m' m (fixedRegion m sb inodeNo inode)) :
    BLOCKSIZE m' sb = BLOCKSIZE m sb ∧ readInode m' sb inodeNo = readInode m sb inodeNo ∧
      isDir m' inode = isDir m inode ∧
      ∀ i, 1 ≤ i → i < 15 → entry m' (inodeBlocks inode) i = entry m (inodeBlocks inode) i := by
  have hshift : sbBlockSizeShift m' sb = sbBlockSizeShift m sb :=
    word_of_eqOn h (fun x hx => .inl (.inl (.inl (.inl hx))))
  have hgroup : sbInodesInBlockgroup m' sb = sbInodesInBlockgroup m sb :=
    word_of_eqOn h (fun x hx => .inl (.inl (.inl (.inr hx))))
  have htable : descInodeTableBlock m' (descriptorOf m sb inodeNo) =
      descInodeTableBlock m (descriptorOf m sb inodeNo) :=
    word_of_eqOn h (fun x hx => .inl (.inl (.inr hx)))
  have htype : m'.half inode = m.half inode :=
    half_of_eqOn h (fun x hx => .inl (.inr hx))
  have hbs : BLOCKSIZE m' sb = BLOCKSIZE m sb := by rw [BLOCKSIZE, hshift, BLOCKSIZE]
  refine ⟨hbs, ?_, by rw [isDir, htype, isDir], ?_⟩
  · unfold descriptorOf at htable
    simp only [readInode, hgroup, getBlock, hbs, htable]
  · intro i hi hi'
    have hat : inodeBlocks inode + ofNat 32 (4 * i) =
        inode + 44#32 + ofNat 32 (4 * i - 4) := by
      rw [inodeBlocks, show inode + 40#32 + ofNat 32 (4 * i) = _ from
        add_ofNat_add inode 40 (4 * i), show inode + 44#32 + ofNat 32 (4 * i - 4) = _ from
        add_ofNat_add inode 44 (4 * i - 4), show 40 + 4 * i = 44 + (4 * i - 4) by omega]
    rw [entry, entry, hat]
    exact word_of_eqOn h (fun x hx => .inr (span_add_subset _ (by omega) (by decide) hx))

/-- What ext2_write leaves behind. -/
structure Written (m m' : Mem) (sb inodeNo inode : Word) (index : Int) (size : Nat)
    (data : List Byte) : Prop where
  kept : Set.EqOn m' m (fixedRegion m sb inodeNo inode ∪ restRegion m sb inode size)
  low : m'.word (inode + 4#32) = m.word (inode + 4#32) + ofNat 32 data.length
  first : entry m' (inodeBlocks inode) 0 = ofInt 32 index
  front : bytesAt m' (getBlock m sb (ofInt 32 index)) data.length = data
  behind : ∀ k, data.length ≤ k → k < (BLOCKSIZE m sb).toNat →
    m' (getBlock m sb (ofInt 32 index) + ofNat 32 k) =
      m (getBlock m sb (ofInt 32 index) + ofNat 32 k)

variable {data : List Byte}

/-- The stores of storeData one after the other, with regions that do not overlap. -/
theorem stores_written {m₁ : Mem} {v : BitVec 16}
    (hsep : Separate m sb inodeNo inode desc index size)
    (hlen : data.length ≤ (BLOCKSIZE m sb).toNat)
    (hfree : ChangesOnly (groupRegion m sb desc) m m₁) :
    Written m
      ((((m₁.setHalf (desc + 12#32) v).setBytes (getBlock m sb (ofInt 32 index)) data).setWord
          (inode + 4#32)
          (((m₁.setHalf (desc + 12#32) v).setBytes (getBlock m sb (ofInt 32 index))
            data).word (inode + 4#32) + ofNat 32 data.length)).setWord (inodeBlocks inode)
          (ofInt 32 index))
      sb inodeNo inode index size data := by
  have hgroup : ChangesOnly (groupRegion m sb desc) m (m₁.setHalf (desc + 12#32) v) :=
    hfree.setHalf (fun x hx => .inr hx)
  generalize m₁.setHalf (desc + 12#32) v = m₂ at hgroup ⊢
  have hdata : ChangesOnly (span (getBlock m sb (ofInt 32 index)) data.length) m₂
      (m₂.setBytes (getBlock m sb (ofInt 32 index)) data) := Mem.setBytes_changes _ _ _
  have hdata' : ChangesOnly (takenRegion m sb index) m₂
      (m₂.setBytes (getBlock m sb (ofInt 32 index)) data) := by
    apply hdata.mono
    intro x hx
    exact lt_of_lt_of_le hx hlen
  have hfront := bytesAt_setBytes m₂ (getBlock m sb (ofInt 32 index)) data (by omega)
  generalize m₂.setBytes (getBlock m sb (ofInt 32 index)) data = m₃ at hdata hdata' hfront ⊢
  have hstored : ChangesOnly (storedRegion inode) m₃ ((m₃.setWord (inode + 4#32)
      (m₃.word (inode + 4#32) + ofNat 32 data.length)).setWord (inodeBlocks inode)
      (ofInt 32 index)) :=
    ((ChangesOnly.refl _ m₃).setWord (fun x hx => .inl hx)).setWord (fun x hx => .inr hx)
  have htaken : ∀ A, A ⊆ groupRegion m sb desc ∪ storedRegion inode ∪
      fixedRegion m sb inodeNo inode ∪ restRegion m sb inode size →
      Disjoint A (takenRegion m sb index) := fun A hA => (hsep.taken.mono_right hA).symm
  have hlow : m₃.word (inode + 4#32) = m.word (inode + 4#32) := by
    have h3 := hdata'.keeps (htaken (storedRegion inode) (fun x hx => .inl (.inl (.inr hx))))
    have h2 := hgroup.keeps hsep.stored
    exact word_of_eqOn (h3.trans h2) (fun x hx => .inl hx)
  have hown : Set.EqOn ((m₃.setWord (inode + 4#32) (m₃.word (inode + 4#32) +
      ofNat 32 data.length)).setWord (inodeBlocks inode) (ofInt 32 index)) m₃
      (takenRegion m sb index) :=
    hstored.keeps (htaken (storedRegion inode) (fun x hx => .inl (.inl (.inr hx)))).symm
  constructor
  · have h3 := hdata'.keeps (htaken (fixedRegion m sb inodeNo inode ∪ restRegion m sb inode size)
      (fun x hx => hx.elim (fun h => .inl (.inr h)) .inr))
    have h2 := hgroup.keeps (hsep.kept.mono_right (fun x hx => .inl hx))
    have h4 := hstored.keeps (hsep.kept.mono_right (fun x hx => .inr hx))
    exact h4.trans (h3.trans h2)
  · have hd := span_disjoint (o := 4) (n := 4) (p := 40) (k := 4) inode (by decide) (by decide)
      (by decide)
    rw [word_of_eqOn ((Mem.setWord_changes _ (inodeBlocks inode) _).keeps hd) (Set.Subset.refl _),
      Mem.word_setWord, hlow]
  · have h0 : inodeBlocks inode + ofNat 32 (4 * 0) = inodeBlocks inode := BitVec.add_zero _
    rw [entry, h0, Mem.word_setWord]
  · refine (bytesAt_congr ?_).trans hfront
    intro i hi
    exact hown (add_mem_span _ (by omega) (by omega))
  · intro k hk hlt'
    rw [hown (add_mem_span _ hlt' (by omega))]
    have hout : getBlock m sb (ofInt 32 index) + ofNat 32 k ∉
        span (getBlock m sb (ofInt 32 index)) data.length := by
      rw [mem_span, BitVec.add_comm, BitVec.add_sub_cancel, BitVec.toNat_ofNat,
        Nat.mod_eq_of_lt (by omega)]
      omega
    rw [hdata hout]
    exact hgroup.keeps (hsep.taken.mono_right (fun x hx => .inl (.inl (.inl hx))))
      (add_mem_span _ hlt' (by omega))

/-- A write that returns the count had at most one block of data and added it to the size. -/
theorem ext2Write_size (hwrite : ext2Write m sb inodeNo f data = .ok (r, m'))
    (hret : r.ret = data.length) :
    data.length ≤ (BLOCKSIZE m sb).toNat ∧ r.file.size = f.size + ofNat 32 data.length := by
  obtain ⟨hlen, desc, index, -, hstore⟩ := ext2Write_taken hwrite hret
  refine ⟨hlen, ?_⟩
  unfold storeData at hstore
  dsimp only at hstore
  split at hstore
  · cases hstore
  · split at hstore <;> cases hstore
    rfl

theorem ext2Write_written (hfound : readInode m sb inodeNo = .ok inode)
    (hwrite : ext2Write m sb inodeNo f data = .ok (r, m')) (hret : r.ret = data.length)
    (htaken : taken m sb = some (desc, index))
    (hsep : Separate m sb inodeNo inode desc index size) :
    Written m m' sb inodeNo inode index size data := by
  obtain ⟨hlen, desc', index', htaken', hstore⟩ := ext2Write_taken hwrite hret
  obtain ⟨rfl, rfl⟩ := Prod.mk.inj (Option.some.inj (htaken'.symm.trans htaken))
  have hfree : ChangesOnly (groupRegion m sb desc') m
      (getFreeBlock m sb (descBitmapBlockNo m desc')).2 :=
    (getFreeBlock_changes m sb _).mono (fun x hx => .inl hx)
  generalize (getFreeBlock m sb (descBitmapBlockNo m desc')).2 = m₁ at hfree hstore
  have hgroup : ChangesOnly (groupRegion m sb desc') m
      (m₁.setHalf (desc' + 12#32) (descUnallocatedBlocks m₁ desc' - 1#16)) :=
    hfree.setHalf (fun x hx => .inr hx)
  obtain ⟨hbs, hread, -, -⟩ := fixed_kept (hgroup.keeps
    ((hsep.kept.mono_left (fun x hx => .inl hx)).mono_right (fun x hx => .inl hx)))
  unfold storeData at hstore
  dsimp only at hstore
  rw [hread, hfound] at hstore
  dsimp only at hstore
  rw [hbs, if_neg (by omega), getBlock, hbs] at hstore
  cases hstore
  exact stores_written hsep hlen hfree

end Stores

section Content
variable {m m' : Mem} {sb inodeNo inode : Word} {index : Int} {size : Nat} {data : List Byte}

section Written
variable (h : Written m m' sb inodeNo inode index size data)
include h

/-- The blocks behind the first one are found where they were. -/
theorem Written.fileAddr_eq {b : Nat} (hb : 1 ≤ b) (hsize : b * (BLOCKSIZE m sb).toNat < size) :
    fileAddr m' sb (inodeBlocks inode) b = fileAddr m sb (inodeBlocks inode) b := by
  obtain ⟨hbs, -, -, hentry⟩ := fixed_kept (h.kept.mono (fun x hx => .inl hx))
  have hpath : Set.EqOn m' m (pathRegion m sb (inodeBlocks inode) b) :=
    h.kept.mono (fun x hx => .inr ⟨b, hb, hsize, .inl hx⟩)
  have hget : ∀ x, getBlock m' sb x = getBlock m sb x := by
    intro x
    rw [getBlock, hbs, getBlock]
  unfold fileAddr blockNumber
  unfold pathRegion at hpath
  rw [hbs, hget]
  by_cases h12 : b < 12
  · rw [if_pos h12, if_pos h12, hentry b hb (by omega)]
  · rw [if_neg h12] at hpath
    rw [if_neg h12, if_neg h12]
    by_cases hq : b < 12 + (BLOCKSIZE m sb).toNat / 4
    · rw [if_pos hq] at hpath
      rw [if_pos hq, if_pos hq, entryAddr, hentry SINGLY_INDIRECT_BLOCK (by decide) (by decide),
        hget]
      exact congrArg _ (word_of_eqOn hpath (Set.Subset.refl _))
    · rw [if_neg hq] at hpath
      rw [if_neg hq, if_neg hq]
      have htop : entryAddr m' sb (inodeBlocks inode) DOUBLY_INDIRECT_BLOCK =
          entryAddr m sb (inodeBlocks inode) DOUBLY_INDIRECT_BLOCK := by
        rw [entryAddr, entryAddr, hentry DOUBLY_INDIRECT_BLOCK (by decide) (by decide), hget]
      have hmid : entryAddr m' sb (entryAddr m sb (inodeBlocks inode) DOUBLY_INDIRECT_BLOCK)
          ((b - (12 + (BLOCKSIZE m sb).toNat / 4)) / ((BLOCKSIZE m sb).toNat / 4)) =
          entryAddr m sb (entryAddr m sb (inodeBlocks inode) DOUBLY_INDIRECT_BLOCK)
          ((b - (12 + (BLOCKSIZE m sb).toNat / 4)) / ((BLOCKSIZE m sb).toNat / 4)) := by
        rw [entryAddr, hget]
        exact congrArg _ (word_of_eqOn hpath (fun x hx => .inl hx))
      rw [htop, hmid]
      exact congrArg _ (word_of_eqOn hpath (fun x hx => .inr hx))

/-- The first block of the file is the one that was taken. -/
theorem Written.first_byte {k : Nat} (hk : k < (BLOCKSIZE m sb).toNat) :
    fileByte m' sb (inodeBlocks inode) k =
      m' (getBlock m sb (ofInt 32 index) + ofNat 32 k) := by
  obtain ⟨hbs, -, -, -⟩ := fixed_kept (h.kept.mono (fun x hx => .inl hx))
  rw [fileByte, hbs, Nat.div_eq_of_lt hk, Nat.mod_eq_of_lt hk, fileAddr_direct (by decide),
    entryAddr, h.first, getBlock, hbs, getBlock]

theorem Written.later_byte {k : Nat} (hk : (BLOCKSIZE m sb).toNat ≤ k) (hsize : k < size)
    (hpos : 0 < (BLOCKSIZE m sb).toNat) :
    fileByte m' sb (inodeBlocks inode) k = fileByte m sb (inodeBlocks inode) k := by
  obtain ⟨hbs, -, -, -⟩ := fixed_kept (h.kept.mono (fun x hx => .inl hx))
  have hb : 1 ≤ k / (BLOCKSIZE m sb).toNat := (Nat.le_div_iff_mul_le hpos).mpr (by omega)
  have hle : k / (BLOCKSIZE m sb).toNat * (BLOCKSIZE m sb).toNat < size :=
    lt_of_le_of_lt (Nat.div_mul_le_self _ _) hsize
  rw [fileByte, hbs, h.fileAddr_eq hb hle]
  apply h.kept
  right
  exact ⟨_, hb, hle, .inr (add_mem_span _ (Nat.mod_lt _ hpos) (BLOCKSIZE m sb).isLt.le)⟩

theorem Written.fileAt {size' : Nat} (hfile : FileAt m sb inodeNo inode size)
    (hsize : size' ≤ size ∨ size' ≤ (BLOCKSIZE m sb).toNat) : FileAt m' sb inodeNo inode size' := by
  obtain ⟨hbs, hread, htype, hentry⟩ := fixed_kept (h.kept.mono (fun x hx => .inl hx))
  have hreach := hfile.blocks
  have hmul := Nat.mul_le_mul_right (BLOCKSIZE m sb).toNat
    (show 12 ≤ 12 + (BLOCKSIZE m sb).toNat / 4 by omega)
  have hmul' := Nat.mul_le_mul_right (BLOCKSIZE m sb).toNat
    (show 12 ≤ 12 + (BLOCKSIZE m sb).toNat / 4 +
      (BLOCKSIZE m sb).toNat / 4 * ((BLOCKSIZE m sb).toNat / 4) by omega)
  refine ⟨hread.trans hfile.found, htype.trans hfile.regular, hbs ▸ hfile.blocksize, ?_⟩
  constructor
  · rw [hbs, hentry SINGLY_INDIRECT_BLOCK (by decide) (by decide)]
    intro hlt
    exact hreach.singly (by omega)
  · rw [hbs, hentry DOUBLY_INDIRECT_BLOCK (by decide) (by decide)]
    intro hlt
    exact hreach.doubly (by omega)
  · rw [hentry TRIPLY_INDIRECT_BLOCK (by decide) (by decide)]
    exact hreach.triply
  · rw [hbs]
    have hfits := hreach.fits
    omega

/-- Write and read back: both copies of the size are the larger of the old size and the
count, a read of the whole file gives the data and the old content behind it, and the
inode has its other blocks. -/
structure ReadsBack (m m' : Mem) (sb inodeNo inode : Word) (f f' : OpenFile) (data : List Byte) :
    Prop where
  size : f'.size.toNat = max f.size.toNat data.length
  low : (m'.word (inode + 4#32)).toNat = max f.size.toNat data.length
  read : ∃ res, ext2Read m' sb inodeNo ⟨0#32, f'.size⟩ f'.size = .ok res ∧
    res.bytes = data ++ (fileBytes m sb (inodeBlocks inode) f.size.toNat).drop data.length
  blocks : ∀ i, 1 ≤ i → i < 15 →
    entry m' (inodeBlocks inode) i = entry m (inodeBlocks inode) i

omit h in
theorem ext2Read_whole {size : Word} (h : FileAt m sb inodeNo inode size.toNat) :
    ∃ res, ext2Read m sb inodeNo ⟨0#32, size⟩ size = .ok res ∧
      res.bytes = fileBytes m sb (inodeBlocks inode) size.toNat := by
  have hr := ext2Read_start h size
  rw [Nat.min_self] at hr
  exact ⟨_, hr, rfl⟩

/-- An empty file has the data as its content afterwards. -/
theorem Written.bytes_of_empty (hlen : data.length ≤ (BLOCKSIZE m sb).toNat) :
    fileBytes m' sb (inodeBlocks inode) data.length = data := by
  refine Eq.trans ?_ h.front
  apply List.map_congr_left
  intro k hk
  exact h.first_byte (lt_of_lt_of_le (List.mem_range.mp hk) hlen)

end Written

/-- After a write of no data the content is the old one exactly when the block that was
taken holds a copy of the first block. -/
theorem Written.bytes_of_nil (h : Written m m' sb inodeNo inode index size [])
    (hpos : 0 < (BLOCKSIZE m sb).toNat) :
    fileBytes m' sb (inodeBlocks inode) size = fileBytes m sb (inodeBlocks inode) size ↔
      ∀ k < min size (BLOCKSIZE m sb).toNat,
        m (getBlock m sb (ofInt 32 index) + ofNat 32 k) =
          fileByte m sb (inodeBlocks inode) k := by
  have hbyte : ∀ k < (BLOCKSIZE m sb).toNat, fileByte m' sb (inodeBlocks inode) k =
      m (getBlock m sb (ofInt 32 index) + ofNat 32 k) := by
    intro k hk
    rw [h.first_byte hk, h.behind k (Nat.zero_le k) hk]
  have hall : fileBytes m' sb (inodeBlocks inode) size = fileBytes m sb (inodeBlocks inode) size ↔
      ∀ k < size, fileByte m' sb (inodeBlocks inode) k = fileByte m sb (inodeBlocks inode) k := by
    simp [fileBytes]
  rw [hall]
  constructor
  · intro heq k hk
    rw [← hbyte k (by omega)]
    exact heq k (by omega)
  · intro heq k hk
    by_cases hb : k < (BLOCKSIZE m sb).toNat
    · rw [hbyte k hb]
      exact heq k (by omega)
    · exact h.later_byte (by omega) hk hpos

/-- The count is added to the size, so it is the larger of the two only if one is zero. -/
theorem added_size_iff {s : Word} {n : Nat} (hn : n < 2 ^ 32) :
    (s + ofNat 32 n).toNat = max s.toNat n ↔ s = 0#32 ∨ n = 0 := by
  have hzero : s = 0#32 ↔ s.toNat = 0 := by
    rw [← BitVec.toNat_inj]
    rfl
  rw [BitVec.toNat_add, BitVec.toNat_ofNat, hzero]
  omega

/-- A write that returns the count can be read back only if the file was empty or there is
no data. In an image that keeps its parts apart it can be read back exactly when the file
was empty, or there is no data and the new first block is a copy of the old one. -/
theorem write_reads_back_iff {desc : Word} {f : OpenFile} {r : WriteResult}
    (hfile : FileAt m sb inodeNo inode f.size.toNat) (hlow : m.word (inode + 4#32) = f.size)
    (hwrite : ext2Write m sb inodeNo f data = .ok (r, m')) (hret : r.ret = data.length)
    (htaken : taken m sb = some (desc, index)) :
    (ReadsBack m m' sb inodeNo inode f r.file data → f.size = 0#32 ∨ data = []) ∧
    (Separate m sb inodeNo inode desc index f.size.toNat →
      (ReadsBack m m' sb inodeNo inode f r.file data ↔
        f.size = 0#32 ∨ data = [] ∧ ∀ k < min f.size.toNat (BLOCKSIZE m sb).toNat,
          m (getBlock m sb (ofInt 32 index) + ofNat 32 k) =
            fileByte m sb (inodeBlocks inode) k)) := by
  obtain ⟨hlen, hsize⟩ := ext2Write_size hwrite hret
  have hlt : data.length < 2 ^ 32 := lt_of_le_of_lt hlen (BLOCKSIZE m sb).isLt
  have hneeds : ReadsBack m m' sb inodeNo inode f r.file data → f.size = 0#32 ∨ data = [] := by
    intro h
    have hs := h.size
    rw [hsize, added_size_iff hlt, List.length_eq_zero_iff] at hs
    exact hs
  refine ⟨hneeds, fun hsep => ?_⟩
  have hw := ext2Write_written hfile.found hwrite hret htaken hsep
  have hnew := hw.low.trans (congrArg (· + ofNat 32 data.length) hlow)
  have hblocks := (fixed_kept (hw.kept.mono (fun x hx => .inl hx))).2.2.2
  have hpos : 0 < (BLOCKSIZE m sb).toNat :=
    Nat.pos_of_ne_zero (fun h0 => hfile.blocksize (BitVec.eq_of_toNat_eq h0))
  constructor
  · intro h
    cases hneeds h with
    | inl hzero => exact .inl hzero
    | inr hnil =>
      subst hnil
      have hsame : r.file.size = f.size := hsize.trans (BitVec.add_zero _)
      obtain ⟨res, hres, hbytes⟩ := h.read
      obtain ⟨res', hres', hbytes'⟩ := ext2Read_whole (hw.fileAt hfile (.inl le_rfl))
      rw [hsame, hres'] at hres
      cases hres
      exact .inr ⟨rfl, (hw.bytes_of_nil hpos).mp (hbytes'.symm.trans hbytes)⟩
  · intro h
    have hadd := (added_size_iff hlt).mpr (h.imp id (fun h => List.length_eq_zero_iff.mpr h.1))
    refine ⟨by rw [hsize, hadd], by rw [hnew, hadd], ?_, hblocks⟩
    cases h with
    | inl hzero =>
      have hcount : r.file.size.toNat = data.length := by
        rw [hsize, hadd, hzero]
        exact Nat.zero_max _
      obtain ⟨res, hres, hbytes⟩ := ext2Read_whole
        (hw.fileAt hfile (.inr (hcount.trans_le hlen)))
      refine ⟨res, hres, ?_⟩
      rw [hbytes, hcount, hw.bytes_of_empty hlen, hzero, List.drop_of_length_le (by simp),
        List.append_nil]
    | inr hcopy =>
      obtain ⟨rfl, hcopy⟩ := hcopy
      have hsame : r.file.size = f.size := hsize.trans (BitVec.add_zero _)
      obtain ⟨res, hres, hbytes⟩ := ext2Read_whole (hw.fileAt hfile (.inl le_rfl))
      rw [hsame]
      exact ⟨res, hres, hbytes.trans ((hw.bytes_of_nil hpos).mpr hcopy)⟩

end Content

section Sample

/-! An image of one group with eight inodes: the superblock at 0x10400, inode 1 at 0x11000,
the bitmap of the blocks at 0x11400 and the data "abc" in block 8 at 0x12000. Block 9 at
0x12400 is free. The file ends behind some of the three bytes. -/

def abcImage (size : Fin 4) : Mem := imageOf
  [(0x10400, 8), (0x10404, 64), (0x10420, 64), (0x10428, 8), (0x10800, 5), (0x10808, 4),
    (0x1080C, 6), (0x11000, 0xA4), (0x11001, 0x81), (0x11004, ofNat 8 size), (0x11028, 8),
    (0x11400, 0xFF), (0x11401, 1), (0x12000, 0x61), (0x12001, 0x62), (0x12002, 0x63)]

theorem abcImage_blockSize (size : Fin 4) : BLOCKSIZE (abcImage size) 0x10400 = 1024 := by
  decide +kernel +revert

theorem abcImage_file (size : Fin 4) : FileAt (abcImage size) 0x10400 1 0x11000 size := by
  have hfound : readInode (abcImage size) 0x10400 1 = .ok 0x11000 := by decide +kernel +revert
  have hregular : isDir (abcImage size) 0x11000 = false := by decide +kernel +revert
  have htriply : entry (abcImage size) (inodeBlocks 0x11000) TRIPLY_INDIRECT_BLOCK = 0#32 := by
    decide +kernel +revert
  have hbs : (1024 : Word).toNat = 1024 := rfl
  refine ⟨hfound, hregular, by rw [abcImage_blockSize]; decide, ?_, ?_, htriply, ?_⟩
  all_goals
    rw [abcImage_blockSize, hbs]
    omega

theorem abcImage_separate (size : Fin 4) :
    Separate (abcImage size) 0x10400 1 0x11000 0x10800 9 size := by
  have hbs : (1024 : Word).toNat = 1024 := rfl
  have hdesc : descriptorOf (abcImage size) 0x10400 1 = 0x10800 := by decide +kernel +revert
  have hmap : getBlock (abcImage size) 0x10400 (descBitmapBlockNo (abcImage size) 0x10800) =
      0x11400 := by decide +kernel +revert
  have hblock : getBlock (abcImage size) 0x10400 (ofInt 32 9) = 0x12400 := by
    decide +kernel +revert
  have hrest : restRegion (abcImage size) 0x10400 0x11000 size = ∅ := by
    apply Set.eq_empty_of_forall_notMem
    intro x hx
    obtain ⟨b, hb, hsize, -⟩ := hx
    rw [abcImage_blockSize, hbs] at hsize
    omega
  constructor
  all_goals
    rw [Set.disjoint_left]
    intro x hx hx'
    simp only [hrest, takenRegion, groupRegion, storedRegion, fixedRegion, hdesc, hmap, hblock,
      abcImage_blockSize, hbs, Set.mem_union, mem_span, Set.mem_empty_iff_false, or_false] at hx hx'
    bv_omega

/-- "hi" in an empty file. -/
theorem write_reads_back_empty : ∃ r m', ext2Write (abcImage 0) 0x10400 1 ⟨0, 0⟩ [0x68, 0x69] =
      .ok (r, m') ∧ r.ret = 2 ∧
    ReadsBack (abcImage 0) m' 0x10400 1 0x11000 ⟨0, 0⟩ r.file [0x68, 0x69] := by
  obtain ⟨⟨r, m'⟩, hw, hr⟩ : ∃ p, ext2Write (abcImage 0) 0x10400 1 ⟨0, 0⟩ [0x68, 0x69] = .ok p ∧
      p.1.ret = 2 := exists_ok (by decide)
  have htaken : taken (abcImage 0) 0x10400 = some (0x10800, 9) := by decide
  have h := write_reads_back_iff (abcImage_file 0) (by decide) hw hr htaken
  exact ⟨r, m', hw, hr, (h.2 (abcImage_separate 0)).mpr (.inl rfl)⟩

/-- "hi" in a file that holds "abc": the size grows to five instead of staying three, and
the bytes behind the data are those of the new block. -/
theorem short_write_grows : FileAt (abcImage 3) 0x10400 1 0x11000 3 ∧ ∃ r m' res,
    ext2Write (abcImage 3) 0x10400 1 ⟨0, 3⟩ [0x68, 0x69] = .ok (r, m') ∧ r.ret = 2 ∧
    r.file.size = 5 ∧ m'.word 0x11004 = 5 ∧
    ext2Read m' 0x10400 1 ⟨0, r.file.size⟩ r.file.size = .ok res ∧
    res.bytes = [0x68, 0x69, 0, 0, 0] ∧
    fileBytes (abcImage 3) 0x10400 (inodeBlocks 0x11000) 3 = [0x61, 0x62, 0x63] ∧
    ¬ReadsBack (abcImage 3) m' 0x10400 1 0x11000 ⟨0, 3⟩ r.file [0x68, 0x69] := by
  refine ⟨abcImage_file 3, ?_⟩
  obtain ⟨⟨r, m'⟩, hw, hret, hsize, hlow, hread⟩ :
      ∃ p, ext2Write (abcImage 3) 0x10400 1 ⟨0, 3⟩ [0x68, 0x69] = .ok p ∧ p.1.ret = 2 ∧
        p.1.file.size = 5 ∧ p.2.word 0x11004 = 5 ∧
        ∃ res ∈ (ext2Read p.2 0x10400 1 ⟨0, p.1.file.size⟩ p.1.file.size).toOption,
          res.bytes = [0x68, 0x69, 0, 0, 0] := exists_ok (by decide)
  obtain ⟨res, hres, hbytes⟩ := exists_ok hread
  refine ⟨r, m', res, hw, hret, hsize, hlow, hres, hbytes, by decide, ?_⟩
  intro h
  have hmax := h.size
  rw [hsize] at hmax
  exact absurd hmax (by decide)

end Sample
end TapiOS.Fs.Ext2
