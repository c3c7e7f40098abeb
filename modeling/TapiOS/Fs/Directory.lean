import TapiOS.Fs.Ext2Write
import TapiOS.Util.Frames

/-!
# Inserting a directory entry

`advance_to_last` walks to larger offsets as long as it is inside of the block. When the
last entry leaves room for the new one, `do_insert` stores nothing outside of the block.
-/
namespace TapiOS.Fs.Ext2

open Util
open BitVec (ofNat)

section Walk
variable {m m' : Mem} {base size d d2 r : Word} {n : Nat}

theorem advance_offset (hs : size.toNat + 2 ^ 16 ≤ 2 ^ 32) (hd : (d - base).toNat < size.toNat) :
    (advance m d - base).toNat = (d - base).toNat + (entrySize m d).toNat := by
  have hw : ((entrySize m d).setWidth 32).toNat = (entrySize m d).toNat := by
    rw [BitVec.toNat_setWidth, Nat.mod_eq_of_lt (by omega)]
  have he : advance m d - base = d - base + (entrySize m d).setWidth 32 :=
    add_sub_right_comm _ _ _
  rw [he, BitVec.toNat_add, hw, Nat.mod_eq_of_lt (by omega)]

theorem insideDir_offset (h : insideDir d base size) : (d - base).toNat < size.toNat := by
  simp only [insideDir, Bool.and_eq_true, decide_eq_true_eq] at h
  exact h.2

theorem lastEntry_offset (hs : size.toNat + 2 ^ 16 ≤ 2 ^ 32) (hd : insideDir d base size)
    (h : lastEntry m base size n d d2 = some r) : (d - base).toNat ≤ (r - base).toNat := by
  induction n generalizing d d2 with
  | zero => cases h
  | succ n ih =>
    rw [lastEntry, if_pos hd] at h
    by_cases hin : insideDir (advance m d) base size
    · have hnext := ih hin h
      rw [advance_offset hs (insideDir_offset hd)] at hnext
      omega
    · cases n with
      | zero => cases h
      | succ n =>
        rw [lastEntry, if_neg hin] at h
        cases h
        exact Nat.le_refl _

theorem lastEntry_congr (hs : size.toNat + 2 ^ 16 ≤ 2 ^ 32)
    (he : Set.EqOn m' m (span base size.toNat)) (hr : (r - base).toNat + 6 ≤ size.toNat)
    (h : lastEntry m base size n d d2 = some r) : lastEntry m' base size n d d2 = some r := by
  induction n generalizing d d2 with
  | zero => cases h
  | succ n ih =>
    by_cases hin : insideDir d base size
    · have hle := lastEntry_offset hs hin h
      rw [lastEntry, if_pos hin] at h ⊢
      have hsub : span (d + 4#32) 2 ⊆ span base size.toNat := by
        intro x hx
        rw [mem_span] at hx ⊢
        bv_omega
      have hadv : advance m' d = advance m d := by
        rw [advance, entrySize, half_of_eqOn he hsub, advance, entrySize]
      rw [hadv]
      exact ih h
    · rw [lastEntry, if_neg hin] at h ⊢
      exact h

end Walk

/-- The new entry lies inside of the block: the walk ends at an entry behind which there is
room for the new entry's header and for the bytes of the name that are copied. -/
def EntryFits (m : Mem) (dir size : Word) (name : Text) : Prop :=
  ∃ d, advanceToLast m dir size = some d ∧
    (d - dir).toNat + (calculateDirSize m d).toNat + 8 + (nameBytes name).length ≤ size.toNat

section Insert
variable {m m' : Mem} {sb dir size inodeNo : Word} {name : Text}

theorem EntryFits.congr (h : EntryFits m dir size name) (hs : size.toNat + 2 ^ 16 ≤ 2 ^ 32)
    (he : Set.EqOn m' m (span dir size.toNat)) : EntryFits m' dir size name := by
  obtain ⟨d, hd, hfit⟩ := h
  have hin : d + 6#32 ∈ span dir size.toNat := by
    rw [mem_span]
    bv_omega
  refine ⟨d, lastEntry_congr hs he (by omega) hd, ?_⟩
  rw [calculateDirSize, he hin]
  exact hfit

variable (dir) in
theorem putEntry_changes (m : Mem) (inodeNo : Word) (entrySize : BitVec 16) {o : Nat}
    (ho : o + 8 + (nameBytes name).length ≤ size.toNat) :
    ChangesOnly (span dir size.toNat) m
      (putEntry m (dir + ofNat 32 o) inodeNo name entrySize) := by
  have hpart : ∀ i n, i + n ≤ 8 + (nameBytes name).length →
      span (dir + ofNat 32 o + ofNat 32 i) n ⊆ span dir size.toNat := by
    intro i n hi
    rw [add_ofNat_add]
    exact span_add_subset _ (by omega) (by omega)
  have h0 := hpart 0 4 (by omega)
  rw [BitVec.add_zero] at h0
  have h1 := (ChangesOnly.refl (span dir size.toNat) m).setBytes (nameBytes name)
    (hpart 8 _ (by omega))
  have h2 := (h1.set (v := 2#8) (hpart 7 1 (by omega))).set
    (v := ofNat 8 (min name.length 256)) (hpart 6 1 (by omega))
  exact (h2.setWord h0).setHalf (hpart 4 2 (by omega))

theorem doInsert_changes (hfit : EntryFits m dir (BLOCKSIZE m sb) name) :
    ∃ m', doInsert m sb dir inodeNo name = .ok m' ∧
      ChangesOnly (span dir (BLOCKSIZE m sb).toNat) m m' := by
  obtain ⟨d, hd, hle⟩ := hfit
  have hde : d = dir + ofNat 32 (d - dir).toNat := by
    rw [BitVec.ofNat_toNat, BitVec.setWidth_eq, BitVec.add_comm, BitVec.sub_add_cancel]
  refine ⟨_, by rw [doInsert, hd], ?_⟩
  have h1 : ChangesOnly (span dir (BLOCKSIZE m sb).toNat) m
      (m.setHalf (d + 4#32) (calculateDirSize m d)) := by
    refine (ChangesOnly.refl _ _).setHalf ?_
    rw [hde, add_ofNat_add]
    exact span_add_subset _ (by omega) (by omega)
  refine h1.trans ?_
  -- the last entry has its new size when the walk steps over it
  have hadv : advance (m.setHalf (d + 4#32) (calculateDirSize m d)) d =
      dir + ofNat 32 ((d - dir).toNat + (calculateDirSize m d).toNat) := by
    have hw : (calculateDirSize m d).setWidth 32 =
        ofNat 32 (calculateDirSize m d).toNat := by
      apply BitVec.eq_of_toNat_eq
      rw [BitVec.toNat_setWidth, BitVec.toNat_ofNat]
    rw [advance, entrySize, Mem.half_setHalf, hw, ← add_ofNat_add, ← hde]
  rw [hadv]
  exact putEntry_changes _ _ _ _ (by omega)

/-- The entry '.' of a new directory. -/
def firstEntry (m : Mem) (block inodeIndex : Word) : Mem :=
  ((((m.set (block + 7#32) 0xFF#8).set (block + 6#32) 1#8).set (block + 8#32) 0x2E#8).setHalf
    (block + 4#32) 12#16).setWord block inodeIndex

/-- The entry '..' behind it without its size and inode number. -/
def secondEntry (m : Mem) (block : Word) : Mem :=
  (((m.set (block + 19#32) 0xFF#8).set (block + 18#32) 2#8).set (block + 20#32) 0x2E#8).set
    (block + 21#32) 0x2E#8

/-- The second entry starts at offset 12 and gets the rest of the block. -/
theorem writeDirectoryStructure_eq (m : Mem) (sb block inodeIndex : Word) :
    writeDirectoryStructure m sb block inodeIndex =
      ((secondEntry (firstEntry m block inodeIndex) block).setHalf (block + 16#32)
        ((BLOCKSIZE (secondEntry (firstEntry m block inodeIndex) block) sb - 12#32).setWidth
          16)).setWord (block + 12#32) inodeIndex := by
  have hfirst : calculateDirSize (((m.set (block + 7#32) 0xFF#8).set (block + 6#32) 1#8).set
      (block + 8#32) 0x2E#8) block = 12#16 := by
    have hne : block + 6#32 ≠ block + 8#32 := by bv_omega
    rw [calculateDirSize, Mem.set_other _ _ hne, Mem.set_same]
    decide
  have hsize : entrySize (firstEntry m block inodeIndex) block = 12#16 := by
    have hd := span_disjoint (o := 4) (n := 2) (p := 0) (k := 4) block (by decide) (by decide)
      (by decide)
    rw [BitVec.add_zero] at hd
    rw [entrySize, firstEntry, half_of_eqOn ((Mem.setWord_changes _ _ _).keeps hd)
      (Set.Subset.refl _), Mem.half_setHalf]
  have hadv : advance (firstEntry m block inodeIndex) block = block + 12#32 := by
    rw [advance, hsize]
    rfl
  have h7 : block + 12#32 + 7#32 = block + 19#32 := add_ofNat_add block 12 7
  have h6 : block + 12#32 + 6#32 = block + 18#32 := add_ofNat_add block 12 6
  have h8 : block + 12#32 + 8#32 = block + 20#32 := add_ofNat_add block 12 8
  have h9 : block + 12#32 + 9#32 = block + 21#32 := add_ofNat_add block 12 9
  have h4 : block + 12#32 + 4#32 = block + 16#32 := add_ofNat_add block 12 4
  have hw : BitVec.setWidth 32 12#16 = 12#32 := rfl
  unfold firstEntry at hadv ⊢
  unfold writeDirectoryStructure secondEntry
  simp only [hfirst, hadv, h7, h6, h8, h9, h4, hw]

/-- The stores of the two entries but for the last two stay in the 24 bytes. -/
theorem secondEntry_changes (m : Mem) (block inodeIndex : Word) :
    ChangesOnly (span block 24) m (secondEntry (firstEntry m block inodeIndex) block) := by
  have hpart : ∀ i n, i + n ≤ 24 → span (block + ofNat 32 i) n ⊆ span block 24 :=
    fun i n hi => span_add_subset _ hi (by decide)
  have h0 := hpart 0 4 (by decide)
  rw [BitVec.add_zero] at h0
  have h3 := (((ChangesOnly.refl (span block 24) m).set (v := 0xFF#8) (hpart 7 1 (by decide))).set
    (v := 1#8) (hpart 6 1 (by decide))).set (v := 0x2E#8) (hpart 8 1 (by decide))
  have h5 := (h3.setHalf (v := 12#16) (hpart 4 2 (by decide))).setWord (v := inodeIndex) h0
  exact (((h5.set (v := 0xFF#8) (hpart 19 1 (by decide))).set (v := 2#8)
    (hpart 18 1 (by decide))).set (v := 0x2E#8) (hpart 20 1 (by decide))).set (v := 0x2E#8)
    (hpart 21 1 (by decide))

theorem writeDirectoryStructure_changes (m : Mem) (sb block inodeIndex : Word) :
    ChangesOnly (span block 24) m (writeDirectoryStructure m sb block inodeIndex) := by
  rw [writeDirectoryStructure_eq]
  exact ((secondEntry_changes m block inodeIndex).setHalf
    (span_add_subset (o := 16) _ (by decide) (by decide))).setWord
    (span_add_subset (o := 12) _ (by decide) (by decide))

end Insert
end TapiOS.Fs.Ext2
