import TapiOS.Fs.Ext2

/-!
# What a sequence of reads delivers

Every stage of read_blocks delivers consecutive bytes of a sequence of blocks until the
count or the file ends. The sequence always starts with a whole block: at the block of
the position, or at the first indirect one. The position within the block is not used.
-/
namespace TapiOS.Fs.Ext2

open Util
open BitVec (ofNat eq_of_toNat_eq ofInt ofNat_add toNat_add toNat_ofNat)

/-- The bytes a read may still deliver. -/
def remaining (f : OpenFile) (count : Word) : Nat :=
  min count.toNat (f.size.toNat - f.pos.toNat)

section Blocks
variable {m : Mem} {sb : Word} {f : OpenFile} {block count : Word}

theorem readBlockLoop_some {left i : Nat} (hc : i ≤ count.toNat)
    (hp : i = 0 ∨ i + f.pos.toNat ≤ f.size.toNat) :
    readBlockLoop m (some f) block count left i =
      bytesAt m (block + ofNat 32 i) (min left (remaining f count - i)) := by
  induction left generalizing i with
  | zero => simp [readBlockLoop, bytesAt]
  | succ left ih =>
    have hi : (ofNat 32 i).toNat = i := by
      rw [toNat_ofNat]
      omega
    have hsum : (ofNat 32 i + f.pos).toNat = i + f.pos.toNat := by
      rw [toNat_add, hi]
      omega
    simp only [readBlockLoop, Option.any_some, decide_eq_true_eq]
    split_ifs with he hs
    · have hic : i = count.toNat := by rw [← he, hi]
      have hz : min (left + 1) (remaining f count - i) = 0 := by
        unfold remaining
        omega
      rw [hz]
      rfl
    · have hle : f.size.toNat ≤ i + f.pos.toNat := hsum ▸ hs
      have hz : min (left + 1) (remaining f count - i) = 0 := by
        unfold remaining
        omega
      rw [hz]
      rfl
    · have hlt : i + f.pos.toNat < f.size.toNat := by
        rw [BitVec.le_def, hsum] at hs
        omega
      have hic : i < count.toNat := by
        have hne : i ≠ count.toNat := fun hn => he (eq_of_toNat_eq (hi.trans hn))
        omega
      have hn : min (left + 1) (remaining f count - i) =
          min left (remaining f count - (i + 1)) + 1 := by
        unfold remaining
        omega
      rw [ih (by omega) (.inr (by omega)), hn, bytesAt_cons, BitVec.add_assoc, ofNat_add]

theorem readBlockLoop_none {left i : Nat} (hc : i ≤ count.toNat) :
    readBlockLoop m none block count left i =
      bytesAt m (block + ofNat 32 i) (min left (count.toNat - i)) := by
  induction left generalizing i with
  | zero => simp [readBlockLoop, bytesAt]
  | succ left ih =>
    have hi : (ofNat 32 i).toNat = i := by
      rw [toNat_ofNat]
      omega
    simp only [readBlockLoop, Option.any_none, Bool.false_eq_true, if_false]
    split_ifs with he
    · have hz : min (left + 1) (count.toNat - i) = 0 := by
        rw [← he, hi]
        omega
      rw [hz]
      rfl
    · have hne : i ≠ count.toNat := fun hn => he (eq_of_toNat_eq (hi.trans hn))
      have hn : min (left + 1) (count.toNat - i) = min left (count.toNat - (i + 1)) + 1 := by omega
      rw [ih (by omega), hn, bytesAt_cons, BitVec.add_assoc, ofNat_add]

theorem readBlock_some : readBlock m sb (some f) block count =
    bytesAt m block (min (BLOCKSIZE m sb).toNat (remaining f count)) := by
  have h := @readBlockLoop_some m f block count (BLOCKSIZE m sb).toNat 0
    (Nat.zero_le _) (.inl rfl)
  rw [readBlock, h]
  simp

theorem readBlock_none : readBlock m sb none block (BLOCKSIZE m sb) =
    bytesAt m block (BLOCKSIZE m sb).toNat := by
  have h := @readBlockLoop_none m block (BLOCKSIZE m sb) (BLOCKSIZE m sb).toNat 0
    (Nat.zero_le _)
  rw [readBlock, h]
  simp

end Blocks

/-- The result of a stage that reads at most `cap` bytes of a sequence of blocks. -/
structure Stage (m : Mem) (sb : Word) (addr : Nat → Word) (start cap : Nat) (f : OpenFile)
    (count : Word) (r : List Byte × OpenFile) : Prop where
  bytes : r.1 = blockBytes m (BLOCKSIZE m sb).toNat addr start (min cap (remaining f count))
  file : r.2 = f.advance (min cap (remaining f count))

section Stages
variable {m : Mem} {sb : Word} {addr addr' : Nat → Word} {start cap cap' : Nat}
  {f : OpenFile} {count : Word} {r : List Byte × OpenFile}

theorem advance_zero (f : OpenFile) : f.advance 0 = f := by
  simp [OpenFile.advance]

theorem advance_add (f : OpenFile) (n k : Nat) : (f.advance n).advance k = f.advance (n + k) := by
  simp only [OpenFile.advance, ofNat_add, BitVec.add_assoc]

theorem advance_toNat {n : Nat} (hn : n ≤ remaining f count) :
    (f.advance n).pos.toNat = f.pos.toNat + n := by
  unfold remaining at hn
  simp only [OpenFile.advance, toNat_add, toNat_ofNat]
  omega

theorem count_sub_toNat {n : Nat} (hn : n ≤ remaining f count) :
    (count - ofNat 32 n).toNat = count.toNat - n := by
  unfold remaining at hn
  rw [BitVec.toNat_sub, toNat_ofNat]
  omega

theorem remaining_advance {n : Nat} (hn : n ≤ remaining f count) :
    remaining (f.advance n) (count - ofNat 32 n) = remaining f count - n := by
  have hp := advance_toNat hn
  have hc := count_sub_toNat hn
  have hsize : (f.advance n).size = f.size := rfl
  unfold remaining at *
  rw [hp, hc, hsize]
  omega

theorem Stage.length (h : Stage m sb addr start cap f count r) :
    r.1.length = min cap (remaining f count) := by
  rw [h.bytes, blockBytes_length]

theorem Stage.done (h : remaining f count = 0) : Stage m sb addr start cap f count ([], f) := by
  refine ⟨?_, ?_⟩ <;> simp [h, advance_zero]

theorem Stage.append {x y : List Byte} {f1 f2 : OpenFile}
    (h1 : Stage m sb addr start cap f count (x, f1))
    (h2 : Stage m sb addr (start + cap) cap' f1 (count - ofNat 32 x.length) (y, f2)) :
    Stage m sb addr start (cap + cap') f count (x ++ y, f2) := by
  obtain ⟨hx, hf1⟩ := h1
  obtain ⟨hy, hf2⟩ := h2
  dsimp only at hx hf1 hy hf2
  have hn : min cap (remaining f count) ≤ remaining f count := Nat.min_le_right _ _
  have hlen : x.length = min cap (remaining f count) := by simp [hx]
  rw [hlen, hf1, remaining_advance hn] at hy hf2
  have hsum : min (cap + cap') (remaining f count) = min cap (remaining f count) +
      min cap' (remaining f count - min cap (remaining f count)) := by omega
  refine ⟨?_, ?_⟩
  · rw [hsum, blockBytes_add, ← hx]
    -- the second stage delivers something only if the first one was full
    by_cases hfull : cap ≤ remaining f count
    · rw [hy, Nat.min_eq_left hfull]
    · have hz : remaining f count - min cap (remaining f count) = 0 := by omega
      rw [hy, hz]
      simp
  · rw [hsum, ← advance_add]
    exact hf2

theorem Stage.recap (h : Stage m sb addr start cap f count r) (hc : remaining f count ≤ cap)
    (hc' : remaining f count ≤ cap') : Stage m sb addr start cap' f count r := by
  have he : min cap (remaining f count) = min cap' (remaining f count) := by omega
  exact ⟨he ▸ h.bytes, he ▸ h.file⟩

variable (addr) in
theorem Stage.shift (hbs : 0 < (BLOCKSIZE m sb).toNat) (b : Nat)
    (h : Stage m sb addr' start cap f count r)
    (ha : ∀ j, j < cap → addr' ((start + j) / (BLOCKSIZE m sb).toNat) =
      addr (b + (start + j) / (BLOCKSIZE m sb).toNat)) :
    Stage m sb addr (b * (BLOCKSIZE m sb).toNat + start) cap f count r := by
  refine ⟨?_, h.file⟩
  rw [h.bytes, blockBytes_shift hbs]
  exact fun j hj => ha j (hj.trans_le (Nat.min_le_left _ _))

/-- The address of the block an entry names. -/
def entryAddr (m : Mem) (sb blocks : Word) (i : Nat) : Word := getBlock m sb (entry m blocks i)

/-- The address of the block that a table of indirect blocks names. -/
def tableAddr (m : Mem) (sb : Word) (table : Mem) (b : Nat) : Word :=
  let q := (BLOCKSIZE m sb).toNat / 4
  entryAddr m sb (getBlock m sb (entry table 0#32 (b / q))) (b % q)

theorem readEntries_stage (blocks : Word) (left i : Nat) :
    Stage m sb (entryAddr m sb blocks) (i * (BLOCKSIZE m sb).toNat)
      (left * (BLOCKSIZE m sb).toNat) f count (readEntries m sb blocks left i f count) := by
  induction left generalizing i f count with
  | zero => refine ⟨?_, ?_⟩ <;> simp [readEntries, advance_zero]
  | succ left ih =>
    simp only [readEntries]
    have hblock : Stage m sb (entryAddr m sb blocks) (i * (BLOCKSIZE m sb).toNat)
        (BLOCKSIZE m sb).toNat f count
        (readBlock m sb (some f) (getBlock m sb (entry m blocks i)) count,
          f.advance (readBlock m sb (some f) (getBlock m sb (entry m blocks i)) count).length) := by
      refine ⟨?_, ?_⟩
      · rw [blockBytes_one (Nat.min_le_left _ _)]
        exact readBlock_some
      · simp only [readBlock_some, bytesAt_length]
    generalize readBlock m sb (some f) (getBlock m sb (entry m blocks i)) count = bytes at hblock ⊢
    have hcap : (left + 1) * (BLOCKSIZE m sb).toNat =
        (BLOCKSIZE m sb).toNat + left * (BLOCKSIZE m sb).toNat := by
      rw [Nat.succ_mul, Nat.add_comm]
    rw [hcap]
    have hle : bytes.length ≤ remaining f count := hblock.length.trans_le (Nat.min_le_right _ _)
    split_ifs with hbreak
    · have hstop : remaining (f.advance bytes.length) (count - ofNat 32 bytes.length) = 0 := by
        have hb : (ofNat 32 bytes.length).toNat = bytes.length := by
          rw [toNat_ofNat]
          unfold remaining at hle
          omega
        have hcs := count_sub_toNat hle
        rcases hbreak with hb' | hb'
        · rw [BitVec.le_def] at hb'
          unfold remaining
          omega
        · rw [BitVec.le_def] at hb'
          unfold remaining
          omega
      have hdone : Stage m sb (entryAddr m sb blocks)
          (i * (BLOCKSIZE m sb).toNat + (BLOCKSIZE m sb).toNat) (left * (BLOCKSIZE m sb).toNat)
          (f.advance bytes.length) (count - ofNat 32 bytes.length)
          ([], f.advance bytes.length) := .done hstop
      have happ := hblock.append hdone
      rwa [List.append_nil] at happ
    · refine hblock.append ?_
      have hstart : i * (BLOCKSIZE m sb).toNat + (BLOCKSIZE m sb).toNat =
          (i + 1) * (BLOCKSIZE m sb).toNat := by rw [Nat.succ_mul]
      rw [hstart]
      exact ih (i + 1)

theorem readIndirectBlock_stage (blocks : Word) :
    Stage m sb (entryAddr m sb blocks) 0
      ((BLOCKSIZE m sb).toNat / 4 * (BLOCKSIZE m sb).toNat) f count
      (readIndirectBlock m sb f blocks count) := by
  have h := @readEntries_stage m sb f count blocks
    ((BLOCKSIZE m sb).toNat / 4) 0
  rwa [Nat.zero_mul] at h

/-- The loop over the table reads the indirect blocks it names one after the other. -/
theorem readDoublyIndirect_stage (hbs : 0 < (BLOCKSIZE m sb).toNat)
    (hq : 0 < (BLOCKSIZE m sb).toNat / 4) (table : Mem) (left i : Nat) :
    Stage m sb (tableAddr m sb table)
      (i * ((BLOCKSIZE m sb).toNat / 4) * (BLOCKSIZE m sb).toNat)
      (left * ((BLOCKSIZE m sb).toNat / 4) * (BLOCKSIZE m sb).toNat) f count
      (readDoublyIndirect m sb table left i f count) := by
  induction left generalizing i f count with
  | zero => refine ⟨?_, ?_⟩ <;> simp [readDoublyIndirect, advance_zero]
  | succ left ih =>
    have hone := @readIndirectBlock_stage m sb f count
      (getBlock m sb (entry table 0#32 i))
    have hshift := hone.shift (tableAddr m sb table) hbs
      (i * ((BLOCKSIZE m sb).toNat / 4)) fun j hj => by
        rw [Nat.zero_add]
        have hb : j / (BLOCKSIZE m sb).toNat < (BLOCKSIZE m sb).toNat / 4 :=
          Nat.div_lt_of_lt_mul (by rwa [Nat.mul_comm])
        rw [tableAddr, Nat.mul_comm i, Nat.mul_add_div hq, Nat.mul_add_mod, Nat.div_eq_of_lt hb,
          Nat.mod_eq_of_lt hb, Nat.add_zero]
    rw [Nat.add_zero] at hshift
    have hcap : (left + 1) * ((BLOCKSIZE m sb).toNat / 4) * (BLOCKSIZE m sb).toNat =
        (BLOCKSIZE m sb).toNat / 4 * (BLOCKSIZE m sb).toNat +
          left * ((BLOCKSIZE m sb).toNat / 4) * (BLOCKSIZE m sb).toNat := by
      rw [Nat.succ_mul, Nat.add_mul, Nat.add_comm]
    rw [hcap]
    refine hshift.append ?_
    have hstart : i * ((BLOCKSIZE m sb).toNat / 4) * (BLOCKSIZE m sb).toNat +
        (BLOCKSIZE m sb).toNat / 4 * (BLOCKSIZE m sb).toNat =
        (i + 1) * ((BLOCKSIZE m sb).toNat / 4) * (BLOCKSIZE m sb).toNat := by
      rw [Nat.succ_mul, Nat.add_mul]
    rw [hstart]
    exact ih (i + 1)

end Stages

/-! The file as ext2 stores it: twelve direct blocks, the blocks named by the singly
indirect block, and those named by the blocks of the doubly indirect block. -/

section File
variable {m : Mem} {sb blocks : Word} {f : OpenFile} {count : Word}

def blockNumber (m : Mem) (sb blocks : Word) (b : Nat) : Word :=
  let q := (BLOCKSIZE m sb).toNat / 4
  if b < 12 then entry m blocks b
  else if b < 12 + q then entry m (entryAddr m sb blocks SINGLY_INDIRECT_BLOCK) (b - 12)
  else entry m (entryAddr m sb (entryAddr m sb blocks DOUBLY_INDIRECT_BLOCK) ((b - (12 + q)) / q))
    ((b - (12 + q)) % q)

def fileAddr (m : Mem) (sb blocks : Word) (b : Nat) : Word :=
  getBlock m sb (blockNumber m sb blocks b)

/-- Byte `k` of the file. -/
def fileByte (m : Mem) (sb blocks : Word) (k : Nat) : Byte :=
  m (fileAddr m sb blocks (k / (BLOCKSIZE m sb).toNat) +
    ofNat 32 (k % (BLOCKSIZE m sb).toNat))

/-- A file of the given size whose blocks are reached through direct, singly and doubly
indirect blocks. -/
structure Reachable (m : Mem) (sb blocks : Word) (size : Nat) : Prop where
  singly : 12 * (BLOCKSIZE m sb).toNat < size → entry m blocks SINGLY_INDIRECT_BLOCK ≠ 0#32
  doubly : (12 + (BLOCKSIZE m sb).toNat / 4) * (BLOCKSIZE m sb).toNat < size →
    entry m blocks DOUBLY_INDIRECT_BLOCK ≠ 0#32
  triply : entry m blocks TRIPLY_INDIRECT_BLOCK = 0#32
  fits : size ≤ (12 + (BLOCKSIZE m sb).toNat / 4 +
    (BLOCKSIZE m sb).toNat / 4 * ((BLOCKSIZE m sb).toNat / 4)) * (BLOCKSIZE m sb).toNat

/-- A block size that is not shifted out of its 32 bits is a multiple of 1024. -/
theorem blocksize_eq (hs : BLOCKSIZE m sb ≠ 0#32) :
    ∃ k, 256 ≤ k ∧ (BLOCKSIZE m sb).toNat = 4 * k := by
  have hdvd : ∀ k < 32, (1024#32 <<< k).toNat % 1024 = 0 := by decide
  have hmod := hdvd ((sbBlockSizeShift m sb).toNat % 32) (Nat.mod_lt _ (by decide))
  have hne : (BLOCKSIZE m sb).toNat ≠ 0 := fun h => hs (eq_of_toNat_eq h)
  change (BLOCKSIZE m sb).toNat % 1024 = 0 at hmod
  exact ⟨(BLOCKSIZE m sb).toNat / 4, by omega, by omega⟩

theorem entry_doublyIndirectBlock {block : Word} {i : Nat}
    (hi : 4 * i + 3 < (BLOCKSIZE m sb).toNat) :
    entry (doublyIndirectBlock m sb block) 0#32 i = entry m block i := by
  have hbyte : ∀ x : Word, x.toNat < (BLOCKSIZE m sb).toNat →
      doublyIndirectBlock m sb block x = m (block + x) := by
    intro x hx
    simp [doublyIndirectBlock, readBlock_none, bytesAt, hx]
  have hn : (ofNat 32 (4 * i)).toNat = 4 * i := by
    rw [toNat_ofNat]
    omega
  have hk : ∀ k : Nat, k ≤ 3 → (ofNat 32 (4 * i) + ofNat 32 k).toNat = 4 * i + k := by
    intro k hk
    rw [toNat_add, hn, toNat_ofNat]
    omega
  simp only [entry, Mem.word, BitVec.zero_add]
  rw [hbyte _ (by rw [hk 3 (by omega)]; omega), hbyte _ (by rw [hk 2 (by omega)]; omega),
    hbyte _ (by rw [hk 1 (by omega)]; omega), hbyte _ (by rw [hn]; omega)]
  simp only [BitVec.add_assoc]

/-- Where read_blocks starts for a position: a whole block, at most the first one behind
the direct blocks. -/
def startBlock (m : Mem) (sb pos : Word) : Nat := min (pos.toNat / (BLOCKSIZE m sb).toNat) 12

theorem fileAddr_direct {b : Nat} (hb : b < 12) :
    fileAddr m sb blocks b = entryAddr m sb blocks b := by
  simp only [fileAddr, blockNumber, if_pos hb, entryAddr]

theorem fileAddr_singly {b : Nat} (hb : b < (BLOCKSIZE m sb).toNat / 4) :
    fileAddr m sb blocks (12 + b) =
      entryAddr m sb (entryAddr m sb blocks SINGLY_INDIRECT_BLOCK) b := by
  simp only [fileAddr, blockNumber]
  rw [if_neg (by omega), if_pos (by omega), Nat.add_sub_cancel_left]
  rfl

theorem fileAddr_doubly {b : Nat} (hq : (BLOCKSIZE m sb).toNat = 4 * ((BLOCKSIZE m sb).toNat / 4))
    (hb : b / ((BLOCKSIZE m sb).toNat / 4) < (BLOCKSIZE m sb).toNat / 4) :
    fileAddr m sb blocks (12 + (BLOCKSIZE m sb).toNat / 4 + b) = tableAddr m sb
      (doublyIndirectBlock m sb (entryAddr m sb blocks DOUBLY_INDIRECT_BLOCK)) b := by
  simp only [fileAddr, blockNumber, tableAddr]
  rw [if_neg (by omega), if_neg (by omega), Nat.add_sub_cancel_left,
    entry_doublyIndirectBlock (by omega)]
  rfl

variable (blocks f count) in
theorem direct_stage (hs : BLOCKSIZE m sb ≠ 0#32) :
    Stage m sb (fileAddr m sb blocks) (startBlock m sb f.pos * (BLOCKSIZE m sb).toNat)
      ((12 - startBlock m sb f.pos) * (BLOCKSIZE m sb).toNat) f count
      (readEntries m sb blocks (FINAL_DIRECT_BLOCK + 1 - (f.pos / BLOCKSIZE m sb).toNat)
        (f.pos / BLOCKSIZE m sb).toNat f count) := by
  obtain ⟨k, hk, hbs⟩ := blocksize_eq hs
  have hpos : 0 < (BLOCKSIZE m sb).toNat := by omega
  have h := @readEntries_stage m sb f count blocks
    (FINAL_DIRECT_BLOCK + 1 - (f.pos / BLOCKSIZE m sb).toNat) (f.pos / BLOCKSIZE m sb).toNat
  rw [BitVec.toNat_udiv] at h ⊢
  unfold startBlock
  generalize f.pos.toNat / (BLOCKSIZE m sb).toNat = b at h ⊢
  by_cases hb : b ≤ 12
  · rw [Nat.min_eq_left hb]
    have hshift := h.shift (fileAddr m sb blocks) hpos 0 fun j hj => ?_
    · rwa [Nat.zero_mul, Nat.zero_add] at hshift
    · have hlt : b * (BLOCKSIZE m sb).toNat + j < 12 * (BLOCKSIZE m sb).toNat := by
        change j < (12 - b) * _ at hj
        rw [Nat.sub_mul] at hj
        omega
      rw [Nat.zero_add, fileAddr_direct (Nat.div_lt_of_lt_mul (by omega))]
  · have hz : FINAL_DIRECT_BLOCK + 1 - b = 0 := by
      change 12 - b = 0
      omega
    rw [Nat.min_eq_right (by omega), hz]
    refine ⟨?_, ?_⟩ <;> simp [readEntries, advance_zero]

theorem Stage.rest {addr : Nat → Word} {start cap : Nat} {x : List Byte} {f1 : OpenFile}
    (h : Stage m sb addr start cap f count (x, f1)) :
    remaining f1 (count - ofNat 32 x.length) = remaining f count - cap ∧
      (cap ≤ remaining f count → f1.pos.toNat = f.pos.toNat + cap) ∧ f1.size = f.size := by
  have hlen := h.length
  have hf := h.file
  dsimp only at hlen hf
  have hle : min cap (remaining f count) ≤ remaining f count := Nat.min_le_right _ _
  refine ⟨?_, fun hc => ?_, by rw [hf]; rfl⟩
  · rw [hlen, hf, remaining_advance hle]
    omega
  · rw [hf, advance_toNat hle]
    omega

variable (f count) in
/-- The singly indirect stage, at a position behind the direct blocks or at the end. -/
theorem singly_stage (hs : BLOCKSIZE m sb ≠ 0#32) (hr : Reachable m sb blocks f.size.toNat)
    (hp : 0 < remaining f count → 12 * (BLOCKSIZE m sb).toNat ≤ f.pos.toNat) :
    Stage m sb (fileAddr m sb blocks) (12 * (BLOCKSIZE m sb).toNat)
      ((BLOCKSIZE m sb).toNat / 4 * (BLOCKSIZE m sb).toNat) f count
      (readSingly m sb blocks f count) := by
  obtain ⟨k, hk, hbs⟩ := blocksize_eq hs
  have hpos : 0 < (BLOCKSIZE m sb).toNat := by omega
  unfold readSingly
  split_ifs with hc
  · have h := @readIndirectBlock_stage m sb f count
      (getBlock m sb (entry m blocks SINGLY_INDIRECT_BLOCK))
    have hshift := h.shift (fileAddr m sb blocks) hpos 12 fun j hj => ?_
    · rwa [Nat.add_zero] at hshift
    · rw [Nat.zero_add, fileAddr_singly (Nat.div_lt_of_lt_mul (by rwa [Nat.mul_comm]))]
      rfl
  · refine .done ?_
    by_contra hne
    have hle := hp (Nat.pos_of_ne_zero hne)
    have hlt : 12 * (BLOCKSIZE m sb).toNat < f.size.toNat := by
      unfold remaining at hne
      omega
    have h12 : (12#32 * BLOCKSIZE m sb).toNat = 12 * (BLOCKSIZE m sb).toNat := by
      change 12 * _ % 2 ^ 32 = _
      omega
    exact hc ⟨hr.singly hlt, by rw [BitVec.le_def, h12]; exact hle⟩

variable (f count) in
/-- The doubly indirect stage, at a position behind the singly indirect blocks or at the
end. The loop runs past the table, but the file ends before. -/
theorem doubly_stage (hs : BLOCKSIZE m sb ≠ 0#32) (hr : Reachable m sb blocks f.size.toNat)
    (hp : 0 < remaining f count →
      (12 + (BLOCKSIZE m sb).toNat / 4) * (BLOCKSIZE m sb).toNat ≤ f.pos.toNat) :
    Stage m sb (fileAddr m sb blocks)
      ((12 + (BLOCKSIZE m sb).toNat / 4) * (BLOCKSIZE m sb).toNat)
      ((BLOCKSIZE m sb).toNat / 4 * ((BLOCKSIZE m sb).toNat / 4) * (BLOCKSIZE m sb).toNat) f count
      (readDoubly m sb blocks f count) := by
  obtain ⟨k, hk, hbs⟩ := blocksize_eq hs
  have hpos : 0 < (BLOCKSIZE m sb).toNat := by omega
  have hfits := hr.fits
  have hmul : 268 * (BLOCKSIZE m sb).toNat ≤
      (12 + (BLOCKSIZE m sb).toNat / 4) * (BLOCKSIZE m sb).toNat :=
    Nat.mul_le_mul_right _ (by omega)
  unfold readDoubly
  split_ifs with hc
  · have h := @readDoublyIndirect_stage m sb f count hpos
      (by omega) (doublyIndirectBlock m sb (getBlock m sb (entry m blocks DOUBLY_INDIRECT_BLOCK)))
      (BLOCKSIZE m sb).toNat 0
    rw [Nat.zero_mul, Nat.zero_mul] at h
    have hcap : remaining f count ≤
        (BLOCKSIZE m sb).toNat / 4 * ((BLOCKSIZE m sb).toNat / 4) * (BLOCKSIZE m sb).toNat := by
      by_cases h0 : remaining f count = 0
      · omega
      · rw [Nat.add_mul (12 + _)] at hfits
        unfold remaining
        omega
    have hbig : (BLOCKSIZE m sb).toNat / 4 * ((BLOCKSIZE m sb).toNat / 4) *
        (BLOCKSIZE m sb).toNat ≤
          (BLOCKSIZE m sb).toNat * ((BLOCKSIZE m sb).toNat / 4) * (BLOCKSIZE m sb).toNat :=
      Nat.mul_le_mul_right _ (Nat.mul_le_mul_right _ (Nat.div_le_self _ _))
    have hshift := (h.recap (hcap.trans hbig) hcap).shift (fileAddr m sb blocks) hpos
      (12 + (BLOCKSIZE m sb).toNat / 4) fun j hj => ?_
    · rwa [Nat.add_zero] at hshift
    · rw [Nat.zero_add, fileAddr_doubly (by omega)]
      · rfl
      · refine Nat.div_lt_of_lt_mul (Nat.div_lt_of_lt_mul ?_)
        rwa [Nat.mul_comm]
  · refine .done ?_
    by_contra hne
    have hle := hp (Nat.pos_of_ne_zero hne)
    have hlt : (12 + (BLOCKSIZE m sb).toNat / 4) * (BLOCKSIZE m sb).toNat < f.size.toNat := by
      unfold remaining at hne
      omega
    have h268 : (12#32 * BLOCKSIZE m sb + 256#32 * BLOCKSIZE m sb).toNat =
        268 * (BLOCKSIZE m sb).toNat := by
      change (12 * _ % 2 ^ 32 + 256 * _ % 2 ^ 32) % 2 ^ 32 = _
      omega
    exact hc ⟨hr.doubly hlt, by rw [BitVec.le_def, h268]; omega⟩

/-- read_blocks delivers consecutive bytes of the file, from the start of a block. -/
theorem readBlocks_ok (hs : BLOCKSIZE m sb ≠ 0#32) (hr : Reachable m sb blocks f.size.toNat) :
    readBlocks m sb f blocks count = .ok
      (blockBytes m (BLOCKSIZE m sb).toNat (fileAddr m sb blocks)
        (startBlock m sb f.pos * (BLOCKSIZE m sb).toNat) (remaining f count),
        f.advance (remaining f count)) := by
  have hstart : startBlock m sb f.pos * (BLOCKSIZE m sb).toNat ≤ f.pos.toNat := by
    have h1 := Nat.div_mul_le_self f.pos.toNat (BLOCKSIZE m sb).toNat
    have h2 := Nat.mul_le_mul_right (BLOCKSIZE m sb).toNat
      (Nat.min_le_left (f.pos.toNat / (BLOCKSIZE m sb).toNat) 12)
    exact h2.trans h1
  have hstart12 := Nat.mul_le_mul_right (BLOCKSIZE m sb).toNat
    (Nat.min_le_right (f.pos.toNat / (BLOCKSIZE m sb).toNat) 12)
  change startBlock m sb f.pos * _ ≤ _ at hstart12
  unfold readBlocks
  dsimp only
  by_cases hend : f.size ≤ f.pos
  · have hz : remaining f count = 0 := by
      rw [BitVec.le_def] at hend
      unfold remaining
      omega
    rw [if_pos hend, hz, advance_zero]
    rfl
  rw [if_neg hend, if_neg hs, if_neg (not_not.mpr hr.triply)]
  have h1 := direct_stage blocks f count hs
  generalize readEntries m sb blocks (FINAL_DIRECT_BLOCK + 1 - (f.pos / BLOCKSIZE m sb).toNat)
    (f.pos / BLOCKSIZE m sb).toNat f count = r1 at h1 ⊢
  obtain ⟨x, f1⟩ := r1
  obtain ⟨hrem1, hpos1, hsize1⟩ := h1.rest
  rw [Nat.sub_mul] at h1 hrem1 hpos1
  have h2 := singly_stage f1 (count - ofNat 32 x.length)
    hs (hsize1 ▸ hr) (fun h => by omega)
  generalize readSingly m sb blocks f1 (count - ofNat 32 x.length) = r2 at h2 ⊢
  obtain ⟨y, f2⟩ := r2
  obtain ⟨hrem2, hpos2, hsize2⟩ := h2.rest
  have hcap2 : (12 + (BLOCKSIZE m sb).toNat / 4) * (BLOCKSIZE m sb).toNat =
      12 * (BLOCKSIZE m sb).toNat + (BLOCKSIZE m sb).toNat / 4 * (BLOCKSIZE m sb).toNat :=
    Nat.add_mul _ _ _
  have h3 := doubly_stage f2
    (count - ofNat 32 x.length - ofNat 32 y.length)
    hs (hsize2 ▸ hsize1 ▸ hr) (fun h => by omega)
  generalize readDoubly m sb blocks f2 _ = r3 at h3 ⊢
  -- the three stages read on where the one before stopped
  have hjoin : 12 * (BLOCKSIZE m sb).toNat = startBlock m sb f.pos * (BLOCKSIZE m sb).toNat +
      (12 * (BLOCKSIZE m sb).toNat - startBlock m sb f.pos * (BLOCKSIZE m sb).toNat) := by omega
  rw [hcap2] at h3
  have h23 := h2.append h3
  rw [hjoin] at h23
  have hall := h1.append h23
  have hfits := hr.fits
  rw [Nat.add_mul] at hfits
  obtain ⟨hbytes, hfile⟩ := hall
  have hfull : min (12 * (BLOCKSIZE m sb).toNat - startBlock m sb f.pos * (BLOCKSIZE m sb).toNat +
      ((BLOCKSIZE m sb).toNat / 4 * (BLOCKSIZE m sb).toNat +
        (BLOCKSIZE m sb).toNat / 4 * ((BLOCKSIZE m sb).toNat / 4) * (BLOCKSIZE m sb).toNat))
      (remaining f count) = remaining f count := by
    refine Nat.min_eq_right ?_
    unfold remaining
    omega
  rw [hfull] at hbytes hfile
  rw [List.append_assoc]
  exact congrArg Except.ok (Prod.ext hbytes hfile)

end File

/-- A regular file without holes in an image with any block size of 1024 bytes or more. -/
structure FileAt (m : Mem) (sb inodeNo inode : Word) (size : Nat) : Prop where
  found : readInode m sb inodeNo = .ok inode
  regular : isDir m inode = false
  blocksize : BLOCKSIZE m sb ≠ 0#32
  blocks : Reachable m sb (inodeBlocks inode) size

section Reads
variable {m : Mem} {sb inodeNo inode : Word} {f : OpenFile}

theorem ext2Read_ok (h : FileAt m sb inodeNo inode f.size.toNat) (count : Word) :
    ext2Read m sb inodeNo f count = .ok
      ⟨(ofNat 32 (remaining f count)).toInt,
        blockBytes m (BLOCKSIZE m sb).toNat (fileAddr m sb (inodeBlocks inode))
          (startBlock m sb f.pos * (BLOCKSIZE m sb).toNat) (remaining f count),
        f.advance (remaining f count)⟩ := by
  simp [ext2Read, h.found, h.regular, readBlocks_ok h.blocksize h.blocks]

/-- The first `n` bytes of a file: those of its blocks one after the other. -/
def fileBytes (m : Mem) (sb blocks : Word) (n : Nat) : List Byte :=
  (List.range n).map (fileByte m sb blocks)

@[simp] theorem fileBytes_length (blocks : Word) (n : Nat) :
    (fileBytes m sb blocks n).length = n := by
  simp [fileBytes]

theorem fileBytes_eq (blocks : Word) (n : Nat) :
    fileBytes m sb blocks n =
      blockBytes m (BLOCKSIZE m sb).toNat (fileAddr m sb blocks) 0 n := by
  simp only [fileBytes, blockBytes, Nat.zero_add]
  rfl

theorem ext2Read_start {size : Word} (h : FileAt m sb inodeNo inode size.toNat) (count : Word) :
    ext2Read m sb inodeNo ⟨0#32, size⟩ count = .ok
      ⟨(ofNat 32 (min count.toNat size.toNat)).toInt,
        fileBytes m sb (inodeBlocks inode) (min count.toNat size.toNat),
        ⟨ofNat 32 (min count.toNat size.toNat), size⟩⟩ := by
  have hr := @readBlocks_ok m sb (inodeBlocks inode) ⟨0#32, size⟩ count h.blocksize h.blocks
  have hrem : remaining ⟨0#32, size⟩ count = min count.toNat size.toNat := rfl
  have hstart : startBlock m sb 0#32 = 0 := by simp [startBlock]
  have hfile : (⟨0#32, size⟩ : OpenFile).advance (min count.toNat size.toNat) =
      ⟨ofNat 32 (min count.toNat size.toNat), size⟩ := by simp [OpenFile.advance]
  rw [hrem, hstart, Nat.zero_mul, ← fileBytes_eq, hfile] at hr
  simp [ext2Read, h.found, h.regular, hr]

/-- Reading a file from its start stores its first bytes, as many as there are up to the
count, and moves the position behind them. -/
theorem read_from_start {size : Word} (h : FileAt m sb inodeNo inode size.toNat)
    (hsize : size.toNat < 2 ^ 31) (count : Word) :
    ext2Read m sb inodeNo ⟨0#32, size⟩ count = .ok
      ⟨(min count.toNat size.toNat : Nat),
        (fileBytes m sb (inodeBlocks inode) size.toNat).take (min count.toNat size.toNat),
        ⟨ofNat 32 (min count.toNat size.toNat), size⟩⟩ := by
  have hint : (ofNat 32 (min count.toNat size.toNat)).toInt =
      (min count.toNat size.toNat : Nat) := by
    rw [BitVec.toInt_eq_toNat_of_lt (by rw [toNat_ofNat]; omega), toNat_ofNat,
      Nat.mod_eq_of_lt (by omega)]
  have htake : (fileBytes m sb (inodeBlocks inode) size.toNat).take (min count.toNat size.toNat) =
      fileBytes m sb (inodeBlocks inode) (min count.toNat size.toNat) := by
    rw [fileBytes, ← List.map_take, List.take_range, Nat.min_eq_left (Nat.min_le_right _ _)]
    rfl
  rw [ext2Read_start h, hint, htake]

/-- Reading `a` and then `b` bytes is reading `a + b` bytes: the same bytes, the same
total (in the 32 bits of the return value) and the same file afterwards. -/
def ReadsCompose (m : Mem) (sb inodeNo : Word) (f : OpenFile) (a b : Word) : Prop :=
  ∃ r1 r2 r, ext2Read m sb inodeNo f a = .ok r1 ∧ ext2Read m sb inodeNo r1.file b = .ok r2 ∧
    ext2Read m sb inodeNo f (a + b) = .ok r ∧ r.bytes = r1.bytes ++ r2.bytes ∧
    ofInt 32 r.ret = ofInt 32 (r1.ret + r2.ret) ∧ r.file = r2.file

/-- The bytes of the file that the second read delivers are those that follow what the
first one delivered. -/
def SameBytes (m : Mem) (sb inode : Word) (f : OpenFile) (a b : Word) : Prop :=
  let bs := (BLOCKSIZE m sb).toNat
  let next := f.advance (remaining f a)
  ∀ j < remaining next b,
    fileByte m sb (inodeBlocks inode) (startBlock m sb f.pos * bs + remaining f a + j) =
      fileByte m sb (inodeBlocks inode) (startBlock m sb next.pos * bs + j)

theorem remaining_add {a b : Word} (hab : a.toNat + b.toNat < 2 ^ 32) :
    remaining f (a + b) = remaining f a + remaining (f.advance (remaining f a)) b := by
  have hp : (f.advance (remaining f a)).pos.toNat = f.pos.toNat + remaining f a :=
    advance_toNat (le_refl _)
  have hs : (a + b).toNat = a.toNat + b.toNat := by
    rw [toNat_add]
    omega
  have hsize : (f.advance (remaining f a)).size = f.size := rfl
  unfold remaining at *
  rw [hs, hp, hsize]
  omega

/-- Two reads compose exactly when the second one happens to find the right bytes, since
it starts at a block boundary. -/
theorem reads_compose_iff {a b : Word} (h : FileAt m sb inodeNo inode f.size.toNat)
    (hab : a.toNat + b.toNat < 2 ^ 32) :
    ReadsCompose m sb inodeNo f a b ↔ SameBytes m sb inode f a b := by
  have h' : FileAt m sb inodeNo inode (f.advance (remaining f a)).size.toNat := h
  have hsum := remaining_add (f := f) hab
  have hret : ofInt 32 (ofNat 32 (remaining f (a + b))).toInt =
      ofInt 32 ((ofNat 32 (remaining f a)).toInt +
        (ofNat 32 (remaining (f.advance (remaining f a)) b)).toInt) := by
    rw [hsum, BitVec.ofInt_add, BitVec.ofInt_toInt, BitVec.ofInt_toInt, BitVec.ofInt_toInt,
      ofNat_add]
  have hfile : f.advance (remaining f (a + b)) =
      (f.advance (remaining f a)).advance (remaining (f.advance (remaining f a)) b) := by
    rw [hsum, advance_add]
  unfold ReadsCompose SameBytes
  simp only [ext2Read_ok h, Except.ok.injEq]
  refine ⟨fun ⟨r1, r2, r, h1, h2, h3, hb, _, _⟩ j hj => ?_, fun hsame => ?_⟩
  · subst h1
    rw [ext2Read_ok h'] at h2
    cases h2
    cases h3
    rw [hsum, blockBytes_add] at hb
    exact List.map_inj_left.mp (List.append_cancel_left hb) j (List.mem_range.mpr hj)
  · refine ⟨_, _, _, rfl, ext2Read_ok h' b, rfl, ?_, hret, hfile⟩
    rw [hsum, blockBytes_add]
    dsimp only
    congr 1
    exact List.map_congr_left fun j hj => hsame j (List.mem_range.mp hj)

/-- An image with 1024-byte blocks: the inode table is block 3, and the data of inode 1
is in the blocks 4 and 5. Byte `k` of the file is `k + 1` modulo 251. -/
def tinyImage : Mem := fun a =>
  let n := a.toNat
  if 4096 ≤ n ∧ n < 6144 then ofNat 8 ((n - 4095) % 251)
  else if n = 1064 then 8#8
  else if n = 2056 then 3#8
  else if n = 3112 then 4#8
  else if n = 3116 then 5#8
  else 0#8

theorem tinyImage_file {size : Nat} (hs : size ≤ 2048) :
    FileAt tinyImage 1024#32 1#32 3072#32 size := by
  have hbs : (BLOCKSIZE tinyImage 1024#32).toNat = 1024 := by decide
  refine ⟨by decide, by decide, by decide, ?_, ?_, by decide, ?_⟩
  · rw [hbs]
    omega
  · rw [hbs]
    omega
  · rw [hbs]
    omega

/-- The first three of 1030 bytes. -/
theorem read_from_start_tiny :
    ext2Read tinyImage 1024#32 1#32 ⟨0#32, 1030#32⟩ 3#32 =
      .ok ⟨3, [1#8, 2#8, 3#8], ⟨3#32, 1030#32⟩⟩ := by
  rw [read_from_start (tinyImage_file (by decide)) (by decide)]
  decide +kernel

/-- A first read that ends at the end of a block. -/
theorem reads_compose_iff_wholeBlock :
    ReadsCompose tinyImage 1024#32 1#32 ⟨0#32, 1030#32⟩ 1024#32 9#32 :=
  (reads_compose_iff (tinyImage_file (by decide)) (by decide)).mpr (by
    unfold SameBytes
    decide)

/-- A first read that ends within a block: the second read delivers the first byte again. -/
theorem second_read_starts_over :
    ext2Read tinyImage 1024#32 1#32 ⟨0#32, 1030#32⟩ 1#32 =
        .ok ⟨1, [1#8], ⟨1#32, 1030#32⟩⟩ ∧
      ext2Read tinyImage 1024#32 1#32 ⟨1#32, 1030#32⟩ 1#32 =
        .ok ⟨1, [1#8], ⟨2#32, 1030#32⟩⟩ ∧
      ext2Read tinyImage 1024#32 1#32 ⟨0#32, 1030#32⟩ 2#32 =
        .ok ⟨2, [1#8, 2#8], ⟨2#32, 1030#32⟩⟩ := by
  decide

end Reads
end TapiOS.Fs.Ext2
