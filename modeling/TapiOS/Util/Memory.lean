import TapiOS.Util.BitScan

/-!
# Byte memory, memcpy and memmove of util/util.c

Memory is a function from 32-bit addresses to bytes; address arithmetic wraps as
it does on the machine. `memmove` keeps the source's upward indices in its
downward loop.
-/
namespace TapiOS.Util

open BitVec (ofNat eq_of_toNat_eq ofNat_add toNat_add toNat_ofNat)

abbrev Byte := BitVec 8

abbrev Mem := Word → Byte

/-- `m[a] = v` -/
def Mem.set (m : Mem) (a : Word) (v : Byte) : Mem := fun x => if x = a then v else m x

theorem Mem.set_same (m : Mem) (a : Word) (v : Byte) : m.set a v a = v := by
  simp [Mem.set]

theorem Mem.set_other {a x : Word} (m : Mem) (v : Byte) (h : x ≠ a) : m.set a v x = m x := by
  simp [Mem.set, h]

/-- There are 2^32 addresses. -/
theorem nodup_length_le {ss : List Word} (h : ss.Nodup) : ss.length ≤ 2 ^ 32 := by
  have hd : (ss.map BitVec.toNat).Nodup := h.map (fun _ _ he => eq_of_toNat_eq he)
  have hsub : ss.map BitVec.toNat ⊆ List.range (2 ^ 32) := by
    intro a ha
    obtain ⟨s, -, rfl⟩ := List.mem_map.mp ha
    exact List.mem_range.mpr s.isLt
  have hlen := (List.subperm_of_subset hd hsub).length_le
  rwa [List.length_map, List.length_range] at hlen

theorem toNat_ofNat_of_lt {w n : Nat} (h : n < 2 ^ w) : (ofNat w n).toNat = n := by
  rw [toNat_ofNat, Nat.mod_eq_of_lt h]

variable {a : Word}

theorem add_ofNat_toNat {i : Nat} (h : a.toNat + i < 2 ^ 32) :
    (a + ofNat 32 i).toNat = a.toNat + i := by
  rw [toNat_add, toNat_ofNat]
  omega

theorem ofNat_div {a b : Nat} (ha : a < 2 ^ 32) (hb : b < 2 ^ 32) :
    ofNat 32 a / ofNat 32 b = ofNat 32 (a / b) := by
  apply eq_of_toNat_eq
  have hq := (Nat.div_le_self a b).trans_lt ha
  rw [BitVec.toNat_udiv, toNat_ofNat_of_lt ha, toNat_ofNat_of_lt hb, toNat_ofNat_of_lt hq]

theorem ofNat_mod {a b : Nat} (ha : a < 2 ^ 32) (hb : b < 2 ^ 32) :
    ofNat 32 a % ofNat 32 b = ofNat 32 (a % b) := by
  apply eq_of_toNat_eq
  have hr := (Nat.mod_le a b).trans_lt ha
  rw [BitVec.toNat_umod, toNat_ofNat_of_lt ha, toNat_ofNat_of_lt hb, toNat_ofNat_of_lt hr]

/-- The little-endian 32-bit value at an address. -/
def Mem.word (m : Mem) (a : Word) : Word := m (a + 3#32) ++ m (a + 2#32) ++ m (a + 1#32) ++ m a

/-- The little-endian 16-bit value at an address. -/
def Mem.half (m : Mem) (a : Word) : BitVec 16 := m (a + 1#32) ++ m a

/-- Byte `i` of a word. -/
def wordByte (w : Word) (i : Nat) : Byte := w.extractLsb' (8 * i) 8

/-! The bytes in memory of a 16-bit value and of a word. -/

def halfBytes (h : BitVec 16) : List Byte := [h.extractLsb' 0 8, h.extractLsb' 8 8]

def wordBytes (w : Word) : List Byte := [wordByte w 0, wordByte w 1, wordByte w 2, wordByte w 3]

/-- A 32-bit store. -/
def Mem.setWord (m : Mem) (a w : Word) : Mem :=
  (((m.set a (wordByte w 0)).set (a + 1#32) (wordByte w 1)).set (a + 2#32) (wordByte w 2)).set
    (a + 3#32) (wordByte w 3)

/-- A 16-bit store. -/
def Mem.setHalf (m : Mem) (a : Word) (h : BitVec 16) : Mem :=
  (m.set a (h.extractLsb' 0 8)).set (a + 1#32) (h.extractLsb' 8 8)

/-- Bytes stored one after the other. -/
def Mem.setBytes (m : Mem) (a : Word) : List Byte → Mem
  | [] => m
  | b :: bs => (m.set a b).setBytes (a + 1#32) bs

theorem Mem.setWord_byte (m : Mem) (a w : Word) {i : Nat} (hi : i < 4) :
    m.setWord a w (a + ofNat 32 i) = wordByte w i := by
  have hi' : i = 0 ∨ i = 1 ∨ i = 2 ∨ i = 3 := by omega
  rcases hi' with rfl | rfl | rfl | rfl <;> simp [Mem.setWord, Mem.set]

theorem Mem.word_getLsbD (m : Mem) (a : Word) {k : Nat} (hk : k < 32) :
    (m.word a).getLsbD k = (m (a + ofNat 32 (k / 8))).getLsbD (k % 8) := by
  have hd : k / 8 = 0 ∨ k / 8 = 1 ∨ k / 8 = 2 ∨ k / 8 = 3 := by omega
  simp only [Mem.word, BitVec.getLsbD_append]
  rcases hd with h | h | h | h
  · have hlt : k < 8 := by omega
    simp [h, hlt, Nat.mod_eq_of_lt hlt]
  · have h1 : ¬k < 8 := by omega
    have h2 : k - 8 < 8 := by omega
    have hm : k % 8 = k - 8 := by omega
    simp [h, h1, h2, hm]
  · have h1 : ¬k < 8 := by omega
    have h2 : ¬k - 8 < 8 := by omega
    have h3 : k - 8 - 8 < 8 := by omega
    have hm : k % 8 = k - 8 - 8 := by omega
    simp [h, h1, h2, h3, hm]
  · have h1 : ¬k < 8 := by omega
    have h2 : ¬k - 8 < 8 := by omega
    have h3 : ¬k - 8 - 8 < 8 := by omega
    have hm : k % 8 = k - 8 - 8 - 8 := by omega
    simp [h, h1, h2, h3, hm]

variable {m m' : Mem}

theorem Mem.word_congr
    (h : ∀ i < 4, m' (a + ofNat 32 i) = m (a + ofNat 32 i)) : m'.word a = m.word a := by
  have h0 := h 0 (by omega)
  have h1 := h 1 (by omega)
  have h2 := h 2 (by omega)
  have h3 := h 3 (by omega)
  simp only [BitVec.add_zero] at h0 h1 h2 h3
  simp only [Mem.word, h0, h1, h2, h3]

theorem Mem.half_congr
    (h : ∀ i < 2, m' (a + ofNat 32 i) = m (a + ofNat 32 i)) : m'.half a = m.half a := by
  have h0 := h 0 (by omega)
  have h1 := h 1 (by omega)
  simp only [BitVec.add_zero] at h0 h1
  simp only [Mem.half, h0, h1]

theorem Mem.word_setWord (m : Mem) (a w : Word) : (m.setWord a w).word a = w := by
  apply BitVec.eq_of_getLsbD_eq
  intro k hk
  have hm : k % 8 < 8 := Nat.mod_lt _ (by omega)
  rw [Mem.word_getLsbD _ _ hk, Mem.setWord_byte _ _ _ (by omega), wordByte,
    BitVec.getLsbD_extractLsb']
  simp only [hm, decide_true, Bool.true_and]
  congr 1
  omega

/-- The loop of memcpy: `n` more bytes from index `i`. -/
def copyLoop (dst src : Word) : Nat → Word → Mem → Mem
  | 0, _, m => m
  | n + 1, i, m => copyLoop dst src n (i + 1#32) (m.set (dst + i) (m (src + i)))

def memcpy (m : Mem) (dst src size : Word) : Mem := copyLoop dst src size.toNat 0#32 m

/-- The downward loop of memmove: `for(i=size; i>0; --i) p1[i]=p2[i]`. -/
def moveLoop (dst src : Word) : Nat → Mem → Mem
  | 0, m => m
  | i + 1, m =>
    let k := ofNat 32 (i + 1)
    moveLoop dst src i (m.set (dst + k) (m (src + k)))

def memmove (m : Mem) (dst src size : Word) : Mem :=
  if src = dst then m
  else if dst < src then memcpy m dst src size
  else moveLoop dst src size.toNat m

/-- The `n` bytes from address `a` on. -/
def bytesAt (m : Mem) (a : Word) (n : Nat) : List Byte :=
  (List.range n).map (fun i => m (a + ofNat 32 i))

@[simp] theorem bytesAt_length (m : Mem) (a : Word) (n : Nat) : (bytesAt m a n).length = n := by
  simp [bytesAt]

theorem bytesAt_succ (m : Mem) (a : Word) (n : Nat) :
    bytesAt m a (n + 1) = bytesAt m a n ++ [m (a + ofNat 32 n)] := by
  simp [bytesAt, List.range_succ]

theorem bytesAt_add (m : Mem) (a : Word) (n k : Nat) :
    bytesAt m a (n + k) = bytesAt m a n ++ bytesAt m (a + ofNat 32 n) k := by
  simp only [bytesAt, List.range_add, List.map_append, List.map_map]
  congr 1
  apply List.map_congr_left
  intro i _
  simp only [Function.comp, ofNat_add]
  rw [BitVec.add_assoc]

theorem bytesAt_cons (m : Mem) (a : Word) (n : Nat) :
    bytesAt m a (n + 1) = m a :: bytesAt m (a + 1#32) n := by
  rw [Nat.add_comm, bytesAt_add]
  simp [bytesAt]

theorem bytesAt_congr {a a' : Word} {n : Nat}
    (h : ∀ i < n, m (a + ofNat 32 i) = m' (a' + ofNat 32 i)) :
    bytesAt m a n = bytesAt m' a' n := by
  apply List.map_congr_left
  intro i hi
  exact h i (List.mem_range.mp hi)

theorem bytesAt_inj {a a' : Word} {n : Nat} (h : bytesAt m a n = bytesAt m' a' n) :
    ∀ i < n, m (a + ofNat 32 i) = m' (a' + ofNat 32 i) := by
  intro i hi
  exact (List.map_inj_left.mp h) i (List.mem_range.mpr hi)

/-- The `n` bytes from offset `start` of a sequence of blocks of `bs` bytes; `addr` gives the
address of each block. -/
def blockBytes (m : Mem) (bs : Nat) (addr : Nat → Word) (start n : Nat) : List Byte :=
  (List.range n).map (fun j => m (addr ((start + j) / bs) + ofNat 32 ((start + j) % bs)))

section Blocks
variable {m : Mem} {bs : Nat} {addr addr' : Nat → Word}

@[simp] theorem blockBytes_length (start n : Nat) : (blockBytes m bs addr start n).length = n := by
  simp [blockBytes]

@[simp] theorem blockBytes_zero (start : Nat) : blockBytes m bs addr start 0 = [] := rfl

theorem blockBytes_add (start n k : Nat) : blockBytes m bs addr start (n + k) =
    blockBytes m bs addr start n ++ blockBytes m bs addr (start + n) k := by
  simp only [blockBytes, List.range_add, List.map_append, List.map_map]
  congr 1
  apply List.map_congr_left
  intro j _
  simp [Nat.add_assoc]

theorem blockBytes_shift (hbs : 0 < bs) (b start n : Nat)
    (h : ∀ j < n, addr' ((start + j) / bs) = addr (b + (start + j) / bs)) :
    blockBytes m bs addr (b * bs + start) n = blockBytes m bs addr' start n := by
  apply List.map_congr_left
  intro j hj
  have hadd : b * bs + start + j = start + j + b * bs := by omega
  rw [hadd, Nat.add_mul_div_right _ _ hbs, Nat.add_mul_mod_self_right, h j (List.mem_range.mp hj),
    Nat.add_comm b]

theorem blockBytes_one {n : Nat} (hn : n ≤ bs) (b : Nat) :
    blockBytes m bs addr (b * bs) n = bytesAt m (addr b) n := by
  apply List.map_congr_left
  intro j hj
  have hj' : j < bs := (List.mem_range.mp hj).trans_le hn
  have hbs : 0 < bs := by omega
  have hadd : b * bs + j = j + b * bs := by omega
  rw [hadd, Nat.add_mul_div_right _ _ hbs, Nat.add_mul_mod_self_right, Nat.div_eq_of_lt hj',
    Nat.mod_eq_of_lt hj', Nat.zero_add]

end Blocks

/-- A forward copy towards lower addresses copies every byte: what it overwrites
has been read before. -/
theorem copyLoop_spec {dst src : Word} {n i : Nat} {m : Mem}
    (hd : dst.toNat + (i + n) ≤ 2 ^ 32) (hs : src.toNat + (i + n) ≤ 2 ^ 32)
    (hlt : dst.toNat < src.toNat) (a : Word) :
    copyLoop dst src n (ofNat 32 i) m a =
      if dst.toNat + i ≤ a.toNat ∧ a.toNat < dst.toNat + (i + n) then m (src + (a - dst))
      else m a := by
  induction n generalizing i m with
  | zero => rw [if_neg (by omega)]; rfl
  | succ n ih =>
    have hi : ofNat 32 i + 1#32 = ofNat 32 (i + 1) := by simp [ofNat_add]
    have hdi : (dst + ofNat 32 i).toNat = dst.toNat + i := add_ofNat_toNat (by omega)
    rw [copyLoop, hi, ih (by omega) (by omega)]
    by_cases ha : a.toNat = dst.toNat + i
    · have hae : a = dst + ofNat 32 i := eq_of_toNat_eq (by omega)
      rw [if_neg (by omega), if_pos (by omega), hae, Mem.set_same]
      congr 2
      bv_omega
    · have hne : a ≠ dst + ofNat 32 i := by
        intro h
        rw [h] at ha
        omega
      split_ifs with h1 h2 h2
      · rw [Mem.set_other]
        intro h
        have hn := congrArg BitVec.toNat h
        have hsub : (a - dst).toNat = a.toNat - dst.toNat := by bv_omega
        rw [hdi, toNat_add, hsub] at hn
        omega
      · omega
      · omega
      · rw [Mem.set_other _ _ hne]

end TapiOS.Util
