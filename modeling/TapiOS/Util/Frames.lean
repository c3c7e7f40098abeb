import Mathlib.Data.Set.Lattice
import Mathlib.Order.CompletePartialOrder
import TapiOS.Util.Memory

/-!
# What a store leaves alone

A span is a number of consecutive addresses, counted modulo 2^32. `ChangesOnly` is the
frame of a piece of code: memory is the same outside of a set of addresses.
-/
namespace TapiOS.Util

open BitVec (ofNat)

variable {n i o k : Nat}

/-- The `n` addresses from `a` on. -/
def span (a : Word) (n : Nat) : Set Word := {x | (x - a).toNat < n}

theorem mem_span {x a : Word} : x ∈ span a n ↔ (x - a).toNat < n := Iff.rfl

theorem add_mem_span (a : Word) (hi : i < n) (hn : n ≤ 2 ^ 32) :
    a + ofNat 32 i ∈ span a n := by
  have hs : a + ofNat 32 i - a = ofNat 32 i := by
    rw [BitVec.add_comm, BitVec.add_sub_cancel]
  change (a + ofNat 32 i - a).toNat < n
  rw [hs, toNat_ofNat_of_lt (by omega)]
  exact hi

theorem span_subset {p : Nat} (a : Word) (ho : p ≤ o) (hn : o + n ≤ p + k) (hk : p + k ≤ 2 ^ 32) :
    span (a + ofNat 32 o) n ⊆ span (a + ofNat 32 p) k := by
  intro x hx
  simp only [mem_span] at hx ⊢
  bv_omega

theorem add_ofNat_add (a : Word) (i j : Nat) :
    a + ofNat 32 i + ofNat 32 j = a + ofNat 32 (i + j) := by
  rw [BitVec.ofNat_add, BitVec.add_assoc]

theorem span_add_subset (a : Word) (hn : o + n ≤ k) (hk : k ≤ 2 ^ 32) :
    span (a + ofNat 32 o) n ⊆ span a k := by
  have h := span_subset (o := o) (n := n) (p := 0) (k := k) a (by omega) (by omega) (by omega)
  rwa [BitVec.add_zero] at h

theorem span_disjoint {p : Nat} (a : Word) (h : o + n ≤ p ∨ p + k ≤ o) (ho : o + n ≤ 2 ^ 32)
    (hp : p + k ≤ 2 ^ 32) :
    Disjoint (span (a + ofNat 32 o) n) (span (a + ofNat 32 p) k) := by
  rw [Set.disjoint_left]
  intro x hx hx'
  simp only [mem_span] at hx hx'
  bv_omega

/-- Memory is the same outside of `A`. -/
def ChangesOnly (A : Set Word) (m m' : Mem) : Prop := Set.EqOn m' m Aᶜ

namespace ChangesOnly
variable {A B : Set Word} {m m' m'' : Mem} {a : Word}

theorem refl (A : Set Word) (m : Mem) : ChangesOnly A m m := Set.eqOn_refl _ _

theorem trans (h : ChangesOnly A m m') (h' : ChangesOnly A m' m'') : ChangesOnly A m m'' :=
  Set.EqOn.trans h' h

theorem mono (h : ChangesOnly A m m') (hab : A ⊆ B) : ChangesOnly B m m' :=
  Set.EqOn.mono (Set.compl_subset_compl.mpr hab) h

theorem keeps (h : ChangesOnly A m m') (hd : Disjoint B A) : Set.EqOn m' m B :=
  Set.EqOn.mono (Set.disjoint_left.mp hd) h

end ChangesOnly

/-! Reading a field that a store has left alone. -/

section Reads
variable {A : Set Word} {m m' : Mem} {a : Word}

theorem word_of_eqOn (h : Set.EqOn m' m A) (ha : span a 4 ⊆ A) : m'.word a = m.word a :=
  Mem.word_congr fun _ hi => h (ha (add_mem_span a hi (by decide)))

theorem half_of_eqOn (h : Set.EqOn m' m A) (ha : span a 2 ⊆ A) : m'.half a = m.half a :=
  Mem.half_congr fun _ hi => h (ha (add_mem_span a hi (by decide)))

end Reads

/-! The frame of each store. -/

theorem Mem.set_changes_at (m : Mem) (a : Word) (v : Byte) (hi : i < n) (hn : n ≤ 2 ^ 32) :
    ChangesOnly (span a n) m (m.set (a + ofNat 32 i) v) := by
  intro x hx
  apply Mem.set_other
  intro h
  subst h
  exact hx (add_mem_span a hi hn)

theorem Mem.set_changes (m : Mem) (a : Word) (v : Byte) : ChangesOnly (span a 1) m (m.set a v) := by
  have h := m.set_changes_at a v (i := 0) (n := 1) (by decide) (by decide)
  rwa [BitVec.add_zero] at h

theorem Mem.setHalf_changes (m : Mem) (a : Word) (h : BitVec 16) :
    ChangesOnly (span a 2) m (m.setHalf a h) := by
  have h0 := m.set_changes_at a (h.extractLsb' 0 8) (i := 0) (n := 2) (by decide) (by decide)
  rw [BitVec.add_zero] at h0
  exact h0.trans (Mem.set_changes_at _ a _ (i := 1) (by decide) (by decide))

theorem Mem.setWord_changes (m : Mem) (a w : Word) : ChangesOnly (span a 4) m (m.setWord a w) := by
  have h0 := m.set_changes_at a (wordByte w 0) (i := 0) (n := 4) (by decide) (by decide)
  rw [BitVec.add_zero] at h0
  have h1 := h0.trans (Mem.set_changes_at _ a (wordByte w 1) (i := 1) (by decide) (by decide))
  have h2 := h1.trans (Mem.set_changes_at _ a (wordByte w 2) (i := 2) (by decide) (by decide))
  exact h2.trans (Mem.set_changes_at _ a (wordByte w 3) (i := 3) (by decide) (by decide))

theorem Mem.setBytes_changes (m : Mem) (a : Word) (bs : List Byte) :
    ChangesOnly (span a bs.length) m (m.setBytes a bs) := by
  induction bs generalizing m a with
  | nil => exact ChangesOnly.refl _ _
  | cons b bs ih =>
    have h0 : span a 1 ⊆ span a (b :: bs).length := by
      intro x hx
      simp only [mem_span, List.length_cons] at hx ⊢
      omega
    have h1 : span (a + 1#32) bs.length ⊆ span a (b :: bs).length := by
      intro x hx
      simp only [mem_span, List.length_cons] at hx ⊢
      bv_omega
    exact ((m.set_changes a b).mono h0).trans ((ih _ _).mono h1)

/-! One more store inside of a frame. -/

namespace ChangesOnly
variable {A : Set Word} {m m' : Mem} {a : Word}

theorem set (h : ChangesOnly A m m') {v : Byte} (ha : span a 1 ⊆ A) :
    ChangesOnly A m (m'.set a v) :=
  h.trans ((Mem.set_changes _ _ _).mono ha)

theorem setHalf (h : ChangesOnly A m m') {v : BitVec 16} (ha : span a 2 ⊆ A) :
    ChangesOnly A m (m'.setHalf a v) :=
  h.trans ((Mem.setHalf_changes _ _ _).mono ha)

theorem setWord (h : ChangesOnly A m m') {v : Word} (ha : span a 4 ⊆ A) :
    ChangesOnly A m (m'.setWord a v) :=
  h.trans ((Mem.setWord_changes _ _ _).mono ha)

theorem setBytes (h : ChangesOnly A m m') (bs : List Byte) (ha : span a bs.length ⊆ A) :
    ChangesOnly A m (m'.setBytes a bs) :=
  h.trans ((Mem.setBytes_changes _ _ _).mono ha)

end ChangesOnly

theorem Mem.setBytes_byte (m : Mem) (a : Word) (bs : List Byte) (hi : i < bs.length)
    (hn : bs.length ≤ 2 ^ 32) : m.setBytes a bs (a + ofNat 32 i) = bs[i] := by
  induction bs generalizing m a i with
  | nil => simp at hi
  | cons b bs ih =>
    simp only [List.length_cons] at hi hn
    cases i with
    | zero =>
      have hout : a ∉ span (a + 1#32) bs.length := by
        simp only [mem_span]
        bv_omega
      simp only [Mem.setBytes, BitVec.add_zero, List.getElem_cons_zero]
      rw [Mem.setBytes_changes _ _ _ hout, Mem.set_same]
    | succ i =>
      have ha : a + ofNat 32 (i + 1) = a + 1#32 + ofNat 32 i := by
        rw [Nat.add_comm, BitVec.ofNat_add, ← BitVec.add_assoc]
      rw [ha]
      exact ih _ _ (by omega) (by omega)

theorem bytesAt_setBytes (m : Mem) (a : Word) (bs : List Byte) (h : bs.length ≤ 2 ^ 32) :
    bytesAt (m.setBytes a bs) a bs.length = bs := by
  apply List.ext_getElem (by simp)
  intro i h1 h2
  simp only [bytesAt, List.getElem_map, List.getElem_range]
  exact Mem.setBytes_byte m a bs h2 h

theorem Mem.setWord_self (m : Mem) (a : Word) : m.setWord a (m.word a) = m := by
  funext x
  by_cases hx : x ∈ span a 4
  · have hx' : (x - a).toNat < 4 := hx
    have he : x = a + ofNat 32 (x - a).toNat := by
      rw [BitVec.ofNat_toNat, BitVec.setWidth_eq, BitVec.add_comm, BitVec.sub_add_cancel]
    rw [he, Mem.setWord_byte _ _ _ hx']
    apply BitVec.eq_of_getLsbD_eq
    intro k hk
    have hd : (8 * (x - a).toNat + k) / 8 = (x - a).toNat := by omega
    have hm : (8 * (x - a).toNat + k) % 8 = k := by omega
    rw [wordByte, BitVec.getLsbD_extractLsb', Mem.word_getLsbD _ _ (by omega), hd, hm]
    simp [hk]
  · exact m.setWord_changes a _ hx

theorem Mem.half_setHalf (m : Mem) (a : Word) (h : BitVec 16) : (m.setHalf a h).half a = h := by
  have hne : a ≠ a + 1#32 := by bv_omega
  rw [Mem.half, Mem.setHalf, Mem.set_same, Mem.set_other _ _ hne, Mem.set_same]
  apply BitVec.eq_of_getLsbD_eq
  intro k hk
  rw [BitVec.getLsbD_append]
  by_cases h8 : k < 8
  · simp [h8]
  · have h8' : k - 8 < 8 := by omega
    have hadd : 8 + (k - 8) = k := by omega
    simp [h8, h8', hadd]

/-! Bitmaps. -/

/-- Bit `k` of the bitmap at an address. -/
def bitAt (m : Mem) (a : Word) (k : Nat) : Bool :=
  (m (a + ofNat 32 (k / 8))).getLsbD (k % 8)

theorem bitAt_eq_word (m : Mem) (a : Word) (hk : k < 32) : bitAt m a k = (m.word a).getLsbD k :=
  (Mem.word_getLsbD m a hk).symm

/-- Setting a bit of the first word sets that bit of the bitmap and no other. -/
theorem bitAt_set (m : Mem) (a : Word) {j : Nat} (hk : k < 32) (hj : j < 2 ^ 32) :
    bitAt (m.setWord a (m.word a ||| BitVec.twoPow 32 k)) a j = (bitAt m a j || decide (j = k)) := by
  by_cases hlt : j < 32
  · rw [bitAt_eq_word _ _ hlt, bitAt_eq_word _ _ hlt, Mem.word_setWord,
      getLsbD_or_twoPow _ _ _ hk]
    simp [eq_comm]
  · have hout : a + ofNat 32 (j / 8) ∉ span a 4 := by
      simp only [mem_span]
      bv_omega
    have hne : j ≠ k := by omega
    rw [bitAt, Mem.setWord_changes _ _ _ hout, bitAt]
    simp [hne]

end TapiOS.Util
