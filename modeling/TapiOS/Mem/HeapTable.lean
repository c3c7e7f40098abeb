import Mathlib.Data.List.Pairwise
import TapiOS.Mem.Kmalloc

/-!
# What kmalloc and kfree do to the block table

`Alloc` and `Free` are the moves of the table: take a free block whole, cut the
tail of a larger one, append a block at the end of the heap; release a block or
do nothing. The code's functions refine them, and every move keeps the blocks a
tiling of the heap.
-/
namespace TapiOS.Mem.Kmalloc

open Lib Util
open Mem.Pmm (KernelImage)
open BitVec (eq_of_toNat_eq ofNat ofNat_eq_ofNat toNat_add toNat_mul toNat_ofNat)

variable {n : Nat} {size ptr ret' : Word} {m : Metadata} {h' h : Heap}

/-- The addresses of a block. -/
def BlockInfo.range (b : BlockInfo) : Interval := ⟨b.ptr.toNat, b.size.toNat * 0x1000⟩

variable {b a : BlockInfo}

/-- The blocks tile the pages from `first` to `kend`. -/
structure Tiled (first : Word) (blocks : List BlockInfo) (kend : Word) : Prop where
  first_pos : 0 < first.toNat
  first_le : first.toNat ≤ kend.toNat
  end_aligned : kend.toNat % 0x1000 = 0
  aligned : ∀ b ∈ blocks, b.ptr.toNat % 0x1000 = 0
  tiles : Tiles first.toNat kend.toNat (blocks.map BlockInfo.range)

/-- An allocation of `amount` pages at `p`. -/
inductive Alloc (amount p : Word) : List BlockInfo → Word → List BlockInfo → Word → Prop where
  | whole {xs ys kend} :
      Alloc amount p (xs ++ ⟨false, amount, p⟩ :: ys) kend (xs ++ ⟨true, amount, p⟩ :: ys) kend
  | split {xs ys kend n q} (hlt : amount < n) (hp : p = q + (n - amount) * 0x1000) :
      Alloc amount p (xs ++ ⟨false, n, q⟩ :: ys) kend
        (xs ++ ⟨false, n - amount, q⟩ :: ys ++ [⟨true, amount, p⟩]) kend
  | grow {blocks} (hnone : ∀ b ∈ blocks, fits amount b = false)
      (hwrap : p.toNat + amount.toNat * 0x1000 < 2 ^ 32) :
      Alloc amount p blocks p (blocks ++ [⟨true, amount, p⟩]) (p + amount * 0x1000)

/-- A call of kfree that returns. -/
inductive Free (p : Word) : List BlockInfo → List BlockInfo → Prop where
  | absent {blocks} (hnone : ∀ b ∈ blocks, b.ptr ≠ p) : Free p blocks blocks
  | release {xs ys n} : Free p (xs ++ ⟨true, n, p⟩ :: ys) (xs ++ ⟨false, n, p⟩ :: ys)

section Tiling
variable {first kend kend' p amount : Word} {blocks blocks' : List BlockInfo}

section Tiles
variable (ht : Tiled first blocks kend)
include ht

theorem Tiled.inside (hb : b ∈ blocks) :
    first.toNat ≤ b.ptr.toNat ∧ b.ptr.toNat + b.size.toNat * 0x1000 ≤ kend.toNat :=
  tiles_inside ht.tiles (List.mem_map_of_mem hb)

theorem Tiled.size_pos (hb : b ∈ blocks) : 0 < b.size.toNat := by
  have h := ht.tiles.nonempty _ (List.mem_map_of_mem hb)
  change 0 < b.size.toNat * 0x1000 at h
  omega

theorem Tiled.pairwise : blocks.Pairwise (fun a b => a.range.Disjoint b.range) :=
  List.pairwise_map.mp (tiles_pairwise ht.tiles)

theorem Tiled.apart (ha : a ∈ blocks) (hb : b ∈ blocks) (hne : a ≠ b) :
    a.range.Disjoint b.range := by
  have : Std.Symm (fun a b : BlockInfo => a.range.Disjoint b.range) := ⟨fun _ _ h => h.symm⟩
  exact ht.pairwise.forall ha hb hne

theorem Tiled.ptr_inj (ha : a ∈ blocks) (hb : b ∈ blocks) (he : a.ptr = b.ptr) : a = b := by
  by_contra hne
  have hd := ht.apart ha hb hne
  have hsa := ht.size_pos ha
  have hsb := ht.size_pos hb
  simp only [Interval.Disjoint, BlockInfo.range, he] at hd
  omega

theorem Tiled.ptr_ne_zero (hb : b ∈ blocks) : b.ptr ≠ 0 := by
  intro h0
  have hf := ht.first_pos
  have hin := ht.inside hb
  rw [h0] at hin
  simp only [ofNat_eq_ofNat, toNat_ofNat] at hin
  omega

end Tiles

private theorem split_toNat {q n : Word} (hlt : amount < n)
    (hp : p = q + (n - amount) * 0x1000) (hb : q.toNat + n.toNat * 0x1000 ≤ kend.toNat) :
    p.toNat = q.toNat + (n.toNat * 0x1000 - amount.toNat * 0x1000) ∧
      (n - amount).toNat * 0x1000 = n.toNat * 0x1000 - amount.toNat * 0x1000 := by
  have hs : (n - amount).toNat = n.toNat - amount.toNat := by bv_omega
  have hm : ((n - amount) * 0x1000).toNat = (n.toNat - amount.toNat) * 0x1000 := by
    rw [toNat_mul, hs]
    simp only [ofNat_eq_ofNat, toNat_ofNat]
    omega
  refine ⟨?_, by rw [hs]; omega⟩
  rw [hp, toNat_add, hm]
  omega

section Allocs
variable (ha : Alloc amount p blocks kend blocks' kend')
include ha

theorem Alloc.tiled (hpos : 0 < amount.toNat) (ht : Tiled first blocks kend) :
    Tiled first blocks' kend' := by
  obtain ⟨hf, hle, hend, hal, htile⟩ := ht
  cases ha with
  | @whole xs ys =>
    refine ⟨hf, hle, hend, ?_, by simpa [BlockInfo.range] using htile⟩
    simpa only [List.forall_mem_append, List.forall_mem_cons] using hal
  | @split xs ys _ n q hlt hp =>
    have hin := (Tiled.mk hf hle hend hal htile).inside (b := ⟨false, n, q⟩) (by simp)
    obtain ⟨hpn, hsn⟩ := split_toNat hlt hp hin.2
    have hl : amount.toNat < n.toNat := hlt
    refine ⟨hf, hle, hend, ?_, ?_⟩
    · simp only [List.forall_mem_append, List.forall_mem_cons] at hal ⊢
      refine ⟨hal, ?_, by simp⟩
      omega
    · simp only [List.map_append, List.map_cons, BlockInfo.range] at htile
      have hcut := tiles_split htile (k := amount.toNat * 0x1000) (by omega) (by omega)
      simpa only [List.map_append, List.map_cons, List.map_nil, BlockInfo.range, hpn, hsn]
        using hcut
  | grow hnone hwrap =>
    have hm : (kend + amount * 0x1000).toNat = kend.toNat + amount.toNat * 0x1000 := by
      rw [toNat_add, toNat_mul]
      simp only [ofNat_eq_ofNat, toNat_ofNat]
      omega
    refine ⟨hf, by omega, by omega, ?_, ?_⟩
    · simp only [List.forall_mem_append, List.forall_mem_cons]
      exact ⟨hal, hend, by simp⟩
    · rw [hm, List.map_append]
      exact tiles_grow htile hle (by omega)

/-- The new block, which overlaps nothing that was reserved before. -/
theorem Alloc.mem : ⟨true, amount, p⟩ ∈ blocks' := by
  cases ha <;> simp

theorem Alloc.keeps_reserved (hb : b ∈ blocks) (hr : b.reserved) : b ∈ blocks' := by
  cases ha with
  | whole =>
    simp only [List.mem_append, List.mem_cons] at hb ⊢
    rcases hb with hb | rfl | hb
    · exact .inl hb
    · cases hr
    · exact .inr (.inr hb)
  | split hlt hp =>
    simp only [List.mem_append, List.mem_cons] at hb ⊢
    rcases hb with hb | rfl | hb
    · exact .inl (.inl hb)
    · cases hr
    · exact .inl (.inr (.inr hb))
  | grow => exact List.mem_append_left _ hb

theorem Alloc.fresh (hpos : 0 < amount.toNat) (ht : Tiled first blocks kend) (hb : b ∈ blocks)
    (hr : b.reserved) : b.ptr ≠ p := by
  intro he
  cases ha with
  | whole =>
    rw [ht.ptr_inj hb (List.mem_append_right _ List.mem_cons_self) he] at hr
    cases hr
  | @split xs ys _ n q hlt hp =>
    have hq : (⟨false, n, q⟩ : BlockInfo) ∈ xs ++ ⟨false, n, q⟩ :: ys := by simp
    obtain ⟨hpn, -⟩ := split_toNat hlt hp (ht.inside hq).2
    have hd := ht.apart hb hq (by intro h; rw [h] at hr; cases hr)
    have hl : amount.toNat < n.toNat := hlt
    simp only [Interval.Disjoint, BlockInfo.range, he] at hd
    omega
  | grow =>
    have hin := ht.inside hb
    have hs := ht.size_pos hb
    rw [he] at hin
    omega

/-- A free block stays free at its address, perhaps shorter, until it is returned. -/
theorem Alloc.keeps_free {n q : Word} (hb : ⟨false, n, q⟩ ∈ blocks) (hne : q ≠ p) :
    ∃ n', ⟨false, n', q⟩ ∈ blocks' := by
  cases ha with
  | whole =>
    simp only [List.mem_append, List.mem_cons, BlockInfo.mk.injEq] at hb ⊢
    rcases hb with hb | ⟨-, -, hq⟩ | hb
    · exact ⟨n, .inl hb⟩
    · exact absurd hq hne
    · exact ⟨n, .inr (.inr hb)⟩
  | @split xs ys _ n0 q0 hlt hp =>
    simp only [List.mem_append, List.mem_cons, BlockInfo.mk.injEq] at hb ⊢
    rcases hb with hb | ⟨-, -, rfl⟩ | hb
    · exact ⟨n, .inl (.inl hb)⟩
    · exact ⟨n0 - amount, by simp⟩
    · exact ⟨n, .inl (.inr (.inr hb))⟩
  | grow => exact ⟨n, List.mem_append_left _ hb⟩

end Allocs

theorem Free.tiled (hf : Free p blocks blocks') (ht : Tiled first blocks kend) :
    Tiled first blocks' kend := by
  cases hf with
  | absent => exact ht
  | release =>
    obtain ⟨hpos, hle, hend, hal, htile⟩ := ht
    refine ⟨hpos, hle, hend, ?_, by simpa [BlockInfo.range] using htile⟩
    simpa only [List.forall_mem_append, List.forall_mem_cons] using hal

theorem Free.keeps (hf : Free p blocks blocks') (hb : b ∈ blocks) (hne : b.ptr ≠ p) :
    b ∈ blocks' := by
  cases hf with
  | absent => exact hb
  | release =>
    simp only [List.mem_append, List.mem_cons] at hb ⊢
    rcases hb with hb | rfl | hb
    · exact .inl hb
    · exact absurd rfl hne
    · exact .inr (.inr hb)

end Tiling

section Refinement
variable {σ : Type} {P : PageSource σ} {k : KernelImage}

theorem pages_toNat (hs : size ≠ 0) : (pages size).toNat = (size.toNat + 0xFFF) / 0x1000 := by
  have hpos : 0 < size.toNat := Nat.pos_of_ne_zero (fun h => hs (eq_of_toNat_eq h))
  have hd : (size / 0x1000).toNat = size.toNat / 0x1000 := BitVec.toNat_udiv
  have hm : (size % 0x1000).toNat = size.toNat % 0x1000 := BitVec.toNat_umod
  have hup : (if size % 0x1000 = 0 then size / 0x1000 else size / 0x1000 + 1).toNat =
      (size.toNat + 0xFFF) / 0x1000 := by
    split_ifs with h0
    · have h1 := congrArg BitVec.toNat h0
      rw [hm] at h1
      rw [hd]
      simp only [ofNat_eq_ofNat, toNat_ofNat] at h1
      omega
    · have h1 : size.toNat % 0x1000 ≠ 0 := fun h => h0 (eq_of_toNat_eq (hm.trans h))
      rw [toNat_add, hd]
      simp only [ofNat_eq_ofNat, toNat_ofNat]
      omega
  have hne : (if size % 0x1000 = 0 then size / 0x1000 else size / 0x1000 + 1) ≠ 0 := by
    intro h0
    rw [h0] at hup
    simp only [ofNat_eq_ofNat, toNat_ofNat] at hup
    omega
  unfold pages
  rw [if_neg hne, hup]

theorem pages_pos (hs : size ≠ 0) : 0 < (pages size).toNat := by
  have hsz : 0 < size.toNat := Nat.pos_of_ne_zero (fun h => hs (eq_of_toNat_eq h))
  rw [pages_toNat hs]
  omega

theorem insertBlock_ok {m' : Metadata} (h : insertBlock m size ptr = .ok m') :
    size ≠ 0 ∧ reserveLast m' = { m with blocks := m.blocks ++ [⟨true, size, ptr⟩] } := by
  unfold insertBlock at h
  split_ifs at h with h0 hfull
  obtain rfl := (Except.ok.inj h).symm
  refine ⟨h0, ?_⟩
  simp only [reserveLast, List.length_append, List.length_singleton, Nat.add_sub_cancel]
  rw [modify_append_cons]
  rfl

/-- The three ways out of find_free_blocks that do not panic. -/
theorem findFreeBlocks_ok {m' : Metadata} {amount p : Word}
    (h : findFreeBlocks m amount = .ok (p, m')) :
    (p = 0 ∧ m' = m ∧ ∀ b ∈ m.blocks, fits amount b = false) ∨
      ∀ kend, Alloc amount p m.blocks kend m'.blocks kend := by
  unfold findFreeBlocks at h
  split_ifs at h
  split at h
  · rename_i hnone
    simp only [Except.ok.injEq, Prod.mk.injEq] at h
    exact .inl ⟨h.1.symm, h.2.symm, firstSplit_eq_none hnone⟩
  · rename_i xs bi ys hsome
    obtain ⟨hl, hfit, -⟩ := firstSplit_eq_some hsome
    obtain ⟨r, n, q⟩ := bi
    simp only [fits, Bool.and_eq_true, Bool.not_eq_eq_eq_not, Bool.not_true,
      decide_eq_true_eq] at hfit
    obtain ⟨rfl, hle⟩ := hfit
    right
    intro kend
    dsimp only at h
    split_ifs at h with hlt
    · split at h
      · cases h
      · rename_i m1 hins
        obtain ⟨-, hres⟩ := insertBlock_ok hins
        simp only [hres] at h
        cases h
        simp only [hl, List.append_assoc, List.cons_append, modify_append_cons]
        rw [← List.cons_append, ← List.append_assoc]
        exact .split hlt rfl
    · cases h
      have he : n = amount := by bv_omega
      subst he
      simp only [hl, modify_append_cons, setReserved]
      exact .whole

variable {vm vm' : σ} {ret kend kend' : Word}

theorem growLoop_kend
    (h : growLoop P n ret kend vm = .ok (ret', kend', vm')) :
    kend' = kend + ofNat 32 n * 0x1000 := by
  induction n generalizing ret kend vm with
  | zero =>
    simp only [growLoop, Except.ok.injEq, Prod.mk.injEq] at h
    rw [← h.2.1]
    simp
  | succ n ih =>
    simp only [growLoop] at h
    split at h
    · cases h
    · rw [ih h, BitVec.ofNat_add, BitVec.add_mul, BitVec.add_assoc, BitVec.add_comm 0x1000]
      rfl

theorem growLoop_ret
    (h : growLoop P n ret kend vm = .ok (ret', kend', vm')) (hr : ret ≠ 0) : ret' = ret := by
  induction n generalizing kend vm with
  | zero =>
    simp only [growLoop, Except.ok.injEq, Prod.mk.injEq] at h
    exact h.1.symm
  | succ n ih =>
    simp only [growLoop, hr, ↓reduceIte] at h
    split at h
    · cases h
    · exact ih h

theorem growLoop_first {kend kend' : Word}
    (h : growLoop P n 0 kend vm = .ok (ret', kend', vm')) (hn : 0 < n) (hk : kend ≠ 0)
    (hfree : P.Unmapped vm kend) : ret' = kend := by
  obtain ⟨n, rfl⟩ := Nat.exists_eq_succ_of_ne_zero hn.ne'
  simp only [growLoop, ↓reduceIte] at h
  split at h
  · cases h
  · rename_i p vm1 hp
    rw [(P.kallocPage_unmapped hp hfree).1] at h
    exact growLoop_ret h hk

/-- A row of unmapped pages ends before the page where the directory is mapped. -/
theorem unmapped_no_wrap {kend : Word} {vm : σ} (hal : kend.toNat % 0x1000 = 0)
    (hfree : ∀ i < n, P.Unmapped vm (kend + ofNat 32 i * 0x1000)) :
    kend.toNat + n * 0x1000 ≤ 0xFFFFF000 := by
  by_contra hbig
  let i := (0xFFFFF000 - kend.toNat) / 0x1000
  have hi : i < n := by omega
  have ha : kend + ofNat 32 i * 0x1000 = 0xFFFFF000#32 := by
    apply eq_of_toNat_eq
    rw [toNat_add, toNat_mul]
    simp only [ofNat_eq_ofNat, toNat_ofNat]
    omega
  exact P.directory_mapped vm (ha ▸ hfree i hi)

/-- Before the first kmalloc, or set up and tiled. -/
def HeapOk (k : KernelImage) (h : Heap) : Prop :=
  h = ⟨0, none⟩ ∨ ∃ m, h.metadata = some m ∧ Tiled (firstHeapPage k) m.blocks h.kheapEnd

theorem Tiled.kend_ne_zero {first kend : Word} {blocks : List BlockInfo}
    (ht : Tiled first blocks kend) : kend ≠ 0 := by
  have hf := ht.first_pos
  have hle := ht.first_le
  bv_omega

/-- The pages a kmalloc asks of kalloc_page are not mapped yet. -/
def PagesAvailable (P : PageSource σ) (k : KernelImage) (h : Heap) (vm : σ) (size : Word) : Prop :=
  (h.kheapEnd = 0 → P.Unmapped vm (metadataPage k)) ∧
  ((∀ b ∈ h.blocks, fits (pages size) b = false) →
    ∀ i < (pages size).toNat, P.Unmapped vm (heapTop k h + ofNat 32 i * 0x1000))

theorem metadataPage_aligned (k : KernelImage) : (metadataPage k).toNat % 0x1000 = 0 := by
  have hk := k.kernelEnd_aligned
  have ho : (0xC0000000 ||| k.kernelEnd.toNat) % 2 ^ 12 = 0 := by
    rw [Nat.or_mod_two_pow, show k.kernelEnd.toNat % 2 ^ 12 = 0 from hk]
    rfl
  have hor : (0xC0000000#32 ||| k.kernelEnd).toNat = 0xC0000000 ||| k.kernelEnd.toNat :=
    BitVec.toNat_or ..
  unfold metadataPage
  rw [toNat_add, hor]
  simp only [toNat_ofNat]
  omega

theorem initHeap_ok (h : initHeap P k ⟨0, none⟩ vm = .ok (h', vm'))
    (hfree : P.Unmapped vm (metadataPage k)) :
    h' = ⟨firstHeapPage k, some ⟨(0x1000 - 16) / 12, []⟩⟩ ∧
      (firstHeapPage k).toNat = (metadataPage k).toNat + 0x1000 ∧
      Tiled (firstHeapPage k) [] (firstHeapPage k) ∧
      ∀ a, a ≠ metadataPage k → P.Unmapped vm a → P.Unmapped vm' a := by
  have hal := metadataPage_aligned k
  have hend : (metadataPage k).toNat + 1 * 0x1000 ≤ 0xFFFFF000 := by
    have hrow : ∀ i < 1, P.Unmapped vm (metadataPage k + ofNat 32 i * 0x1000) := by
      intro i hi
      obtain rfl : i = 0 := by omega
      simpa using hfree
    exact unmapped_no_wrap hal hrow
  have hfirst : (firstHeapPage k).toNat = (metadataPage k).toNat + 0x1000 := by
    unfold firstHeapPage
    bv_omega
  simp only [initHeap, ne_eq, not_true_eq_false, ↓reduceIte] at h
  split at h
  · cases h
  · rename_i p vm1 hp
    split_ifs at h
    simp only [Except.ok.injEq, Prod.mk.injEq] at h
    obtain ⟨rfl, rfl⟩ := h
    refine ⟨rfl, hfirst, ⟨by omega, le_refl _, by omega, by simp, tiles_nil _⟩, ?_⟩
    exact (P.kallocPage_unmapped hp hfree).2

section From
variable {vm vm' : σ} {first amount p : Word} (hk : kmallocFrom P h vm amount = .ok (p, h', vm'))
  (hm : h.metadata = some m) (ht : Tiled first m.blocks h.kheapEnd) (hpos : 0 < amount.toNat)
include hk hm ht hpos

/-- A call takes a block of the table, or the pages at the end of the heap. -/
theorem kmallocFrom_cases :
    (vm' = vm ∧ h'.kheapEnd = h.kheapEnd ∧ ∃ m', h'.metadata = some m' ∧
      Alloc amount p m.blocks h.kheapEnd m'.blocks h.kheapEnd) ∨
    ((∀ b ∈ m.blocks, fits amount b = false) ∧
      growLoop P amount.toNat 0 h.kheapEnd vm = .ok (p, h'.kheapEnd, vm') ∧
      h'.metadata = some { m with blocks := m.blocks ++ [⟨true, amount, p⟩] }) := by
  simp only [kmallocFrom, hm] at hk
  split at hk
  · cases hk
  rename_i hole m1 hfind
  split_ifs at hk with hhole hun
  · cases hk
    rcases findFreeBlocks_ok hfind with ⟨h0, -⟩ | ha
    · exact absurd h0 hhole
    · exact .inl ⟨rfl, rfl, m1, rfl, ha _⟩
  · rw [not_not] at hhole
    -- a block at address zero would lie before the heap
    have hnone : m1 = m ∧ ∀ b ∈ m.blocks, fits amount b = false := by
      rcases findFreeBlocks_ok hfind with ⟨-, hn⟩ | ha
      · exact hn
      · exact absurd hhole (((ha h.kheapEnd).tiled hpos ht).ptr_ne_zero (ha h.kheapEnd).mem)
    obtain ⟨rfl, hnone⟩ := hnone
    split at hk
    · cases hk
    rename_i ret kend vm1 hgrow
    split at hk
    · cases hk
    rename_i m2 hins
    split_ifs at hk
    cases hk
    exact .inr ⟨hnone, hgrow, congrArg some (insertBlock_ok hins).2⟩

theorem kmallocFrom_ok (hfree : (∀ b ∈ m.blocks, fits amount b = false) →
      ∀ i < amount.toNat, P.Unmapped vm (h.kheapEnd + ofNat 32 i * 0x1000)) :
    ∃ m', h'.metadata = some m' ∧ Alloc amount p m.blocks h.kheapEnd m'.blocks h'.kheapEnd := by
  rcases kmallocFrom_cases hk hm ht hpos with ⟨-, hend, m', hm', ha⟩ | ⟨hnone, hgrow, hm'⟩
  · rw [hend]
    exact ⟨m', hm', ha⟩
  · have hrow := hfree hnone
    have hwrap := unmapped_no_wrap ht.end_aligned hrow
    have hret := growLoop_first hgrow hpos ht.kend_ne_zero (by simpa using hrow 0 hpos)
    have hend := growLoop_kend hgrow
    rw [BitVec.ofNat_toNat] at hend
    refine ⟨_, hm', ?_⟩
    simp only [hend, hret]
    exact .grow hnone (by omega)

end From

theorem kmalloc_ok {p : Word} (hk : kmalloc P k h vm size = .ok (p, h', vm'))
    (hh : HeapOk k h) (hs : size ≠ 0) (hfree : PagesAvailable P k h vm size) :
    ∃ m', h'.metadata = some m' ∧
      Tiled (firstHeapPage k) h.blocks (heapTop k h) ∧
      Alloc (pages size) p h.blocks (heapTop k h) m'.blocks h'.kheapEnd := by
  have hpos := pages_pos hs
  obtain ⟨hmeta, hrow⟩ := hfree
  simp only [kmalloc, hs, ↓reduceIte] at hk
  split at hk
  · cases hk
  rename_i h1 vm1 hinit
  rcases hh with rfl | ⟨m, hm, ht⟩
  · obtain ⟨rfl, hfirst, ht, hother⟩ := initHeap_ok hinit (hmeta rfl)
    replace hrow := hrow (by simp [Heap.blocks])
    have hwrap := unmapped_no_wrap ht.end_aligned hrow
    obtain ⟨m', hm', ha⟩ := kmallocFrom_ok hk rfl ht hpos (fun _ i hi => by
      refine hother _ ?_ (hrow i hi)
      intro he
      have hn := congrArg BitVec.toNat he
      rw [toNat_add, toNat_mul] at hn
      simp only [ofNat_eq_ofNat, toNat_ofNat] at hn
      omega)
    exact ⟨m', hm', ht, ha⟩
  · have hne := ht.kend_ne_zero
    simp only [initHeap, ne_eq, hne, not_false_eq_true, ↓reduceIte, Except.ok.injEq,
      Prod.mk.injEq] at hinit
    obtain ⟨rfl, rfl⟩ := hinit
    have hb : h.blocks = m.blocks := by simp [Heap.blocks, hm]
    have htop : heapTop k h = h.kheapEnd := if_neg hne
    rw [hb, htop] at hrow ⊢
    obtain ⟨m', hm', ha⟩ := kmallocFrom_ok hk hm ht hpos hrow
    exact ⟨m', hm', ht, ha⟩

theorem kfree_ok (hf : kfree h ptr = .ok h') (hm : h.metadata = some m) :
    ∃ m', h' = { h with metadata := some m' } ∧ m'.maxBlocks = m.maxBlocks ∧
      Free ptr m.blocks m'.blocks := by
  simp only [kfree, hm] at hf
  split at hf
  · rename_i hnone
    cases hf
    refine ⟨m, by rw [← hm], rfl, .absent (fun b hb => ?_)⟩
    simpa using firstSplit_eq_none hnone b hb
  · rename_i xs bi ys hsome
    obtain ⟨hl, hptr, -⟩ := firstSplit_eq_some hsome
    split_ifs at hf with hr
    cases hf
    refine ⟨_, rfl, rfl, ?_⟩
    obtain ⟨r, n, q⟩ := bi
    obtain rfl : q = ptr := by simpa using hptr
    obtain rfl : r = true := hr
    simp only [hl, modify_append_cons, setReserved]
    exact .release

/-- Freeing the address of a free block panics. -/
theorem kfree_free {first n : Word} (hm : h.metadata = some m)
    (ht : Tiled first m.blocks h.kheapEnd) (hb : ⟨false, n, ptr⟩ ∈ m.blocks) :
    kfree h ptr = .error .doubleFree := by
  simp only [kfree, hm]
  split
  · rename_i hnone
    have h0 := firstSplit_eq_none hnone _ hb
    simp at h0
  · rename_i xs bi ys hsome
    obtain ⟨hl, hptr, -⟩ := firstSplit_eq_some hsome
    have hmem : bi ∈ m.blocks := by rw [hl]; simp
    have he := ht.ptr_inj hmem hb (by simpa using hptr)
    simp [he]

end Refinement
end TapiOS.Mem.Kmalloc
