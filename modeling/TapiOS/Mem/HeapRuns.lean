import TapiOS.Mem.HeapTable
import TapiOS.Mem.DataFrames

/-!
# Runs of the kernel heap

A run is any finite sequence of kmalloc and kfree calls from the state at boot;
each kmalloc meets the page tables the rest of the kernel left it. The run carries
the list of live allocations, which the code does not have.
-/
namespace TapiOS.Mem.Kmalloc

open Lib Util
open Mem.Pmm (KernelImage)

variable {size p : Word} {o : Option Word}

/-- The heap with the address and size of every live allocation. -/
structure HeapState where
  heap : Heap
  live : List (Word × Word)
  deriving DecidableEq, Repr

variable {s t : HeapState}

/-- A call, with the page tables that kmalloc finds. -/
inductive Call (σ : Type) where
  | kmalloc (vm : σ) (size : Word)
  | kfree (ptr : Word)

def boot : HeapState := ⟨⟨0, none⟩, []⟩

section Runs
variable {σ : Type} (P : PageSource σ) (k : KernelImage)

/-- One call; kmalloc outputs its pointer. -/
def step (s : HeapState) : Call σ → Except Stop (Option Word × HeapState)
  | .kmalloc vm size =>
    match kmalloc P k s.heap vm size with
    | .error e => .error e
    | .ok (p, h, _) => .ok (some p, ⟨h, if p = 0 then s.live else (p, size) :: s.live⟩)
  | .kfree ptr =>
    match kfree s.heap ptr with
    | .error e => .error e
    | .ok h => .ok (none, ⟨h, s.live.filter (fun a => a.1 != ptr)⟩)

/-- What the calls of a run may ask for: a positive size, of pages that are free. -/
def Admissible (s : HeapState) : Call σ → Prop
  | .kmalloc vm size => size ≠ 0 ∧ PagesAvailable P k s.heap vm size
  | .kfree _ => True

instance [∀ vm a, Decidable (P.Unmapped vm a)] (s : HeapState) (c : Call σ) :
    Decidable (Admissible P k s c) :=
  match c with
  | .kmalloc _ _ => inferInstanceAs (Decidable (_ ∧ (_ → _) ∧ (_ → _)))
  | .kfree _ => inferInstanceAs (Decidable True)

/-- The bytes of an allocation. -/
def bytes (a : Word × Word) : Interval := ⟨a.1.toNat, a.2.toNat⟩

/-- Every live allocation has a reserved block of its own. -/
structure LiveOk (s : HeapState) : Prop where
  distinct : (s.live.map Prod.fst).Nodup
  sized : ∀ a ∈ s.live, a.2 ≠ 0
  held : ∀ a ∈ s.live, ⟨true, pages a.2, a.1⟩ ∈ s.heap.blocks

structure Invariant (s : HeapState) : Prop where
  heap : HeapOk k s.heap
  live : LiveOk s

variable {P k}

theorem boot_invariant : Invariant k boot :=
  ⟨.inl rfl, ⟨List.nodup_nil, by simp [boot], by simp [boot]⟩⟩

theorem step_kmalloc {vm : σ} (h : step P k s (.kmalloc vm size) = .ok (o, t)) (hi : Invariant k s)
    (ha : Admissible P k s (.kmalloc vm size)) :
    ∃ p m, o = some p ∧ t.heap.metadata = some m ∧ t.live = (p, size) :: s.live ∧
      Tiled (firstHeapPage k) s.heap.blocks (heapTop k s.heap) ∧
      Tiled (firstHeapPage k) m.blocks t.heap.kheapEnd ∧
      Alloc (pages size) p s.heap.blocks (heapTop k s.heap) m.blocks t.heap.kheapEnd := by
  obtain ⟨hs, hfree⟩ := ha
  simp only [step] at h
  split at h
  · cases h
  rename_i p h1 vm1 hk
  obtain ⟨m, hm, ht, hal⟩ := kmalloc_ok hk hi.heap hs hfree
  cases h
  have ht' := hal.tiled (pages_pos hs) ht
  exact ⟨p, m, rfl, hm, if_neg (ht'.ptr_ne_zero hal.mem), ht, ht', hal⟩

theorem step_kfree {ptr : Word} (h : step P k s (.kfree ptr : Call σ) = .ok (o, t))
    (hi : Invariant k s) :
    ∃ m m', s.heap.metadata = some m ∧ t.heap = { s.heap with metadata := some m' } ∧
      m'.maxBlocks = m.maxBlocks ∧ t.live = s.live.filter (fun a => a.1 != ptr) ∧
      Tiled (firstHeapPage k) m.blocks s.heap.kheapEnd ∧ Free ptr m.blocks m'.blocks := by
  simp only [step] at h
  split at h
  · cases h
  rename_i h1 hk
  cases h
  rcases hi.heap with hb | ⟨m, hm, ht⟩
  · simp [hb, kfree] at hk
  · obtain ⟨m', hm', hmax, hf⟩ := kfree_ok hk hm
    exact ⟨m, m', hm, hm', hmax, rfl, ht, hf⟩

/-- Every admissible call that returns leaves the heap set up and tiled, and every
live allocation with its block. -/
theorem step_invariant {c : Call σ} (hi : Invariant k s) (ha : Admissible P k s c)
    (h : step P k s c = .ok (o, t)) : Invariant k t ∧ ∃ m, t.heap.metadata = some m ∧
      Tiled (firstHeapPage k) m.blocks t.heap.kheapEnd := by
  cases c with
  | kmalloc vm size =>
    obtain ⟨p, m, -, hm, hlive, ht, ht', hal⟩ := step_kmalloc h hi ha
    refine ⟨⟨.inr ⟨m, hm, ht'⟩, ?_⟩, m, hm, ht'⟩
    have hb : t.heap.blocks = m.blocks := by simp [Heap.blocks, hm]
    have hfresh : p ∉ s.live.map Prod.fst := by
      intro hp
      obtain ⟨a, hmem, rfl⟩ := List.mem_map.mp hp
      exact hal.fresh (pages_pos ha.1) ht (hi.live.held a hmem) rfl rfl
    refine ⟨?_, ?_, ?_⟩
    · rw [hlive]
      exact List.nodup_cons.mpr ⟨hfresh, hi.live.distinct⟩
    · rw [hlive, List.forall_mem_cons]
      exact ⟨ha.1, hi.live.sized⟩
    · rw [hlive, hb, List.forall_mem_cons]
      exact ⟨hal.mem, fun a hmem => hal.keeps_reserved (hi.live.held a hmem) rfl⟩
  | kfree ptr =>
    obtain ⟨m, m', hm, hheap, -, hlive, ht, hf⟩ := step_kfree h hi
    have ht' := hf.tiled ht
    have hm' : t.heap.metadata = some m' := by rw [hheap]
    have hend : t.heap.kheapEnd = s.heap.kheapEnd := by rw [hheap]
    have hb : t.heap.blocks = m'.blocks := by simp [Heap.blocks, hm']
    have hb0 : s.heap.blocks = m.blocks := by simp [Heap.blocks, hm]
    rw [← hend] at ht'
    refine ⟨⟨.inr ⟨m', hm', ht'⟩, ?_⟩, m', hm', ht'⟩
    refine ⟨?_, ?_, ?_⟩
    · rw [hlive]
      exact hi.live.distinct.sublist (List.filter_sublist.map _)
    · rw [hlive]
      exact fun a hmem => hi.live.sized a (List.mem_of_mem_filter hmem)
    · rw [hlive, hb]
      intro a hmem
      obtain ⟨hmem, hne⟩ := List.mem_filter.mp hmem
      have hheld := hi.live.held a hmem
      rw [hb0] at hheld
      exact hf.keeps hheld (by simpa using hne)

theorem live_apart {m : Metadata} {first : Word} (hl : LiveOk s) (hm : s.heap.metadata = some m)
    (ht : Tiled first m.blocks s.heap.kheapEnd) :
    s.live.Pairwise (fun a b => (bytes a).Disjoint (bytes b)) := by
  have hb : s.heap.blocks = m.blocks := by simp [Heap.blocks, hm]
  refine (List.pairwise_map.mp hl.distinct).imp_of_mem ?_
  intro a b ha hb' hne
  have hma := hl.held a ha
  have hmb := hl.held b hb'
  rw [hb] at hma hmb
  have hd := ht.apart hma hmb (by intro he; exact hne (congrArg BlockInfo.ptr he))
  have hpa := pages_toNat (hl.sized a ha)
  have hpb := pages_toNat (hl.sized b hb')
  simp only [Interval.Disjoint, BlockInfo.range, bytes] at hd ⊢
  omega

/-- The end of the heap moves only when the table has no block to offer. -/
theorem alloc_grows {kend kend' : Word} {blocks blocks' : List BlockInfo}
    (ha : Alloc (pages size) p blocks kend blocks' kend') (hne : kend' ≠ kend) (hs : size ≠ 0) :
    (∀ b ∈ blocks, b.reserved = false → b.size < pages size) ∧
      kend'.toNat = kend.toNat + (size.toNat + 0xFFF) / 0x1000 * 0x1000 := by
  cases ha with
  | whole => exact absurd rfl hne
  | split => exact absurd rfl hne
  | grow hnone hwrap =>
    refine ⟨fun b hb hr => ?_, ?_⟩
    · have h := hnone b hb
      simpa [fits, hr] using h
    · rw [← pages_toNat hs, BitVec.toNat_add, BitVec.toNat_mul]
      simp only [BitVec.ofNat_eq_ofNat, BitVec.toNat_ofNat]
      omega

/-- The effect of a kfree of a live address. -/
def Releases (x : Transition HeapState (Call σ) (Option Word)) (p size : Word) : Prop :=
  ∃ m xs ys, x.pre.heap.metadata = some m ∧ m.blocks = xs ++ ⟨true, pages size, p⟩ :: ys ∧
    x.post.heap = { x.pre.heap with
      metadata := some { m with blocks := xs ++ ⟨false, pages size, p⟩ :: ys } }

variable {x : Transition HeapState (Call σ) (Option Word)}

theorem releases_of_live (hi : Invariant k x.pre)
    (hx : step P k x.pre x.input = .ok (x.output, x.post)) (hc : x.input = .kfree p)
    (hp : (p, size) ∈ x.pre.live) : Releases x p size := by
  rw [hc] at hx
  obtain ⟨m, m', hm, hheap, hmax, -, ht, hf⟩ := step_kfree hx hi
  have hheld := hi.live.held _ hp
  simp only [Heap.blocks, hm, Option.map_some, Option.getD_some] at hheld
  obtain ⟨mb, blocks⟩ := m
  obtain ⟨mb', blocks'⟩ := m'
  obtain rfl : mb' = mb := hmax
  cases hf with
  | absent hnone => exact absurd rfl (hnone _ hheld)
  | @release xs ys n =>
    have he := ht.ptr_inj hheld (b := ⟨true, n, p⟩) (by simp) rfl
    obtain rfl : pages size = n := congrArg BlockInfo.size he
    exact ⟨_, xs, ys, hm, rfl, hheap⟩

/-- An address whose block is free. -/
def FreeAt (s : HeapState) (p : Word) : Prop :=
  ∃ m n, s.heap.metadata = some m ∧ ⟨false, n, p⟩ ∈ m.blocks

theorem step_freeAt (hi : Invariant k x.pre)
    (ha : Admissible P k x.pre x.input) (hne : x.output ≠ some p)
    (hx : step P k x.pre x.input = .ok (x.output, x.post)) (hf : FreeAt x.pre p) :
    FreeAt x.post p := by
  obtain ⟨m, n, hm, hb⟩ := hf
  cases hc : x.input with
  | kmalloc vm size =>
    rw [hc] at hx ha
    obtain ⟨q, m', ho, hm', -, ht, ht', hal⟩ := step_kmalloc hx hi ha
    have hb0 : x.pre.heap.blocks = m.blocks := by simp [Heap.blocks, hm]
    rw [hb0] at hal
    obtain ⟨n', hn'⟩ := hal.keeps_free hb (by intro he; exact hne (he ▸ ho))
    exact ⟨m', n', hm', hn'⟩
  | kfree ptr =>
    rw [hc] at hx
    obtain ⟨m0, m', hm0, hheap, -, -, ht, hfree⟩ := step_kfree hx hi
    obtain rfl : m0 = m := Option.some.inj (hm0.symm.trans hm)
    refine ⟨m', n, by rw [hheap], ?_⟩
    by_cases hp : p = ptr
    · subst hp
      have hd := kfree_free hm0 ht hb
      simp [step, hd] at hx
    · exact hfree.keeps hb hp

end Runs

section Main
variable {σ : Type} (P : PageSource σ) (k : KernelImage)

/-- After every call of a run the blocks tile the heap; live allocations are apart;
freeing a live address releases its block and only that; the heap grows only when no
free block is large enough, by the pages asked for; and a second free of an address
that was not handed out again panics. -/
theorem heap_tiled (vm : σ) (size : Word) (calls : List (Call σ))
    (tr : List (Transition HeapState (Call σ) (Option Word)))
    (hr : run (step P k) boot (.kmalloc vm size :: calls) = some tr)
    (hc : ∀ x ∈ tr, Admissible P k x.pre x.input) :
    (∀ x ∈ tr, ∃ m, x.post.heap.metadata = some m ∧
      Tiled (firstHeapPage k) m.blocks x.post.heap.kheapEnd ∧
      m.blocks.Pairwise (fun a b => a.range.Disjoint b.range)) ∧
    (∀ x ∈ tr, x.post.live.Pairwise (fun a b => (bytes a).Disjoint (bytes b))) ∧
    (∀ x ∈ tr, ∀ p size, x.input = .kfree p → (p, size) ∈ x.pre.live → Releases x p size) ∧
    (∀ x ∈ tr, x.post.heap.kheapEnd ≠ heapTop k x.pre.heap →
      ∃ vm size, x.input = .kmalloc vm size ∧
        (∀ b ∈ x.pre.heap.blocks, b.reserved = false → b.size < pages size) ∧
        x.post.heap.kheapEnd.toNat =
          (heapTop k x.pre.heap).toNat + (size.toNat + 0xFFF) / 0x1000 * 0x1000) ∧
    (∀ before x mid p size, tr = before ++ x :: mid → x.input = .kfree p →
      (p, size) ∈ x.pre.live → (∀ y ∈ mid, y.output ≠ some p) →
      step P k (lastState x.post mid) (.kfree p) = .error .doubleFree) := by
  have hinv := run_invariant (I := Invariant k) (C := Admissible P k)
    (fun s i o t hi ha h => (step_invariant hi ha h).1) hr boot_invariant hc
  have hstep := run_step hr
  have htiled : ∀ x ∈ tr, ∃ m, x.post.heap.metadata = some m ∧
      Tiled (firstHeapPage k) m.blocks x.post.heap.kheapEnd :=
    fun x hx => (step_invariant (hinv x hx).1 (hc x hx) (hstep x hx)).2
  refine ⟨?_, ?_, ?_, ?_, ?_⟩
  · intro x hx
    obtain ⟨m, hm, ht⟩ := htiled x hx
    exact ⟨m, hm, ht, ht.pairwise⟩
  · intro x hx
    obtain ⟨m, hm, ht⟩ := htiled x hx
    exact live_apart (hinv x hx).2.live hm ht
  · intro x hx p size hfree hp
    exact releases_of_live (hinv x hx).1 (hstep x hx) hfree hp
  · intro x hx hne
    have ha := hc x hx
    have hs := hstep x hx
    cases hin : x.input with
    | kmalloc vm size =>
      rw [hin] at hs ha
      obtain ⟨p, m, -, -, -, ht, ht', hal⟩ := step_kmalloc hs (hinv x hx).1 ha
      refine ⟨vm, size, rfl, ?_⟩
      exact alloc_grows hal hne ha.1
    | kfree ptr =>
      rw [hin] at hs
      obtain ⟨m, m', hm, hheap, -, -, ht, -⟩ := step_kfree hs (hinv x hx).1
      refine absurd ?_ hne
      rw [hheap, heapTop, if_neg ht.kend_ne_zero]
  · intro before x mid p size htr hfree hp hmid
    have hx : x ∈ tr := by rw [htr]; simp
    have hin : ∀ y ∈ mid, y ∈ tr := fun y hy => by rw [htr]; simp [hy]
    rw [htr] at hr
    obtain ⟨js, hjs⟩ := (run_around hr).2.2
    obtain ⟨m, xs, ys, -, -, hpost⟩ := releases_of_live (hinv x hx).1 (hstep x hx) hfree hp
    have hlast := run_invariant_last
      (I := fun s => Invariant k s ∧ FreeAt s p)
      (C := fun y => Admissible P k y.pre y.input ∧ y.output ≠ some p)
      (fun y hI hC hy => ⟨(step_invariant hI.1 hC.1 hy).1,
        step_freeAt hI.1 hC.1 hC.2 hy hI.2⟩)
      hjs ⟨(hinv x hx).2, _, pages size, by rw [hpost], by simp⟩
      (fun y hy => ⟨hc y (hin y hy), hmid y hy⟩)
    obtain ⟨hi, m', n, hm', hb⟩ := hlast
    rcases hi.heap with h0 | ⟨m0, hm0, ht⟩
    · rw [h0] at hm'
      cases hm'
    · obtain rfl : m0 = m' := Option.some.inj (hm0.symm.trans hm')
      simp [step, kfree_free hm0 ht hb]

end Main

/-! ## The page tables -/

section PageTables
open Mem.Vmm (Machine Space Separate Supplies newTables pdi)

instance (s : Pmm.State) (n : Nat) : Decidable (Supplies s n) :=
  inferInstanceAs (Decidable (∀ k < n, _))

/-- kalloc_page of mem/vmm.c, as long as there are frames. -/
def pageTables : PageSource Machine where
  kallocPage m page kernel readwrite :=
    if Supplies m.pmm (1 + newTables m page) then (m.kallocPage page kernel readwrite).toOption
    else none
  Unmapped m page := Space m ∧ Separate m ∧ page ≠ 0 ∧ pageAlign page = page ∧ pdi page ≠ 1023 ∧
    m.translate page = none
  directory_mapped _ h := h.2.2.2.2.1 (by decide)
  kallocPage_unmapped := by
    intro m m' page kernel readwrite p h hu
    obtain ⟨hs, hsep, h0, hpage, hwin, hun⟩ := hu
    split_ifs at h with hsup
    obtain ⟨m₁, f, hcall, hgrown, -, -, -, honly, -⟩ :=
      Vmm.kallocPage_only kernel readwrite hsep hs (by rw [hpage]; exact h0) hwin hun hsup
    rw [hcall, hpage] at h
    cases h
    refine ⟨rfl, fun a hne ha =>
      ⟨hgrown.space, honly.separate, ha.2.2.1, ha.2.2.2.1, ha.2.2.2.2.1, ?_⟩⟩
    have hother : a.toNat / 0x1000 ≠ page.toNat / 0x1000 := by
      intro he
      apply hne
      rw [← ha.2.2.2.1, ← hpage]
      exact BitVec.eq_of_toNat_eq (by rw [pageAlign_toNat, pageAlign_toNat]; omega)
    rw [(honly.other a ha.2.2.2.2.1 hother).1]
    exact ha.2.2.2.2.2

end PageTables

/-- Page tables as the list of the mapped pages. -/
def mappedPages : PageSource (List Word) where
  kallocPage vm page _ _ := if page ∈ 0xFFFFF000#32 :: vm then none else some (page, page :: vm)
  Unmapped vm page := page ∉ 0xFFFFF000#32 :: vm
  directory_mapped := by simp
  kallocPage_unmapped := by
    intro vm vm' page kernel readwrite p h hu
    rw [if_neg hu] at h
    cases h
    refine ⟨rfl, fun a hne ha => ?_⟩
    simp only [List.mem_cons, not_or] at ha ⊢
    exact ⟨ha.1, hne, ha.2⟩

instance (vm : List Word) (a : Word) : Decidable (mappedPages.Unmapped vm a) :=
  inferInstanceAs (Decidable (a ∉ 0xFFFFF000#32 :: vm))

open Mem.Pmm (smallKernel)

/-- Free the first allocation, cut its block, free the part and ask for more pages. -/
def cutAndGrow : List (Call (List Word)) :=
  [.kfree 0xC0122000, .kmalloc [] 100, .kmalloc [] 0x1000, .kfree 0xC0124000, .kmalloc [] 0x2001]

theorem heap_tiled_cutAndGrow :
    ∃ tr, run (step mappedPages smallKernel) boot (.kmalloc [] 0x3000 :: cutAndGrow) = some tr ∧
      (∀ x ∈ tr, Admissible mappedPages smallKernel x.pre x.input) ∧
      ∀ x ∈ tr, ∃ m, x.post.heap.metadata = some m ∧
        Tiled (firstHeapPage smallKernel) m.blocks x.post.heap.kheapEnd := by
  refine run_test (fun tr => ∀ x ∈ tr, Admissible mappedPages smallKernel x.pre x.input)
    (by decide) fun tr htr hadm => ⟨hadm, fun x hx => ?_⟩
  obtain ⟨m, hm, ht, -⟩ := (heap_tiled mappedPages smallKernel [] 0x3000 cutAndGrow tr htr hadm).1 x hx
  exact ⟨m, hm, ht⟩

end TapiOS.Mem.Kmalloc
