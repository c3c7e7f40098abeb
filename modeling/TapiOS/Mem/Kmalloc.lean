import TapiOS.Lib.Tiling
import TapiOS.Mem.Pmm

/-!
# The kernel heap, mem/kmalloc.c

A table of page-granular blocks in the page before the heap. An allocation takes
the first free block that is large enough, cut at its tail when it is larger, and
otherwise maps new pages at `kheap_end`. Nothing is ever merged or unmapped.
`kalloc_page` enters as a parameter together with what is assumed of it.
-/
namespace TapiOS.Mem.Kmalloc

open Lib Util
open Mem.Pmm (KernelImage)

/-- struct blockinfo; `size` counts pages. -/
structure BlockInfo where
  reserved : Bool
  size : Word
  ptr : Word
  deriving DecidableEq, Repr

/-- struct metadata, with `blocks[0..blocks_allocated)` as a list. Its `next` is
always NULL. -/
structure Metadata where
  maxBlocks : Word
  blocks : List BlockInfo
  deriving DecidableEq, Repr

/-- The file's statics; the `metadata` pointer is NULL until the first kmalloc. -/
structure Heap where
  kheapEnd : Word
  metadata : Option Metadata
  deriving DecidableEq, Repr

def Heap.blocks (h : Heap) : List BlockInfo := (h.metadata.map (·.blocks)).getD []

/-- Where the heap stops: the PANICs of the file in order, a use of the NULL
`metadata` pointer, and a PANIC inside `kalloc_page`. -/
inductive Stop where
  | insertSizeZero
  | maxBlocksReached
  | amountZero
  | holeUnaligned
  | retUnaligned
  | doubleFree
  | noMetadata
  | kallocPage
  deriving DecidableEq, Repr

/-- `kalloc_page(to, kernel, readwrite)` on the state `σ` of the page tables and the
frame bitmap, `none` when it panics. On a page that is not mapped yet it returns the
page's own address and maps no other page. The last page of the address space is
never such a page, the directory maps itself there. -/
structure PageSource (σ : Type) where
  kallocPage : σ → Word → Bool → Bool → Option (Word × σ)
  Unmapped : σ → Word → Prop
  directory_mapped : ∀ vm, ¬ Unmapped vm 0xFFFFF000#32
  kallocPage_unmapped : ∀ {vm vm' page kernel readwrite p},
    kallocPage vm page kernel readwrite = some (p, vm') → Unmapped vm page →
      p = page ∧ ∀ a, a ≠ page → Unmapped vm a → Unmapped vm' a

def insertBlock (m : Metadata) (size ptr : Word) : Except Stop Metadata :=
  if size = 0 then .error .insertSizeZero
  else if m.maxBlocks.toNat < m.blocks.length + 1 then .error .maxBlocksReached
  else .ok { m with blocks := m.blocks ++ [⟨false, size, ptr⟩] }

def setReserved (v : Bool) (bi : BlockInfo) : BlockInfo := { bi with reserved := v }

/-- `bi->reserved=true` through the pointer `insert_block` returned. -/
def reserveLast (m : Metadata) : Metadata :=
  { m with blocks := m.blocks.modify (m.blocks.length - 1) (setReserved true) }

def fits (amount : Word) (bi : BlockInfo) : Bool := !bi.reserved && amount ≤ bi.size

/-- The pointer found (NULL if there is none) and the updated table. -/
def findFreeBlocks (m : Metadata) (amount : Word) : Except Stop (Word × Metadata) :=
  if amount = 0 then .error .amountZero
  else match firstSplit (fits amount) m.blocks with
  | none => .ok (0, m)
  | some (before, bi, _) =>
    let i := before.length
    if amount < bi.size then
      let newptr := bi.ptr + (bi.size - amount) * 0x1000
      match insertBlock m amount newptr with
      | .error e => .error e
      | .ok m =>
        let m := reserveLast m
        .ok (newptr, { m with
          blocks := m.blocks.modify i (fun bi => { bi with size := bi.size - amount }) })
    else .ok (bi.ptr, { m with blocks := m.blocks.modify i (setReserved true) })

/-- The page count of a request. -/
def pages (size : Word) : Word :=
  let amount := if size % 0x1000 = 0 then size / 0x1000 else size / 0x1000 + 1
  if amount = 0 then 1 else amount

section Allocator
variable {σ : Type} (P : PageSource σ)

/-- The growth loop of kmalloc: `n` more pages, `ret` the first nonzero result. -/
def growLoop : Nat → Word → Word → σ → Except Stop (Word × Word × σ)
  | 0, ret, kend, vm => .ok (ret, kend, vm)
  | n + 1, ret, kend, vm =>
    match P.kallocPage vm kend false true with
    | none => .error .kallocPage
    | some (p, vm) => growLoop n (if ret = 0 then p else ret) (kend + 0x1000) vm

/-- The page of the block table. -/
def metadataPage (k : KernelImage) : Word := (0xC0000000#32 ||| k.kernelEnd) + 0x1000#32

/-- The first page the heap hands out. -/
def firstHeapPage (k : KernelImage) : Word := metadataPage k + 0x1000#32

/-- Where the heap ends once it is set up. -/
def heapTop (k : KernelImage) (h : Heap) : Word :=
  if h.kheapEnd = 0 then firstHeapPage k else h.kheapEnd

/-- The block `if(!kheap_end) {...}` of kmalloc; max_blocks is
`(0x1000 - sizeof(struct metadata)) / sizeof(struct blockinfo)`. -/
def initHeap (k : KernelImage) (h : Heap) (vm : σ) : Except Stop (Heap × σ) :=
  if h.kheapEnd ≠ 0 then .ok (h, vm)
  else match P.kallocPage vm (metadataPage k) true true with
  | none => .error .kallocPage
  | some (p, vm) =>
    if p = 0 then .error .noMetadata
    else .ok (⟨firstHeapPage k, some ⟨(0x1000 - 16) / 12, []⟩⟩, vm)

/-- The part of kmalloc after the initialisation. -/
def kmallocFrom (h : Heap) (vm : σ) (amount : Word) : Except Stop (Word × Heap × σ) :=
  match h.metadata with
  | none => .error .noMetadata
  | some m =>
    match findFreeBlocks m amount with
    | .error e => .error e
    | .ok (hole, m) =>
      if hole ≠ 0 then
        if hole &&& 0xFFF ≠ 0 then .error .holeUnaligned
        else .ok (hole, { h with metadata := some m }, vm)
      else
        match growLoop P amount.toNat 0 h.kheapEnd vm with
        | .error e => .error e
        | .ok (ret, kend, vm) =>
          match insertBlock m amount ret with
          | .error e => .error e
          | .ok m =>
            let m := reserveLast m
            if ret &&& 0xFFF ≠ 0 then .error .retUnaligned
            else .ok (ret, ⟨kend, some m⟩, vm)

def kmalloc (k : KernelImage) (h : Heap) (vm : σ) (size : Word) :
    Except Stop (Word × Heap × σ) :=
  if size = 0 then .ok (0, h, vm)
  else match initHeap P k h vm with
  | .error e => .error e
  | .ok (h, vm) => kmallocFrom P h vm (pages size)

end Allocator

def kfree (h : Heap) (ptr : Word) : Except Stop Heap :=
  match h.metadata with
  | none => .error .noMetadata
  | some m =>
    match firstSplit (fun bi => bi.ptr == ptr) m.blocks with
    | none => .ok h
    | some (before, bi, _) =>
      if bi.reserved then
        let m := { m with blocks := m.blocks.modify before.length (setReserved false) }
        .ok { h with metadata := some m }
      else .error .doubleFree

end TapiOS.Mem.Kmalloc
