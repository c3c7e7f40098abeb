import TapiOS.Lib.Loops
import TapiOS.Mem.Pmm
import TapiOS.Util.Memory

/-!
# Page tables, mem/vmm.c

Physical memory is cut into frames of 1024 words. Every access goes through the two levels
of the page directory in cr3; write protection is off in the kernel, and the translation
buffer, which the code flushes by hand, is not modelled. The last entry of a directory
points to the directory itself, so the tables appear as an array at PAGE_DIRECTORY.
-/
namespace TapiOS.Mem.Vmm

open Lib Util
open Mem.Pmm (PhysAddr)

/-- The index of an entry in a table, or of a word in a frame. -/
abbrev Index := Fin 1024

instance neZero_index : NeZero 1024 := ⟨by decide⟩

structure Machine where
  ram : Nat → Index → Word
  cr3 : Nat
  pmm : Pmm.State

/-- An access that no page backs, the PANICs of kalloc_page_from, the one of
kfree_page_frame, the one of _sbrk, and a loop over memory that never ends. -/
inductive Stop where
  | pageFault
  | nullFrame
  | frameNotReserved
  | doubleFree
  | negativeIncrement
  | stackOverflow
  | endless
  deriving DecidableEq, Repr

def PRESENT : Word := 0x1
def READWRITE : Word := 0x2
def USERMODE : Word := 0x4

def PAGE_DIRECTORY : Word := 0xFFC00000

def present (entry : Word) : Bool := entry &&& PRESENT ≠ 0

/-- The frame that an entry or a physical address names. -/
def frameOf (entry : Word) : Nat := entry.toNat / 0x1000

def pdi (addr : Word) : Index := ⟨addr.toNat / 0x400000, by have h := addr.isLt; omega⟩
def pti (addr : Word) : Index := ⟨addr.toNat % 0x400000 / 0x1000, by omega⟩
def wordOf (addr : Word) : Index := ⟨addr.toNat % 0x1000 / 4, by omega⟩

/-- The place of a byte in its word. -/
def byteOf (addr : Word) : Nat := addr.toNat % 4

/-- A word with byte `i` replaced. -/
def putByte (w : Word) (i : Nat) (b : Byte) : Word :=
  (w &&& ~~~(0xFF#32 <<< (8 * i))) ||| (b.setWidth 32 <<< (8 * i))

/-- `&base[i * 0x400 + j]` -/
def cellAddr (base : Word) (i j : Index) : Word := base + BitVec.ofNat 32 (4 * (i * 0x400 + j))

/-- The flags of a new entry. -/
def entryFlags (kernel readwrite : Bool) : Word :=
  PRESENT ||| (if readwrite then READWRITE else 0) ||| (if kernel then 0 else USERMODE)

namespace Machine

/-- The entry of the directory, and that of the table behind it. -/
def pde (m : Machine) (i : Index) : Word := m.ram m.cr3 i
def table (m : Machine) (i : Index) : Nat := frameOf (m.pde i)
def pte (m : Machine) (i j : Index) : Word := m.ram (m.table i) j

/-- The frame behind a virtual address. -/
def translate (m : Machine) (addr : Word) : Option Nat :=
  if present (m.pde (pdi addr)) then
    if present (m.pte (pdi addr) (pti addr)) then some (frameOf (m.pte (pdi addr) (pti addr)))
    else none
  else none

def setCell (m : Machine) (f : Nat) (j : Index) (w : Word) : Machine :=
  { m with ram := fun g i => if g = f ∧ i = j then w else m.ram g i }

def load (m : Machine) (addr : Word) : Except Stop Word :=
  match m.translate addr with
  | none => .error .pageFault
  | some f => .ok (m.ram f (wordOf addr))

def store (m : Machine) (addr w : Word) : Except Stop Machine :=
  match m.translate addr with
  | none => .error .pageFault
  | some f => .ok (m.setCell f (wordOf addr) w)

def loadByte (m : Machine) (addr : Word) : Except Stop Byte :=
  match m.translate addr with
  | none => .error .pageFault
  | some f => .ok (wordByte (m.ram f (wordOf addr)) (byteOf addr))

def storeByte (m : Machine) (addr : Word) (b : Byte) : Except Stop Machine :=
  match m.translate addr with
  | none => .error .pageFault
  | some f => .ok (m.setCell f (wordOf addr) (putByte (m.ram f (wordOf addr)) (byteOf addr) b))

/-- A word at any address, also across a page. -/
def loadWord (m : Machine) (addr : Word) : Except Stop Word := do
  let b₀ ← m.loadByte addr
  let b₁ ← m.loadByte (addr + 1)
  let b₂ ← m.loadByte (addr + 2)
  let b₃ ← m.loadByte (addr + 3)
  return b₃ ++ b₂ ++ b₁ ++ b₀

def storeWord (m : Machine) (addr w : Word) : Except Stop Machine := do
  let m ← m.storeByte addr (wordByte w 0)
  let m ← m.storeByte (addr + 1) (wordByte w 1)
  let m ← m.storeByte (addr + 2) (wordByte w 2)
  m.storeByte (addr + 3) (wordByte w 3)

def getPageTableEntry (m : Machine) (i j : Index) : Except Stop Word :=
  m.load (cellAddr PAGE_DIRECTORY i j)

def setPageTableEntry (m : Machine) (i j : Index) (flags : Word) : Except Stop Machine :=
  m.store (cellAddr PAGE_DIRECTORY i j) flags

def getPage (m : Machine) (addr : Word) : Except Stop Word :=
  m.getPageTableEntry (pdi addr) (pti addr)

def setPage (m : Machine) (addr flags : Word) : Except Stop Machine :=
  m.setPageTableEntry (pdi addr) (pti addr) flags

def vaddrToPhysaddr (m : Machine) (vaddr : Word) : Except Stop PhysAddr := do
  let entry ← m.getPage vaddr
  return entry &&& 0xFFFFF000

def pageTableExists (m : Machine) (i : Index) : Except Stop Bool := do
  let entry ← m.getPageTableEntry 1023 i
  return present entry

def newPageTable (m : Machine) (i : Index) (kernel readwrite : Bool) : Except Stop Machine := do
  let (paddr, pmm) := Pmm.kallocPageFrame m.pmm
  let m ← setPageTableEntry { m with pmm := pmm } 1023 i (paddr ||| entryFlags kernel readwrite)
  (List.finRange 1024).foldlM (fun m j => m.setPageTableEntry i j 0) m

/-- The end of kalloc_page_from, behind the checks of the table. -/
def mapPage (m : Machine) (source page : Word) (kernel readwrite : Bool) :
    Except Stop (Word × Machine) :=
  if Pmm.isFreePage m.pmm.bitmap source then .error .frameNotReserved
  else do
    let m ← m.setPageTableEntry (pdi page) (pti page) (source ||| entryFlags kernel readwrite)
    return (page, m)

/-- The address of the page, NULL if it is page 0 or mapped already. -/
def kallocPageFrom (m : Machine) (source target : Word) (kernel readwrite : Bool) :
    Except Stop (Word × Machine) :=
  if source = 0 then .error .nullFrame
  else
    let page := pageAlign target
    if page = 0 then .ok (0, m)
    else do
      if !(← m.pageTableExists (pdi page)) then
        let m ← m.newPageTable (pdi page) kernel readwrite
        m.mapPage source page kernel readwrite
      else if present (← m.getPageTableEntry (pdi page) (pti page)) then .ok (0, m)
      else m.mapPage source page kernel readwrite

def kallocPage (m : Machine) (target : Word) (kernel readwrite : Bool) :
    Except Stop (Word × Machine) :=
  let page := pageAlign target
  if page = 0 then .ok (0, m)
  else
    let (source, pmm) := Pmm.kallocPageFrame m.pmm
    kallocPageFrom { m with pmm := pmm } source page kernel readwrite

/-- A loop of kalloc_page over some addresses, the results not looked at. -/
def kallocPages (m : Machine) (pages : List Word) (kernel readwrite : Bool) :
    Except Stop Machine :=
  pages.foldlM (fun m page => do
    let (_, m) ← m.kallocPage page kernel readwrite
    return m) m

def kfreePage (m : Machine) (addr : Word) : Except Stop Machine := do
  let paddr ← m.vaddrToPhysaddr addr
  match Pmm.kfreePageFrame m.pmm paddr with
  | .error _ => .error .doubleFree
  | .ok pmm => setPage { m with pmm := pmm } addr 0

/-- change_pdir, with the address of the directory in the kernel's memory. -/
def changePdir (m : Machine) (pdir : Word) : Except Stop Machine := do
  let entry ← m.getPage pdir
  return { m with cr3 := frameOf entry }

end Machine

/-! ## Entries -/

section Entries

theorem frameOf_or (a : Word) {flags : Word} (h : flags.toNat < 0x1000) :
    frameOf (a ||| flags) = frameOf a := by
  have hs : frameOf (a ||| flags) = ((a ||| flags) >>> 12).toNat := by
    rw [BitVec.toNat_ushiftRight, Nat.shiftRight_eq_div_pow]
    rfl
  have hz : flags >>> 12 = 0#32 := by
    apply BitVec.eq_of_toNat_eq
    rw [BitVec.toNat_ushiftRight, Nat.shiftRight_eq_div_pow]
    exact Nat.div_eq_of_lt h
  rw [hs, BitVec.ushiftRight_or_distrib, hz, BitVec.or_zero, BitVec.toNat_ushiftRight,
    Nat.shiftRight_eq_div_pow]
  rfl

theorem entryFlags_lt (kernel readwrite : Bool) : (entryFlags kernel readwrite).toNat < 0x1000 := by
  revert kernel readwrite
  decide

theorem present_or (a : Word) {flags : Word} (h : flags.getLsbD 0) :
    present (a ||| flags) := by
  unfold present PRESENT
  rw [decide_eq_true_eq]
  intro h0
  have hb := congrArg (fun w : Word => w.getLsbD 0) h0
  rw [BitVec.getLsbD_and, BitVec.getLsbD_or, h] at hb
  simp at hb

theorem entryFlags_present (kernel readwrite : Bool) :
    (entryFlags kernel readwrite).getLsbD 0 := by
  revert kernel readwrite
  decide

end Entries

end TapiOS.Mem.Vmm
