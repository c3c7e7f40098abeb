import TapiOS.Mem.DataFrames
import TapiOS.Task.Sbrk

/-!
# init_elf_get_entry_point, task/process.c

The file is in a buffer of the kernel, and its pages are mapped where the program headers
put them. The fields of the headers that the loader does not use are left out; of one program
header they are read once, and not anew for every page.
-/
namespace TapiOS.Task.Elf

open Lib Util Mem.Vmm
open Task.Sbrk (Process)

/-- elf_header -/
structure Header where
  identMagic : Word
  entry : Word
  programTable : Word
  programEntries : BitVec 16
  deriving DecidableEq, Repr

/-- elf_program_entry -/
structure ProgramEntry where
  offset : Word
  vaddr : Word
  filesz : Word
  memsz : Word
  deriving DecidableEq, Repr

/-- `{0x7F,'E','L','F'}` -/
def elfMagic : Word := 0x464C457F

def readHeader (m : Machine) (elf : Word) : Except Stop Header := do
  let identMagic ← m.loadWord elf
  let entry ← m.loadWord (elf + 24)
  let programTable ← m.loadWord (elf + 28)
  let b₀ ← m.loadByte (elf + 44)
  let b₁ ← m.loadByte (elf + 45)
  return ⟨identMagic, entry, programTable, b₁ ++ b₀⟩

/-- `programs[i]` -/
def readProgram (m : Machine) (programs : Word) (i : Nat) : Except Stop ProgramEntry := do
  let program := programs + BitVec.ofNat 32 (32 * i)
  let offset ← m.loadWord (program + 4)
  let vaddr ← m.loadWord (program + 8)
  let filesz ← m.loadWord (program + 16)
  let memsz ← m.loadWord (program + 20)
  return ⟨offset, vaddr, filesz, memsz⟩

/-- A page of the program, and the address in the buffer whose frame it gets. -/
structure Request where
  page : Word
  source : Word
  deriving DecidableEq, Repr

/-- `programs[i].p_vaddr + (j*0x1000)`, and the page of the file for it. -/
def request (elf : Word) (e : ProgramEntry) (j : Nat) : Request where
  page := e.vaddr + BitVec.ofNat 32 (j * 0x1000)
  source := elf + e.offset / 0x1000 * 0x1000 + BitVec.ofNat 32 (j * 0x1000)

def mapFrom (m : Machine) (r : Request) : Except Stop Machine := do
  let source ← m.vaddrToPhysaddr r.source
  let (_, m) ← m.kallocPageFrom source r.page false true
  return m

/-- The pages of one program header: `j<=programs[i].p_filesz/0x1000`. -/
def segmentRequests (elf : Word) (e : ProgramEntry) : List Request :=
  (List.range (e.filesz.toNat / 0x1000 + 1)).map (request elf e)

/-- What the loop over the program headers computes. -/
structure Segments where
  machine : Machine
  bssStart : Word
  bssEnd : Word

def loadSegment (elf programs : Word) (s : Segments) (i : Nat) : Except Stop Segments := do
  let e ← readProgram s.machine programs i
  let m ← (segmentRequests elf e).foldlM mapFrom s.machine
  return ⟨m, s.bssStart + (e.vaddr + e.filesz), s.bssEnd + (e.vaddr + e.memsz)⟩

/-- `((bss_end - bss_start) / 0x1000) + 1`, of ints. -/
def bssPages (bssStart bssEnd : Word) : Int := (bssEnd - bssStart).toInt.tdiv 0x1000 + 1

/-- `brk=... & 0xFFFFF000`, and a page there. -/
def pageAt (p : Process) (brk : Word) : Except Stop Process := do
  let (_, m) ← p.machine.kallocPage (pageAlign brk) false true
  return ⟨m, pageAlign brk⟩

/-- The pages for bss and the break behind it. -/
def loadBss (bssStart bssEnd : Word) (p : Process) : Except Stop Process := do
  let p ← (List.range (bssPages bssStart bssEnd).toNat).foldlM
    (fun p i => pageAt p (bssStart + BitVec.ofNat 32 ((i + 1) * 0x1000))) p
  if p.brk ≠ pageAlign (bssEnd + 0x1000) then pageAt p (bssEnd + 0x1000) else return p

/-- The entry point, the process, and its `program`; 0 if the file is no ELF file. -/
def initElfGetEntryPoint (elf : Word) (p : Process) (program : Word) :
    Except Stop (Word × Process × Word) := do
  let header ← readHeader p.machine elf
  if header.identMagic ≠ elfMagic then return (0, p, program)
  else
    let programs := elf + header.programTable
    let s ← (List.range header.programEntries.toNat).foldlM (loadSegment elf programs)
      ⟨p.machine, 0, 0⟩
    let p ← loadBss s.bssStart s.bssEnd ⟨s.machine, p.brk⟩
    return (header.entry, p, elf)

end TapiOS.Task.Elf
