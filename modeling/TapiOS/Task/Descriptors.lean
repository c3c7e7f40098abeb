import Mathlib.Data.Finset.Prod
import TapiOS.Fs.Vfs

/-!
# File descriptors, syscall/syscalls.c and task/process.c

Processes are numbered; `fds p` is the descriptor table of process `p`. The calls are
those that create, copy and drop descriptors. An index outside the table stops the run:
what the code reads there is no descriptor.
-/
namespace TapiOS.Task

open Lib Util Fs

abbrev Fd := Fin 256

instance neZero_fd : NeZero 256 := ⟨by decide⟩

structure Kernel where
  vfs : Vfs
  procs : Nat
  fds : Nat → Fd → Word
  cwd : Nat → Text

/-- What a call passed to kfree, with the state right after. -/
inductive Freed where
  | inode (d : Detached) (after : Kernel)
  | file (f : Word) (after : Kernel)

namespace Kernel

/-- current_process->fds[i]=f -/
def setFd (k : Kernel) (p : Nat) (i : Fd) (f : Word) : Kernel :=
  { k with fds := fun q j => if q = p ∧ j = i then f else k.fds q j }

/-- The slots that hold a file. -/
def holders (k : Kernel) (f : Word) : Finset (Nat × Fd) :=
  (Finset.range k.procs ×ˢ Finset.univ).filter (fun s => k.fds s.1 s.2 = f)

end Kernel

open Kernel

def ENOENT : Int := 2
def EEXIST : Int := 17
def EINVAL : Int := 22
def EMFILE : Int := 24
def ENAMETOOLONG : Int := 91

def PATH_MAX : Nat := 1024

def O_CREAT : Word := 0x200
def O_EXCL : Word := 0x800

def newfd (k : Kernel) (p : Nat) (f : Word) : Int × Kernel :=
  match (List.finRange 256).find? (fun i => decide (k.fds p i = 0)) with
  | some i => (i.val, k.setFd p i f)
  | none => (-1, k)

/-- The path that getdir_helper looks up from the root. -/
def openDir (cwd path : Text) : Text := if dirname path = [dot] then cwd else dirname path

def getdirHelper (d : Driver) (k : Kernel) (p : Nat) (path : Text) : Except Stop (Word × Vfs) :=
  vfsSearch d k.vfs k.vfs.rootFs (openDir (k.cwd p) path)

/-- The lookup at the start of `_open`: the directory, if one was looked up, and the inode.
The first component is `none` when a relative path has no directory. -/
def openLookup (d : Driver) (k : Kernel) (p : Nat) (path : Text) :
    Except Stop (Option (Word × Word) × Vfs) :=
  if path.head? = some slash then
    match vfsSearch d k.vfs k.vfs.rootFs path with
    | .error e => .error e
    | .ok (inode, v) => .ok (some (0, inode), v)
  else
    match getdirHelper d k p path with
    | .error e => .error e
    | .ok (dir, v) =>
      if dir = 0 then .ok (none, v)
      else match vfsSearch d v dir path with
      | .error e => .error e
      | .ok (inode, v) => .ok (some (dir, inode), v)

/-- What the lookups of `_open` lead to: an error, an inode or NULL, or the directory for a
new file. -/
inductive Plan where
  | fail (ret : Int)
  | node (inode : Word)
  | create (dir : Word)
  deriving DecidableEq, Repr

/-- `_open` up to vfs_new_inode and vfs_open. -/
def openPlan (d : Driver) (k : Kernel) (p : Nat) (path : Text) (flags : Word) :
    Except Stop (Plan × Vfs) :=
  if k.vfs.rootFs = 0 then .error .fault
  else if PATH_MAX ≤ path.length then .ok (.fail (-ENAMETOOLONG), k.vfs)
  else match openLookup d k p path with
  | .error e => .error e
  | .ok (none, v) => .ok (.fail (-ENOENT), v)
  | .ok (some (dir, inode), v) =>
    if inode ≠ 0 ∧ flags &&& (O_CREAT ||| O_EXCL) = (O_CREAT ||| O_EXCL) then
      .ok (.fail (-EEXIST), v)
    else if inode = 0 ∧ flags &&& O_CREAT ≠ 0 then
      match (if dir = 0 then getdirHelper d { k with vfs := v } p path else .ok (dir, v)) with
      | .error e => .error e
      | .ok (dir, v) => .ok (if dir = 0 then .fail (-ENOENT) else .create dir, v)
    else .ok (.node inode, v)

/-- vfs_open and newfd, at the end of `_open`. -/
def openInstall (d : Driver) (k : Kernel) (p : Nat) (inode flags : Word) :
    Except Stop (Int × Kernel) :=
  if inode = 0 then .ok (-ENOENT, k)
  else match vfsOpen d k.vfs inode flags with
  | .error e => .error e
  | .ok ((f, status), v) =>
    let k := { k with vfs := v }
    if f = 0 then .ok (status, k) else .ok (newfd k p f)

def sysOpen (d : Driver) (k : Kernel) (p : Nat) (path : Text) (flags : Word) :
    Except Stop (Int × Kernel) :=
  match openPlan d k p path flags with
  | .error e => .error e
  | .ok (.fail ret, v) => .ok (ret, { k with vfs := v })
  | .ok (.node inode, v) => openInstall d { k with vfs := v } p inode flags
  | .ok (.create dir, v) =>
    match vfsNewInode d v dir path 0x8000 with
    | .error e => .error e
    | .ok (inode, v) => openInstall d { k with vfs := v } p inode flags

/-- vfs_close of the file in a slot. -/
def closeFile (k : Kernel) (f : Word) : Except Stop (List Freed × Kernel) :=
  match vfsClose k.vfs f with
  | .error e => .error e
  | .ok (freed, v) =>
    let k := { k with vfs := v }
    .ok ((freed.map (fun x => Freed.inode x k)).toList, k)

/-- The struct files behind a descriptor table. `close` is vfs_close, with what it passed
to kfree; `newProcess` is a child of `p` with an empty table. -/
structure FileKind (σ φ : Type) where
  procs : σ → Nat
  fds : σ → Nat → Fd → Word
  setFd : σ → Nat → Fd → Word → σ
  close : σ → Word → Except Stop (List φ × σ)
  refcount : σ → Word → Word
  kfree : σ → Word → Except Stop σ
  freed : Word → σ → φ
  retain : σ → Word → σ
  newProcess : σ → Nat → σ

/-- The index of the table. -/
def descriptor (fd : Int) : Except Stop Fd :=
  if h : 0 ≤ fd ∧ fd < 256 then .ok ⟨fd.toNat, by omega⟩ else .error .badDescriptor

namespace FileKind

variable {σ φ : Type} (F : FileKind σ φ)

/-- `_close` of a slot that holds a file. -/
def closeSlot (k : σ) (p : Nat) (i : Fd) : Except Stop (List φ × σ) :=
  let f := F.fds k p i
  match F.close k f with
  | .error e => .error e
  | .ok (freed, k) =>
    if F.refcount k f = 0 then
      match F.kfree k f with
      | .error e => .error e
      | .ok k =>
        let k := F.setFd k p i 0
        .ok (freed ++ [F.freed f k], k)
    else .ok (freed, F.setFd k p i 0)

def sysClose (k : σ) (p : Nat) (i : Fd) : Except Stop ((Int × List φ) × σ) :=
  if F.fds k p i = 0 then .ok ((-EBADF, []), k)
  else match F.closeSlot k p i with
  | .error e => .error e
  | .ok (freed, k) => .ok ((0, freed), k)

/-- `f->refcount++` and the slot. -/
def share (k : σ) (p : Nat) (i : Fd) (f : Word) : σ := F.setFd (F.retain k f) p i f

def sysDup2 (k : σ) (p : Nat) (oldfd : Fd) (newfd : Int) : Except Stop ((Int × List φ) × σ) :=
  let f := F.fds k p oldfd
  if f = 0 then .ok ((-EBADF, []), k)
  else if (oldfd.val : Int) = newfd then .ok ((newfd, []), k)
  else match descriptor newfd with
  | .error e => .error e
  | .ok i =>
    match F.sysClose k p i with
    | .error e => .error e
    | .ok ((_, freed), k) => .ok ((0, freed), F.share k p i f)

/-- copy_open_resources into the table of the new process. -/
def copyOpenResources (k : σ) (p child : Nat) : σ :=
  (List.finRange 256).foldl (fun k i =>
    if F.fds k p i ≠ 0 then F.share k child i (F.fds k p i) else F.setFd k child i 0) k

/-- The part of fork that concerns descriptors. -/
def fork (k : σ) (p : Nat) : σ := F.copyOpenResources (F.newProcess k p) p (F.procs k)

/-- The loop of `_exit` over the remaining slots: vfs_close without `_close`'s kfree. -/
def exitLoop (k : σ) (p : Nat) : List Fd → Except Stop (List φ × σ)
  | [] => .ok ([], k)
  | i :: is =>
    if F.fds k p i = 0 then exitLoop k p is
    else match F.close k (F.fds k p i) with
    | .error e => .error e
    | .ok (freed, k) =>
      match exitLoop (F.setFd k p i 0) p is with
      | .error e => .error e
      | .ok (rest, k) => .ok (freed ++ rest, k)

end FileKind

/-- One more process, with no file open. -/
def Kernel.newProcess (k : Kernel) (cwd : Nat → Text) : Kernel := { k with
  procs := k.procs + 1, cwd := cwd, fds := fun q i => if q = k.procs then 0 else k.fds q i }

@[simps] def files : FileKind Kernel Freed where
  procs := Kernel.procs
  fds := Kernel.fds
  setFd := Kernel.setFd
  close := closeFile
  refcount k f := (k.vfs.files f).refcount
  kfree k f := (k.vfs.kfree f).map fun v => { k with vfs := v }
  freed := Freed.file
  retain k f := { k with vfs := k.vfs.setFile f (fun x => { x with refcount := x.refcount + 1 }) }
  newProcess k p := k.newProcess fun q => if q = k.procs then k.cwd p else k.cwd q

def closeSlot := files.closeSlot
def sysClose := files.sysClose
def shareFile := files.share
def sysDup2 := files.sysDup2
def copyOpenResources := files.copyOpenResources
def fork := files.fork
def exitLoop := files.exitLoop

/-- `_fcntl` with F_DUPFD and a lower bound in the table. -/
def sysDupFd (k : Kernel) (p : Nat) (fd : Fd) (arg : Nat) :
    Except Stop ((Int × List Freed) × Kernel) :=
  match (List.finRange 256).find? (fun i => decide (arg ≤ i.val ∧ k.fds p i = 0)) with
  | none => .ok ((-EMFILE, []), k)
  | some i =>
    match sysDup2 k p fd i.val with
    | .error e => .error e
    | .ok ((ret, freed), k) => .ok ((if ret < 0 then ret else i.val, freed), k)

def sysExit (k : Kernel) (p : Nat) : Except Stop (List Freed × Kernel) :=
  exitLoop k p (List.finRange 256)

/-- The calls, each by the process `p`; the driver and the blocks kmalloc may return come
with the calls that need them. -/
inductive Call where
  | search (d : Driver) (supply : List Word) (path : Text)
  | openFile (d : Driver) (supply : List Word) (p : Nat) (path : Text) (flags : Word)
  | dup2 (p : Nat) (oldfd newfd : Int)
  | dupFd (p : Nat) (fd arg : Int)
  | fork (p : Nat)
  | close (p : Nat) (fd : Int)
  | exit (p : Nat)

def Kernel.withSupply (k : Kernel) (supply : List Word) : Kernel :=
  { k with vfs := { k.vfs with supply := supply } }

def Call.caller : Call → Option Nat
  | .search _ _ _ => none
  | .openFile _ _ p _ _ => some p
  | .dup2 p _ _ => some p
  | .dupFd p _ _ => some p
  | .fork p => some p
  | .close p _ => some p
  | .exit p => some p

/-- The return value of a call and what it freed. -/
structure Result where
  ret : Int
  freed : List Freed

def perform (k : Kernel) : Call → Except Stop (Result × Kernel)
  | .search d supply path =>
    let k := k.withSupply supply
    match vfsSearch d k.vfs k.vfs.rootFs path with
    | .error e => .error e
    | .ok (node, v) => .ok (⟨node.toNat, []⟩, { k with vfs := v })
  | .openFile d supply p path flags =>
    match sysOpen d (k.withSupply supply) p path flags with
    | .error e => .error e
    | .ok (ret, k) => .ok (⟨ret, []⟩, k)
  | .dup2 p oldfd newfd =>
    match descriptor oldfd with
    | .error e => .error e
    | .ok i =>
      match sysDup2 k p i newfd with
      | .error e => .error e
      | .ok ((ret, freed), k) => .ok (⟨ret, freed⟩, k)
  | .dupFd p fd arg =>
    match descriptor fd with
    | .error _ => .ok (⟨-EINVAL, []⟩, k)
    | .ok i =>
      if arg < 0 then .error .badDescriptor
      else match sysDupFd k p i arg.toNat with
      | .error e => .error e
      | .ok ((ret, freed), k) => .ok (⟨ret, freed⟩, k)
  | .fork p => .ok (⟨k.procs, []⟩, fork k p)
  | .close p fd =>
    match descriptor fd with
    | .error e => .error e
    | .ok i =>
      match sysClose k p i with
      | .error e => .error e
      | .ok ((ret, freed), k) => .ok (⟨ret, freed⟩, k)
  | .exit p =>
    match sysExit k p with
    | .error e => .error e
    | .ok (freed, k) => .ok (⟨0, freed⟩, k)

/-- One call by an existing process. -/
def step (k : Kernel) (c : Call) : Except Stop (Result × Kernel) :=
  if c.caller.any (fun p => k.procs ≤ p) then .error .noProcess else perform k c

end TapiOS.Task
