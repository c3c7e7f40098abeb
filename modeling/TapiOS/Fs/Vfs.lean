import TapiOS.Lib.Chain
import TapiOS.Util.Text

/-!
# Inodes and files, fs/vfs.c

struct inode and struct file are records at heap addresses. The name cache is the tree
of the `parent`, `children` and `siblings` pointers. A file system driver enters as a
parameter of every call that reaches it, so it may answer differently each time; the
addresses that kmalloc returns are a supply given to the call, and a block that is in
use is never returned.
-/
namespace TapiOS.Fs

open Lib Util

/-- Which entries of `i_act` and `f_act` are there: `iAct` is the table itself. -/
structure Acts where
  iAct : Bool
  search : Bool
  creates : Bool
  opens : Bool
  closes : Bool
  deriving DecidableEq, Repr

structure Inode where
  inodeNo : Word
  name : Text
  acts : Acts
  parent : Word
  children : Word
  siblings : Word
  deriving DecidableEq, Repr

structure File where
  refcount : Word
  inode : Word
  pos : Word
  deriving DecidableEq, Repr

/-- What a driver stores in a new struct inode; the rest is cleared. -/
structure NodeInfo where
  inodeNo : Word
  name : Text
  acts : Acts
  deriving DecidableEq, Repr

/-- The driver's i_act->search, i_act->new and f_act->open; the last returns its status
and the tables it leaves in the inode. With them comes the string that stands behind
`tokname` on the stack when walk_path_do has copied a path. -/
structure Driver where
  search : Inode → Text → Option NodeInfo
  create : Inode → Text → Word → Option NodeInfo
  opening : Inode → Word → Int × Acts
  stack : Text → Text := fun _ => []

structure Vfs where
  inodes : Word → Inode
  files : Word → File
  rootFs : Word
  inodeBlocks : List Word
  fileBlocks : List Word
  supply : List Word

/-- Where a call stops: kmalloc without a free block, the refcount PANIC of vfs_close, a
use of a NULL table or pointer, a loop over a cyclic list, the DOUBLE FREE panic, an index
outside the fd table, and a caller that does not exist. -/
inductive Stop where
  | noMemory
  | refcountZero
  | fault
  | endless
  | doubleFree
  | badDescriptor
  | noProcess
  deriving DecidableEq, Repr

namespace Vfs

def setInode (v : Vfs) (a : Word) (f : Inode → Inode) : Vfs :=
  { v with inodes := fun x => if x = a then f (v.inodes x) else v.inodes x }

def setFile (v : Vfs) (a : Word) (f : File → File) : Vfs :=
  { v with files := fun x => if x = a then f (v.files x) else v.files x }

def kmalloc (v : Vfs) : Except Stop (Word × Vfs) :=
  match v.supply with
  | [] => .error .noMemory
  | a :: rest =>
    if a = 0 ∨ a ∈ v.inodeBlocks ∨ a ∈ v.fileBlocks then .error .noMemory
    else .ok (a, { v with supply := rest })

def kfree (v : Vfs) (a : Word) : Except Stop Vfs :=
  if a ∈ v.inodeBlocks then .ok { v with inodeBlocks := v.inodeBlocks.erase a }
  else if a ∈ v.fileBlocks then .ok { v with fileBlocks := v.fileBlocks.erase a }
  else .error .doubleFree

/-- A loop along the siblings that is longer than this meets an inode twice. -/
def loopBound : Nat := 2 ^ 32

/-- A loop over the children of a node. -/
def findChild (v : Vfs) (first : Word) (test : Word → Bool) : Option Word :=
  findAlong 0 (fun a => (v.inodes a).siblings) test loopBound first

end Vfs

open Vfs

/-- A new struct inode with the driver's data. -/
def newInode (v : Vfs) (info : NodeInfo) : Except Stop (Word × Vfs) :=
  match v.kmalloc with
  | .error e => .error e
  | .ok (a, v) =>
    let v := v.setInode a (fun _ => ⟨info.inodeNo, info.name, info.acts, 0, 0, 0⟩)
    .ok (a, { v with inodeBlocks := a :: v.inodeBlocks })

/-- Link `node` behind the last child of `dir`. -/
def linkChild (v : Vfs) (dir node : Word) : Except Stop Vfs :=
  if (v.inodes dir).children = 0 then .ok (v.setInode dir (fun i => { i with children := node }))
  else
    match v.findChild (v.inodes dir).children (fun a => decide ((v.inodes a).siblings = 0)) with
    | none => .error .endless
    | some last => .ok (v.setInode last (fun i => { i with siblings := node }))

/-- searchfunc: the node named `name` below `wnode`, from the cache or from the driver. -/
def searchfunc (d : Driver) (v : Vfs) (wnode : Word) (name : Text) : Except Stop (Word × Vfs) :=
  if wnode = 0 then .ok (0, v)
  else
    match v.findChild (v.inodes wnode).children (fun a => decide ((v.inodes a).name = name)) with
    | none => .error .endless
    | some i =>
      if i ≠ 0 then .ok (i, v)
      else if !(v.inodes wnode).acts.iAct || !(v.inodes wnode).acts.search then .ok (0, v)
      else
        match d.search (v.inodes wnode) name with
        | none => .ok (0, v)
        | some info =>
          match newInode v info with
          | .error e => .error e
          | .ok (node, v) =>
            match linkChild v wnode node with
            | .error e => .error e
            | .ok v => .ok (node, v.setInode node (fun i => { i with parent := wnode }))

/-- The loop of walk_path_do. -/
def walk (d : Driver) (v : Vfs) (wnode : Word) : List Text → Except Stop (Word × Vfs)
  | [] => .ok (wnode, v)
  | name :: rest =>
    match searchfunc d v wnode name with
    | .error e => .error e
    | .ok (node, v) => walk d v node rest

/-- The string in `tokname`: a path that fills the 256 bytes goes on over the stack. -/
def tokname (stack : Text → Text) (path : Text) : Text :=
  if path.length < 256 then path else path.take 256 ++ stack path

/-- walk_path_do. -/
def walkPath (d : Driver) (v : Vfs) (node : Word) (path : Text) : Except Stop (Word × Vfs) :=
  if path = [slash] then .ok (v.rootFs, v)
  else
    match components (tokname d.stack path) with
    | [] => .ok (0, v)
    | names => walk d v node names

def vfsSearch (d : Driver) (v : Vfs) (node : Word) (path : Text) : Except Stop (Word × Vfs) :=
  if !(v.inodes node).acts.iAct then .error .fault
  else if (v.inodes node).acts.search then walkPath d v node path
  else .ok (0, v)

/-- vfs_new_inode in a directory; a driver that returns NULL is written through. -/
def vfsNewInode (d : Driver) (v : Vfs) (dir : Word) (path : Text) (flags : Word) :
    Except Stop (Word × Vfs) :=
  if !(v.inodes dir).acts.iAct then .error .fault
  else if (v.inodes dir).acts.creates then
    match d.create (v.inodes dir) path flags with
    | none => .error .fault
    | some info =>
      match newInode v info with
      | .error e => .error e
      | .ok (node, v) =>
        let v := v.setInode node (fun i => { i with parent := dir })
        match linkChild v dir node with
        | .error e => .error e
        | .ok v => .ok (node, v)
  else .ok (0, v)

def EBADF : Int := 9

/-- vfs_open: the new file, or NULL with the status for the caller. -/
def vfsOpen (d : Driver) (v : Vfs) (node flags : Word) : Except Stop ((Word × Int) × Vfs) :=
  match v.kmalloc with
  | .error e => .error e
  | .ok (f, v) =>
    let v := v.setFile f (fun _ => ⟨1, node, 0⟩)
    if (v.inodes node).acts.opens then
      let r := d.opening (v.inodes node) flags
      let v := v.setInode node (fun i => { i with acts := r.2 })
      if r.1 < 0 then .ok ((0, -r.1), v)
      else .ok ((f, 0), { v with fileBlocks := f :: v.fileBlocks })
    else .ok ((0, -EBADF), v)

/-- The inode vfs_close passed to kfree, and whether f_act->close was called before. -/
structure Detached where
  inode : Word
  closed : Bool
  deriving DecidableEq, Repr

/-- kfree(f->inode) and f->inode=NULL, at the end of both detaching branches. -/
def detach (v : Vfs) (f : Word) : Except Stop (Option Detached × Vfs) :=
  let inode := (v.files f).inode
  match v.kfree inode with
  | .error e => .error e
  | .ok v' => .ok (some ⟨inode, (v.inodes inode).acts.closes⟩,
      v'.setFile f (fun x => { x with inode := 0 }))

def vfsClose (v : Vfs) (f : Word) : Except Stop (Option Detached × Vfs) :=
  let inode := (v.files f).inode
  let node := v.inodes inode
  if inode = 0 then .ok (none, v)
  else if (v.files f).refcount = 0 then .error .refcountZero
  else if inode = v.rootFs then .ok (none, v)
  else
    let v := v.setFile f (fun x => { x with refcount := x.refcount - 1 })
    if node.parent = 0 then detach v f
    else if (v.files f).refcount = 0 then
      match v.findChild (v.inodes node.parent).children
        (fun a => decide ((v.inodes a).siblings = inode)) with
      | none => .error .endless
      | some i =>
        if i = 0 then .ok (none, v)
        else detach (v.setInode i (fun x => { x with siblings := node.siblings })) f
    else .ok (none, v)

end TapiOS.Fs
