import TapiOS.Fs.DirNames
import TapiOS.Task.TreeLookup

/-!
# Creating files and directories on an image

`_open` with O_CREAT and `_mkdir` over the ext2 driver, with the image as a part of the
state. The path is read three times: the walk that finds nothing decides that the file is
new, dirname says where it goes, and basename what it is called.
-/
namespace TapiOS.Task

open Lib Util Fs
open Ext2 (Geometry Orderly Typed createInode ext2NewInode ext2Search)

/-- The tables that ext2_fs_init fills, which every inode gets from its directory. -/
def ext2Acts : Acts := ⟨true, true, true, true, false⟩

/-- The kernel, the image it has mounted, and the strings on the stack behind `tokname`. -/
structure Machine where
  kernel : Kernel
  image : Mem
  stack : Text → Text

/-- The ext2 driver. A search that never ends counts as one that finds nothing, which only
adds runs to those of the source. -/
def ext2Driver (s : Machine) (sb : Word) : Driver where
  search i name :=
    match ext2Search s.image sb i.inodeNo name with
    | .ok (some e) => some ⟨e.inode, e.name, ext2Acts⟩
    | _ => none
  create i path flags :=
    match ext2NewInode s.image sb i.inodeNo path flags with
    | .ok (r, _) => r.inodeNo.map fun n => ⟨BitVec.ofInt 32 n, (basename path).take 256, ext2Acts⟩
    | .error _ => none
  opening i _ := (0, i.acts)
  stack := s.stack

/-- The image behind a call of i_act->new. -/
def imageAfter (m : Mem) (sb : Word) (dir : Inode) (path : Text) (flags : Word) : Mem :=
  match ext2NewInode m sb dir.inodeNo path flags with
  | .ok (_, m') => m'
  | .error _ => m

/-- The directory in which `_open` calls i_act->new. -/
def createDir (d : Driver) (k : Kernel) (p : Nat) (path : Text) (flags : Word) : Option Inode :=
  match openPlan d k p path flags with
  | .ok (.create dir, v) => some (v.inodes dir)
  | _ => none

namespace Machine

def withVfs (s : Machine) (v : Vfs) : Machine := { s with kernel := { s.kernel with vfs := v } }

def openFile (sb : Word) (s : Machine) (p : Nat) (path : Text) (flags : Word) :
    Except Stop (Int × Machine) :=
  let d := ext2Driver s sb
  match sysOpen d s.kernel p path flags with
  | .error e => .error e
  | .ok (ret, k) =>
    match createDir d s.kernel p path flags with
    | none => .ok (ret, { s with kernel := k })
    | some dir => .ok (ret, ⟨k, imageAfter s.image sb dir path 0x8000, s.stack⟩)

end Machine

def EPERM : Int := 1

/-- `_mkdir` behind `_open`: the directory is created when that failed. -/
def mkdirFinish (sb : Word) (s : Machine) (p : Nat) (dir : Word) (path : Text) (fd : Int) :
    Except Stop (Int × Machine) :=
  if 0 ≤ fd then
    match descriptor fd with
    | .error e => .error e
    | .ok i =>
      match sysClose s.kernel p i with
      | .error e => .error e
      | .ok (_, k) => .ok (-EEXIST, { s with kernel := k })
  else
    match vfsNewInode (ext2Driver s sb) s.kernel.vfs dir path 0x4000 with
    | .error e => .error e
    | .ok (node, v) =>
      let image := imageAfter s.image sb (s.kernel.vfs.inodes dir) path 0x4000
      .ok (if node = 0 then -EPERM else 0, ⟨{ s.kernel with vfs := v }, image, s.stack⟩)

def Machine.mkdir (sb : Word) (s : Machine) (p : Nat) (path : Text) (mode : Word) :
    Except Stop (Int × Machine) :=
  if PATH_MAX ≤ path.length then .ok (-ENAMETOOLONG, s)
  else match getdirHelper (ext2Driver s sb) s.kernel p path with
  | .error e => .error e
  | .ok (dir, v) =>
    let s := s.withVfs v
    if dir = 0 then .ok (-ENOENT, s)
    else match s.openFile sb p path mode with
    | .error e => .error e
    | .ok (fd, s) => mkdirFinish sb s p dir path fd

/-- What a call does with its path. -/
inductive Creation where
  | openFile (flags : Word)
  | mkdir (mode : Word)
  deriving DecidableEq, Repr

/-- A call by process `p` in the current directory `cwd`, with the blocks kmalloc may
return and what stands on the stack. -/
structure NameCall where
  p : Nat
  cwd : Text
  supply : List Word
  stack : Text → Text
  path : Text
  kind : Creation

/-- The process is in the directory of the call. -/
def Machine.enter (s : Machine) (c : NameCall) : Machine :=
  ⟨{ s.kernel.withSupply c.supply with
    cwd := fun q => if q = c.p then c.cwd else s.kernel.cwd q }, s.image, c.stack⟩

def nameStep (sb : Word) (s : Machine) (c : NameCall) : Except Stop (Int × Machine) :=
  match c.kind with
  | .openFile flags => (s.enter c).openFile sb c.p c.path flags
  | .mkdir mode => (s.enter c).mkdir sb c.p c.path mode

/-- The directory tree of an image, as ext2_search reads it. -/
def imageTree (m : Mem) (sb : Word) : Tree where
  root := 2
  child n name :=
    match ext2Search m sb n name with
    | .ok (some e) => some e.inode
    | _ => none
  acts _ := ext2Acts
  searchable _ _ _ _ := ⟨rfl, rfl⟩

/-- Other file systems are mounted under the names `M`, with inode numbers that the image
does not have. -/
def imagePart (L : Geometry) (M : Word → Text → Bool) (m : Mem) : Part :=
  ⟨fun n => Typed L.toLayout m n.toNat, fun n => ¬L.IsInode n.toNat, M⟩

/-- walk_path_do reads the path and that of its directory as they are, and comes to no mount. -/
def Direct (L : Geometry) (M : Word → Text → Bool) (m : Mem) (cwd path : Text) : Prop :=
  Short cwd path ∧ Inside (imageTree m L.sb) (imagePart L M m) id cwd path

/-- The image and the cache fit together, and all names are different. -/
structure Sound (L : Geometry) (M : Word → Text → Bool) (s : Machine) : Prop where
  consistent : Ext2.Consistent L.toLayout s.image
  orderly : Orderly L.toLayout s.image
  unique : Ext2.UniqueNames L.toLayout s.image
  cached : Cached s.kernel.vfs
  mirrors : Mirrors (imageTree s.image L.sb) s.kernel.vfs (imagePart L M s.image)

section Driver
variable {m : Mem} {sb : Word}

theorem ext2NewInode_basename (m : Mem) (sb dir : Word) {path path' : Text} (flags : Word)
    (h : basename path = basename path') :
    ext2NewInode m sb dir path flags = ext2NewInode m sb dir path' flags := by
  have hcreate : ∀ m sb dir desc index, createInode m sb dir desc index path flags =
      createInode m sb dir desc index path' flags := by
    intro m sb dir desc index
    unfold createInode
    rw [h]
  unfold ext2NewInode
  simp only [hcreate]

theorem ext2Driver_serves (s : Machine) (sb : Word) :
    (ext2Driver s sb).Serves (imageTree s.image sb) where
  search i name := by
    simp only [ext2Driver, imageTree]
    split
    next e he => rw [Ext2.ext2Search_name he]; rfl
    next => rfl
  create i path path' flags h := by
    simp only [ext2Driver, ext2NewInode_basename s.image sb i.inodeNo flags h, h]

theorem imageTree_child {n : Word} {name : Text} {o : Option Ext2.DirEntry}
    (hs : ext2Search m sb n name = .ok o) :
    (imageTree m sb).child n name = o.map (·.inode) := by
  simp only [imageTree, hs]
  cases o <;> rfl

theorem imageTree_below {L : Geometry} (hp : Ext2.Plain L) (hnull : Ext2.NotNull L)
    (hc : Ext2.Consistent L m) (ho : Orderly L m) {n k : Word} {name : Text}
    (hn : Typed L m n.toNat) (h : (imageTree m L.sb).child n name = some k) :
    Typed L m k.toNat := by
  simp only [imageTree] at h
  split at h
  next e he =>
    cases h
    rw [← BitVec.setWidth_eq n, ← BitVec.ofNat_toNat] at he
    exact hn.search hp hnull hc ho he
  next => cases h

end Driver

section Lookup
variable {L : Geometry} {M : Word → Text → Bool} {s : Machine} {v : Vfs} {w node : Word}
  {p : Nat} {path : Text} (h : Sound L M s)
include h

/-- Files, descriptors and freed inodes do not matter. -/
theorem Sound.trimmed {k : Kernel} {stack : Text → Text} (ht : Trimmed s.kernel.vfs k.vfs) :
    Sound L M ⟨k, s.image, stack⟩ :=
  ⟨h.consistent, h.orderly, h.unique, ht.cached h.cached, ht.mirrors h.cached h.mirrors⟩

/-- What a path leads to is in use. -/
theorem Sound.typed {o : Option (List Text)} {n : Word}
    (hr : o.bind ((imageTree s.image L.sb).resolve 2) = some n) :
    Typed L s.image n.toNat := by
  obtain ⟨names, -, hn⟩ := Option.bind_eq_some_iff.mp hr
  exact h.mirrors.resolve h.mirrors.top hn

theorem Sound.shown : Shown (imageTree s.image L.sb) (ext2Driver s L.sb) (imagePart L M s.image)
    s.kernel.vfs :=
  ⟨ext2Driver_serves s L.sb, h.cached, h.mirrors⟩

theorem Sound.of_shown (hv : Shown (imageTree s.image L.sb) (ext2Driver s L.sb)
    (imagePart L M s.image) v) : Sound L M (s.withVfs v) :=
  ⟨h.consistent, h.orderly, h.unique, hv.cached, hv.mirrors⟩

theorem Sound.getdir (hdir : Direct L M s.image (s.kernel.cwd p) path)
    (hg : getdirHelper (ext2Driver s L.sb) s.kernel p path = .ok (node, v)) :
    Sound L M (s.withVfs v) ∧ Extends s.kernel.vfs v ∧
      (node ≠ 0 → node ∈ v.inodeBlocks ∧ Placed v node) ∧
      (route (openDir (s.kernel.cwd p) path)).bind ((imageTree s.image L.sb).resolve 2) = v.number node := by
  rw [getdirHelper_route h.cached, tokname_short hdir.1.2] at hg
  obtain ⟨hv, hrest⟩ := h.shown.follow hdir.2.1 hg
  exact ⟨h.of_shown hv, hrest⟩

end Lookup

end TapiOS.Task
