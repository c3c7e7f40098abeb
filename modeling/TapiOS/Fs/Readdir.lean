import TapiOS.Fs.DirBlock
import TapiOS.Fs.NameCache

/-!
# Reading directories, fs/ext2.c and fs/devfs.c

Both drivers keep their place in static variables: ext2_readdir those of one directory
and the inode it belongs to, devfs_readdir the child it returned last, whatever directory
that was in.
-/
namespace TapiOS.Fs

open Lib Util
open BitVec (ofNat)

namespace Ext2

/-- The static variables of ext2_readdir. -/
structure Cursor where
  bdir : Word
  dir : Word
  prevnode : Word
  deriving DecidableEq, Repr

/-- ext2_readdir of the inode at `node`; the entry goes into the global dirent. -/
def ext2Readdir (m : Mem) (sb inodeNo node : Word) (s : Cursor) :
    Except Stop (Option DirEntry × Cursor) :=
  if s.prevnode = node then
    if insideDir s.dir s.bdir (BLOCKSIZE m sb) then
      .ok (some (dirEntry m s.dir), { s with dir := advance m s.dir })
    else .ok (none, ⟨0, 0, 0⟩)
  else
    match readInode m sb inodeNo with
    | .error e => .error e
    | .ok inode =>
      -- bdir and dir stay those of the directory read before
      if !isDir m inode then .ok (none, { s with prevnode := node })
      else
        let block := getBlock m sb (entry m (inodeBlocks inode) 0)
        if insideDir block block (BLOCKSIZE m sb) then
          .ok (some (dirEntry m block), ⟨block, advance m block, node⟩)
        else .ok (none, ⟨block, block, node⟩)

end Ext2

/-- devfs_readdir with its static variable `prevnode`. -/
def devfsReaddir (v : Vfs) (node prevnode : Word) : Option Ext2.DirEntry × Word :=
  let i := if prevnode ≠ 0 then (v.inodes prevnode).siblings else (v.inodes node).children
  if i ≠ 0 then (some ⟨(v.inodes i).inodeNo, (v.inodes i).name⟩, i) else (none, 0)

/-- The function behind i_act->readdir, with node->superblock for ext2. -/
inductive DirOps where
  | ext2 (superblock : Word)
  | devfs
  deriving DecidableEq, Repr

/-- What there is to list: nothing where i_act->readdir is missing, no entry in an ext2
file, the entries `es` of one block with its bytes, or the children `ss` of a devfs. -/
inductive Contents where
  | missing
  | file
  | block (size base : Word) (bytes : Mem) (es : List Ext2.DirEntry)
  | children (ss : List Word) (es : List Ext2.DirEntry)

def Contents.entries : Contents → List Ext2.DirEntry
  | .missing => []
  | .file => []
  | .block _ _ _ es => es
  | .children _ es => es

/-- The inode at `node` has these contents. The entries of an ext2 directory fill its only
block and none of them is unused. -/
inductive Shows (m : Mem) (v : Vfs) (ops : Option DirOps) (node : Word) : Contents → Prop where
  | missing (h : node = 0 ∨ ops = none) : Shows m v ops node .missing
  | file {sb inode : Word} (h0 : node ≠ 0) (hops : ops = some (.ext2 sb))
      (hi : Ext2.readInode m sb (v.inodes node).inodeNo = .ok inode)
      (hd : Ext2.isDir m inode = false) : Shows m v ops node .file
  | block {sb inode size base : Word} {bytes : Mem} {es : List Ext2.DirEntry} (h0 : node ≠ 0)
      (hops : ops = some (.ext2 sb))
      (hi : Ext2.readInode m sb (v.inodes node).inodeNo = .ok inode)
      (hd : m.half inode &&& 0xF000#16 = 0x4000#16) (hsize : Ext2.BLOCKSIZE m sb = size)
      (hbase : Ext2.getBlock m sb (Ext2.entry m (Ext2.inodeBlocks inode) 0) = base)
      (hone : m.word (inode + 4#32) ≤ size) (hnull : 0#32 ∉ span base size.toNat)
      (hbytes : Set.EqOn m bytes (span base size.toNat))
      (hes : Ext2.Entries bytes base 0 size.toNat es) (hused : ∀ e ∈ es, e.inode ≠ 0) :
      Shows m v ops node (.block size base bytes es)
  | children {ss : List Word} (h0 : node ≠ 0) (hops : ops = some .devfs) (hk : Kids v node ss) :
      Shows m v ops node
        (.children ss (ss.map fun c => ⟨(v.inodes c).inodeNo, (v.inodes c).name⟩))

namespace Ext2

/-- The static variables are those of the directory at `node`, with `rest` still to come. -/
structure Stands (bytes : Mem) (size base node : Word) (rest : List DirEntry) (s : Cursor) :
    Prop where
  node : s.prevnode = node
  bdir : s.bdir = base
  dir : ∃ lo, s.dir = base + ofNat 32 lo ∧ Entries bytes base lo size.toNat rest

section Read
variable {m bytes : Mem} {sb size base node inodeNo inode : Word} {lo : Nat}
  {es rest : List DirEntry} {s : Cursor}

/-- At the end of the entries the walk is outside of the block, before it at the first one. -/
theorem Entries.read (hnull : 0#32 ∉ span base size.toNat)
    (h : Entries m base lo size.toNat rest) :
    (rest = [] ∧ insideDir (base + ofNat 32 lo) base size = false) ∨
      ∃ lo', rest = dirEntry m (base + ofNat 32 lo) :: rest.tail ∧
        insideDir (base + ofNat 32 lo) base size ∧
        advance m (base + ofNat 32 lo) = base + ofNat 32 lo' ∧
        Entries m base lo' size.toNat rest.tail := by
  have hin := h.inside hnull
  cases h with
  | nil =>
    refine .inl ⟨rfl, ?_⟩
    rw [← Bool.not_eq_true, hin]
    exact fun hne => hne rfl
  | @cons _ _ d es hd hmin h4 hrest =>
    subst hd
    exact .inr ⟨_, rfl, hin.mpr (List.cons_ne_nil _ _), advance_eq rfl, hrest⟩

theorem Entries.congr_rest (h : Entries bytes base lo size.toNat rest)
    (he : Set.EqOn m bytes (span base size.toNat)) : Entries m base lo size.toNat rest := by
  have hlen := h.length_le
  have hsize := size.isLt
  exact h.congr hsize (he.mono (span_add_subset base (by omega) hsize.le))

/-- Another call for the directory that the static variables belong to. -/
theorem Stands.read (h : Stands bytes size base node rest s)
    (hsize : BLOCKSIZE m sb = size) (hnull : 0#32 ∉ span base size.toNat)
    (hbytes : Set.EqOn m bytes (span base size.toNat)) :
    ∃ s', ext2Readdir m sb inodeNo node s = .ok (rest.head?, s') ∧
      (rest ≠ [] → Stands bytes size base node rest.tail s') := by
  obtain ⟨lo, hdir, hes⟩ := h.dir
  unfold ext2Readdir
  rw [if_pos h.node, hdir, h.bdir, hsize]
  rcases (hes.congr_rest hbytes).read hnull with ⟨hnil, hin⟩ | ⟨lo', hcons, hin, hadv, hrest⟩
  · rw [if_neg (by rw [hin]; decide), hnil]
    exact ⟨_, rfl, fun hne => absurd rfl hne⟩
  · rw [if_pos hin, hcons, hadv]
    exact ⟨_, rfl, fun _ => ⟨h.node, rfl, lo', rfl, hrest.congr_rest hbytes.symm⟩⟩

theorem isDir_of_type (hd : m.half inode &&& 0xF000#16 = 0x4000#16) : isDir m inode := by
  unfold isDir
  generalize m.half inode = k at hd ⊢
  rw [bne_iff_ne]
  intro h0
  have hk : k &&& 0x4000#16 = (k &&& 0xF000#16) &&& 0x4000#16 := by
    rw [BitVec.and_assoc]
    rfl
  rw [hk, hd] at h0
  exact absurd h0 (by decide)

/-- The first call for a directory, when the static variables belong to another inode. -/
theorem ext2Readdir_start (hne : s.prevnode ≠ node) (hi : readInode m sb inodeNo = .ok inode)
    (hd : m.half inode &&& 0xF000#16 = 0x4000#16) (hsize : BLOCKSIZE m sb = size)
    (hbase : getBlock m sb (entry m (inodeBlocks inode) 0) = base)
    (hnull : 0#32 ∉ span base size.toNat) (hbytes : Set.EqOn m bytes (span base size.toNat))
    (hes : Entries bytes base 0 size.toNat es) :
    ∃ s', ext2Readdir m sb inodeNo node s = .ok (es.head?, s') ∧
      (es ≠ [] → Stands bytes size base node es.tail s') := by
  have h0 : base + ofNat 32 0 = base := BitVec.add_zero base
  unfold ext2Readdir
  rw [if_neg hne, hi]
  dsimp only
  rw [if_neg (by rw [isDir_of_type hd]; decide), hbase, hsize]
  rcases (hes.congr_rest hbytes).read hnull with ⟨hnil, hin⟩ | ⟨lo', hcons, hin, hadv, hrest⟩
  · rw [h0] at hin
    rw [if_neg (by rw [hin]; decide), hnil]
    exact ⟨_, rfl, fun hne => absurd rfl hne⟩
  · rw [h0] at hin hcons hadv
    rw [if_pos hin, hcons, hadv]
    exact ⟨_, rfl, fun _ => ⟨rfl, rfl, lo', rfl, hrest.congr_rest hbytes.symm⟩⟩

theorem ext2Readdir_file (hne : s.prevnode ≠ node) (hi : readInode m sb inodeNo = .ok inode)
    (hd : isDir m inode = false) :
    ext2Readdir m sb inodeNo node s = .ok (none, { s with prevnode := node }) := by
  unfold ext2Readdir
  rw [if_neg hne, hi]
  dsimp only
  rw [if_pos (by rw [hd]; decide)]

end Read

end Ext2

section Devfs
variable {v : Vfs} {node prevnode : Word} {ss : List Word}

/-- With `n` children returned, devfs_readdir returns the next one or the end. -/
theorem devfsReaddir_next (hk : Kids v node ss) {n : Nat}
    (hprev : if n = 0 then prevnode = 0 else ss[n - 1]? = some prevnode) :
    devfsReaddir v node prevnode =
      ((ss.map fun c => (⟨(v.inodes c).inodeNo, (v.inodes c).name⟩ : Ext2.DirEntry))[n]?,
        ss[n]?.getD 0) := by
  have hnext : (if prevnode ≠ 0 then (v.inodes prevnode).siblings else (v.inodes node).children) =
      ss[n]?.getD 0 := by
    cases n with
    | zero =>
      rw [if_pos rfl] at hprev
      rw [if_neg (by simp [hprev])]
      exact Chain.start hk
    | succ n =>
      rw [if_pos (Chain.ne_null hk prevnode (List.mem_of_getElem? hprev))]
      exact Chain.link hk hprev
  unfold devfsReaddir
  simp only [hnext, List.getElem?_map]
  cases hn : ss[n]? with
  | none => simp
  | some c =>
    exact if_pos (Chain.ne_null hk c (List.mem_of_getElem? hn))

end Devfs

end TapiOS.Fs
