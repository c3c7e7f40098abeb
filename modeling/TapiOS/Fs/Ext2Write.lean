import TapiOS.Fs.Ext2
import TapiOS.Util.Text

/-!
# Writing files and creating inodes, fs/ext2.c

The stores of ext2_write and ext2_new_inode in the order of the source. The data to write
lies outside of the image. `getFreeBlock` returns what the source returns: the index of a
bit within its bitmap word.
-/
namespace TapiOS.Fs.Ext2

open Util
open BitVec (ofInt ofNat)

def divRoundUp (n d : Word) : Word := n / d + if n % d ≠ 0#32 then 1#32 else 0#32

/-- get_blockgroup_count; the caller counts up to it as an int. -/
def getBlockgroupCount (m : Mem) (sb : Word) : Except Stop Nat :=
  if sbBlocksInBlockgroup m sb = 0#32 ∨ sbInodesInBlockgroup m sb = 0#32 then .error .divide
  else
    let c1 := divRoundUp (sbBlocks m sb) (sbBlocksInBlockgroup m sb)
    let c2 := divRoundUp (sbInodes m sb) (sbInodesInBlockgroup m sb)
    if c1 ≠ c2 then .error .panic else .ok c1.toInt.toNat

/-- The first block group whose descriptor counts something unallocated. -/
def firstGroup (m : Mem) (sb : Word) (unallocated : Mem → Word → BitVec 16) (groups : Nat) :
    Option Nat :=
  (List.range groups).find? (fun g =>
    decide (unallocated m (blockgroupDescriptor sb (ofNat 32 g)) ≠ 0#16))

/-- The loop of get_free_block from word `i`. -/
def freeBlockLoop (bitmap : Word) : Nat → Nat → Mem → Int × Mem
  | 0, _, m => (-1, m)
  | left + 1, i, m =>
    let a := bitmap + ofNat 32 (4 * i)
    if m.word a = 0xFFFFFFFF#32 then freeBlockLoop bitmap left (i + 1) m
    else
      let (index, w) := getAndSetLsb (m.word a)
      let m := m.setWord a w
      if index = 32 then freeBlockLoop bitmap left (i + 1) m else (index, m)

def getFreeBlock (m : Mem) (sb bitmapBlockNo : Word) : Int × Mem :=
  freeBlockLoop (getBlock m sb bitmapBlockNo) ((BLOCKSIZE m sb).toNat / 4) 0 m

/-- The int a call returns, the block number it obtained and the open file afterwards. -/
structure WriteResult where
  ret : Int
  obtained : Option Int
  file : OpenFile
  deriving DecidableEq, Repr

/-- The part of ext2_write behind the allocation. -/
def storeData (m : Mem) (sb inodeNo desc : Word) (index : Int) (f : OpenFile) (data : List Byte) :
    Except Stop (WriteResult × Mem) :=
  let m := m.setHalf (desc + 12#32) (descUnallocatedBlocks m desc - 1#16)
  match readInode m sb inodeNo with
  | .error e => .error e
  | .ok inode =>
    if (BLOCKSIZE m sb).toNat < data.length then .error .panic
    else
      let n := ofNat 32 data.length
      let m := m.setBytes (getBlock m sb (ofInt 32 index)) data
      let m := m.setWord (inode + 4#32) (m.word (inode + 4#32) + n)
      let m := m.setWord (inodeBlocks inode) (ofInt 32 index)
      .ok (⟨data.length, some index, ⟨f.pos + n, f.size + n⟩⟩, m)

def ext2Write (m : Mem) (sb inodeNo : Word) (f : OpenFile) (data : List Byte) :
    Except Stop (WriteResult × Mem) :=
  if (BLOCKSIZE m sb).toNat < data.length then .error .panic
  else match getBlockgroupCount m sb with
  | .error e => .error e
  | .ok groups =>
    match firstGroup m sb descUnallocatedBlocks groups with
    | none => .ok (⟨-1, none, f⟩, m)
    | some g =>
      if f.pos ≠ 0#32 then .error .panic
      else
        let desc := blockgroupDescriptor sb (ofNat 32 g)
        let (index, m) := getFreeBlock m sb (descBitmapBlockNo m desc)
        if index < 0 then .ok (⟨-1, none, f⟩, m)
        else storeData m sb inodeNo desc index f data

/-! Directory entries: inode, size, name length, type and name. -/

def entrySize (m : Mem) (d : Word) : BitVec 16 := m.half (d + 4#32)

def calculateDirSize (m : Mem) (d : Word) : BitVec 16 :=
  let length := m (d + 6#32)
  if 4 < length.toNat then
    let ret := length.setWidth 16 + 8#16
    let off := ret &&& 3#16
    if off ≠ 0#16 then ret + (4#16 - off) else ret
  else 12#16

def insideDir (dir base size : Word) : Bool := dir != 0#32 && decide (dir - base < size)

def advance (m : Mem) (d : Word) : Word := d + (entrySize m d).setWidth 32

/-- advance_to_last: `d2` is the entry before `d`. -/
def lastEntry (m : Mem) (base size : Word) : Nat → Word → Word → Option Word
  | 0, _, _ => none
  | n + 1, d, d2 => if insideDir d base size then lastEntry m base size n (advance m d) d else some d2

/-- A walk that takes more steps than the block has bytes stands still. -/
def advanceToLast (m : Mem) (dir size : Word) : Option Word :=
  lastEntry m dir size (size.toNat + 1) dir dir

/-- What strncpy copies for a name: at most 257 bytes, up to its end. -/
def nameBytes (name : Text) : List Byte := (name ++ [0#8]).take (min name.length 256 + 1)

/-- The new entry of do_insert behind the shortened last one. -/
def putEntry (m : Mem) (d inodeNo : Word) (name : Text) (size : BitVec 16) : Mem :=
  let m := m.setBytes (d + 8#32) (nameBytes name)
  let m := m.set (d + 7#32) 2#8
  let m := m.set (d + 6#32) (ofNat 8 (min name.length 256))
  let m := m.setWord d inodeNo
  m.setHalf (d + 4#32) size

def doInsert (m : Mem) (sb dir inodeNo : Word) (name : Text) : Except Stop Mem :=
  match advanceToLast m dir (BLOCKSIZE m sb) with
  | none => .error .endless
  | some d =>
    let oldsize := entrySize m d
    let newsize := calculateDirSize m d
    let m := m.setHalf (d + 4#32) newsize
    .ok (putEntry m (advance m d) inodeNo name (oldsize - newsize))

/-- The entries '.' and '..' of a new directory. -/
def writeDirectoryStructure (m : Mem) (sb block inodeIndex : Word) : Mem :=
  let m := m.set (block + 7#32) 0xFF#8
  let m := m.set (block + 6#32) 1#8
  let m := m.set (block + 8#32) 0x2E#8
  let firstsize := calculateDirSize m block
  let m := m.setHalf (block + 4#32) firstsize
  let m := m.setWord block inodeIndex
  let dp := advance m block
  let m := m.set (dp + 7#32) 0xFF#8
  let m := m.set (dp + 6#32) 2#8
  let m := m.set (dp + 8#32) 0x2E#8
  let m := m.set (dp + 9#32) 0x2E#8
  let m := m.setHalf (dp + 4#32) ((BLOCKSIZE m sb - firstsize.setWidth 32).setWidth 16)
  m.setWord dp inodeIndex

/-- The loop over the inode bitmap: the first word that is not full. -/
def freeInodeLoop (bitmap desc : Word) : Nat → Nat → Mem → Int × Mem
  | 0, _, m => (-1, m)
  | left + 1, i, m =>
    let a := bitmap + ofNat 32 (4 * i)
    if m.word a = 0xFFFFFFFF#32 then freeInodeLoop bitmap desc left (i + 1) m
    else
      let (out, w) := getAndSetLsb (m.word a)
      let m := m.setWord a w
      (out, m.setHalf (desc + 14#32) (descUnallocatedInodes m desc - 1#16))

/-- The inode number, NULL as `none`, and the block number obtained for a directory. -/
structure NewInode where
  inodeNo : Option Int
  obtained : Option Int
  deriving DecidableEq, Repr

/-- The cleared inode with its type and one link. -/
def initInode (m : Mem) (inode flags : Word) : Mem :=
  let m := m.setBytes inode (List.replicate 128 0#8)
  let m := m.setHalf inode (flags.setWidth 16)
  let m := m.setHalf (inode + 26#32) 1#16
  let m := m.setWord (inode + 4#32) 0#32
  let m := m.setWord (inode + 108#32) 0#32
  m.set (inode + 117#32) 0#8

/-- The block of a new directory. -/
def newDirectory (m : Mem) (sb desc inode : Word) (index : Int) : NewInode × Mem :=
  let (block, m) := getFreeBlock m sb (descBitmapBlockNo m desc)
  if block < 0 then (⟨none, none⟩, m)
  else
    let m := m.setHalf (desc + 12#32) (descUnallocatedBlocks m desc - 1#16)
    let dir := getBlock m sb (ofInt 32 block)
    let m := m.setWord (inodeBlocks inode) (ofInt 32 block)
    (⟨some index, some block⟩, writeDirectoryStructure m sb dir (ofInt 32 index))

/-- ext2_new_inode behind the allocation of the inode. -/
def createInode (m : Mem) (sb dirNo desc : Word) (index : Int) (path : Text) (flags : Word) :
    Except Stop (NewInode × Mem) :=
  match readInode m sb (ofInt 32 index) with
  | .error e => .error e
  | .ok inode =>
    let m := initInode m inode flags
    match readInode m sb dirNo with
    | .error e => .error e
    | .ok fsdir =>
      match doInsert m sb (getBlock m sb (entry m (inodeBlocks fsdir) 0)) (ofInt 32 index)
        (basename path) with
      | .error e => .error e
      | .ok m =>
        if flags &&& 0x4000#32 ≠ 0#32 then .ok (newDirectory m sb desc inode index)
        else .ok (⟨some index, none⟩, m)

def ext2NewInode (m : Mem) (sb dirNo : Word) (path : Text) (flags : Word) :
    Except Stop (NewInode × Mem) :=
  match getBlockgroupCount m sb with
  | .error e => .error e
  | .ok groups =>
    match firstGroup m sb descUnallocatedInodes groups with
    | none => .error .panic
    | some g =>
      let desc := blockgroupDescriptor sb (ofNat 32 g)
      let (index, m) := freeInodeLoop (getBlock m sb (descBitmapInodeNo m desc)) desc
        ((BLOCKSIZE m sb).toNat / 4) 0 m
      let index := index + 1
      if index < 0 then .error .panic else createInode m sb dirNo desc index path flags

end TapiOS.Fs.Ext2
