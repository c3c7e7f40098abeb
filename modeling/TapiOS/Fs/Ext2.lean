import TapiOS.Util.Memory

/-!
# Reading files, fs/ext2.c

The image lies in memory; `sb` is the address of its superblock. Fields are read at the
offsets of the structs in ext2.h. The buffer that a read fills lies outside of the image,
so a read returns the bytes it stored there. The position and the size of the open file
are those of struct file and of its struct inode.
-/
namespace TapiOS.Fs.Ext2

open Util
open BitVec (ofNat)

/-- PANIC, a division by zero, and a walk through a directory that never ends. -/
inductive Stop where
  | panic
  | divide
  | endless
  deriving DecidableEq, Repr

def SUPERBLOCK_SIZE : Word := 1024#32
def FINAL_DIRECT_BLOCK : Nat := 11
def SINGLY_INDIRECT_BLOCK : Nat := 12
def DOUBLY_INDIRECT_BLOCK : Nat := 13
def TRIPLY_INDIRECT_BLOCK : Nat := 14

/-- sizeof(ext2_inode) and sizeof(ext2_blockgroup_descriptor) -/
def inodeSize : Word := 128#32
def descriptorSize : Word := 32#32

/-! Fields of ext2_superblock. -/

def sbInodes (m : Mem) (sb : Word) : Word := m.word sb
def sbBlocks (m : Mem) (sb : Word) : Word := m.word (sb + 4#32)
def sbSuperblockBlocknum (m : Mem) (sb : Word) : Word := m.word (sb + 20#32)
def sbBlockSizeShift (m : Mem) (sb : Word) : Word := m.word (sb + 24#32)
def sbBlocksInBlockgroup (m : Mem) (sb : Word) : Word := m.word (sb + 32#32)
def sbInodesInBlockgroup (m : Mem) (sb : Word) : Word := m.word (sb + 40#32)

/-- `1024 << block_size_shift`; the processor takes the count modulo 32. -/
def BLOCKSIZE (m : Mem) (sb : Word) : Word :=
  1024#32 <<< ((sbBlockSizeShift m sb).toNat % 32)

def getBlock (m : Mem) (sb block : Word) : Word :=
  sb - SUPERBLOCK_SIZE + BLOCKSIZE m sb * block

/-- The address of a block group's descriptor. -/
def blockgroupDescriptor (sb blockgroup : Word) : Word :=
  sb + SUPERBLOCK_SIZE + descriptorSize * blockgroup

def descBitmapBlockNo (m : Mem) (desc : Word) : Word := m.word desc
def descBitmapInodeNo (m : Mem) (desc : Word) : Word := m.word (desc + 4#32)
def descInodeTableBlock (m : Mem) (desc : Word) : Word := m.word (desc + 8#32)
def descUnallocatedBlocks (m : Mem) (desc : Word) : BitVec 16 := m.half (desc + 12#32)
def descUnallocatedInodes (m : Mem) (desc : Word) : BitVec 16 := m.half (desc + 14#32)

/-- The address of an inode. The inode size of the superblock only enters `block`, which
is not used; its division by the block size is made. -/
def readInode (m : Mem) (sb inodeIndex : Word) : Except Stop Word :=
  let perGroup := sbInodesInBlockgroup m sb
  if perGroup = 0#32 ∨ BLOCKSIZE m sb = 0#32 then .error .divide
  else
    let blockgroup := (inodeIndex - 1#32) / perGroup
    let index := (inodeIndex - 1#32) % perGroup
    .ok (getBlock m sb (descInodeTableBlock m (blockgroupDescriptor sb blockgroup)) +
      inodeSize * index)

/-- `type_and_permissions & 0x4000` -/
def isDir (m : Mem) (inode : Word) : Bool := m.half inode &&& 0x4000#16 != 0#16

/-- inode->blocks -/
def inodeBlocks (inode : Word) : Word := inode + 40#32

/-- `blocks[i]` of an array of block numbers. -/
def entry (m : Mem) (blocks : Word) (i : Nat) : Word := m.word (blocks + ofNat 32 (4 * i))

/-- f->pos and f->inode->size. -/
structure OpenFile where
  pos : Word
  size : Word
  deriving DecidableEq, Repr

/-- f->pos+=n -/
def OpenFile.advance (f : OpenFile) (n : Nat) : OpenFile := { f with pos := f.pos + ofNat 32 n }

/-- The loop of read_block from index `i`; `left` of the block's bytes are left. -/
def readBlockLoop (m : Mem) (f : Option OpenFile) (block count : Word) : Nat → Nat → List Byte
  | 0, _ => []
  | left + 1, i =>
    if ofNat 32 i = count then []
    else if f.any (fun f => decide (f.size ≤ ofNat 32 i + f.pos)) then []
    else m (block + ofNat 32 i) :: readBlockLoop m f block count left (i + 1)

/-- read_block: the bytes it stores. The caller advances the file. -/
def readBlock (m : Mem) (sb : Word) (f : Option OpenFile) (block count : Word) : List Byte :=
  readBlockLoop m f block count (BLOCKSIZE m sb).toNat 0

/-- The loop that reads one block after another, as in read_indirect_block and in the
direct part of read_blocks: `left` entries of `blocks` from index `i`. -/
def readEntries (m : Mem) (sb blocks : Word) : Nat → Nat → OpenFile → Word → List Byte × OpenFile
  | 0, _, f, _ => ([], f)
  | left + 1, i, f, count =>
    let bytes := readBlock m sb (some f) (getBlock m sb (entry m blocks i)) count
    let f := f.advance bytes.length
    if count ≤ ofNat 32 bytes.length ∨ f.size ≤ f.pos then (bytes, f)
    else
      let (rest, f) := readEntries m sb blocks left (i + 1) f (count - ofNat 32 bytes.length)
      (bytes ++ rest, f)

def readIndirectBlock (m : Mem) (sb : Word) (f : OpenFile) (blocks count : Word) :
    List Byte × OpenFile :=
  readEntries m sb blocks ((BLOCKSIZE m sb).toNat / 4) 0 f count

/-- The cleared buffer with a copy of the doubly indirect block. -/
def doublyIndirectBlock (m : Mem) (sb block : Word) : Mem :=
  fun x => (readBlock m sb none block (BLOCKSIZE m sb)).getD x.toNat 0#8

/-- The loop over the entries of the doubly indirect block, which never breaks off. -/
def readDoublyIndirect (m : Mem) (sb : Word) (table : Mem) :
    Nat → Nat → OpenFile → Word → List Byte × OpenFile
  | 0, _, f, _ => ([], f)
  | left + 1, i, f, count =>
    let (bytes, f) := readIndirectBlock m sb f (getBlock m sb (entry table 0#32 i)) count
    let (rest, f) := readDoublyIndirect m sb table left (i + 1) f
      (count - ofNat 32 bytes.length)
    (bytes ++ rest, f)

/-- The singly indirect part of read_blocks. -/
def readSingly (m : Mem) (sb blocks : Word) (f : OpenFile) (count : Word) : List Byte × OpenFile :=
  if entry m blocks SINGLY_INDIRECT_BLOCK ≠ 0#32 ∧ 12#32 * BLOCKSIZE m sb ≤ f.pos then
    readIndirectBlock m sb f (getBlock m sb (entry m blocks SINGLY_INDIRECT_BLOCK)) count
  else ([], f)

/-- The doubly indirect part of read_blocks. -/
def readDoubly (m : Mem) (sb blocks : Word) (f : OpenFile) (count : Word) : List Byte × OpenFile :=
  if entry m blocks DOUBLY_INDIRECT_BLOCK ≠ 0#32 ∧
      12#32 * BLOCKSIZE m sb + 256#32 * BLOCKSIZE m sb ≤ f.pos then
    readDoublyIndirect m sb
      (doublyIndirectBlock m sb (getBlock m sb (entry m blocks DOUBLY_INDIRECT_BLOCK)))
      (BLOCKSIZE m sb).toNat 0 f count
  else ([], f)

def readBlocks (m : Mem) (sb : Word) (f : OpenFile) (blocks count : Word) :
    Except Stop (List Byte × OpenFile) :=
  let blocksize := BLOCKSIZE m sb
  if f.size ≤ f.pos then .ok ([], f)
  else if blocksize = 0#32 then .error .divide
  else
    let b := (f.pos / blocksize).toNat
    let (direct, f) := readEntries m sb blocks (FINAL_DIRECT_BLOCK + 1 - b) b f count
    let count := count - ofNat 32 direct.length
    let (singly, f) := readSingly m sb blocks f count
    let count := count - ofNat 32 singly.length
    let (doubly, f) := readDoubly m sb blocks f count
    if entry m blocks TRIPLY_INDIRECT_BLOCK ≠ 0#32 then .error .panic
    else .ok (direct ++ singly ++ doubly, f)

def EISDIR : Int := 21

/-- The return value, the bytes stored in the buffer and the file afterwards. -/
structure ReadResult where
  ret : Int
  bytes : List Byte
  file : OpenFile
  deriving DecidableEq, Repr

/-- ext2_read of the file with the given inode number; `ret` is an int. -/
def ext2Read (m : Mem) (sb inodeNo : Word) (f : OpenFile) (count : Word) :
    Except Stop ReadResult :=
  match readInode m sb inodeNo with
  | .error e => .error e
  | .ok inode =>
    if isDir m inode then .ok ⟨-EISDIR, [], f⟩
    else match readBlocks m sb f (inodeBlocks inode) count with
    | .error e => .error e
    | .ok (bytes, f) => .ok ⟨(ofNat 32 bytes.length).toInt, bytes, f⟩

end TapiOS.Fs.Ext2
