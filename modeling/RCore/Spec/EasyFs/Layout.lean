import RCore.Spec.EasyFs.Block

/-! `layout.rs`: the records on disk, the block tree of an inode, and directory
entries. A `#[repr(C)]` record is its bits, and a field of it is the run of bits
that the C layout gives it, so that padding is kept as the code keeps it. -/

namespace RCore.EasyFs

open RCore.Lib

/-- Magic number for sanity check. -/
abbrev EFS_MAGIC : ℕ := 0x3b800001

/-- The max number of direct inodes. -/
abbrev INODE_DIRECT_COUNT : ℕ := 28

/-- The max length of inode name. -/
abbrev NAME_LENGTH_LIMIT : ℕ := 27

/-- The max number of indirect1 inodes. -/
abbrev INODE_INDIRECT1_COUNT : ℕ := BLOCK_SZ / 4

/-- The max number of indirect2 inodes. -/
abbrev INODE_INDIRECT2_COUNT : ℕ := INODE_INDIRECT1_COUNT * INODE_INDIRECT1_COUNT

/-- The upper bound of indirect1 inode index. -/
abbrev INDIRECT1_BOUND : ℕ := INODE_DIRECT_COUNT + INODE_INDIRECT1_COUNT

/-- Six `u32`: magic, total_blocks, inode_bitmap_blocks, inode_area_blocks,
data_bitmap_blocks, data_area_blocks. -/
abbrev SuperBlock := BitVec 192

namespace SuperBlock

def magic (s : SuperBlock) : U32 := field s 0 32
def totalBlocks (s : SuperBlock) : U32 := field s 32 32
def inodeBitmapBlocks (s : SuperBlock) : U32 := field s 64 32
def inodeAreaBlocks (s : SuperBlock) : U32 := field s 96 32
def dataBitmapBlocks (s : SuperBlock) : U32 := field s 128 32
def dataAreaBlocks (s : SuperBlock) : U32 := field s 160 32

/-- Initialize a super block. -/
def initializeAs (s : SuperBlock) (totalBlocks inodeBitmapBlocks inodeAreaBlocks
    dataBitmapBlocks dataAreaBlocks : ℕ) : SuperBlock :=
  let s := splice s 0 (BitVec.ofNat 32 EFS_MAGIC)
  let s := splice s 32 (BitVec.ofNat 32 totalBlocks)
  let s := splice s 64 (BitVec.ofNat 32 inodeBitmapBlocks)
  let s := splice s 96 (BitVec.ofNat 32 inodeAreaBlocks)
  let s := splice s 128 (BitVec.ofNat 32 dataBitmapBlocks)
  splice s 160 (BitVec.ofNat 32 dataAreaBlocks)

/-- Check if a super block is valid using efs magic. -/
def isValid (s : SuperBlock) : Bool := s.magic == BitVec.ofNat 32 EFS_MAGIC

end SuperBlock

/-- Type of a disk inode. -/
inductive DiskInodeType where
  | file
  | directory
deriving DecidableEq

def DiskInodeType.toByte : DiskInodeType → BitVec 8
  | .file => 0
  | .directory => 1

/-- 128 bytes: `size: u32`, `direct: [u32; 28]`, `indirect1: u32`,
`indirect2: u32`, `type_` in one byte, three bytes of padding. -/
abbrev DiskInode := BitVec 1024

namespace DiskInode

def size (x : DiskInode) : ℕ := (field x 0 32).toNat
def direct (x : DiskInode) (i : ℕ) : U32 := field x (32 + 32 * i) 32
def indirect1 (x : DiskInode) : U32 := field x 928 32
def indirect2 (x : DiskInode) : U32 := field x 960 32
def type_ (x : DiskInode) : BitVec 8 := field x 992 8

def setSize (x : DiskInode) (n : ℕ) : DiskInode := splice x 0 (BitVec.ofNat 32 n)
def setDirect (x : DiskInode) (i : ℕ) (v : U32) : DiskInode := splice x (32 + 32 * i) v
def setIndirect1 (x : DiskInode) (v : U32) : DiskInode := splice x 928 v
def setIndirect2 (x : DiskInode) (v : U32) : DiskInode := splice x 960 v
def setType (x : DiskInode) (t : DiskInodeType) : DiskInode := splice x 992 t.toByte

/-- Initialize a disk inode, as well as all direct inodes under it. -/
def initializeAs (x : DiskInode) (t : DiskInodeType) : DiskInode :=
  let x := x.setSize 0
  let x := (List.range INODE_DIRECT_COUNT).foldl (fun x i => x.setDirect i 0) x
  ((x.setIndirect1 0).setIndirect2 0).setType t

/-- Whether this inode is a directory. -/
def isDir (x : DiskInode) : Bool := x.type_ == DiskInodeType.directory.toByte

/-- `_data_blocks`: the number of blocks that `size` bytes take, in `u32`. -/
def dataBlocksOf (size : ℕ) : ℕ := (size + BLOCK_SZ - 1) % 2 ^ 32 / BLOCK_SZ

/-- Return block number correspond to size. -/
def dataBlocks (x : DiskInode) : ℕ := dataBlocksOf x.size

/-- Return number of blocks needed include indirect1/2. -/
def totalBlocks (size : ℕ) : ℕ :=
  let dataBlocks := dataBlocksOf size
  let total := dataBlocks
  let total := if dataBlocks > INODE_DIRECT_COUNT then total + 1 else total
  if dataBlocks > INDIRECT1_BOUND then
    total + 1 +
      (dataBlocks - INDIRECT1_BOUND + INODE_INDIRECT1_COUNT - 1) / INODE_INDIRECT1_COUNT
  else total

/-- Get the number of data blocks that have to be allocated given the new size of data. -/
def blocksNumNeeded (x : DiskInode) (newSize : ℕ) : Fs ℕ := do
  Prog.assert (newSize ≥ x.size)
  pure (totalBlocks newSize - totalBlocks x.size)

/-- `indirect_block[i]`, with its bounds check. -/
def entry (b : Block) (i : ℕ) : Fs U32 :=
  if i < INODE_INDIRECT1_COUNT then pure (u32At b i) else .fail

/-- Get id of block given inner id. -/
def getBlockId (x : DiskInode) (innerId : ℕ) : Fs U32 :=
  if innerId < INODE_DIRECT_COUNT then pure (x.direct innerId)
  else if innerId < INDIRECT1_BOUND then
    readAt x.indirect1.toNat 0 4096 fun b => entry b (innerId - INODE_DIRECT_COUNT)
  else do
    let last := innerId - INDIRECT1_BOUND
    let indirect1 ← readAt x.indirect2.toNat 0 4096 fun b =>
      entry b (last / INODE_INDIRECT1_COUNT)
    readAt indirect1.toNat 0 4096 fun b => entry b (last % INODE_INDIRECT1_COUNT)

/-- `new_blocks.next().unwrap()` -/
def next : List U32 → Fs (U32 × List U32)
  | v :: rest => pure (v, rest)
  | [] => .fail

/-- The loop of `increase_size` that fills `direct`, with `n` entries to go. -/
def fillDirect : ℕ → DiskInode → ℕ → List U32 → Fs (DiskInode × List U32)
  | 0, x, _, new => pure (x, new)
  | n + 1, x, current, new => do
    let (v, new) ← next new
    fillDirect n (x.setDirect current v) (current + 1) new

/-- The loop that fills an indirect block, with `n` entries to go. -/
def fillIndirect1 : ℕ → Block → ℕ → List U32 → Fs (Block × List U32)
  | 0, b, _, new => pure (b, new)
  | n + 1, b, current, new => do
    let (v, new) ← next new
    fillIndirect1 n (setU32 b current v) (current + 1) new

/-- `indirect2[a0] = new_blocks.next().unwrap()` when `b0 == 0`. -/
def allocSub (b : Block) (a0 b0 : ℕ) (new : List U32) : Fs (Block × List U32) :=
  if b0 = 0 then do
    let (v, new) ← next new
    if a0 < INODE_INDIRECT1_COUNT then pure (setU32 b a0 v, new) else .fail
  else pure (b, new)

/-- The loop that fills `indirect2` from (a0, b0) to (a1, b1). The first argument
bounds its iterations. -/
def fillIndirect2 (a1 b1 : ℕ) : ℕ → Block → ℕ → ℕ → List U32 → Fs (Block × List U32)
  | 0, b, a0, b0, new => if a0 < a1 ∨ (a0 = a1 ∧ b0 < b1) then .fail else pure (b, new)
  | n + 1, b, a0, b0, new =>
    if a0 < a1 ∨ (a0 = a1 ∧ b0 < b1) then do
      let (b, new) ← allocSub b a0 b0 new
      let sub ← entry b a0
      let new ← modifyAt sub.toNat 0 4096 fun indirect1 => do
        let (v, new) ← next new
        pure (setU32 indirect1 b0 v, new)
      if b0 + 1 = INODE_INDIRECT1_COUNT then fillIndirect2 a1 b1 n b (a0 + 1) 0 new
      else fillIndirect2 a1 b1 n b a0 (b0 + 1) new
    else pure (b, new)

/-- `alloc indirect2` -/
def allocIndirect2 (x : DiskInode) (current : ℕ) (new : List U32) : Fs (DiskInode × List U32) :=
  if current = INODE_INDIRECT1_COUNT then do
    let (v, new) ← next new
    pure (x.setIndirect2 v, new)
  else pure (x, new)

/-- The part of `increase_size` after `fill indirect1`. -/
def growIndirect2 (x : DiskInode) (current total : ℕ) (new : List U32) :
    Fs (DiskInode × List U32) := do
  let (x, new) ← allocIndirect2 x current new
  let current := current - INODE_INDIRECT1_COUNT
  let total := total - INODE_INDIRECT1_COUNT
  let a0 := current / INODE_INDIRECT1_COUNT
  let b0 := current % INODE_INDIRECT1_COUNT
  let a1 := total / INODE_INDIRECT1_COUNT
  let b1 := total % INODE_INDIRECT1_COUNT
  let new ← modifyAt x.indirect2.toNat 0 4096 fun indirect2 =>
    fillIndirect2 a1 b1 (total - current) indirect2 a0 b0 new
  pure (x, new)

/-- `alloc indirect1` -/
def allocIndirect1 (x : DiskInode) (current : ℕ) (new : List U32) : Fs (DiskInode × List U32) :=
  if current = INODE_DIRECT_COUNT then do
    let (v, new) ← next new
    pure (x.setIndirect1 v, new)
  else pure (x, new)

/-- The part of `increase_size` after `fill direct`. -/
def growIndirect1 (x : DiskInode) (current total : ℕ) (new : List U32) :
    Fs (DiskInode × List U32) := do
  let (x, new) ← allocIndirect1 x current new
  let current := current - INODE_DIRECT_COUNT
  let total := total - INODE_DIRECT_COUNT
  let filled := min total INODE_INDIRECT1_COUNT - current
  let new ← modifyAt x.indirect1.toNat 0 4096 fun indirect1 =>
    fillIndirect1 filled indirect1 current new
  let current := current + filled
  if total > INODE_INDIRECT1_COUNT then growIndirect2 x current total new
  else pure (x, new)

/-- Increase the size of current disk inode. The second result is what is left
of `new_blocks`, which the code drops. -/
def increaseSize (x : DiskInode) (newSize : ℕ) (newBlocks : List U32) :
    Fs (DiskInode × List U32) := do
  let current := x.dataBlocks
  let x := x.setSize newSize
  let total := x.dataBlocks
  let filled := min total INODE_DIRECT_COUNT - current
  let (x, new) ← fillDirect filled x current newBlocks
  let current := current + filled
  if total > INODE_DIRECT_COUNT then growIndirect1 x current total new
  else pure (x, new)

/-- The loop of `clear_size` over `direct`, with `n` entries to go. -/
def clearDirect : ℕ → DiskInode → ℕ → List U32 → DiskInode × List U32
  | 0, x, _, v => (x, v)
  | n + 1, x, current, v =>
    clearDirect n (x.setDirect current 0) (current + 1) (v ++ [x.direct current])

/-- `indirect.iter().take(n)` -/
def entries (b : Block) (n : ℕ) : List U32 := (List.range n).map (u32At b)

/-- One sub-indirect block of `clear_size`: its id, then its first `n` entries. -/
def clearSub (sub : U32) (n : ℕ) : Fs (List U32) :=
  modifyAt sub.toNat 0 4096 fun indirect1 => pure (indirect1, sub :: entries indirect1 n)

/-- The full sub-indirect blocks of `clear_size`. -/
def clearSubs (indirect2 : Block) : List ℕ → List U32 → Fs (List U32)
  | [], v => pure v
  | a :: as, v => do
    let sub ← clearSub (u32At indirect2 a) INODE_INDIRECT1_COUNT
    clearSubs indirect2 as (v ++ sub)

/-- The part of `clear_size` under the lock of the double indirect block. -/
def clearIndirect2 (indirect2 : Block) (dataBlocks : ℕ) (v : List U32) :
    Fs (Block × List U32) := do
  let a1 := dataBlocks / INODE_INDIRECT1_COUNT
  let b1 := dataBlocks % INODE_INDIRECT1_COUNT
  let v ← clearSubs indirect2 (List.range a1) v
  if b1 > 0 then do
    let sub ← entry indirect2 a1
    let last ← clearSub sub b1
    pure (indirect2, v ++ last)
  else pure (indirect2, v)

/-- Clear size to zero and return blocks that should be deallocated. -/
def clearSize (x : DiskInode) : Fs (DiskInode × List U32) := do
  let dataBlocks := x.dataBlocks
  let x := x.setSize 0
  let (x, v) := clearDirect (min dataBlocks INODE_DIRECT_COUNT) x 0 []
  if dataBlocks > INODE_DIRECT_COUNT then
    let v := v ++ [x.indirect1]
    let dataBlocks := dataBlocks - INODE_DIRECT_COUNT
    let v ← modifyAt x.indirect1.toNat 0 4096 fun indirect1 =>
      pure (indirect1, v ++ entries indirect1 (min dataBlocks INODE_INDIRECT1_COUNT))
    let x := x.setIndirect1 0
    if dataBlocks > INODE_INDIRECT1_COUNT then
      let v := v ++ [x.indirect2]
      let dataBlocks := dataBlocks - INODE_INDIRECT1_COUNT
      Prog.assert (dataBlocks ≤ INODE_INDIRECT2_COUNT)
      let v ← modifyAt x.indirect2.toNat 0 4096 fun indirect2 =>
        clearIndirect2 indirect2 dataBlocks v
      pure (x.setIndirect2 0, v)
    else pure (x, v)
  else pure (x, v)

/-- The loop of `read_at`. The first argument bounds its iterations; the result
is the bytes copied to the buffer, whose number is `read_size`. -/
def readLoop (x : DiskInode) (stop : ℕ) : ℕ → ℕ → ℕ → List UInt8 → Fs (List UInt8)
  | 0, _, _, _ => .fail
  | n + 1, start, startBlock, buf => do
    let endCurrentBlock := min ((start / BLOCK_SZ + 1) * BLOCK_SZ) stop
    let blockReadSize := endCurrentBlock - start
    let id ← x.getBlockId startBlock
    let src ← readAt id.toNat 0 4096 fun b => pure (slice b (start % BLOCK_SZ) blockReadSize)
    if endCurrentBlock = stop then pure (buf ++ src)
    else readLoop x stop n endCurrentBlock (startBlock + 1) (buf ++ src)

/-- Read data from current disk inode into a buffer of `len` bytes. -/
def readAt (x : DiskInode) (offset len : ℕ) : Fs (List UInt8) :=
  let stop := min (offset + len) x.size
  if offset ≥ stop then pure []
  else readLoop x stop (stop - offset) offset (offset / BLOCK_SZ) []

/-- The loop of `write_at`. The first argument bounds its iterations. -/
def writeLoop (x : DiskInode) (buf : List UInt8) (stop : ℕ) : ℕ → ℕ → ℕ → ℕ → Fs ℕ
  | 0, _, _, _ => .fail
  | n + 1, start, startBlock, writeSize => do
    let endCurrentBlock := min ((start / BLOCK_SZ + 1) * BLOCK_SZ) stop
    let blockWriteSize := endCurrentBlock - start
    let id ← x.getBlockId startBlock
    modifyAt id.toNat 0 4096 fun b =>
      pure (copyFromSlice b (start % BLOCK_SZ) ((buf.drop writeSize).take blockWriteSize), ())
    let writeSize := writeSize + blockWriteSize
    if endCurrentBlock = stop then pure writeSize
    else writeLoop x buf stop n endCurrentBlock (startBlock + 1) writeSize

/-- Write data into current disk inode; size must be adjusted properly beforehand. -/
def writeAt (x : DiskInode) (offset : ℕ) (buf : List UInt8) : Fs ℕ := do
  let stop := min (offset + buf.length) x.size
  Prog.assert (offset ≤ stop)
  writeLoop x buf stop (stop - offset + 1) offset (offset / BLOCK_SZ) 0

end DiskInode

/-- 32 bytes: `name: [u8; NAME_LENGTH_LIMIT + 1]`, then `inode_number: u32`. -/
abbrev DirEntry := BitVec 256

/-- Size of a directory entry. -/
abbrev DIRENT_SZ : ℕ := 32

namespace DirEntry

/-- The bytes of a string. -/
def strBytes (s : String) : List UInt8 := s.toUTF8.data.toList

/-- Crate a directory entry from name and inode number. The slice of the name
array panics on a name of more than 28 bytes. -/
def new (name : String) (inodeNumber : ℕ) : Fs DirEntry := do
  Prog.assert ((strBytes name).length ≤ NAME_LENGTH_LIMIT + 1)
  pure (splice (copyFromSlice (0 : DirEntry) 0 (strBytes name)) 224 (BitVec.ofNat 32 inodeNumber))

/-- Serialize into bytes. -/
def asBytes (e : DirEntry) : List UInt8 := (List.range DIRENT_SZ).map (byteAt e)

/-- What `as_bytes_mut` holds after a read of `buf` into it. -/
def ofBytes (buf : List UInt8) : DirEntry := copyFromSlice (0 : DirEntry) 0 buf

/-- Get name of the entry: the bytes before the first zero. It panics when there
is no zero among the 28 bytes, and when they are not UTF-8. -/
def name (e : DirEntry) : Fs String := do
  let len ← Prog.ofOption ((List.range (NAME_LENGTH_LIMIT + 1)).find? fun i => byteAt e i == 0)
  Prog.ofOption (String.fromUTF8? ⟨((List.range len).map (byteAt e)).toArray⟩)

/-- Get inode number of the entry. -/
def inodeNumber (e : DirEntry) : ℕ := (field e 224 32).toNat

end DirEntry

end RCore.EasyFs
