import RCore.Spec.EasyFs.Bitmap
import RCore.Spec.EasyFs.Layout

/-! `efs.rs`: the layout of the disk and the allocation of inodes and blocks.
Sums and differences of `u32` are checked, an overflow stops the call; a cast to
`u32` keeps the low bits. -/

namespace RCore.EasyFs

open RCore.Lib

/-- A `u32` result that overflow checks let through. -/
def checkedU32 (n : ℕ) : Fs ℕ := do
  Prog.assert (n < 2 ^ 32)
  pure n

/-- A `u32` difference that overflow checks let through. -/
def checkedSub (a b : ℕ) : Fs ℕ := do
  Prog.assert (b ≤ a)
  pure (a - b)

structure EasyFileSystem where
  inodeBitmap : Bitmap
  dataBitmap : Bitmap
  inodeAreaStartBlock : ℕ
  dataAreaStartBlock : ℕ
deriving DecidableEq

namespace EasyFileSystem

/-- `size_of::<DiskInode>()` -/
abbrev INODE_SIZE : ℕ := 128

/-- Get inode by id: its block, and its byte offset in the block. -/
def getDiskInodePos (fs : EasyFileSystem) (inodeId : ℕ) : ℕ × ℕ :=
  let inodesPerBlock := BLOCK_SZ / INODE_SIZE
  (fs.inodeAreaStartBlock + inodeId / inodesPerBlock, inodeId % inodesPerBlock * INODE_SIZE)

/-- Get data block by id. -/
def getDataBlockId (fs : EasyFileSystem) (dataBlockId : ℕ) : ℕ :=
  fs.dataAreaStartBlock + dataBlockId

/-- Allocate a new inode. -/
def allocInode (fs : EasyFileSystem) : Fs ℕ := do
  let bit ← fs.inodeBitmap.alloc
  let bit ← Prog.ofOption bit
  pure (bit % 2 ^ 32)

/-- Allocate a data block. -/
def allocData (fs : EasyFileSystem) : Fs ℕ := do
  let bit ← fs.dataBitmap.alloc
  let bit ← Prog.ofOption bit
  checkedU32 (bit % 2 ^ 32 + fs.dataAreaStartBlock)

/-- Deallocate a data block. -/
def deallocData (fs : EasyFileSystem) (blockId : ℕ) : Fs Unit := do
  modifyAt blockId 0 4096 fun _ => pure (0, ())
  let bit ← checkedSub blockId fs.dataAreaStartBlock
  fs.dataBitmap.dealloc bit

/-- The sizes of the areas: inode area, data bitmap, data area. -/
structure Areas where
  inodeAreaBlocks : ℕ
  dataBitmapBlocks : ℕ
  dataAreaBlocks : ℕ

/-- Calculate block size of areas. -/
def areas (totalBlocks inodeBitmapBlocks : ℕ) : Fs Areas := do
  let inodeNum := inodeBitmapBlocks * BLOCK_BITS
  let inodeAreaBlocks := (inodeNum * INODE_SIZE + BLOCK_SZ - 1) / BLOCK_SZ % 2 ^ 32
  let inodeTotalBlocks ← checkedU32 (inodeBitmapBlocks + inodeAreaBlocks)
  let rest ← checkedSub totalBlocks 1
  let dataTotalBlocks ← checkedSub rest inodeTotalBlocks
  let rounded ← checkedU32 (dataTotalBlocks + 4096)
  let dataBitmapBlocks := rounded / 4097
  let dataAreaBlocks ← checkedSub dataTotalBlocks dataBitmapBlocks
  pure ⟨inodeAreaBlocks, dataBitmapBlocks, dataAreaBlocks⟩

/-- The file system whose areas follow each other in this order: super block,
inode bitmap, inode area, data bitmap, data area. -/
def ofAreas (inodeBitmapBlocks : ℕ) (a : Areas) : EasyFileSystem where
  inodeBitmap := ⟨1, inodeBitmapBlocks⟩
  dataBitmap := ⟨1 + inodeBitmapBlocks + a.inodeAreaBlocks, a.dataBitmapBlocks⟩
  inodeAreaStartBlock := 1 + inodeBitmapBlocks
  dataAreaStartBlock := 1 + (inodeBitmapBlocks + a.inodeAreaBlocks) + a.dataBitmapBlocks

/-- Clear all blocks: the loop, with `n` blocks to go from block `i` on. -/
def clearBlocks : ℕ → ℕ → Fs Unit
  | 0, _ => pure ()
  | n + 1, i => do
    modifyAt i 0 4096 fun _ => pure (0, ())
    clearBlocks n (i + 1)

/-- `EasyFileSystem::create` -/
def create (totalBlocks inodeBitmapBlocks : ℕ) : Fs EasyFileSystem := do
  let a ← areas totalBlocks inodeBitmapBlocks
  let fs := ofAreas inodeBitmapBlocks a
  clearBlocks totalBlocks 0
  modifyAt 0 0 192 fun (superBlock : SuperBlock) =>
    pure (superBlock.initializeAs totalBlocks inodeBitmapBlocks a.inodeAreaBlocks
      a.dataBitmapBlocks a.dataAreaBlocks, ())
  let root ← fs.allocInode
  Prog.assert (root = 0)
  let (rootInodeBlockId, rootInodeOffset) := fs.getDiskInodePos 0
  modifyAt rootInodeBlockId rootInodeOffset 1024 fun (diskInode : DiskInode) =>
    pure (diskInode.initializeAs .directory, ())
  blockCacheSyncAll
  pure fs

/-- Open a block device as a filesystem. -/
def open_ : Fs EasyFileSystem :=
  readAt 0 0 192 fun (superBlock : SuperBlock) => do
    Prog.assert (superBlock.isValid = true)
    let inodeBitmapBlocks := superBlock.inodeBitmapBlocks.toNat
    let inodeTotalBlocks ← checkedU32 (inodeBitmapBlocks + superBlock.inodeAreaBlocks.toNat)
    pure
      { inodeBitmap := ⟨1, inodeBitmapBlocks⟩
        dataBitmap := ⟨1 + inodeTotalBlocks, superBlock.dataBitmapBlocks.toNat⟩
        inodeAreaStartBlock := 1 + inodeBitmapBlocks
        dataAreaStartBlock := 1 + inodeTotalBlocks + superBlock.dataBitmapBlocks.toNat }

end EasyFileSystem

end RCore.EasyFs
