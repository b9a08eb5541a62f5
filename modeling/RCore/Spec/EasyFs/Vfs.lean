import RCore.Spec.EasyFs.Efs

/-! `vfs.rs`: files and directories over the disk inodes. Every call holds the
lock of the file system from start to end, so the calls are sequential and the
lock does not appear. -/

namespace RCore.EasyFs

open RCore.Lib

/-- Where a disk inode lies. -/
structure Inode where
  blockId : ℕ
  blockOffset : ℕ
deriving DecidableEq

namespace Inode

/-- The handle of the disk inode `inodeId`. -/
def ofId (fs : EasyFileSystem) (inodeId : ℕ) : Inode :=
  ⟨(fs.getDiskInodePos inodeId).1, (fs.getDiskInodePos inodeId).2⟩

/-- Call a function over a disk inode to read it. -/
def readDiskInode {α : Type} (h : Inode) (f : DiskInode → Fs α) : Fs α :=
  readAt h.blockId h.blockOffset 1024 f

/-- Call a function over a disk inode to modify it. -/
def modifyDiskInode {α : Type} (h : Inode) (f : DiskInode → Fs (DiskInode × α)) : Fs α :=
  modifyAt h.blockId h.blockOffset 1024 f

/-- The loop of `find_inode_id`, with `n` entries to go from entry `i` on. -/
def findFrom (name : String) (x : DiskInode) : ℕ → ℕ → Fs (Option ℕ)
  | 0, _ => pure none
  | n + 1, i => do
    let buf ← x.readAt (DIRENT_SZ * i) DIRENT_SZ
    Prog.assert (buf.length = DIRENT_SZ)
    let dirent := DirEntry.ofBytes buf
    let entryName ← dirent.name
    if entryName = name then pure (some dirent.inodeNumber)
    else findFrom name x n (i + 1)

/-- Find inode under a disk inode by name. -/
def findInodeId (name : String) (x : DiskInode) : Fs (Option ℕ) := do
  Prog.assert (x.isDir = true)
  findFrom name x (x.size / DIRENT_SZ) 0

/-- Find inode under current inode by name. -/
def find (fs : EasyFileSystem) (h : Inode) (name : String) : Fs (Option Inode) :=
  h.readDiskInode fun x => do
    let id ← findInodeId name x
    pure (id.map (ofId fs))

/-- `for _ in 0..blocks_needed { v.push(fs.alloc_data()) }` -/
def allocBlocks (fs : EasyFileSystem) : ℕ → List U32 → Fs (List U32)
  | 0, v => pure v
  | n + 1, v => do
    let b ← fs.allocData
    allocBlocks fs n (v ++ [BitVec.ofNat 32 b])

/-- Increase the size of a disk inode. -/
def increaseSize (fs : EasyFileSystem) (newSize : ℕ) (x : DiskInode) : Fs DiskInode :=
  if newSize < x.size then pure x
  else do
    let blocksNeeded ← x.blocksNumNeeded newSize
    let v ← allocBlocks fs blocksNeeded []
    let r ← x.increaseSize newSize v
    pure r.1

/-- Create inode under current inode by name. -/
def create (fs : EasyFileSystem) (h : Inode) (name : String) : Fs (Option Inode) := do
  let found ← h.readDiskInode fun x => do
    Prog.assert (x.isDir = true)
    findInodeId name x
  if found.isSome then pure none
  else do
    let newInodeId ← fs.allocInode
    let (newInodeBlockId, newInodeBlockOffset) := fs.getDiskInodePos newInodeId
    modifyAt newInodeBlockId newInodeBlockOffset 1024 fun (newInode : DiskInode) =>
      pure (newInode.initializeAs .file, ())
    h.modifyDiskInode fun x => do
      let fileCount := x.size / DIRENT_SZ
      let newSize := (fileCount + 1) * DIRENT_SZ
      let x ← increaseSize fs (newSize % 2 ^ 32) x
      let dirent ← DirEntry.new name newInodeId
      let _ ← x.writeAt (fileCount * DIRENT_SZ) dirent.asBytes
      pure (x, ())
    blockCacheSyncAll
    pure (some (ofId fs newInodeId))

/-- The loop of `ls`, with `n` entries to go from entry `i` on. -/
def lsFrom (x : DiskInode) : ℕ → ℕ → List String → Fs (List String)
  | 0, _, v => pure v
  | n + 1, i, v => do
    let buf ← x.readAt (i * DIRENT_SZ) DIRENT_SZ
    Prog.assert (buf.length = DIRENT_SZ)
    let entryName ← (DirEntry.ofBytes buf).name
    lsFrom x n (i + 1) (v ++ [entryName])

/-- List inodes under current inode. -/
def ls (h : Inode) : Fs (List String) :=
  h.readDiskInode fun x => lsFrom x (x.size / DIRENT_SZ) 0 []

/-- Read data from current inode into a buffer of `len` bytes. -/
def readAt (h : Inode) (offset len : ℕ) : Fs (List UInt8) :=
  h.readDiskInode fun x => x.readAt offset len

/-- Write data to current inode. -/
def writeAt (fs : EasyFileSystem) (h : Inode) (offset : ℕ) (buf : List UInt8) : Fs ℕ := do
  let size ← h.modifyDiskInode fun x => do
    let x ← increaseSize fs ((offset + buf.length) % 2 ^ 32) x
    let size ← x.writeAt offset buf
    pure (x, size)
  blockCacheSyncAll
  pure size

/-- `for data_block in data_blocks_dealloc { fs.dealloc_data(data_block) }` -/
def deallocBlocks (fs : EasyFileSystem) : List U32 → Fs Unit
  | [] => pure ()
  | b :: bs => do
    fs.deallocData b.toNat
    deallocBlocks fs bs

/-- Clear the data in current inode. -/
def clear (fs : EasyFileSystem) (h : Inode) : Fs Unit := do
  h.modifyDiskInode fun x => do
    let size := x.size
    let (x, dealloc) ← x.clearSize
    Prog.assert (dealloc.length = DiskInode.totalBlocks size)
    deallocBlocks fs dealloc
    pure (x, ())
  blockCacheSyncAll

end Inode

end RCore.EasyFs
