import RCore.Spec.EasyFs.Vfs

/-! The file system in use: a disk is formatted, and then files are created,
written and cleared through the handles that `root_inode` and `create` give. -/

namespace RCore.EasyFs

open RCore.Lib

namespace EasyFileSystem

/-- The disk inode number `id`. -/
def inodeAt (fs : EasyFileSystem) (d : Disk) (id : ℕ) : DiskInode :=
  field (d (fs.getDiskInodePos id).1) (8 * (fs.getDiskInodePos id).2) 1024

/-- The inodes that are in use. -/
def inodes (fs : EasyFileSystem) (d : Disk) (id : ℕ) : Option DiskInode :=
  if id < fs.inodeBitmap.maximum ∧ fs.inodeBitmap.isSet d id = true then some (fs.inodeAt d id)
  else none

/-- Get the root inode of the filesystem. -/
def rootInode (fs : EasyFileSystem) : Inode := Inode.ofId fs 0

end EasyFileSystem

/-- Consecutive pieces are written one after the other, from `offset` on. -/
def Inode.writePieces (fs : EasyFileSystem) (h : Inode) : ℕ → List (List UInt8) → Fs ℕ
  | _, [] => pure 0
  | offset, piece :: pieces => do
    let n ← Inode.writeAt fs h offset piece
    let rest ← Inode.writePieces fs h (offset + piece.length) pieces
    pure (n + rest)

structure State where
  fs : EasyFileSystem
  disk : Disk
  /-- The root, and what `create` has returned. -/
  files : List Inode

inductive Call where
  | create (name : String)
  | writeAt (file : Inode) (offset : ℕ) (buf : List UInt8)
  | clear (file : Inode)

namespace State

/-- The state after a call that returns. -/
def step (s : State) : Call → Option State
  | .create name => do
    let r ← (Inode.create s.fs s.fs.rootInode name).run [] s.disk
    pure { s with disk := r.2, files := s.files ++ r.1.toList }
  | .writeAt file offset buf => do
    let r ← (Inode.writeAt s.fs file offset buf).run [] s.disk
    pure { s with disk := r.2 }
  | .clear file => do
    let r ← (Inode.clear s.fs file).run [] s.disk
    pure { s with disk := r.2 }

/-- The largest size that the block tree of an inode can hold. -/
abbrev MAX_SIZE : ℕ := 16540 * 512

/-- A call on a file that is there, with a buffer that a file can hold. -/
def Admissible (s : State) : Call → Prop
  | .create _ => True
  | .writeAt file offset buf => file ∈ s.files ∧ buf ≠ [] ∧ offset + buf.length ≤ MAX_SIZE
  | .clear file => file ∈ s.files

/-- The number of blocks of the data area. -/
def dataAreaBlocks (totalBlocks : ℕ) (s : State) : ℕ := totalBlocks - s.fs.dataAreaStartBlock

/-- No more bits of the data bitmap are set than the data area has blocks. -/
def WithinArea (totalBlocks : ℕ) (s : State) : Prop :=
  s.fs.dataBitmap.used s.disk ≤ s.dataAreaBlocks totalBlocks

end State

/-- Calls of `alloc_data` and `dealloc_data` from disk `d₁` on, with the blocks that are
outstanding. Only such a block is given back. -/
inductive AllocRun (fs : EasyFileSystem) (d₁ : Disk) : Disk → List ℕ → Prop
  | init : AllocRun fs d₁ d₁ []
  | alloc {d d' : Disk} {outstanding : List ℕ} {b : ℕ} (h : AllocRun fs d₁ d outstanding)
      (hr : fs.allocData.run [] d = some (b, d')) : AllocRun fs d₁ d' (b :: outstanding)
  | dealloc {d d' : Disk} {outstanding : List ℕ} {b : ℕ} (h : AllocRun fs d₁ d outstanding)
      (hb : b ∈ outstanding) (hr : (fs.deallocData b).run [] d = some ((), d')) :
      AllocRun fs d₁ d' (outstanding.erase b)

/-- After every sequence of such calls, a block that `alloc_data` returns lies in the
data area, and the bitmap reports exhaustion when every block of the data area is
taken. -/
def StaysOnDevice (totalBlocks : ℕ) (fs : EasyFileSystem) (d₁ : Disk) : Prop :=
  ∀ d outstanding, AllocRun fs d₁ d outstanding →
    (∀ b d', fs.allocData.run [] d = some (b, d') → fs.dataAreaStartBlock ≤ b ∧ b < totalBlocks) ∧
    ((∀ b, fs.dataAreaStartBlock ≤ b → b < totalBlocks →
      fs.dataBitmap.isSet d (b - fs.dataAreaStartBlock) = true) →
        fs.dataBitmap.alloc.run [] d = some (none, d))

/-- The states that calls reach from a disk that `create` has formatted, while the
data area lasts. -/
inductive Reachable (totalBlocks inodeBitmapBlocks : ℕ) : State → Prop
  | init {d d' : Disk} {fs : EasyFileSystem}
      (h : (EasyFileSystem.create totalBlocks inodeBitmapBlocks).run [] d = some (fs, d')) :
      Reachable totalBlocks inodeBitmapBlocks ⟨fs, d', [fs.rootInode]⟩
  | step {s s' : State} {c : Call} (h : Reachable totalBlocks inodeBitmapBlocks s)
      (hc : s.Admissible c) (hs : s.step c = some s') (hw : s'.WithinArea totalBlocks) :
      Reachable totalBlocks inodeBitmapBlocks s'

end RCore.EasyFs
