import RCore.Proofs.EasyFs.Ownership

/-! File contents. In every reachable state a file is a byte array: `write_at`
overwrites a range of it, filling a gap with zeros, and `read_at` copies a range
out. -/

namespace RCore.EasyFs

open RCore.Lib

/-- The bytes of the file of a disk inode. -/
def content (d : Disk) (x : DiskInode) : List UInt8 := fileSlice d x 0 x.size

namespace Inode

/-- The disk inode that a handle stands for. -/
def diskInode (f : Inode) (d : Disk) : DiskInode :=
  field (d f.blockId) (8 * f.blockOffset) 1024

def size (f : Inode) (d : Disk) : ℕ := (f.diskInode d).size

/-- The bytes of a file. -/
def bytes (f : Inode) (d : Disk) : List UInt8 := content d (f.diskInode d)

/-- Consecutive reads from `offset` on, with buffers of the lengths given: what they
return, one after the other. -/
def readSeq (f : Inode) : ℕ → List ℕ → Fs (List UInt8)
  | _, [] => pure []
  | offset, len :: lens => do
    let buf ← f.readAt offset len
    let rest ← readSeq f (offset + buf.length) lens
    pure (buf ++ rest)

end Inode

variable {v : Volume} {s : State} {d d' : Disk} {id j size : ℕ} {x x' y : DiskInode}
  {g : ℕ → UInt8}

@[simp] theorem length_content (d : Disk) (x : DiskInode) : (content d x).length = x.size :=
  length_fileSlice _ _ _ _

theorem getD_content (d : Disk) (x : DiskInode) (i : ℕ) :
    (content d x).getD i 0 = fileAt d x i := by
  rw [fileAt]
  split_ifs with hi
  · rw [List.getD_eq_getElem _ _ (by rwa [length_content])]
    simp [content, fileSlice]
  · exact List.getD_eq_default _ _ (by rw [length_content]; omega)

/-- A file is its size and its bytes. -/
theorem content_ext (hsize : x'.size = x.size) (h : ∀ i, fileAt d' x' i = fileAt d x i) :
    content d' x' = content d x := by
  apply List.ext_getElem (by rw [length_content, length_content, hsize])
  intro i hi hi'
  rw [← List.getD_eq_getElem _ 0, ← List.getD_eq_getElem _ 0, getD_content, getD_content, h]

/-- A range of the bytes of a file. -/
theorem fileSlice_eq_content {offset len : ℕ} (d : Disk) (x : DiskInode) :
    fileSlice d x offset (min len (x.size - offset)) = ((content d x).drop offset).take len := by
  apply List.ext_getElem (by simp)
  intro i hi hi'
  simp [content, fileSlice]

theorem Inode.ofId_inj {fs : EasyFileSystem} (h : Inode.ofId fs id = Inode.ofId fs j) :
    id = j := by
  simp only [Inode.ofId, EasyFileSystem.getDiskInodePos, Inode.mk.injEq] at h
  change _ + id / 4 = _ + j / 4 ∧ id % 4 * 128 = j % 4 * 128 at h
  omega

theorem diskInode_ofId (hx : v.fs.inodes d id = some x) :
    (Inode.ofId v.fs id).diskInode d = x :=
  (Volume.inodes_eq_some hx).2.2

theorem bytes_ofId (hx : v.fs.inodes d id = some x) :
    (Inode.ofId v.fs id).bytes d = content d x := by
  rw [Inode.bytes, diskInode_ofId hx]

/-- What a call has made of its own file. -/
theorem Done.own_file (h : Done v d id x size g x' d') (hc : Clean v (v.fs.inodes d) d)
    (hused : v.fs.dataBitmap.used d' ≤ v.size) :
    (Inode.ofId v.fs id).size d' = size ∧
      ∀ i, ((Inode.ofId v.fs id).bytes d').getD i 0 = g i := by
  have hx' : v.fs.inodes d' id = some x' := by rw [h.inodes, Function.update_self]
  refine ⟨by rw [Inode.size, diskInode_ofId hx', h.size], fun i => ?_⟩
  rw [bytes_ofId hx', getD_content, (h.clean hc hused).2 i]

/-- A call leaves the other files alone. -/
theorem Done.other_file (h : Done v d id x size g x' d') (hj : j ≠ id)
    (hy : v.fs.inodes d j = some y) :
    (Inode.ofId v.fs j).bytes d' = (Inode.ofId v.fs j).bytes d := by
  have hy' : v.fs.inodes d' j = some y := by rw [h.inodes, Function.update_of_ne hj, hy]
  rw [bytes_ofId hy, bytes_ofId hy']
  exact content_ext rfl (h.others j y hj hy)

/-- `read_at` on a file. -/
theorem Invariant.run_readAt (h : Invariant v s) (hx : v.fs.inodes s.disk id = some x)
    (offset len : ℕ) :
    ((Inode.ofId v.fs id).readAt offset len).run [] s.disk =
      some (((content s.disk x).drop offset).take len, s.disk) := by
  have hk := dataBlocks_eq (h.sound.size_le id x hx)
  rw [Inode.readAt, run_readDiskInode hx,
    DiskInode.run_readAt _ _ (h.sound.dataBlocks_le hx)
      (h.sound.unlocked hx (heldBelow_inodeBlock hx)) (by omega),
    fileSlice_eq_content]

/-- Past the end there is nothing to skip. -/
theorem drop_min_length (l : List UInt8) (n : ℕ) : l.drop (min n l.length) = l.drop n := by
  rcases Nat.le_total n l.length with h | h
  · rw [Nat.min_eq_left h]
  · rw [Nat.min_eq_right h, List.drop_length, List.drop_of_length_le h]

/-- Consecutive reads return consecutive parts of the file. -/
theorem Invariant.run_readSeq (h : Invariant v s) (hx : v.fs.inodes s.disk id = some x)
    (lens : List ℕ) (offset : ℕ) :
    ((Inode.ofId v.fs id).readSeq offset lens).run [] s.disk =
      some (((content s.disk x).drop offset).take lens.sum, s.disk) := by
  induction lens generalizing offset with
  | nil => rfl
  | cons len lens ih =>
    rw [Inode.readSeq, Prog.run_bind_of (h.run_readAt hx offset len), Prog.run_bind_of (ih _)]
    rw [List.sum_cons, List.take_add, List.length_take, ← List.drop_drop, drop_min_length]
    rfl

end RCore.EasyFs
