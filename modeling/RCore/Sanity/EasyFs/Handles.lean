import RCore.Spec.EasyFs.BlockCache

/-! How many blocks the calls of the file system keep open at once, and that they leave
nothing behind that has not been written back: a call that has modified a block syncs
before it returns. -/

namespace RCore.EasyFs

open RCore.Lib

variable {α : Type} {n : ℕ}

section primitives

theorem within_pure (a : α) : (pure a : Fs α).Within n := trivial

theorem within_fail : (Prog.fail : Fs α).Within n := trivial

theorem within_ite {c : Prop} [Decidable c] {p q : Fs α} (hp : c → p.Within n)
    (hq : ¬ c → q.Within n) : (if c then p else q).Within n := by
  split_ifs with h
  · exact hp h
  · exact hq h

theorem within_readAt {id offset w : ℕ} {f : BitVec w → Fs α} (h : ∀ b, (f b).Within n) :
    (readAt id offset w f).Within (n + 1) :=
  ⟨by omega, fun _ => within_ite (fun _ => h _) fun _ => within_fail, fun _ => within_pure _⟩

theorem within_modifyAt {id offset w : ℕ} {f : BitVec w → Fs (BitVec w × α)}
    (h : ∀ b, (f b).Within n) : (modifyAt id offset w f).Within (n + 1) :=
  ⟨by omega, fun _ => within_ite (fun _ => Prog.within_bind (h _) fun _ => within_pure _)
    fun _ => within_fail, fun _ => within_pure _⟩

theorem within_assert (p : Prop) [Decidable p] : (Prog.assert p : Fs Unit).Within n :=
  within_ite (fun _ => within_pure _) fun _ => within_fail

theorem within_ofOption (o : Option α) : (Prog.ofOption o : Fs α).Within n := by
  cases o
  · exact within_fail
  · exact within_pure _

theorem within_sync : blockCacheSyncAll.Within n := trivial

theorem settles_pure (a : α) {c : Bool} : (pure a : Fs α).Settles c c := fun h => h

theorem settles_fail {c c' : Bool} : (Prog.fail : Fs α).Settles c c' := trivial

theorem settles_ite {c : Prop} [Decidable c] {p q : Fs α} {m m' : Bool} (hp : p.Settles m m')
    (hq : q.Settles m m') : (if c then p else q).Settles m m' := by
  split_ifs
  · exact hp
  · exact hq

theorem settles_readAt {id offset w : ℕ} {f : BitVec w → Fs α}
    (h : ∀ b, (f b).Settles true true) : (readAt id offset w f).Settles true true :=
  ⟨true, fun _ => settles_ite (h _) settles_fail, fun _ => settles_pure _⟩

theorem settles_assert (p : Prop) [Decidable p] : (Prog.assert p : Fs Unit).Settles true true :=
  settles_ite (settles_pure _) settles_fail

theorem settles_ofOption (o : Option α) : (Prog.ofOption o : Fs α).Settles true true := by
  cases o
  · exact settles_fail
  · exact settles_pure _

/-- Whatever has been done before, `block_cache_sync_all` settles. -/
theorem settles_sync {c : Bool} : blockCacheSyncAll.Settles c true := fun h => h

end primitives

namespace Bitmap

theorem within_allocFrom (start : ℕ) (k blockId : ℕ) : (allocFrom start k blockId).Within 1 := by
  induction k generalizing blockId with
  | zero => exact within_pure _
  | succ k ih =>
    rw [allocFrom]
    refine Prog.within_bind (within_modifyAt fun b => ?_) fun pos =>
      within_ite (fun _ => within_pure _) fun _ => ih _
    cases allocInBlock b <;> exact within_pure _

theorem within_alloc (m : Bitmap) : m.alloc.Within 1 := within_allocFrom ..

theorem within_dealloc (m : Bitmap) (bit : ℕ) : (m.dealloc bit).Within 1 := by
  rw [dealloc]
  exact within_modifyAt fun _ => Prog.within_bind (within_assert _) fun _ => within_pure _

end Bitmap

namespace DiskInode

variable (x : DiskInode)

theorem within_entry (b : Block) (i : ℕ) : (entry b i).Within n :=
  within_ite (fun _ => within_pure _) fun _ => within_fail

theorem within_next (new : List U32) : (next new).Within n := by
  cases new
  · exact within_fail
  · exact within_pure _

theorem within_getBlockId (innerId : ℕ) : (x.getBlockId innerId).Within 1 := by
  rw [getBlockId]
  refine within_ite (fun _ => within_pure _) fun _ => within_ite (fun _ => ?_) fun _ => ?_
  · exact within_readAt fun b => within_entry b _
  · generalize innerId - INDIRECT1_BOUND = last
    exact Prog.within_bind (within_readAt fun b => within_entry b _) fun _ =>
      within_readAt fun b => within_entry b _

theorem within_fillDirect (k : ℕ) (current : ℕ) (new : List U32) :
    (fillDirect k x current new).Within n := by
  induction k generalizing x current new with
  | zero => exact within_pure _
  | succ k ih =>
    rw [fillDirect]
    exact Prog.within_bind (within_next new) fun r => ih _ _ r.2

theorem within_fillIndirect1 (k : ℕ) (b : Block) (current : ℕ) (new : List U32) :
    (fillIndirect1 k b current new).Within n := by
  induction k generalizing b current new with
  | zero => exact within_pure _
  | succ k ih =>
    rw [fillIndirect1]
    exact Prog.within_bind (within_next new) fun r => ih _ _ r.2

theorem within_allocSub (b : Block) (a0 b0 : ℕ) (new : List U32) :
    (allocSub b a0 b0 new).Within n :=
  within_ite (fun _ => Prog.within_bind (within_next new) fun _ =>
    within_ite (fun _ => within_pure _) fun _ => within_fail) fun _ => within_pure _

theorem within_fillIndirect2 (a1 b1 k : ℕ) (b : Block) (a0 b0 : ℕ) (new : List U32) :
    (fillIndirect2 a1 b1 k b a0 b0 new).Within 1 := by
  induction k generalizing b a0 b0 new with
  | zero => exact within_ite (fun _ => within_fail) fun _ => within_pure _
  | succ k ih =>
    rw [fillIndirect2]
    refine within_ite (fun _ => ?_) fun _ => within_pure _
    refine Prog.within_bind (within_allocSub ..) fun r => ?_
    refine Prog.within_bind (within_entry ..) fun sub => ?_
    refine Prog.within_bind (within_modifyAt fun _ => ?_) fun new => ?_
    · exact Prog.within_bind (within_next _) fun _ => within_pure _
    · exact within_ite (fun _ => ih ..) fun _ => ih ..

theorem within_allocIndirect2 (current : ℕ) (new : List U32) :
    (allocIndirect2 x current new).Within n :=
  within_ite (fun _ => Prog.within_bind (within_next new) fun _ => within_pure _)
    fun _ => within_pure _

theorem within_growIndirect2 (current total : ℕ) (new : List U32) :
    (growIndirect2 x current total new).Within 2 := by
  rw [growIndirect2]
  generalize current - INODE_INDIRECT1_COUNT = c
  generalize total - INODE_INDIRECT1_COUNT = t
  refine Prog.within_bind (within_allocIndirect2 ..) fun r => ?_
  exact Prog.within_bind (within_modifyAt fun b => within_fillIndirect2 ..) fun _ => within_pure _

theorem within_allocIndirect1 (current : ℕ) (new : List U32) :
    (allocIndirect1 x current new).Within n :=
  within_ite (fun _ => Prog.within_bind (within_next new) fun _ => within_pure _)
    fun _ => within_pure _

theorem within_growIndirect1 (current total : ℕ) (new : List U32) :
    (growIndirect1 x current total new).Within 2 := by
  rw [growIndirect1]
  refine Prog.within_bind (within_allocIndirect1 ..) fun r => ?_
  refine Prog.within_bind (within_modifyAt fun b => ?_) fun new => ?_
  · exact within_fillIndirect1 ..
  · exact within_ite (fun _ => within_growIndirect2 ..) fun _ => within_pure _

theorem within_increaseSize (newSize : ℕ) (newBlocks : List U32) :
    (x.increaseSize newSize newBlocks).Within 2 := by
  rw [increaseSize]
  refine Prog.within_bind (within_fillDirect ..) fun r => ?_
  exact within_ite (fun _ => within_growIndirect1 ..) fun _ => within_pure _

theorem within_clearSub (sub : U32) (k : ℕ) : (clearSub sub k).Within 1 := by
  rw [clearSub]
  exact within_modifyAt fun _ => within_pure _

theorem within_clearSubs (b : Block) (as : List ℕ) (v : List U32) :
    (clearSubs b as v).Within 1 := by
  induction as generalizing v with
  | nil => exact within_pure _
  | cons a as ih =>
    rw [clearSubs]
    exact Prog.within_bind (within_clearSub ..) fun _ => ih _

theorem within_clearIndirect2 (b : Block) (dataBlocks : ℕ) (v : List U32) :
    (clearIndirect2 b dataBlocks v).Within 1 := by
  rw [clearIndirect2]
  refine Prog.within_bind (within_clearSubs ..) fun v => ?_
  refine within_ite (fun _ => ?_) fun _ => within_pure _
  exact Prog.within_bind (within_entry ..) fun _ =>
    Prog.within_bind (within_clearSub ..) fun _ => within_pure _

theorem within_clearSize : x.clearSize.Within 2 := by
  rw [clearSize]
  refine within_ite (fun _ => ?_) fun _ => within_pure _
  refine Prog.within_bind (within_modifyAt fun _ => within_pure _) fun v => ?_
  refine within_ite (fun _ => ?_) fun _ => within_pure _
  generalize x.dataBlocks - INODE_DIRECT_COUNT - INODE_INDIRECT1_COUNT = k
  exact Prog.within_bind (within_assert _) fun _ => Prog.within_bind
    (within_modifyAt fun _ => within_clearIndirect2 ..) fun _ => within_pure _

theorem within_readLoop (stop k start startBlock : ℕ) (buf : List UInt8) :
    (readLoop x stop k start startBlock buf).Within 1 := by
  induction k generalizing start startBlock buf with
  | zero => exact within_fail
  | succ k ih =>
    rw [readLoop]
    refine Prog.within_bind (within_getBlockId ..) fun id => ?_
    refine Prog.within_bind (within_readAt fun _ => within_pure _) fun src => ?_
    exact within_ite (fun _ => within_pure _) fun _ => ih ..

theorem within_read_at (offset len : ℕ) : (x.readAt offset len).Within 1 :=
  within_ite (fun _ => within_pure _) fun _ => within_readLoop ..

theorem within_writeLoop (buf : List UInt8) (stop k start startBlock writeSize : ℕ) :
    (writeLoop x buf stop k start startBlock writeSize).Within 1 := by
  induction k generalizing start startBlock writeSize with
  | zero => exact within_fail
  | succ k ih =>
    rw [writeLoop]
    refine Prog.within_bind (within_getBlockId ..) fun id => ?_
    refine Prog.within_bind (within_modifyAt fun _ => within_pure _) fun _ => ?_
    exact within_ite (fun _ => within_pure _) fun _ => ih ..

theorem within_write_at (offset : ℕ) (buf : List UInt8) : (x.writeAt offset buf).Within 1 := by
  rw [writeAt]
  exact Prog.within_bind (within_assert _) fun _ => within_writeLoop ..

theorem settles_entry (b : Block) (i : ℕ) : (entry b i).Settles true true :=
  settles_ite (settles_pure _) settles_fail

theorem settles_getBlockId (innerId : ℕ) : (x.getBlockId innerId).Settles true true := by
  rw [getBlockId]
  refine settles_ite (settles_pure _) (settles_ite ?_ ?_)
  · exact settles_readAt fun b => settles_entry b _
  · generalize innerId - INDIRECT1_BOUND = last
    exact Prog.settles_bind (settles_readAt fun b => settles_entry b _) fun _ =>
      settles_readAt fun b => settles_entry b _

theorem settles_readLoop (stop k start startBlock : ℕ) (buf : List UInt8) :
    (readLoop x stop k start startBlock buf).Settles true true := by
  induction k generalizing start startBlock buf with
  | zero => exact settles_fail
  | succ k ih =>
    rw [readLoop]
    refine Prog.settles_bind (settles_getBlockId ..) fun id => ?_
    refine Prog.settles_bind (settles_readAt fun _ => settles_pure _) fun src => ?_
    exact settles_ite (settles_pure _) (ih ..)

theorem settles_read_at (offset len : ℕ) : (x.readAt offset len).Settles true true :=
  settles_ite (settles_pure _) (settles_readLoop ..)

end DiskInode

theorem DirEntry.within_name (e : DirEntry) : e.name.Within n :=
  Prog.within_bind (within_ofOption _) fun _ => within_ofOption _

theorem DirEntry.settles_name (e : DirEntry) : e.name.Settles true true :=
  Prog.settles_bind (settles_ofOption _) fun _ => settles_ofOption _

namespace EasyFileSystem

variable (fs : EasyFileSystem)

theorem within_checkedU32 (k : ℕ) : (checkedU32 k).Within n :=
  Prog.within_bind (within_assert _) fun _ => within_pure _

theorem within_checkedSub (a b : ℕ) : (checkedSub a b).Within n :=
  Prog.within_bind (within_assert _) fun _ => within_pure _

theorem within_allocInode : fs.allocInode.Within 1 := by
  rw [allocInode]
  exact Prog.within_bind (Bitmap.within_alloc _) fun _ =>
    Prog.within_bind (within_ofOption _) fun _ => within_pure _

theorem within_allocData : fs.allocData.Within 1 := by
  rw [allocData]
  exact Prog.within_bind (Bitmap.within_alloc _) fun _ =>
    Prog.within_bind (within_ofOption _) fun _ => within_checkedU32 _

theorem within_deallocData (blockId : ℕ) : (fs.deallocData blockId).Within 1 := by
  rw [deallocData]
  exact Prog.within_bind (within_modifyAt fun _ => within_pure _) fun _ =>
    Prog.within_bind (within_checkedSub ..) fun _ => Bitmap.within_dealloc ..

theorem within_areas (totalBlocks inodeBitmapBlocks : ℕ) :
    (areas totalBlocks inodeBitmapBlocks).Within n := by
  rw [areas]
  generalize (inodeBitmapBlocks * BLOCK_BITS * INODE_SIZE + BLOCK_SZ - 1) / BLOCK_SZ % 2 ^ 32 = i
  refine Prog.within_bind (within_checkedU32 _) fun _ => ?_
  refine Prog.within_bind (within_checkedSub ..) fun _ => ?_
  refine Prog.within_bind (within_checkedSub ..) fun d => ?_
  generalize d + 4096 = k
  refine Prog.within_bind (within_checkedU32 k) fun _ => ?_
  exact Prog.within_bind (within_checkedSub ..) fun _ => within_pure _

theorem within_clearBlocks (k i : ℕ) : (clearBlocks k i).Within 1 := by
  induction k generalizing i with
  | zero => exact within_pure _
  | succ k ih =>
    rw [clearBlocks]
    exact Prog.within_bind (within_modifyAt fun _ => within_pure _) fun _ => ih _

theorem within_create (totalBlocks inodeBitmapBlocks : ℕ) :
    (create totalBlocks inodeBitmapBlocks).Within 1 := by
  rw [create]
  refine Prog.within_bind (within_areas ..) fun a => ?_
  refine Prog.within_bind (within_clearBlocks ..) fun _ => ?_
  refine Prog.within_bind (within_modifyAt fun _ => within_pure _) fun _ => ?_
  refine Prog.within_bind (within_allocInode _) fun root => ?_
  refine Prog.within_bind (within_assert _) fun _ => ?_
  exact Prog.within_bind (within_modifyAt fun _ => within_pure _) fun _ =>
    Prog.within_bind within_sync fun _ => within_pure _

theorem within_open : open_.Within 1 := by
  rw [open_]
  exact within_readAt fun _ => Prog.within_bind (within_assert _) fun _ =>
    Prog.within_bind (within_checkedU32 _) fun _ => within_pure _

theorem settles_create (totalBlocks inodeBitmapBlocks : ℕ) :
    (create totalBlocks inodeBitmapBlocks).Settles true true := by
  rw [create]
  refine Prog.settles_bind (Prog.settles_false _ _) fun a => ?_
  refine Prog.settles_bind (Prog.settles_false _ _) fun _ => ?_
  refine Prog.settles_bind (Prog.settles_false _ _) fun _ => ?_
  refine Prog.settles_bind (Prog.settles_false _ _) fun root => ?_
  refine Prog.settles_bind (Prog.settles_false _ _) fun _ => ?_
  exact Prog.settles_bind (Prog.settles_false _ _) fun _ =>
    Prog.settles_bind settles_sync fun _ => settles_pure _

theorem settles_open : open_.Settles true true := by
  rw [open_]
  exact settles_readAt fun _ => Prog.settles_bind (settles_assert _) fun _ =>
    Prog.settles_bind (Prog.settles_bind (settles_assert _) fun _ => settles_pure _) fun _ =>
      settles_pure _

end EasyFileSystem

namespace Inode

variable (fs : EasyFileSystem) (h : Inode)

theorem within_findFrom (name : String) (x : DiskInode) (k i : ℕ) :
    (findFrom name x k i).Within 1 := by
  induction k generalizing i with
  | zero => exact within_pure _
  | succ k ih =>
    rw [findFrom]
    refine Prog.within_bind (DiskInode.within_read_at ..) fun buf =>
      Prog.within_bind (within_assert _) fun _ =>
        Prog.within_bind (DirEntry.within_name _) fun entryName => ?_
    exact within_ite (fun _ => within_pure _) fun _ => ih _

theorem settles_findFrom (name : String) (x : DiskInode) (k i : ℕ) :
    (findFrom name x k i).Settles true true := by
  induction k generalizing i with
  | zero => exact settles_pure _
  | succ k ih =>
    rw [findFrom]
    refine Prog.settles_bind (DiskInode.settles_read_at ..) fun buf =>
      Prog.settles_bind (settles_assert _) fun _ =>
        Prog.settles_bind (DirEntry.settles_name _) fun entryName => ?_
    exact settles_ite (settles_pure _) (ih _)

theorem within_findInodeId (name : String) (x : DiskInode) : (findInodeId name x).Within 1 := by
  rw [findInodeId]
  exact Prog.within_bind (within_assert _) fun _ => within_findFrom ..

theorem settles_findInodeId (name : String) (x : DiskInode) :
    (findInodeId name x).Settles true true := by
  rw [findInodeId]
  exact Prog.settles_bind (settles_assert _) fun _ => settles_findFrom ..

theorem within_find (name : String) : (h.find fs name).Within 2 := by
  rw [find, readDiskInode]
  exact within_readAt fun _ => Prog.within_bind (within_findInodeId ..) fun _ => within_pure _

theorem settles_find (name : String) : (h.find fs name).Settles true true := by
  rw [find, readDiskInode]
  exact settles_readAt fun _ => Prog.settles_bind (settles_findInodeId ..) fun _ => settles_pure _

theorem within_lsFrom (x : DiskInode) (k i : ℕ) (v : List String) : (lsFrom x k i v).Within 1 := by
  induction k generalizing i v with
  | zero => exact within_pure _
  | succ k ih =>
    rw [lsFrom]
    exact Prog.within_bind (DiskInode.within_read_at ..) fun buf =>
      Prog.within_bind (within_assert _) fun _ =>
        Prog.within_bind (DirEntry.within_name _) fun entryName => ih _ _

theorem settles_lsFrom (x : DiskInode) (k i : ℕ) (v : List String) :
    (lsFrom x k i v).Settles true true := by
  induction k generalizing i v with
  | zero => exact settles_pure _
  | succ k ih =>
    rw [lsFrom]
    exact Prog.settles_bind (DiskInode.settles_read_at ..) fun buf =>
      Prog.settles_bind (settles_assert _) fun _ =>
        Prog.settles_bind (DirEntry.settles_name _) fun entryName => ih _ _

theorem within_allocBlocks (k : ℕ) (v : List U32) : (allocBlocks fs k v).Within 1 := by
  induction k generalizing v with
  | zero => exact within_pure _
  | succ k ih =>
    rw [allocBlocks]
    exact Prog.within_bind (EasyFileSystem.within_allocData _) fun _ => ih _

theorem within_increaseSize (newSize : ℕ) (x : DiskInode) :
    (increaseSize fs newSize x).Within 2 := by
  rw [increaseSize]
  refine within_ite (fun _ => within_pure _) fun _ => ?_
  refine Prog.within_bind (Prog.within_bind (within_assert _) fun _ => within_pure _) fun k => ?_
  exact Prog.within_bind (Prog.within_mono (by omega) (within_allocBlocks fs k [])) fun v =>
    Prog.within_bind (DiskInode.within_increaseSize ..) fun _ => within_pure _

theorem within_create (name : String) : (h.create fs name).Within 3 := by
  rw [create, readDiskInode]
  refine Prog.within_bind (within_readAt fun x => Prog.within_bind (within_assert _) fun _ =>
    Prog.within_mono (by omega) (within_findInodeId name x)) fun found => ?_
  refine within_ite (fun _ => within_pure _) fun _ => ?_
  refine Prog.within_bind (Prog.within_mono (by omega) (EasyFileSystem.within_allocInode fs))
    fun newInodeId => ?_
  refine Prog.within_bind (within_modifyAt fun _ => within_pure _) fun _ => ?_
  rw [modifyDiskInode]
  refine Prog.within_bind (within_modifyAt fun x => ?_) fun _ =>
    Prog.within_bind within_sync fun _ => within_pure _
  refine Prog.within_bind (within_increaseSize ..) fun x => ?_
  exact Prog.within_bind (Prog.within_bind (within_assert _) fun _ => within_pure _) fun e =>
    Prog.within_bind (Prog.within_mono (by omega) (DiskInode.within_write_at x _ _)) fun _ => within_pure _

theorem settles_create (name : String) : (h.create fs name).Settles true true := by
  rw [create, readDiskInode]
  refine Prog.settles_bind (settles_readAt fun x => Prog.settles_bind (settles_assert _) fun _ =>
    settles_findInodeId name x) fun found => ?_
  refine settles_ite (settles_pure _) ?_
  refine Prog.settles_bind (Prog.settles_false _ _) fun newInodeId => ?_
  refine Prog.settles_bind (Prog.settles_false _ _) fun _ => ?_
  exact Prog.settles_bind (Prog.settles_false _ _) fun _ =>
    Prog.settles_bind settles_sync fun _ => settles_pure _

theorem within_ls : h.ls.Within 2 := by
  rw [ls, readDiskInode]
  exact within_readAt fun _ => within_lsFrom ..

theorem settles_ls : h.ls.Settles true true := by
  rw [ls, readDiskInode]
  exact settles_readAt fun _ => settles_lsFrom ..

theorem within_read_at (offset len : ℕ) : (h.readAt offset len).Within 2 := by
  rw [readAt, readDiskInode]
  exact within_readAt fun _ => DiskInode.within_read_at ..

theorem settles_read_at (offset len : ℕ) : (h.readAt offset len).Settles true true := by
  rw [readAt, readDiskInode]
  exact settles_readAt fun _ => DiskInode.settles_read_at ..

theorem within_write_at (offset : ℕ) (buf : List UInt8) : (h.writeAt fs offset buf).Within 3 := by
  rw [writeAt, modifyDiskInode]
  refine Prog.within_bind (within_modifyAt fun x => ?_) fun _ =>
    Prog.within_bind within_sync fun _ => within_pure _
  exact Prog.within_bind (within_increaseSize ..) fun x =>
    Prog.within_bind (Prog.within_mono (by omega) (DiskInode.within_write_at x _ _)) fun _ => within_pure _

theorem settles_write_at (offset : ℕ) (buf : List UInt8) :
    (h.writeAt fs offset buf).Settles true true := by
  rw [writeAt]
  exact Prog.settles_bind (Prog.settles_false _ _) fun _ =>
    Prog.settles_bind settles_sync fun _ => settles_pure _

theorem within_deallocBlocks (bs : List U32) : (deallocBlocks fs bs).Within 1 := by
  induction bs with
  | nil => exact within_pure _
  | cons b bs ih =>
    rw [deallocBlocks]
    exact Prog.within_bind (EasyFileSystem.within_deallocData ..) fun _ => ih

theorem within_clear : (h.clear fs).Within 3 := by
  rw [clear, modifyDiskInode]
  refine Prog.within_bind (within_modifyAt fun x => ?_) fun _ => within_sync
  exact Prog.within_bind (DiskInode.within_clearSize x) fun r =>
    Prog.within_bind (within_assert _) fun _ =>
      Prog.within_bind (Prog.within_mono (by omega) (within_deallocBlocks fs r.2)) fun _ => within_pure _

theorem settles_clear : (h.clear fs).Settles true true := by
  rw [clear]
  exact Prog.settles_bind (Prog.settles_false _ _) fun _ => settles_sync

end Inode

namespace FsCall

/-- A call keeps at most three blocks open at once. -/
theorem within_prog (c : FsCall) : c.prog.Within 3 := by
  cases c with
  | format t i => exact Prog.within_mono (by omega) (EasyFileSystem.within_create t i)
  | open_ => exact Prog.within_mono (by omega) EasyFileSystem.within_open
  | find fs file name => exact Prog.within_mono (by omega) (Inode.within_find fs file name)
  | create fs file name => exact Inode.within_create fs file name
  | ls file => exact Prog.within_mono (by omega) (Inode.within_ls file)
  | readAt file offset len => exact Prog.within_mono (by omega) (Inode.within_read_at file offset len)
  | writeAt fs file offset buf => exact Inode.within_write_at fs file offset buf
  | clear fs file => exact Inode.within_clear fs file

/-- A call that finds nothing to be written back leaves nothing to be written back. -/
theorem settles_prog (c : FsCall) : c.prog.Settles true true := by
  cases c with
  | format t i => exact EasyFileSystem.settles_create t i
  | open_ => exact EasyFileSystem.settles_open
  | find fs file name => exact Inode.settles_find fs file name
  | create fs file name => exact Inode.settles_create fs file name
  | ls file => exact Inode.settles_ls file
  | readAt file offset len => exact Inode.settles_read_at file offset len
  | writeAt fs file offset buf => exact Inode.settles_write_at fs file offset buf
  | clear fs file => exact Inode.settles_clear fs file

end FsCall

end RCore.EasyFs
