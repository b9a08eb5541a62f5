import RCore.Lib.Trace
import RCore.Sanity.EasyFs.Bitmap
import RCore.Spec.EasyFs.Vfs

/-! The blocks that the parts of the file system ask for while they run, whether they
come to an end or not. -/

namespace RCore.EasyFs

open RCore.Lib

variable {α : Type} {P : Event ℕ → Prop} {id offset w : ℕ} {held : List ℕ} {d : Disk}

/-- A block is opened for reading: what its closure asks for. -/
theorem always_readAt {f : BitVec w → Fs α} (hreq : P (.request id held))
    (hf : id ∉ held → (f (field (d id) (8 * offset) w)).Always P (id :: held) d) :
    (readAt id offset w f).Always P held d := by
  refine Prog.always_read hreq (fun hid => ?_) fun _ b d' _ => Prog.always_ret b
  split_ifs
  · exact hf hid
  · exact Prog.always_fail

/-- A block is opened for writing. -/
theorem always_modifyAt {f : BitVec w → Fs (BitVec w × α)} (hreq : P (.request id held))
    (hf : id ∉ held → (f (field (d id) (8 * offset) w)).Always P (id :: held) d) :
    (modifyAt id offset w f).Always P held d := by
  refine Prog.always_modify hreq (fun hid => ?_) fun _ v b d' _ => Prog.always_ret b
  split_ifs
  · exact Prog.always_bind (hf hid) fun r d' _ => Prog.always_ret _
  · exact Prog.always_fail

/-- What holds of a closure when it holds of the whole. -/
theorem always_of_modifyAt {f : BitVec w → Fs (BitVec w × α)} (hid : id ∉ held) (hw : 8 * offset + w ≤ 4096)
    (h : (modifyAt id offset w f).Always P held d) :
    (f (field (d id) (8 * offset) w)).Always P (id :: held) d := by
  have hbody := (h.of_modify.2 hid).1
  rw [if_pos hw] at hbody
  exact hbody.of_bind.1

namespace Bitmap

variable {m : Bitmap} {bit : ℕ}

theorem always_allocFrom (h : ∀ b, m.Owns b → P (.request b held)) (n j : ℕ) (d : Disk)
    (hj : j + n = m.blocks) : (allocFrom m.startBlockId n j).Always P held d := by
  induction n generalizing j d with
  | zero => exact Prog.always_ret _
  | succ n ih =>
    refine Prog.always_bind (always_modifyAt (h _ ⟨by omega, by omega⟩) fun _ => ?_)
      fun pos d' _ => ?_
    · split
      · exact Prog.always_ret _
      · exact Prog.always_ret _
    · split_ifs
      · exact Prog.always_ret _
      · exact ih (j + 1) d' (by omega)

/-- `alloc` opens blocks of the bitmap only. -/
theorem always_alloc (h : ∀ b, m.Owns b → P (.request b held)) (d : Disk) :
    m.alloc.Always P held d :=
  always_allocFrom h m.blocks 0 d (Nat.zero_add _)

/-- `dealloc` of a number below `maximum` opens a block of the bitmap. -/
theorem always_dealloc (h : ∀ b, m.Owns b → P (.request b held)) (hbit : bit < m.maximum)
    (d : Disk) : (m.dealloc bit).Always P held d := by
  rw [maximum_eq] at hbit
  have hown : m.Owns (bit / 4096 + m.startBlockId) := ⟨by omega, by omega⟩
  simp only [dealloc, decomposition]
  refine always_modifyAt (h _ hown) fun _ => ?_
  exact Prog.always_bind (Prog.always_assert _) fun _ d' _ => Prog.always_ret _

end Bitmap

namespace EasyFileSystem

theorem always_checkedU32 (n : ℕ) : (checkedU32 n).Always P held d :=
  Prog.always_bind (Prog.always_assert _) fun _ _ _ => Prog.always_ret _

theorem always_checkedSub (a b : ℕ) : (checkedSub a b).Always P held d :=
  Prog.always_bind (Prog.always_assert _) fun _ _ _ => Prog.always_ret _

/-- Computing the areas asks for no block. -/
theorem always_areas (totalBlocks inodeBitmapBlocks : ℕ) :
    (areas totalBlocks inodeBitmapBlocks).Always P held d := by
  refine Prog.always_bind (always_checkedU32 _) fun _ _ _ => ?_
  refine Prog.always_bind (always_checkedSub _ _) fun _ _ _ => ?_
  refine Prog.always_bind (always_checkedSub _ _) fun _ _ _ => ?_
  refine Prog.always_bind (always_checkedU32 _) fun _ _ _ => ?_
  exact Prog.always_bind (always_checkedSub _ _) fun _ _ _ => Prog.always_ret _

variable {fs : EasyFileSystem}

theorem always_allocInode (h : ∀ b, fs.inodeBitmap.Owns b → P (.request b held)) :
    fs.allocInode.Always P held d :=
  Prog.always_bind (Bitmap.always_alloc h d) fun _ _ _ =>
    Prog.always_bind (Prog.always_ofOption _) fun _ _ _ => Prog.always_ret _

theorem always_allocData (h : ∀ b, fs.dataBitmap.Owns b → P (.request b held)) :
    fs.allocData.Always P held d :=
  Prog.always_bind (Bitmap.always_alloc h d) fun _ _ _ =>
    Prog.always_bind (Prog.always_ofOption _) fun _ _ _ => always_checkedU32 _

theorem always_allocBlocks (h : ∀ b, fs.dataBitmap.Owns b → P (.request b held)) (n : ℕ)
    (acc : List U32) (d : Disk) : (Inode.allocBlocks fs n acc).Always P held d := by
  induction n generalizing acc d with
  | zero => exact Prog.always_ret _
  | succ n ih => exact Prog.always_bind (always_allocData h) fun _ d' _ => ih _ d'

theorem always_clearBlocks (h : ∀ b, P (.request b held)) (n i : ℕ) (d : Disk) :
    (clearBlocks n i).Always P held d := by
  induction n generalizing i d with
  | zero => exact Prog.always_ret _
  | succ n ih =>
    exact Prog.always_bind (always_modifyAt (h i) fun _ => Prog.always_ret _)
      fun _ d' _ => ih (i + 1) d'

/-- Formatting opens one block after the other. -/
theorem always_create (totalBlocks inodeBitmapBlocks : ℕ) (h : ∀ b, P (.request b []))
    (hsync : P (.sync [])) : (create totalBlocks inodeBitmapBlocks).Always P [] d := by
  refine Prog.always_bind (always_areas _ _) fun a _ _ => ?_
  refine Prog.always_bind (always_clearBlocks h _ _ _) fun _ _ _ => ?_
  refine Prog.always_bind (always_modifyAt (h _) fun _ => Prog.always_ret _) fun _ _ _ => ?_
  refine Prog.always_bind (always_allocInode fun b _ => h b) fun _ _ _ => ?_
  refine Prog.always_bind (Prog.always_assert _) fun _ _ _ => ?_
  refine Prog.always_bind (always_modifyAt (h _) fun _ => Prog.always_ret _) fun _ _ _ => ?_
  refine Prog.always_bind (Prog.always_sync hsync fun _ => Prog.always_ret _) fun _ _ _ => ?_
  exact Prog.always_ret _

end EasyFileSystem

namespace DiskInode

theorem always_entry (b : Block) (i : ℕ) : (entry b i).Always P held d := by
  rw [entry]
  split_ifs
  · exact Prog.always_ret _
  · exact Prog.always_fail

end DiskInode

theorem DirEntry.always_name (e : DirEntry) : e.name.Always P held d :=
  Prog.always_bind (Prog.always_ofOption _) fun _ _ _ => Prog.always_ofOption _

theorem DirEntry.always_new (name : String) (inodeNumber : ℕ) :
    (DirEntry.new name inodeNumber).Always P held d :=
  Prog.always_bind (Prog.always_assert _) fun _ _ _ => Prog.always_ret _

end RCore.EasyFs
