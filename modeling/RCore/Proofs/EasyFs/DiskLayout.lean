import RCore.Lib.Extent
import RCore.Proofs.EasyFs.Transparency

/-! Where `EasyFileSystem::create` puts the areas of the disk, and that `open` finds them
there again. -/

namespace RCore.EasyFs

open RCore.Lib EasyFileSystem

variable {d d' : Disk} {totalBlocks inodeBitmapBlocks : ℕ} {a : Areas}

namespace EasyFileSystem

/-- The blocks that the inodes take, before the cast to `u32`. -/
def inodeBlocks (inodeBitmapBlocks : ℕ) : ℕ :=
  (inodeBitmapBlocks * BLOCK_BITS * INODE_SIZE + BLOCK_SZ - 1) / BLOCK_SZ

theorem inodeBlocks_eq (inodeBitmapBlocks : ℕ) :
    inodeBlocks inodeBitmapBlocks = 1024 * inodeBitmapBlocks := by
  change (inodeBitmapBlocks * 4096 * 128 + 512 - 1) / 512 = _
  omega

/-- The arguments are `u32`, and no sum, difference or cast of `create` overflows. -/
structure Fits (totalBlocks inodeBitmapBlocks : ℕ) : Prop where
  total : totalBlocks < 2 ^ 32
  cast : inodeBlocks inodeBitmapBlocks < 2 ^ 32
  inodeTotal : inodeBitmapBlocks + inodeBlocks inodeBitmapBlocks < 2 ^ 32
  dataTotal : 1 + (inodeBitmapBlocks + inodeBlocks inodeBitmapBlocks) ≤ totalBlocks
  rounded : totalBlocks - 1 - (inodeBitmapBlocks + inodeBlocks inodeBitmapBlocks) + 4096 < 2 ^ 32

/-- The super block, the inode bitmap, the inode area, the data bitmap and the data area. -/
def extents (fs : EasyFileSystem) (a : Areas) : List Extent :=
  [⟨0, 1⟩, ⟨fs.inodeBitmap.startBlockId, fs.inodeBitmap.blocks⟩,
    ⟨fs.inodeAreaStartBlock, a.inodeAreaBlocks⟩,
    ⟨fs.dataBitmap.startBlockId, fs.dataBitmap.blocks⟩, ⟨fs.dataAreaStartBlock, a.dataAreaBlocks⟩]

/-- The bytes of an inode in its block. -/
def inodeSlot (fs : EasyFileSystem) (inodeId : ℕ) : Extent :=
  ⟨(fs.getDiskInodePos inodeId).2, INODE_SIZE⟩

end EasyFileSystem

/-- What a good layout of a disk is. -/
structure DiskLayout (totalBlocks : ℕ) (fs : EasyFileSystem) (a : Areas) : Prop where
  consecutive : Tiles 0 totalBlocks (fs.extents a)
  disjoint : (fs.extents a).Pairwise fun e e' => Disjoint e.range e'.range
  cover : ∀ b, (∃ e ∈ fs.extents a, b ∈ e.range) ↔ b < totalBlocks
  /-- There is a bit for every block of the data area. -/
  bits : a.dataAreaBlocks ≤ fs.dataBitmap.maximum
  /-- With a smaller bitmap there would not be a bit for every block that is left. -/
  least : ∀ blocks < fs.dataBitmap.blocks,
    Bitmap.maximum ⟨fs.dataBitmap.startBlockId, blocks⟩ <
      fs.dataBitmap.blocks + a.dataAreaBlocks - blocks
  injective : Set.InjOn fs.getDiskInodePos {id | id < fs.inodeBitmap.maximum}
  inside : ∀ id < fs.inodeBitmap.maximum,
    (fs.getDiskInodePos id).1 ∈ (Extent.mk fs.inodeAreaStartBlock a.inodeAreaBlocks).range
  /-- An inode does not straddle a block. -/
  slot : ∀ id < fs.inodeBitmap.maximum, (fs.inodeSlot id).finish ≤ BLOCK_SZ
  apart : ∀ id < fs.inodeBitmap.maximum, ∀ id' < fs.inodeBitmap.maximum, id ≠ id' →
    (fs.getDiskInodePos id).1 = (fs.getDiskInodePos id').1 →
      Disjoint (fs.inodeSlot id).range (fs.inodeSlot id').range

namespace Laid

/-- The sizes that are computed when nothing overflows. -/
theorem of_fits (h : Fits totalBlocks inodeBitmapBlocks) :
    ∃ a, (∀ held d, (areas totalBlocks inodeBitmapBlocks).run held d = some (a, d)) ∧
      a.inodeAreaBlocks = 1024 * inodeBitmapBlocks ∧ Laid totalBlocks inodeBitmapBlocks a := by
  have hcast := h.cast
  have htotal := h.inodeTotal
  have hdata := h.dataTotal
  have hrounded := h.rounded
  set n := inodeBlocks inodeBitmapBlocks with hn
  have hrun : ∀ held d, (areas totalBlocks inodeBitmapBlocks).run held d =
      some (⟨n, (totalBlocks - 1 - (inodeBitmapBlocks + n) + 4096) / 4097,
        totalBlocks - 1 - (inodeBitmapBlocks + n) -
          (totalBlocks - 1 - (inodeBitmapBlocks + n) + 4096) / 4097⟩, d) := by
    intro held d
    have hmod : (inodeBitmapBlocks * BLOCK_BITS * INODE_SIZE + BLOCK_SZ - 1) / BLOCK_SZ % 2 ^ 32 =
      n := Nat.mod_eq_of_lt hcast
    simp only [areas, hmod, checkedU32, checkedSub, Prog.run_bind, Prog.assert,
      if_pos htotal, if_pos hrounded, if_pos (show 1 ≤ totalBlocks by omega),
      if_pos (show inodeBitmapBlocks + n ≤ totalBlocks - 1 by omega),
      if_pos (show (totalBlocks - 1 - (inodeBitmapBlocks + n) + 4096) / 4097 ≤
        totalBlocks - 1 - (inodeBitmapBlocks + n) by omega), Prog.run_ret, Prog.run_pure,
      Option.bind_some]
  refine ⟨_, hrun, ?_, (run_areas_some (hrun [] 0)).1⟩
  rw [← inodeBlocks_eq]

variable (h : Laid totalBlocks inodeBitmapBlocks a)
  (harea : a.inodeAreaBlocks = 1024 * inodeBitmapBlocks)

include h in
theorem tiles : Tiles 0 totalBlocks ((ofAreas inodeBitmapBlocks a).extents a) := by
  have htotal := h.total
  refine ⟨rfl, rfl, rfl, rfl, ?_, ?_⟩
  · change 1 + (inodeBitmapBlocks + a.inodeAreaBlocks) + a.dataBitmapBlocks =
      1 + inodeBitmapBlocks + a.inodeAreaBlocks + a.dataBitmapBlocks
    omega
  · change 1 + (inodeBitmapBlocks + a.inodeAreaBlocks) + a.dataBitmapBlocks + a.dataAreaBlocks =
      totalBlocks
    omega

include h harea in
theorem diskLayout : DiskLayout totalBlocks (ofAreas inodeBitmapBlocks a) a := by
  have hbitmap := h.bitmap
  have hblocks : (ofAreas inodeBitmapBlocks a).dataBitmap.blocks = a.dataBitmapBlocks := rfl
  have hmax : (ofAreas inodeBitmapBlocks a).inodeBitmap.maximum = 4096 * inodeBitmapBlocks :=
    Bitmap.maximum_eq _
  have hpos : ∀ id, (ofAreas inodeBitmapBlocks a).getDiskInodePos id =
    (1 + inodeBitmapBlocks + id / 4, id % 4 * 128) := fun _ => rfl
  refine ⟨h.tiles, h.tiles.pairwise_disjoint, fun b => ?_, ?_, fun blocks hlt => ?_,
    fun id _ id' _ heq => ?_, fun id hid => ?_, fun id _ => ?_, fun id _ id' _ hne heq => ?_⟩
  · rw [h.tiles.exists_mem_iff]
    omega
  · rw [Bitmap.maximum_eq, hblocks]
    omega
  · rw [hblocks] at hlt ⊢
    rw [Bitmap.maximum_eq]
    simp only
    omega
  · rw [hpos, hpos, Prod.mk.injEq] at heq
    omega
  · rw [hmax] at hid
    change 1 + inodeBitmapBlocks ≤ 1 + inodeBitmapBlocks + id / 4 ∧
      1 + inodeBitmapBlocks + id / 4 < 1 + inodeBitmapBlocks + a.inodeAreaBlocks
    omega
  · change id % 4 * 128 + 128 ≤ 512
    omega
  · simp only [hpos] at heq
    have hslot : ∀ id, (ofAreas inodeBitmapBlocks a).inodeSlot id = ⟨id % 4 * 128, 128⟩ :=
      fun _ => rfl
    rw [hslot, hslot]
    rcases Nat.lt_or_gt_of_ne (show id % 4 ≠ id' % 4 by omega) with hlt | hlt
    · apply Extent.disjoint_of_le
      change id % 4 * 128 + 128 ≤ id' % 4 * 128
      omega
    · apply Disjoint.symm
      apply Extent.disjoint_of_le
      change id' % 4 * 128 + 128 ≤ id % 4 * 128
      omega

end Laid

namespace SuperBlock

/-- The fields that `open` reads. -/
theorem fields_initializeAs (s : SuperBlock) (totalBlocks inodeBitmapBlocks inodeAreaBlocks
    dataBitmapBlocks dataAreaBlocks : ℕ) :
    let s' := s.initializeAs totalBlocks inodeBitmapBlocks inodeAreaBlocks dataBitmapBlocks
      dataAreaBlocks
    s'.isValid = true ∧ s'.inodeBitmapBlocks = BitVec.ofNat 32 inodeBitmapBlocks ∧
      s'.inodeAreaBlocks = BitVec.ofNat 32 inodeAreaBlocks ∧
      s'.dataBitmapBlocks = BitVec.ofNat 32 dataBitmapBlocks := by
  refine ⟨?_, ?_, ?_, ?_⟩
  · rw [isValid, beq_iff_eq, magic, initializeAs]
    simp [field_splice_disjoint, field_splice_self]
  · rw [SuperBlock.inodeBitmapBlocks, initializeAs]
    simp [field_splice_disjoint, field_splice_self]
  · rw [SuperBlock.inodeAreaBlocks, initializeAs]
    simp [field_splice_disjoint, field_splice_self]
  · rw [SuperBlock.dataBitmapBlocks, initializeAs]
    simp [field_splice_disjoint, field_splice_self]

end SuperBlock

/-- What `create` leaves in the super block. -/
theorem run_create_superBlock {fs : EasyFileSystem}
    (ha : (areas totalBlocks inodeBitmapBlocks).run [] d = some (a, d))
    (h : (EasyFileSystem.create totalBlocks inodeBitmapBlocks).run [] d = some (fs, d')) :
    fs = ofAreas inodeBitmapBlocks a ∧ ∃ s : SuperBlock, field (d' 0) 0 192 =
      s.initializeAs totalBlocks inodeBitmapBlocks a.inodeAreaBlocks a.dataBitmapBlocks
        a.dataAreaBlocks := by
  rw [EasyFileSystem.create, Prog.run_bind_of ha] at h
  obtain ⟨u₁, d₁, -, h₁⟩ := Prog.run_bind_eq_some h
  obtain ⟨u₂, d₂, hsb, h₂⟩ := Prog.run_bind_eq_some h₁
  obtain ⟨p, d₃, halloc, h₃⟩ := Prog.run_bind_eq_some h₂
  obtain ⟨u₄, d₄, hassert, h₄⟩ := Prog.run_bind_eq_some h₃
  obtain ⟨u₅, d₅, hroot, h₅⟩ := Prog.run_bind_eq_some h₄
  obtain ⟨u₆, d₆, hsync, h₆⟩ := Prog.run_bind_eq_some h₅
  cases h₆
  cases hsync
  refine ⟨rfl, field (d₁ 0) 0 192, ?_⟩
  -- block 0 is not in the bitmap, and not the first block of the inode area
  obtain ⟨q, -, hadd, -⟩ := run_allocInode_some halloc
  have hbitmap : d₃ 0 = d₂ 0 := by
    apply hadd.frame
    change ¬ (1 ≤ 0 ∧ _)
    omega
  have hd₄ : d₄ = d₃ := by
    rw [Prog.assert] at hassert
    split_ifs at hassert
    · cases hassert
      rfl
    · cases hassert
  have harea : d' 0 = d₄ 0 := by
    rw [run_modifyAt_pure_some hroot]
    apply Function.update_of_ne
    change 0 ≠ 1 + inodeBitmapBlocks + 0 / 4
    omega
  rw [harea, hd₄, hbitmap, run_modifyAt_pure_some hsb, Function.update_self]
  exact field_splice_self _ _ _ (by omega)

theorem run_open {s : SuperBlock} (hfit : Fits totalBlocks inodeBitmapBlocks)
    (hlaid : Laid totalBlocks inodeBitmapBlocks a)
    (hs : field (d 0) 0 192 = s.initializeAs totalBlocks inodeBitmapBlocks a.inodeAreaBlocks
      a.dataBitmapBlocks a.dataAreaBlocks) :
    open_.run [] d = some (ofAreas inodeBitmapBlocks a, d) := by
  have htotal := hlaid.total
  have hlt := hfit.total
  obtain ⟨hvalid, hinode, harea, hdata⟩ := s.fields_initializeAs totalBlocks inodeBitmapBlocks
    a.inodeAreaBlocks a.dataBitmapBlocks a.dataAreaBlocks
  rw [← hs] at hvalid hinode harea hdata
  rw [open_, run_readAt (by simp) (by omega)]
  change Prog.run (Prog.assert (SuperBlock.isValid (field (d 0) 0 192) = true) >>= _) [0] d = _
  rw [Prog.run_bind_of (Prog.run_assert hvalid _ _)]
  simp only [hinode, harea, hdata, BitVec.toNat_ofNat]
  rw [Nat.mod_eq_of_lt (by omega), Nat.mod_eq_of_lt (by omega), Nat.mod_eq_of_lt (by omega)]
  rw [Prog.run_bind_of (Prog.run_bind_of (Prog.run_assert (by omega) _ _) _), Prog.run_pure, ofAreas, Nat.add_assoc 1 inodeBitmapBlocks]

/-- The areas follow each other and fill the disk, the data bitmap is as large as it has to be,
inodes do not overlap, and `open` finds what `create` has put on the device, with the cache
that is there and with an empty one. -/
theorem disk_layout (hfit : Fits totalBlocks inodeBitmapBlocks) (hpos : 1 ≤ inodeBitmapBlocks) :
    ∃ a, (∀ d, (areas totalBlocks inodeBitmapBlocks).run [] d = some (a, d)) ∧
      DiskLayout totalBlocks (ofAreas inodeBitmapBlocks a) a ∧
      ∀ dev s d, FsRun dev s d →
        ∃ s', runCached dev (EasyFileSystem.create totalBlocks inodeBitmapBlocks) [] s =
            some (ofAreas inodeBitmapBlocks a, s') ∧
          (runCached dev open_ [] s').map Prod.fst = some (ofAreas inodeBitmapBlocks a) ∧
          (runCached dev open_ [] (.new s'.devices)).map Prod.fst =
            some (ofAreas inodeBitmapBlocks a) := by
  obtain ⟨a, hrun, harea, hlaid⟩ := Laid.of_fits hfit
  refine ⟨a, hrun [], hlaid.diskLayout harea, fun dev s d h => ?_⟩
  obtain ⟨fs, d', hcreate⟩ := run_create_fs_total d (hrun [] d) hpos
  obtain ⟨rfl, sb, hsb⟩ := run_create_superBlock (hrun [] d) hcreate
  have hopen := run_open hfit hlaid hsb
  obtain ⟨hcoh, hhandles, hclean⟩ := h.settled
  obtain ⟨s', hs', hcoh', hhandles', hclean'⟩ :=
    (runCached_prog (.format totalBlocks inodeBitmapBlocks) hcoh hhandles hclean).2 _ _ hcreate
  refine ⟨s', hs', ?_, ?_⟩
  · exact (runCached_fst .open_ hcoh' hhandles' hclean').trans
      (by exact congrArg (Option.map Prod.fst) hopen)
  · rw [← hcoh'.device_eq hclean'] at hopen
    exact (runCached_fst .open_ (coherent_new s'.devices) rfl (clean_new _)).trans
      (by exact congrArg (Option.map Prod.fst) hopen)

/-- The device that `easy-fs-fuse` formats: 16 * 2048 blocks, with one block of inode bitmap. -/
theorem disk_layout_image : ∃ a s, DiskLayout (16 * 2048) (ofAreas 1 a) a ∧
    runCached 0 (EasyFileSystem.create (16 * 2048) 1) [] (.new fun _ _ => 0) =
      some (ofAreas 1 a, s) := by
  obtain ⟨a, -, hlayout, hformat⟩ := @disk_layout (16 * 2048) 1
    ⟨by decide, by decide, by decide, by decide, by decide⟩ (by decide)
  obtain ⟨s, hs, -⟩ := hformat 0 _ _ (.init fun _ _ => 0)
  exact ⟨a, s, hlayout, hs⟩

end RCore.EasyFs
