import RCore.Sanity.EasyFs.Bitmap
import RCore.Sanity.EasyFs.Bytes
import RCore.Spec.EasyFs.System

/-! A formatted disk: where its areas lie, the inodes that are in use, and the
blocks of the data area that are. -/

namespace RCore.EasyFs

open RCore.Lib EasyFileSystem

/-- The areas that `create` lays out one after the other on a disk of `totalBlocks`
blocks. Every inode number and every block id fits in the `u32` that holds it. -/
structure Volume where
  totalBlocks : ℕ
  inodeBitmapBlocks : ℕ
  areas : Areas
  inodeArea : areas.inodeAreaBlocks = 1024 * inodeBitmapBlocks
  inodeIds : 4096 * inodeBitmapBlocks ≤ 2 ^ 32
  total : 1 + inodeBitmapBlocks + areas.inodeAreaBlocks + areas.dataBitmapBlocks +
    areas.dataAreaBlocks = totalBlocks
  blockIds : totalBlocks < 2 ^ 32
  bitmapCovers : areas.dataAreaBlocks ≤ 4096 * areas.dataBitmapBlocks
  bitmapBits : 4096 * areas.dataBitmapBlocks ≤ 2 ^ 32

namespace Volume

variable (v : Volume) {held : List ℕ} {d d' : Disk}

def fs : EasyFileSystem := ofAreas v.inodeBitmapBlocks v.areas

/-- The first block of the data area. -/
def start : ℕ := v.fs.dataAreaStartBlock

/-- The number of blocks of the data area. -/
def size : ℕ := v.areas.dataAreaBlocks

theorem start_eq : v.start =
    1 + (v.inodeBitmapBlocks + v.areas.inodeAreaBlocks) + v.areas.dataBitmapBlocks := rfl

theorem start_add_size : v.start + v.size = v.totalBlocks := by
  have h := v.total
  rw [start_eq, size]
  omega

theorem inodeBitmap_owns {b : ℕ} :
    v.fs.inodeBitmap.Owns b ↔ 1 ≤ b ∧ b < 1 + v.inodeBitmapBlocks := Iff.rfl

theorem dataBitmap_owns {b : ℕ} : v.fs.dataBitmap.Owns b ↔
    1 + v.inodeBitmapBlocks + v.areas.inodeAreaBlocks ≤ b ∧ b < v.start := by
  have hstart : v.fs.dataBitmap.startBlockId =
    1 + v.inodeBitmapBlocks + v.areas.inodeAreaBlocks := rfl
  have hblocks : v.fs.dataBitmap.blocks = v.areas.dataBitmapBlocks := rfl
  rw [start_eq, Bitmap.Owns, hstart, hblocks]
  omega

theorem inodeBitmap_maximum : v.fs.inodeBitmap.maximum = 4096 * v.inodeBitmapBlocks :=
  Bitmap.maximum_eq _

theorem dataBitmap_maximum : v.fs.dataBitmap.maximum = 4096 * v.areas.dataBitmapBlocks :=
  Bitmap.maximum_eq _

/-- The block of an inode. -/
def inodeBlock (id : ℕ) : ℕ := (v.fs.getDiskInodePos id).1

/-- The byte offset of an inode in its block. -/
def inodeOffset (id : ℕ) : ℕ := (v.fs.getDiskInodePos id).2

theorem inodeBlock_eq (id : ℕ) : v.inodeBlock id = 1 + v.inodeBitmapBlocks + id / 4 := rfl

theorem inodeOffset_eq (id : ℕ) : v.inodeOffset id = id % 4 * 128 := rfl

theorem inodeOffset_fits (id : ℕ) : 8 * v.inodeOffset id + 1024 ≤ 4096 := by
  rw [inodeOffset_eq]
  omega

/-- A block of the inode area. -/
def InInodeArea (b : ℕ) : Prop :=
  1 + v.inodeBitmapBlocks ≤ b ∧ b < 1 + v.inodeBitmapBlocks + v.areas.inodeAreaBlocks

theorem inodeBlock_mem {id : ℕ} (h : id < v.fs.inodeBitmap.maximum) :
    v.InInodeArea (v.inodeBlock id) := by
  rw [inodeBitmap_maximum] at h
  rw [InInodeArea, inodeBlock_eq, v.inodeArea]
  omega

theorem inodeBlock_lt_start {id : ℕ} (h : id < v.fs.inodeBitmap.maximum) :
    v.inodeBlock id < v.start := by
  have := v.inodeBlock_mem h
  rw [InInodeArea] at this
  rw [start_eq]
  omega

theorem inodeAt_eq (d : Disk) (id : ℕ) :
    v.fs.inodeAt d id = field (d (v.inodeBlock id)) (8 * v.inodeOffset id) 1024 := rfl

variable {v}

theorem inodes_eq_some {id : ℕ} {x : DiskInode} (h : v.fs.inodes d id = some x) :
    id < v.fs.inodeBitmap.maximum ∧ v.fs.inodeBitmap.isSet d id = true ∧ v.fs.inodeAt d id = x := by
  unfold inodes at h
  split_ifs at h with hc
  exact ⟨hc.1, hc.2, by simpa using h⟩

/-- Storing one inode changes that inode and no other. -/
theorem inodeAt_update (id : ℕ) (x : DiskInode)
    (h : ∀ b, v.InInodeArea b → d' b = d b) {j : ℕ} (hj : j < v.fs.inodeBitmap.maximum) :
    v.fs.inodeAt (Function.update d' (v.inodeBlock id)
      (splice (d (v.inodeBlock id)) (8 * v.inodeOffset id) x)) j =
        if j = id then x else v.fs.inodeAt d j := by
  rw [inodeAt_eq]
  by_cases hb : v.inodeBlock j = v.inodeBlock id
  · rw [hb, Function.update_self]
    split_ifs with hji
    · rw [hji]
      exact field_splice_self _ _ _ (v.inodeOffset_fits id)
    · rw [inodeAt_eq, hb]
      apply field_splice_disjoint
      rw [inodeBlock_eq, inodeBlock_eq] at hb
      rw [inodeOffset_eq, inodeOffset_eq]
      omega
  · have hji : j ≠ id := fun he => hb (by rw [he])
    rw [Function.update_of_ne hb, if_neg hji, h _ (v.inodeBlock_mem hj), inodeAt_eq]

theorem inodes_update {id : ℕ} {x : DiskInode} (hid : (v.fs.inodes d id).isSome)
    (hd : ∀ b, v.InInodeArea b → d' b = d b)
    (hbits : ∀ b, v.fs.inodeBitmap.Owns b → d' b = d b) :
    v.fs.inodes (Function.update d' (v.inodeBlock id)
      (splice (d (v.inodeBlock id)) (8 * v.inodeOffset id) x)) =
        Function.update (v.fs.inodes d) id (some x) := by
  obtain ⟨x₀, hx₀⟩ := Option.isSome_iff_exists.mp hid
  obtain ⟨hlt, hset, -⟩ := inodes_eq_some hx₀
  have hmem := v.inodeBlock_mem hlt
  have hb : ∀ b, v.fs.inodeBitmap.Owns b → Function.update d' (v.inodeBlock id)
      (splice (d (v.inodeBlock id)) (8 * v.inodeOffset id) x) b = d b := by
    intro b hb
    rw [Function.update_of_ne, hbits b hb]
    rintro rfl
    rw [InInodeArea] at hmem
    rw [inodeBitmap_owns] at hb
    omega
  funext j
  rw [inodes]
  by_cases hj : j < v.fs.inodeBitmap.maximum
  · rw [Bitmap.isSet_congr hb hj, inodeAt_update _ _ hd hj]
    by_cases hji : j = id
    · subst hji
      rw [if_pos ⟨hj, hset⟩, if_pos rfl, Function.update_self]
    · rw [if_neg hji, Function.update_of_ne hji, inodes]
  · have hji : j ≠ id := by rintro rfl; exact hj hlt
    rw [if_neg (fun h => hj h.1), Function.update_of_ne hji, inodes, if_neg (fun h => hj h.1)]

/-- `alloc_data` hands out the least free block of the bitmap. It fails only when
all the blocks of the data area are taken. -/
theorem run_allocData (hheld : ∀ b, v.fs.dataBitmap.Owns b → b ∉ held) :
    (∃ p d', v.fs.allocData.run held d = some (v.start + p, d') ∧
      v.fs.dataBitmap.Added d d' p ∧ (∀ k < p, v.fs.dataBitmap.isSet d k = true) ∧
      v.start + p < 2 ^ 32) ∨
    (v.fs.allocData.run held d = none ∧ v.size ≤ v.fs.dataBitmap.used d) := by
  have hmax := v.dataBitmap_maximum
  have hcov := v.bitmapCovers
  have hbits := v.bitmapBits
  have htot := v.start_add_size
  have hids := v.blockIds
  rcases v.fs.dataBitmap.run_alloc held d hheld with ⟨p, d', hr, ha, hb⟩ | ⟨hr, hfull⟩
  · have hp := ha.lt
    rw [hmax] at hp
    have hrun : v.fs.allocData.run held d = (checkedU32 (v.start + p)).run held d' := by
      rw [allocData, Prog.run_bind_of hr, Prog.run_bind_of (Prog.run_ofOption_some _ _ _),
        Nat.mod_eq_of_lt (by omega), Nat.add_comm]
      rfl
    by_cases hlt : v.start + p < 2 ^ 32
    · left
      refine ⟨p, d', ?_, ha, hb, hlt⟩
      rw [hrun, checkedU32, Prog.run_bind_of (Prog.run_assert hlt _ _)]
      rfl
    · right
      refine ⟨?_, ?_⟩
      · rw [hrun, checkedU32, Prog.run_bind, Prog.assert, if_neg hlt]
        rfl
      · have := Bitmap.le_used ha.lt.le hb
        omega
  · right
    refine ⟨?_, ?_⟩
    · rw [allocData, Prog.run_bind_of hr]
      rfl
    · have := Bitmap.le_used (le_refl _) hfull
      rw [hmax] at this
      rw [size]
      omega

end Volume

end RCore.EasyFs
