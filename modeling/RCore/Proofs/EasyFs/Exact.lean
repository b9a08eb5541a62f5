import RCore.Proofs.EasyFs.Ownership
import RCore.Sanity.EasyFs.Requests
import RCore.Sanity.EasyFs.Words

/-! What a write leaves on disk, block by block: which blocks the allocator hands out,
where their ids go, and what becomes of the data. -/

namespace RCore.EasyFs

open RCore.Lib Slot

variable {v : Volume} {held : List ℕ} {d d₁ e : Disk} {ino : Inodes} {id : ℕ} {x : DiskInode}
  {newSize : ℕ} {vs : List U32}

namespace Inode

/-- The blocks of the loop over `alloc_data` go behind those that it starts with. -/
theorem run_allocBlocks_acc (fs : EasyFileSystem) (n : ℕ) (acc : List U32) (d : Disk) :
    (allocBlocks fs n acc).run held d =
      ((allocBlocks fs n []).run held d).map fun r => (acc ++ r.1, r.2) := by
  induction n generalizing acc d with
  | zero => simp [allocBlocks]
  | succ n ih =>
    rw [allocBlocks, allocBlocks, Prog.run_bind, Prog.run_bind]
    cases fs.allocData.run held d with
    | none => rfl
    | some r =>
      simp only [Option.bind_some]
      rw [ih (acc ++ _), ih ([] ++ _), Option.map_map]
      congr 1
      funext t
      simp

/-- Allocating in two steps is allocating at once. -/
theorem run_allocBlocks_add (fs : EasyFileSystem) (m n : ℕ) (held : List ℕ) (d : Disk) :
    (allocBlocks fs (m + n) []).run held d = ((allocBlocks fs m []).run held d).bind fun r =>
      ((allocBlocks fs n []).run held r.2).map fun t => (r.1 ++ t.1, t.2) := by
  suffices h : ∀ acc, (allocBlocks fs (m + n) acc).run held d =
      ((allocBlocks fs m acc).run held d).bind fun r => (allocBlocks fs n r.1).run held r.2 by
    rw [h]
    congr 1
    funext r
    rw [run_allocBlocks_acc]
  intro acc
  induction m generalizing acc d with
  | zero =>
    rw [Nat.zero_add]
    rfl
  | succ m ih =>
    rw [Nat.succ_add, allocBlocks, allocBlocks, Prog.run_bind, Prog.run_bind]
    cases fs.allocData.run held d with
    | none => rfl
    | some r => exact ih r.2 _

/-- The allocator depends on the bitmap, and changes nothing else. -/
theorem run_allocBlocks_frame (fs : EasyFileSystem) (n : ℕ) (held : List ℕ)
    (he : ∀ c, fs.dataBitmap.Owns c → e c = d c) :
    ((allocBlocks fs n []).run held d = none → (allocBlocks fs n []).run held e = none) ∧
    ∀ r d', (allocBlocks fs n []).run held d = some (r, d') →
      ∃ e', (allocBlocks fs n []).run held e = some (r, e') ∧
        (∀ c, fs.dataBitmap.Owns c → e' c = d' c) ∧ ∀ c, ¬ fs.dataBitmap.Owns c → e' c = e c := by
  have halways : (allocBlocks fs n []).Always (Event.Asks fs.dataBitmap.Owns) held d :=
    EasyFileSystem.always_allocBlocks (fun _ hb => hb) n [] d
  obtain ⟨hnone, hsome⟩ := Prog.run_frame halways he
  refine ⟨hnone, fun r d' hr => ?_⟩
  obtain ⟨e', hr', hin, hout⟩ := hsome r d' hr
  exact ⟨e', hr', hin, fun c hc => (hout c hc).1⟩

end Inode

/-- The new blocks `vs` put in place for inode `x` to have `n` bytes. -/
def placeBlocks (d : Disk) (x : DiskInode) (n : ℕ) (vs : List U32) : Disk × DiskInode :=
  storeAll (d, x.setSize n)
    (slotsFrom x.dataBlocks (DiskInode.dataBlocksOf n - x.dataBlocks)) vs

theorem setSize_size (x : DiskInode) : x.setSize x.size = x := by
  rw [DiskInode.setSize, DiskInode.size, BitVec.ofNat_toNat, BitVec.setWidth_eq]
  exact splice_field _ _ _

theorem placeBlocks_same (d : Disk) (x : DiskInode) : placeBlocks d x x.size [] = (d, x) := by
  rw [placeBlocks, setSize_size, DiskInode.dataBlocks, Nat.sub_self, slotsFrom_zero, storeAll_nil]

theorem blocksNeeded_max (hx : x.size ≤ 16540 * 512) :
    blocksNeeded x (max x.size newSize) = blocksNeeded x newSize := by
  by_cases h : x.size ≤ newSize
  · rw [Nat.max_eq_right h]
  · have hmono := totalBlocks_mono (Nat.le_of_not_le h) hx
    rw [Nat.max_eq_left (Nat.le_of_not_le h), blocksNeeded, blocksNeeded]
    omega

/-- `Inode::increase_size` takes the blocks it needs and puts them in place. -/
theorem run_increaseSize_exact (hs : Sound v ino [] d) (hx : ino id = some x)
    (hheld : HeldBelow v held) (hmax : newSize ≤ 16540 * 512) :
    (Inode.increaseSize v.fs newSize x).run held d =
      ((Inode.allocBlocks v.fs (blocksNeeded x newSize) []).run held d).map fun r =>
        ((placeBlocks r.2 x (max x.size newSize) r.1).2,
          (placeBlocks r.2 x (max x.size newSize) r.1).1) := by
  by_cases hlt : newSize < x.size
  · have hmono := totalBlocks_mono hlt.le (hs.size_le id x hx)
    have hzero : blocksNeeded x newSize = 0 := by
      rw [blocksNeeded]
      omega
    rw [Inode.increaseSize, if_pos hlt, hzero, Nat.max_eq_left hlt.le]
    simp [Inode.allocBlocks, placeBlocks_same]
  · have hle := Nat.le_of_not_lt hlt
    have hneed : (x.blocksNumNeeded newSize).run held d = some (blocksNeeded x newSize, d) :=
      Prog.run_bind_of (Prog.run_assert hle _ _) _
    rw [Inode.increaseSize, if_neg hlt, Prog.run_bind_of hneed, Prog.run_bind,
      Nat.max_eq_right hle]
    cases halloc : (Inode.allocBlocks v.fs (blocksNeeded x newSize) []).run held d with
    | none => rfl
    | some r =>
      obtain ⟨vs, d₁⟩ := r
      obtain ⟨hlen, ha⟩ := alloced_of_run hheld.bitmap halloc
      have hk := dataBlocks_eq (hs.size_le id x hx)
      have hnew := dataBlocksOf_eq hmax
      have hm : DiskInode.dataBlocksOf newSize =
          x.dataBlocks + (DiskInode.dataBlocksOf newSize - x.dataBlocks) := by omega
      have hslots : (slotsFrom x.dataBlocks
          (DiskInode.dataBlocksOf newSize - x.dataBlocks)).length = blocksNeeded x newSize := by
        rw [length_slotsFrom, ← hm, blocksNeeded, totalBlocks_eq, totalBlocks_eq,
          DiskInode.dataBlocks]
      have hrun := DiskInode.run_increaseSize (by omega) hm (by omega)
        (room_of_sound (ha.taken hs) hx hheld) (hlen.trans hslots.symm)
      rw [Option.bind_some, Prog.run_bind_of hrun]
      rfl

section write

variable {offset : ℕ} {buf : List UInt8}

/-- A write that finds no free blocks fails. -/
theorem run_writeAt_starved (hs : Sound v (v.fs.inodes d) [] d) (hx : v.fs.inodes d id = some x)
    (hend : offset + buf.length ≤ 16540 * 512)
    (h : (Inode.allocBlocks v.fs (blocksNeeded x (offset + buf.length)) []).run
      [v.inodeBlock id] d = none) :
    (Inode.writeAt v.fs (Inode.ofId v.fs id) offset buf).run [] d = none := by
  have hgrow := run_increaseSize_exact hs hx (heldBelow_inodeBlock hx) hend
  rw [h, Option.map_none] at hgrow
  cases hr : (Inode.writeAt v.fs (Inode.ofId v.fs id) offset buf).run [] d with
  | none => rfl
  | some r =>
    exfalso
    obtain ⟨r₁, d₁, hm, -⟩ := Prog.run_bind_eq_some hr
    obtain ⟨x₁, d₂, hbody, -⟩ := run_modifyDiskInode_some hx hm
    obtain ⟨x', d₃, hgrow', -⟩ := Prog.run_bind_eq_some hbody
    rw [Nat.mod_eq_of_lt (by omega), hgrow] at hgrow'
    cases hgrow'

/-- Writing to a file that has grown. -/
theorem run_writeAt_written {x' : DiskInode} (hs : Sound v ino [] d) (hheld : HeldBelow v held)
    (hpos : 0 < buf.length) (hg : Grown v ino id x (offset + buf.length) d x' d₁) :
    ∃ d₂, (x'.writeAt offset buf).run held d₁ = some (buf.length, d₂) ∧
      Written d₁ x' x'.dataBlocks offset (offset + buf.length) (fun i => buf.getD (i - offset) 0) d₂ ∧
      Wrote v ino id x offset buf d x' d₂ := by
  have hs' := hg.changed.sound
  have hx' : Function.update ino id (some x') id = some x' := Function.update_self ..
  have hsize := hg.changed.size
  have hk := dataBlocks_eq (hs'.size_le id x' hx')
  obtain ⟨d₂, hr, hw⟩ := DiskInode.run_writeAt (hs'.dataBlocks_le hx')
    (nodup_owned.mp (hs'.nodup hx')) (hs'.unlocked hx' hheld) hpos
    (by omega : offset + buf.length ≤ x'.size) (by omega)
  obtain ⟨d₃, hr', hwrote⟩ := run_writeAt_grown hs hheld hpos hg
  obtain rfl : d₂ = d₃ := by simpa [hr] using hr'
  exact ⟨d₂, hr, hw, hwrote⟩

/-- A write puts the blocks it gets in place, the data into the data blocks, and the inode
back to its own block. -/
theorem run_writeAt_exact (hs : Sound v (v.fs.inodes d) [] d) (hx : v.fs.inodes d id = some x)
    (hpos : 0 < buf.length) (hend : offset + buf.length ≤ 16540 * 512)
    (h : (Inode.allocBlocks v.fs (blocksNeeded x (offset + buf.length)) []).run
      [v.inodeBlock id] d = some (vs, d₁)) {s : Disk × DiskInode}
    (hplace : placeBlocks d₁ x (max x.size (offset + buf.length)) vs = s) :
    ∃ d₂ : Disk, (Inode.writeAt v.fs (Inode.ofId v.fs id) offset buf).run [] d =
        some (buf.length, Function.update d₂ (v.inodeBlock id)
          (splice (d (v.inodeBlock id)) (8 * v.inodeOffset id) s.2)) ∧
      Written s.1 s.2 s.2.dataBlocks offset (offset + buf.length)
        (fun i => buf.getD (i - offset) 0) d₂ ∧
      Done v d id x (max x.size (offset + buf.length)) (writtenAt d x offset buf) s.2
        (Function.update d₂ (v.inodeBlock id)
          (splice (d (v.inodeBlock id)) (8 * v.inodeOffset id) s.2)) ∧
      Sound v (Function.update (v.fs.inodes d) id (some s.2)) [] s.1 := by
  have hheld := heldBelow_inodeBlock hx
  have hgrow := run_increaseSize_exact hs hx hheld hend
  rw [h, Option.map_some, hplace] at hgrow
  have hg := run_increaseSize_some hs hx hheld hend hgrow
  obtain ⟨d₂, hr, hw, hwrote⟩ := run_writeAt_written hs hheld hpos hg
  obtain ⟨hdone, -⟩ := hwrote.changed.commit hx hs hwrote.clean
  exact ⟨d₂, run_writeAt_of_parts hx hend hgrow hr, hw, hdone, hg.changed.sound⟩

end write

end RCore.EasyFs
