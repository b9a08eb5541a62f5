import RCore.Proofs.EasyFs.Write

/-! The calls of an inode handle: `write_at` and `clear` change the file of the
handle and no other. -/

namespace RCore.EasyFs

open RCore.Lib Slot

variable {v : Volume} {d d' : Disk} {id : ℕ} {x x' : DiskInode} {size : ℕ} {f : ℕ → UInt8}

/-- A call has changed inode `id`: its file now has `size` bytes, those that `f`
gives as long as the data area has not been exceeded. -/
structure Done (v : Volume) (d : Disk) (id : ℕ) (x : DiskInode) (size : ℕ) (f : ℕ → UInt8)
    (x' : DiskInode) (d' : Disk) : Prop where
  inodes : v.fs.inodes d' = Function.update (v.fs.inodes d) id (some x')
  sound : Sound v (v.fs.inodes d') [] d'
  size : x'.size = size
  type_ : x'.type_ = x.type_
  others : ∀ j y, j ≠ id → v.fs.inodes d j = some y → ∀ i, fileAt d' y i = fileAt d y i
  clean : Clean v (v.fs.inodes d) d → v.fs.dataBitmap.used d' ≤ v.size →
    Clean v (v.fs.inodes d') d' ∧ ∀ i, fileAt d' x' i = f i

theorem fileAt_congr (hx : x.size ≤ 16540 * 512) (h : ∀ b ∈ owned d x, d' b = d b) (i : ℕ) :
    fileAt d' x i = fileAt d x i := by
  have hk := dataBlocks_eq hx
  rw [fileAt, fileAt]
  split_ifs with hi
  · exact (owned_congr (by omega) h).2.2 i (by omega)
  · rfl

theorem heldBelow_inodeBlock (h : v.fs.inodes d id = some x) : HeldBelow v [v.inodeBlock id] := by
  obtain ⟨hlt, -, -⟩ := Volume.inodes_eq_some h
  have hmem := v.inodeBlock_mem hlt
  have hst := v.inodeBlock_lt_start hlt
  constructor
  · intro b hb hm
    rw [List.mem_singleton] at hm
    subst hm
    rw [Volume.dataBitmap_owns] at hb
    rw [Volume.InInodeArea] at hmem
    omega
  · intro b hb
    rw [List.mem_singleton] at hb
    omega

/-- Until the inode goes back, the inode area is as it was. -/
theorem Changed.inodeArea {ino : Inodes} (hch : Changed v ino id x size d x' d') :
    ∀ b, v.InInodeArea b → d' b = d b := by
  intro b hb
  rw [Volume.InInodeArea] at hb
  apply hch.frame
  · rw [Volume.start_eq]
    omega
  · rw [Volume.dataBitmap_owns]
    omega

theorem Changed.inodeBits {ino : Inodes} (hch : Changed v ino id x size d x' d') :
    ∀ b, v.fs.inodeBitmap.Owns b → d' b = d b := by
  intro b hb
  rw [Volume.inodeBitmap_owns] at hb
  apply hch.frame
  · rw [Volume.start_eq]
    omega
  · rw [Volume.dataBitmap_owns]
    omega

/-- The inode goes back to its block: the inodes on disk, and who owns what. -/
theorem Changed.inodes_commit (hx : v.fs.inodes d id = some x)
    (hch : Changed v (v.fs.inodes d) id x size d x' d') {d'' : Disk}
    (hd'' : d'' = Function.update d' (v.inodeBlock id)
      (splice (d (v.inodeBlock id)) (8 * v.inodeOffset id) x')) :
    v.fs.inodes d'' = Function.update (v.fs.inodes d) id (some x') ∧
      Sound v (v.fs.inodes d'') [] d'' ∧ (∀ b, v.start ≤ b → d'' b = d' b) ∧
      ∀ b, v.fs.dataBitmap.Owns b → d'' b = d' b := by
  obtain ⟨hlt, -, -⟩ := Volume.inodes_eq_some hx
  have hmem := v.inodeBlock_mem hlt
  have hst := v.inodeBlock_lt_start hlt
  rw [Volume.InInodeArea] at hmem
  have hino := Volume.inodes_update (x := x') (by rw [hx]; rfl : (v.fs.inodes d id).isSome)
    hch.inodeArea hch.inodeBits
  rw [← hd''] at hino
  have hdata : ∀ b, v.start ≤ b → d'' b = d' b := by
    intro b hb
    rw [hd'']
    exact Function.update_of_ne (by omega) _ _
  have hbits : ∀ b, v.fs.dataBitmap.Owns b → d'' b = d' b := by
    intro b hb
    rw [Volume.dataBitmap_owns] at hb
    rw [hd'']
    exact Function.update_of_ne (by omega) _ _
  refine ⟨hino, ?_, hdata, hbits⟩
  rw [hino]
  exact hch.sound.congr hdata hbits

/-- The inode goes back to its block. -/
theorem Changed.commit (hx : v.fs.inodes d id = some x)
    (hch : Changed v (v.fs.inodes d) id x size d x' d') (hs : Sound v (v.fs.inodes d) [] d)
    (hcl : Clean v (v.fs.inodes d) d → v.fs.dataBitmap.used d' ≤ v.size →
      Clean v (Function.update (v.fs.inodes d) id (some x')) d' ∧ ∀ i, fileAt d' x' i = f i) :
    Done v d id x size f x' (Function.update d' (v.inodeBlock id)
      (splice (d (v.inodeBlock id)) (8 * v.inodeOffset id) x')) ∧
    v.fs.dataBitmap.used (Function.update d' (v.inodeBlock id)
      (splice (d (v.inodeBlock id)) (8 * v.inodeOffset id) x')) = v.fs.dataBitmap.used d' := by
  set d'' := Function.update d' (v.inodeBlock id)
    (splice (d (v.inodeBlock id)) (8 * v.inodeOffset id) x') with hd''
  obtain ⟨hino, hsound, hdata, hbits⟩ := hch.inodes_commit hx hd''
  have hused : v.fs.dataBitmap.used d'' = v.fs.dataBitmap.used d' :=
    Bitmap.used_congr fun p hp => Bitmap.isSet_congr hbits hp
  have hx' : Function.update (v.fs.inodes d) id (some x') id = some x' := Function.update_self ..
  refine ⟨⟨hino, hsound, hch.size, hch.type_, ?_, ?_⟩, hused⟩
  · intro j y hj hy i
    apply fileAt_congr (hs.size_le j y hy)
    intro b hb
    rw [hdata b (hs.used hy hb).start_le, hch.others j y hj hy b hb]
  · intro hc hfull
    rw [hused] at hfull
    obtain ⟨hc', hbytes⟩ := hcl hc hfull
    rw [hino]
    refine ⟨hc'.congr hch.sound hdata hbits, fun i => ?_⟩
    rw [← hbytes i]
    apply fileAt_congr (hch.sound.size_le id x' hx')
    intro b hb
    exact hdata b (hch.sound.used hx' hb).start_le

/-- A closure that works on a copy of inode `id` under the lock of its block. -/
theorem run_modifyDiskInode {α : Type} {g : DiskInode → Fs (DiskInode × α)} {a : α}
    (hx : v.fs.inodes d id = some x) (h : (g x).run [v.inodeBlock id] d = some ((x', a), d')) :
    ((Inode.ofId v.fs id).modifyDiskInode g).run [] d =
      some (a, Function.update d' (v.inodeBlock id)
        (splice (d (v.inodeBlock id)) (8 * v.inodeOffset id) x')) := by
  obtain ⟨-, -, rfl⟩ := Volume.inodes_eq_some hx
  exact run_modifyAt (by simp) (v.inodeOffset_fits id) h

theorem run_modifyDiskInode_some {α : Type} {g : DiskInode → Fs (DiskInode × α)} {a : α}
    (hx : v.fs.inodes d id = some x)
    (h : ((Inode.ofId v.fs id).modifyDiskInode g).run [] d = some (a, d')) :
    ∃ x' d₁, (g x).run [v.inodeBlock id] d = some ((x', a), d₁) ∧
      d' = Function.update d₁ (v.inodeBlock id)
        (splice (d (v.inodeBlock id)) (8 * v.inodeOffset id) x') := by
  obtain ⟨-, -, rfl⟩ := Volume.inodes_eq_some hx
  obtain ⟨-, x', d₁, hr, rfl⟩ := run_modifyAt_eq_some h
  exact ⟨x', d₁, hr, rfl⟩

/-- The bytes of a file after `buf` has been written at `offset`. -/
def writtenAt (d : Disk) (x : DiskInode) (offset : ℕ) (buf : List UInt8) (i : ℕ) : UInt8 :=
  if offset ≤ i ∧ i < offset + buf.length then buf.getD (i - offset) 0 else fileAt d x i

section write

variable {offset : ℕ} {buf : List UInt8}

/-- Writing to a file that has grown, up to the inode's going back to disk. -/
theorem run_write_grown (hs : Sound v (v.fs.inodes d) [] d) (hx : v.fs.inodes d id = some x)
    (hpos : 0 < buf.length) (hend : offset + buf.length ≤ 16540 * 512) {d₁ : Disk}
    (hgrow : (Inode.increaseSize v.fs (offset + buf.length) x).run [v.inodeBlock id] d =
      some (x', d₁)) :
    ∃ d₂ d', (x'.writeAt offset buf).run [v.inodeBlock id] d₁ = some (buf.length, d₂) ∧
      d' = Function.update d₂ (v.inodeBlock id)
        (splice (d (v.inodeBlock id)) (8 * v.inodeOffset id) x') ∧
      Done v d id x (max x.size (offset + buf.length)) (writtenAt d x offset buf) x' d' ∧
      v.fs.dataBitmap.used d' = v.fs.dataBitmap.used d + blocksNeeded x (offset + buf.length) := by
  have hheld := heldBelow_inodeBlock hx
  have hg := run_increaseSize_some hs hx hheld hend hgrow
  obtain ⟨d₂, hr, hw⟩ := run_writeAt_grown hs hheld hpos hg
  obtain ⟨hdone, hused⟩ := hw.changed.commit hx hs hw.clean
  exact ⟨d₂, _, hr, rfl, hdone, by rw [hused, hw.used]⟩

/-- `write_at` from its parts: the file grows, the bytes go to its blocks, and the inode back
to its own. -/
theorem run_writeAt_of_parts (hx : v.fs.inodes d id = some x)
    (hend : offset + buf.length ≤ 16540 * 512) {d₁ d₂ : Disk} {r : ℕ}
    (hgrow : (Inode.increaseSize v.fs (offset + buf.length) x).run [v.inodeBlock id] d =
      some (x', d₁))
    (hr : (x'.writeAt offset buf).run [v.inodeBlock id] d₁ = some (r, d₂)) :
    (Inode.writeAt v.fs (Inode.ofId v.fs id) offset buf).run [] d =
      some (r, Function.update d₂ (v.inodeBlock id)
        (splice (d (v.inodeBlock id)) (8 * v.inodeOffset id) x')) := by
  have hbody : (do
      let x ← Inode.increaseSize v.fs ((offset + buf.length) % 2 ^ 32) x
      let size ← x.writeAt offset buf
      pure (x, size) : Fs (DiskInode × ℕ)).run [v.inodeBlock id] d = some ((x', r), d₂) := by
    rw [Nat.mod_eq_of_lt (by omega), Prog.run_bind_of hgrow, Prog.run_bind_of hr]
    rfl
  rw [Inode.writeAt, Prog.run_bind_of (run_modifyDiskInode hx hbody), Prog.run_bind_of run_sync]
  rfl

/-- `write_at` once its file has grown. -/
theorem run_writeAt_of_grown (hs : Sound v (v.fs.inodes d) [] d) (hx : v.fs.inodes d id = some x)
    (hpos : 0 < buf.length) (hend : offset + buf.length ≤ 16540 * 512) {d₁ : Disk}
    (hgrow : (Inode.increaseSize v.fs (offset + buf.length) x).run [v.inodeBlock id] d =
      some (x', d₁)) :
    ∃ d', (Inode.writeAt v.fs (Inode.ofId v.fs id) offset buf).run [] d = some (buf.length, d') ∧
      Done v d id x (max x.size (offset + buf.length)) (writtenAt d x offset buf) x' d' ∧
      v.fs.dataBitmap.used d' = v.fs.dataBitmap.used d + blocksNeeded x (offset + buf.length) := by
  obtain ⟨d₂, d', hr, rfl, hdone, hused⟩ := run_write_grown hs hx hpos hend hgrow
  exact ⟨_, run_writeAt_of_parts hx hend hgrow hr, hdone, hused⟩

/-- `write_at` that gives a result has written the whole buffer. -/
theorem run_writeAt_some (hs : Sound v (v.fs.inodes d) [] d) (hx : v.fs.inodes d id = some x)
    (hpos : 0 < buf.length) (hend : offset + buf.length ≤ 16540 * 512) {r : ℕ}
    (h : (Inode.writeAt v.fs (Inode.ofId v.fs id) offset buf).run [] d = some (r, d')) :
    r = buf.length ∧
      v.fs.dataBitmap.used d' = v.fs.dataBitmap.used d + blocksNeeded x (offset + buf.length) ∧
      ∃ x', Done v d id x (max x.size (offset + buf.length)) (writtenAt d x offset buf) x' d' := by
  obtain ⟨r₁, d₁, hm, -⟩ := Prog.run_bind_eq_some h
  obtain ⟨x₁, d₂, hbody, -⟩ := run_modifyDiskInode_some hx hm
  obtain ⟨x', d₃, hgrow, -⟩ := Prog.run_bind_eq_some hbody
  rw [Nat.mod_eq_of_lt (by omega)] at hgrow
  obtain ⟨d₄, hr, hdone, hused⟩ := run_writeAt_of_grown hs hx hpos hend hgrow
  obtain ⟨rfl, rfl⟩ : buf.length = r ∧ d₄ = d' := by simpa [hr] using h
  exact ⟨rfl, hused, x', hdone⟩

theorem run_writeAt_total (hs : Sound v (v.fs.inodes d) [] d) (hx : v.fs.inodes d id = some x)
    (hpos : 0 < buf.length) (hend : offset + buf.length ≤ 16540 * 512)
    (hfree : v.fs.dataBitmap.used d + blocksNeeded x (offset + buf.length) ≤ v.size) :
    ∃ r d', (Inode.writeAt v.fs (Inode.ofId v.fs id) offset buf).run [] d = some (r, d') := by
  obtain ⟨x', d₁, hgrow⟩ := run_increaseSize_total hs hx (heldBelow_inodeBlock hx) hend hfree
  obtain ⟨d', hr, -⟩ := run_writeAt_of_grown hs hx hpos hend hgrow
  exact ⟨_, d', hr⟩

end write

section clear

variable {ino : Inodes}

theorem owned_of_size_zero (h : x.size = 0) : owned d x = [] := by
  have hk := dataBlocks_eq (x := x) (by omega)
  rw [owned, ownedUpTo, hk, h]
  rfl

/-- The blocks of a file pass to the call that clears it. -/
theorem Sound.cleared (hs : Sound v ino [] d) (hx : ino id = some x) (hsize : x'.size = 0) :
    Sound v (Function.update ino id (some x')) (owned d x) d := by
  constructor
  · have hown : own (Function.update ino id (some x')) (owned d x) d = Function.update
        (Function.update (own ino [] d) none (own ino [] d none ++ own ino [] d (some id)))
        (some id) [] := by
      funext o
      cases o with
      | none => rw [Function.update_of_ne (by simp), Function.update_self, own_some hx]; rfl
      | some j =>
        by_cases hj : j = id
        · subst hj
          rw [Function.update_self, own_some (Function.update_self ..), owned_of_size_zero hsize]
        · rw [Function.update_of_ne (by simpa using hj), Function.update_of_ne (by simp), own, own,
            Function.update_of_ne hj]
    rw [hown]
    exact hs.part.transfer (by simp)
  · intro j y hy
    by_cases hj : j = id
    · subst hj
      rw [Function.update_self, Option.some.injEq] at hy
      rw [← hy]
      omega
    · rw [Function.update_of_ne hj] at hy
      exact hs.size_le j y hy

theorem Clean.cleared (hc : Clean v ino d) (hsize : x'.size = 0) :
    Clean v (Function.update ino id (some x')) d := by
  refine ⟨hc.in_area, hc.free_zero, fun j y hy i hi hlt => ?_⟩
  by_cases hj : j = id
  · subst hj
    rw [Function.update_self, Option.some.injEq] at hy
    subst hy
    rw [dataBlocks_eq (by omega), hsize] at hlt
    omega
  · rw [Function.update_of_ne hj] at hy
    exact hc.tail_zero j y hy i hi hlt

/-- The parts of `clear`: the blocks of the file are listed and given back, and the empty inode
goes to disk. -/
theorem run_clear_parts (hs : Sound v (v.fs.inodes d) [] d) (hx : v.fs.inodes d id = some x) :
    ∃ x' d₁, x.clearSize.run [v.inodeBlock id] d =
        some ((x', ownedUpTo d x x.dataBlocks), d) ∧
      DiskInode.Cleared x.dataBlocks x (if 28 < x.dataBlocks then 0 else x.indirect1)
        (if 156 < x.dataBlocks then 0 else x.indirect2) x' ∧
      (Inode.deallocBlocks v.fs (ownedUpTo d x x.dataBlocks)).run [v.inodeBlock id] d =
        some ((), d₁) ∧
      Changed v (v.fs.inodes d) id x 0 d x' d₁ ∧
      Freed v (Function.update (v.fs.inodes d) id (some x')) d d₁ ∧ Zeroed v (owned d x) d d₁ ∧
      (Inode.clear v.fs (Inode.ofId v.fs id)).run [] d =
        some ((), Function.update d₁ (v.inodeBlock id)
          (splice (d (v.inodeBlock id)) (8 * v.inodeOffset id) x')) := by
  have hheld := heldBelow_inodeBlock hx
  obtain ⟨x', hr, hc⟩ := DiskInode.run_clearSize (hs.dataBlocks_le hx)
    (nodup_owned.mp (hs.nodup hx)) (hs.unlocked hx hheld)
  obtain ⟨d₁, hr₁, hs₁, hf, hz⟩ := run_deallocBlocks hheld.bitmap (ownedUpTo d x x.dataBlocks)
    (hs.cleared hx hc.size) (by
      intro b hb
      exact hheld.not_mem (hs.used hx (List.mem_map_of_mem hb)).start_le)
  have hch : Changed v (v.fs.inodes d) id x 0 d x' d₁ := by
    refine ⟨hs₁, hc.size, hc.type_, hf.frame, fun j y hj hy b hb => ?_⟩
    exact hf.files j y (by rwa [Function.update_of_ne hj]) b hb
  have hlen : (ownedUpTo d x x.dataBlocks).length = DiskInode.totalBlocks x.size := by
    rw [← length_owned d x, owned, List.length_map]
  refine ⟨x', d₁, hr, hc, hr₁, hch, hf, hz, ?_⟩
  rw [Inode.clear]
  refine (Prog.run_bind_of (run_modifyDiskInode (a := ()) hx ?_) _).trans run_sync
  rw [Prog.run_bind_of hr, Prog.run_bind_of (Prog.run_assert hlen _ _), Prog.run_bind_of hr₁]
  rfl

/-- `clear` gives all the blocks of the file back. -/
theorem run_clear (hs : Sound v (v.fs.inodes d) [] d) (hx : v.fs.inodes d id = some x) :
    ∃ x' d', (Inode.clear v.fs (Inode.ofId v.fs id)).run [] d = some ((), d') ∧
      Done v d id x 0 (fun _ => 0) x' d' := by
  obtain ⟨x', d₁, -, hcl, -, hch, hf, -, hr⟩ := run_clear_parts hs hx
  obtain ⟨hdone, -⟩ := hch.commit (f := fun _ => 0) hx hs fun hc _ => by
    refine ⟨hf.clean (hc.cleared hcl.size), fun i => ?_⟩
    rw [fileAt, hcl.size, if_neg (by omega)]
  exact ⟨x', _, hr, hdone⟩

end clear

end RCore.EasyFs
