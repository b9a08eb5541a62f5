import RCore.Proofs.EasyFs.Growth

/-! Writing to a file: the bytes go to its data blocks, and the inode back to its
block. -/

namespace RCore.EasyFs

open RCore.Lib Slot

variable {v : Volume} {held : List ℕ} {d d₁ d' : Disk} {ino : Inodes} {id : ℕ}
  {x x' : DiskInode} {offset : ℕ} {buf : List UInt8}

/-- The data blocks of a file are among its blocks. -/
theorem Written.frame_owned {n start stop : ℕ} {f : ℕ → UInt8} (hn : n = x.dataBlocks)
    (hw : Written d x n start stop f d') {b : ℕ} (hb : b ∉ owned d x) : d' b = d b := by
  subst hn
  apply hw.frame
  rintro k hk rfl
  exact hb (load_mem_owned (dataSlot_mem hk))

theorem Written.changed {start stop : ℕ} {f : ℕ → UInt8} (hs : Sound v ino [] d)
    (hx : ino id = some x) (hw : Written d x x.dataBlocks start stop f d') :
    Changed v ino id x x.size d x d' := by
  have hbelow : ∀ b < v.start, d' b = d b := by
    intro b hb
    exact hw.frame_owned rfl fun hm => absurd (hs.used hx hm).start_le (by omega)
  have hothers : ∀ j y, j ≠ id → ino j = some y → ∀ b ∈ owned d y, d' b = d b := by
    intro j y hj hy b hb
    exact hw.frame_owned rfl fun hm => hs.disjoint hj hy hx hb hm
  have hino : Function.update ino id (some x) = ino := by rw [← hx, Function.update_eq_self]
  refine ⟨⟨?_, by rw [hino]; exact hs.size_le⟩, rfl, rfl, fun b hb _ => hbelow b hb, hothers⟩
  have hown : own ino [] d' = own ino [] d := by
    funext o
    cases o with
    | none => rfl
    | some j =>
      rw [own, own]
      cases hy : ino j with
      | none => rfl
      | some y =>
        by_cases hj : j = id
        · subst hj
          obtain rfl : x = y := by simpa [hx] using hy
          change owned d' x = owned d x
          rw [owned, ownedUpTo, List.map_congr_left hw.loads, owned, ownedUpTo]
        · exact (owned_congr (hs.dataBlocks_le hy) (hothers j y hj hy)).2.1
  rw [hino, hown]
  exact hs.part.congr fun b => used_congr fun b hb => hbelow b (bitmap_lt_start hb)

theorem Written.clean {start stop : ℕ} {f : ℕ → UInt8} (hs : Sound v ino [] d)
    (hx : ino id = some x) (hw : Written d x x.dataBlocks start stop f d') (hstop : stop ≤ x.size)
    (hc : Clean v ino d) : Clean v ino d' ∧
      ∀ i, fileAt d' x i = if start ≤ i ∧ i < stop then f i else fileAt d x i := by
  have hch := hw.changed hs hx
  have hbits : ∀ b, v.fs.dataBitmap.Owns b → d' b = d b := by
    intro b hb
    exact hw.frame_owned rfl fun hm =>
      absurd (hs.used hx hm).start_le (by have := bitmap_lt_start hb; omega)
  have hk := dataBlocks_eq (hs.size_le id x hx)
  refine ⟨⟨fun p hp hset => ?_, fun p hlt hclear => ?_, fun j y hy i hi hlt => ?_⟩, fun i => ?_⟩
  · rw [Bitmap.isSet_congr hbits hp] at hset
    exact hc.in_area p hp hset
  · have hmax : p < v.fs.dataBitmap.maximum := by
      rw [v.dataBitmap_maximum]
      exact Nat.lt_of_lt_of_le hlt v.bitmapCovers
    rw [Bitmap.isSet_congr hbits hmax] at hclear
    rw [hw.frame_owned rfl fun hm => not_used hclear (hs.used hx hm), hc.free_zero p hlt hclear]
  · by_cases hj : j = id
    · subst hj
      obtain rfl : x = y := by simpa [hx] using hy
      rw [hw.bytes i hlt, if_neg (by omega), hc.tail_zero j x hx i hi hlt]
    · rw [(owned_congr (hs.dataBlocks_le hy) (hch.others j y hj hy)).2.2 i hlt,
        hc.tail_zero j y hy i hi hlt]
  · rw [fileAt, fileAt]
    by_cases hi : i < x.size
    · rw [if_pos hi, if_pos hi, hw.bytes i (by omega)]
    · rw [if_neg hi, if_neg hi, if_neg (by omega)]

/-- What `write_at` has done, before the inode goes back to disk. -/
structure Wrote (v : Volume) (ino : Inodes) (id : ℕ) (x : DiskInode) (offset : ℕ)
    (buf : List UInt8) (d : Disk) (x' : DiskInode) (d' : Disk) : Prop where
  changed : Changed v ino id x (max x.size (offset + buf.length)) d x' d'
  used : v.fs.dataBitmap.used d' =
    v.fs.dataBitmap.used d + blocksNeeded x (offset + buf.length)
  clean : Clean v ino d → v.fs.dataBitmap.used d' ≤ v.size →
    Clean v (Function.update ino id (some x')) d' ∧
      ∀ i, fileAt d' x' i =
        if offset ≤ i ∧ i < offset + buf.length then buf.getD (i - offset) 0 else fileAt d x i

theorem run_writeAt_grown (hs : Sound v ino [] d) (hheld : HeldBelow v held)
    (hpos : 0 < buf.length) (hg : Grown v ino id x (offset + buf.length) d x' d₁) :
    ∃ d', (x'.writeAt offset buf).run held d₁ = some (buf.length, d') ∧
      Wrote v ino id x offset buf d x' d' := by
  have hs' := hg.changed.sound
  have hx' : Function.update ino id (some x') id = some x' := Function.update_self ..
  have hsize := hg.changed.size
  have hk := dataBlocks_eq (hs'.size_le id x' hx')
  obtain ⟨d', hr, hw⟩ := DiskInode.run_writeAt (hs'.dataBlocks_le hx')
    (nodup_owned.mp (hs'.nodup hx')) (hs'.unlocked hx' hheld) hpos
    (by omega : offset + buf.length ≤ x'.size) (by omega)
  have hch := hw.changed hs' hx'
  have hused : v.fs.dataBitmap.used d' = v.fs.dataBitmap.used d₁ := by
    apply Bitmap.used_congr
    intro p hp
    apply Bitmap.isSet_congr _ hp
    intro b hb
    exact hw.frame_owned rfl fun hm =>
      absurd (hs'.used hx' hm).start_le (by have := bitmap_lt_start hb; omega)
  refine ⟨d', hr, ?_, ?_, ?_⟩
  · rw [← hsize]
    exact hg.changed.trans hs hch
  · rw [hused, hg.used]
  · intro hc hfull
    rw [hused] at hfull
    obtain ⟨hc₁, hbytes₁⟩ := hg.clean hc hfull
    obtain ⟨hc', hbytes⟩ := hw.clean hs' hx' (by omega) hc₁
    exact ⟨hc', fun i => by rw [hbytes i, hbytes₁ i]⟩

end RCore.EasyFs
