import RCore.Proofs.EasyFs.Alloc

/-! Growing a file. The inode is a copy in memory while its block is locked: on
disk it changes when the call ends. -/

namespace RCore.EasyFs

open RCore.Lib Slot

variable {v : Volume} {held : List ℕ} {d d₁ d' : Disk} {ino : Inodes} {id : ℕ}
  {x x' : DiskInode} {newSize : ℕ} {vs : List U32}

/-- What is locked lies before the data area, and outside of its bitmap. -/
structure HeldBelow (v : Volume) (held : List ℕ) : Prop where
  bitmap : BitmapFree v held
  lt : ∀ b ∈ held, b < v.start

theorem HeldBelow.not_mem (h : HeldBelow v held) {b : ℕ} (hb : v.start ≤ b) : b ∉ held :=
  fun hm => absurd (h.lt b hm) (by omega)

theorem Sound.unlocked (hs : Sound v ino [] d) (hx : ino id = some x) (hheld : HeldBelow v held) :
    Unlocked held d x x.dataBlocks :=
  fun _ hσ => hheld.not_mem (hs.used hx (load_mem_owned hσ)).start_le

/-- A byte of a file, which is zero past its end. -/
def fileAt (d : Disk) (x : DiskInode) (i : ℕ) : UInt8 :=
  if i < x.size then fileByte d x i else 0

/-- The blocks that have to be allocated for a file to grow to `newSize`. -/
def blocksNeeded (x : DiskInode) (newSize : ℕ) : ℕ :=
  DiskInode.totalBlocks newSize - DiskInode.totalBlocks x.size

theorem totalBlocks_mono {m n : ℕ} (h : m ≤ n) (hn : n ≤ 16540 * 512) :
    DiskInode.totalBlocks m ≤ DiskInode.totalBlocks n := by
  rw [totalBlocks_eq, totalBlocks_eq, dataBlocksOf_eq hn, dataBlocksOf_eq (by omega)]
  obtain ⟨k, hk⟩ : ∃ k, (n + 511) / 512 = (m + 511) / 512 + k :=
    ⟨(n + 511) / 512 - (m + 511) / 512, by omega⟩
  rw [hk, slotsUpTo_add, List.length_append]
  omega

/-- Inode `id` has become `x'`, of size `size`, and the other files are as they were. -/
structure Changed (v : Volume) (ino : Inodes) (id : ℕ) (x : DiskInode) (size : ℕ) (d : Disk)
    (x' : DiskInode) (d' : Disk) : Prop where
  sound : Sound v (Function.update ino id (some x')) [] d'
  size : x'.size = size
  type_ : x'.type_ = x.type_
  frame : ∀ b < v.start, ¬ v.fs.dataBitmap.Owns b → d' b = d b
  others : ∀ j y, j ≠ id → ino j = some y → ∀ b ∈ owned d y, d' b = d b

/-- The blocks that were taken from the bitmap have been put in place. -/
structure Placed (x : DiskInode) (d : Disk) (vs : List U32) (x' : DiskInode) (d' : Disk) :
    Prop where
  blocks : owned d' x' = owned d x ++ vs.map BitVec.toNat
  frame : ∀ b ∉ owned d' x', d' b = d b
  bytes : ∀ i < 512 * x'.dataBlocks, fileByte d' x' i = if i < 512 * x.dataBlocks then fileByte d x i
    else byteAt (d (load d' x' (dataSlot (i / 512))).toNat) (i % 512)
  new : ∀ k, x.dataBlocks ≤ k → k < x'.dataBlocks → load d' x' (dataSlot k) ∈ vs

theorem room_of_sound (hs : Sound v ino (vs.map BitVec.toNat) d) (hx : ino id = some x)
    (hheld : HeldBelow v held) : Room held d x x.dataBlocks vs := by
  have hinj : Function.Injective (BitVec.toNat (w := 32)) := fun _ _ => BitVec.eq_of_toNat_eq
  constructor
  · rw [← List.nodup_map_iff hinj, List.map_append]
    exact (hs.nodup hx).append (hs.part.nodup none) (hs.disjoint_loose hx)
  · intro b hb
    apply hheld.not_mem
    rcases List.mem_append.mp hb with hb | hb
    · exact (hs.used hx (List.mem_map_of_mem hb)).start_le
    · exact (hs.loose_used (List.mem_map_of_mem hb)).start_le

theorem length_slotsFrom (k m : ℕ) :
    (slotsFrom k m).length = (slotsUpTo (k + m)).length - (slotsUpTo k).length := by
  rw [slotsUpTo_add, List.length_append, Nat.add_sub_cancel_left]

/-- Storing into slots leaves the data blocks alone: only blocks of slots change. -/
theorem placed_of_stored {m : ℕ} (hkm : x.dataBlocks + m ≤ 16540)
    (hnd : (ownedUpTo d x x.dataBlocks ++ vs).Nodup)
    (hst : Stored d (x.setSize newSize) (slotsUpTo x.dataBlocks) (slotsFrom x.dataBlocks m) vs d' x')
    (hblocks : x'.dataBlocks = x.dataBlocks + m) : Placed x d vs x' d' := by
  have hloads : ownedUpTo d' x' x'.dataBlocks = ownedUpTo d x x.dataBlocks ++ vs := by
    rw [hblocks, ← DiskInode.ownedUpTo_setSize (x := x) newSize, ownedUpTo, slotsUpTo_add]
    exact hst.loads
  have hold : ∀ σ ∈ slotsUpTo x.dataBlocks, load d' x' σ = load d x σ := by
    intro σ hσ
    rw [hst.load_eq hσ, DiskInode.load_setSize]
  have hbase : ∀ σ ∈ slotsFrom x.dataBlocks m, ∀ β, σ.base = some β →
      β ∈ slotsUpTo x'.dataBlocks := by
    intro σ hσ β hβ
    rw [hblocks]
    refine mem_of_base hkm ?_ hβ
    rw [slotsUpTo_add]
    exact List.mem_append_right _ hσ
  have hdata : ∀ k < x'.dataBlocks, d' (load d' x' (dataSlot k)).toNat =
      d (load d' x' (dataSlot k)).toNat := by
    intro k hk
    apply hst.frame
    intro σ hσ β hβ he
    have hinj := List.inj_on_of_nodup_map (f := load d' x') (hloads ▸ hnd)
    exact base_ne_dataSlot hβ k
      (hinj (hbase σ hσ β hβ) (dataSlot_mem hk) (BitVec.eq_of_toNat_eq he))
  constructor
  · rw [owned, hloads, List.map_append, owned]
  · intro b hb
    apply hst.frame
    rintro σ hσ β hβ rfl
    exact hb (load_mem_owned (hbase σ hσ β hβ))
  · intro i hi
    rw [fileByte, hdata _ (by omega)]
    split_ifs with hlt
    · rw [fileByte, hold _ (dataSlot_mem (by omega))]
    · rfl
  · intro k hk hlt
    have hT : (slotsFrom x.dataBlocks m).map (load d' x') = vs := by
      have := hst.loads
      rw [List.map_append] at this
      exact List.append_inj_right this (by simp)
    rw [← hT]
    apply List.mem_map_of_mem
    exact List.mem_flatMap.mpr ⟨k, by rw [List.mem_range'_1]; omega, dataSlot_mem_slots k⟩

/-- `DiskInode::increase_size` with the blocks it needs. -/
theorem run_place (hs : Sound v ino (vs.map BitVec.toNat) d) (hx : ino id = some x)
    (hheld : HeldBelow v held) (hle : x.size ≤ newSize) (hmax : newSize ≤ 16540 * 512)
    (hlen : vs.length = blocksNeeded x newSize) :
    ∃ x' d', (x.increaseSize newSize vs).run held d = some ((x', []), d') ∧
      x'.size = newSize ∧ x'.type_ = x.type_ ∧ Placed x d vs x' d' := by
  have hn : newSize < 2 ^ 32 := by omega
  have hk := dataBlocks_eq (hs.size_le id x hx)
  have hnew := dataBlocksOf_eq hmax
  obtain ⟨m, hm⟩ : ∃ m, DiskInode.dataBlocksOf newSize = x.dataBlocks + m :=
    ⟨_, (Nat.add_sub_cancel' (by omega)).symm⟩
  have hkm : x.dataBlocks + m ≤ 16540 := by omega
  have hlen' : vs.length = (slotsFrom x.dataBlocks m).length := by
    rw [hlen, blocksNeeded, totalBlocks_eq, totalBlocks_eq, hm, length_slotsFrom,
      DiskInode.dataBlocks]
  have hroom := room_of_sound hs hx hheld
  have hrun := DiskInode.run_increaseSize hn hm hkm hroom hlen'
  have hst := (DiskInode.room_setSize (n := newSize) hroom).stored hkm (by omega)
  rw [List.take_of_length_le (by omega)] at hst
  generalize storeAll (d, x.setSize newSize) (slotsFrom x.dataBlocks m) vs = s at hrun hst
  obtain ⟨d', x'⟩ := s
  have hsize : x'.size = newSize := by rw [hst.size, DiskInode.size_setSize hn]
  have hblocks : x'.dataBlocks = x.dataBlocks + m := by rw [DiskInode.dataBlocks, hsize, hm]
  exact ⟨x', d', hrun, hsize, by rw [hst.type_, DiskInode.type_setSize],
    placed_of_stored hkm hroom.nodup hst hblocks⟩

theorem Placed.used (hp : Placed x d vs x' d') (hs : Sound v ino (vs.map BitVec.toNat) d)
    (hx : ino id = some x) {b : ℕ} (hb : b ∈ owned d' x') : v.Used d b := by
  rw [hp.blocks, List.mem_append] at hb
  rcases hb with hb | hb
  · exact hs.used hx hb
  · exact hs.loose_used hb

theorem Placed.below (hp : Placed x d vs x' d') (hs : Sound v ino (vs.map BitVec.toNat) d)
    (hx : ino id = some x) : ∀ b < v.start, d' b = d b := by
  intro b hb
  exact hp.frame b fun hm => absurd (hp.used hs hx hm).start_le (by omega)

theorem Placed.others (hp : Placed x d vs x' d') (hs : Sound v ino (vs.map BitVec.toNat) d)
    (hx : ino id = some x) :
    ∀ j y, j ≠ id → ino j = some y → ∀ b ∈ owned d y, d' b = d b := by
  intro j y hj hy b hb
  apply hp.frame
  rw [hp.blocks, List.mem_append, not_or]
  exact ⟨hs.disjoint hj hy hx hb, hs.disjoint_loose hy hb⟩

/-- Blocks put in place pass from the call to the file. -/
theorem Placed.changed (hp : Placed x d vs x' d') (hs : Sound v ino (vs.map BitVec.toNat) d)
    (hx : ino id = some x) (hmax : x'.size ≤ 16540 * 512) (htype : x'.type_ = x.type_) :
    Changed v ino id x x'.size d x' d' := by
  have hbelow := hp.below hs hx
  have hothers := hp.others hs hx
  refine ⟨⟨?_, ?_⟩, rfl, htype, fun b hb _ => hbelow b hb, hothers⟩
  · have hown : own (Function.update ino id (some x')) [] d' = Function.update (Function.update
        (own ino (vs.map BitVec.toNat) d) (some id) (own ino (vs.map BitVec.toNat) d (some id) ++
          own ino (vs.map BitVec.toNat) d none)) none [] := by
      funext o
      cases o with
      | none => simp [own]
      | some j =>
        rw [Function.update_of_ne (by simp)]
        by_cases hj : j = id
        · subst hj
          rw [Function.update_self, own_some (Function.update_self ..), own_some hx, hp.blocks]
          rfl
        · rw [Function.update_of_ne (by simpa using hj), own, own, Function.update_of_ne hj]
          cases hy : ino j with
          | none => rfl
          | some y => exact (owned_congr (hs.dataBlocks_le hy) (hothers j y hj hy)).2.1
    rw [hown]
    apply (hs.part.transfer (by simp : some id ≠ none)).congr
    exact fun b => used_congr fun b hb => hbelow b (bitmap_lt_start hb)
  · intro j y hy
    by_cases hj : j = id
    · subst hj
      rw [Function.update_self, Option.some.injEq] at hy
      rwa [← hy]
    · rw [Function.update_of_ne hj] at hy
      exact hs.size_le j y hy

/-- New blocks that are zero leave a file clean, and the bytes it had as they were. -/
theorem Placed.clean (hp : Placed x d vs x' d') (hs : Sound v ino (vs.map BitVec.toNat) d)
    (hx : ino id = some x) (hle : x.size ≤ x'.size) (hmax : x'.size ≤ 16540 * 512)
    (hc : Clean v ino d) (hzero : ∀ b ∈ vs, d b.toNat = 0) :
    Clean v (Function.update ino id (some x')) d' ∧ ∀ i, fileAt d' x' i = fileAt d x i := by
  have hbits : ∀ b, v.fs.dataBitmap.Owns b → d' b = d b :=
    fun b hb => hp.below hs hx b (bitmap_lt_start hb)
  have hk := dataBlocks_eq (hs.size_le id x hx)
  have hk' := dataBlocks_eq hmax
  have hgap : ∀ i < 512 * x'.dataBlocks, x.size ≤ i → fileByte d' x' i = 0 := by
    intro i hi hlow
    rw [hp.bytes i hi]
    split_ifs with hlt
    · exact hc.tail_zero id x hx i hlow hlt
    · rw [hzero _ (hp.new _ (by omega) (by omega)), byteAt_zero]
  refine ⟨⟨fun p hp' hset => ?_, fun p hlt hclear => ?_, fun j y hy i hi hlt => ?_⟩, fun i => ?_⟩
  · rw [Bitmap.isSet_congr hbits hp'] at hset
    exact hc.in_area p hp' hset
  · have hmax : p < v.fs.dataBitmap.maximum := by
      rw [v.dataBitmap_maximum]
      exact Nat.lt_of_lt_of_le hlt v.bitmapCovers
    rw [Bitmap.isSet_congr hbits hmax] at hclear
    rw [hp.frame _ fun hm => not_used hclear (hp.used hs hx hm), hc.free_zero p hlt hclear]
  · by_cases hj : j = id
    · subst hj
      rw [Function.update_self, Option.some.injEq] at hy
      subst hy
      exact hgap i hlt (by omega)
    · rw [Function.update_of_ne hj] at hy
      rw [(owned_congr (hs.dataBlocks_le hy) (hp.others hs hx j y hj hy)).2.2 i hlt,
        hc.tail_zero j y hy i hi hlt]
  · rw [fileAt, fileAt]
    by_cases hi : i < x.size
    · rw [if_pos (by omega), if_pos hi, hp.bytes i (by omega), if_pos (by omega)]
    · rw [if_neg hi]
      split_ifs with hi'
      · exact hgap i (by omega) (by omega)
      · rfl

/-- What `Inode::increase_size` does to a file. -/
structure Grown (v : Volume) (ino : Inodes) (id : ℕ) (x : DiskInode) (newSize : ℕ) (d : Disk)
    (x' : DiskInode) (d' : Disk) : Prop where
  changed : Changed v ino id x (max x.size newSize) d x' d'
  used : v.fs.dataBitmap.used d' = v.fs.dataBitmap.used d + blocksNeeded x newSize
  clean : Clean v ino d → v.fs.dataBitmap.used d' ≤ v.size →
    Clean v (Function.update ino id (some x')) d' ∧ ∀ i, fileAt d' x' i = fileAt d x i

theorem Changed.of_alloc {size : ℕ} (h : Changed v ino id x size d₁ x' d')
    (hs : Sound v ino [] d) (ha : Alloced v d vs d₁) : Changed v ino id x size d x' d' := by
  refine ⟨h.sound, h.size, h.type_, fun b hb hown => ?_, fun j y hj hy b hb => ?_⟩
  · rw [h.frame b hb hown, ha.frame b hown]
  · have hkeep : ∀ b ∈ owned d y, d₁ b = d b :=
      fun b hb => ha.frame b (not_bitmap_of_le (hs.used hy hb).start_le)
    rw [h.others j y hj hy b (by rwa [(owned_congr (hs.dataBlocks_le hy) hkeep).2.1]), hkeep b hb]

/-- One change of an inode after another. -/
theorem Changed.trans {size size' : ℕ} {x'' : DiskInode} {d'' : Disk} (hs : Sound v ino [] d)
    (h : Changed v ino id x size d x' d')
    (h' : Changed v (Function.update ino id (some x')) id x' size' d' x'' d'') :
    Changed v ino id x size' d x'' d'' := by
  have hsound := h'.sound
  rw [Function.update_idem] at hsound
  refine ⟨hsound, h'.size, h'.type_.trans h.type_, fun b hb hown => ?_, fun j y hj hy b hb => ?_⟩
  · rw [h'.frame b hb hown, h.frame b hb hown]
  · have hown := (owned_congr (hs.dataBlocks_le hy) (h.others j y hj hy)).2.1
    rw [h'.others j y hj (by rwa [Function.update_of_ne hj]) b (by rwa [hown]), h.others j y hj hy b hb]

theorem Grown.refl (hs : Sound v ino [] d) (hx : ino id = some x) (hlt : newSize ≤ x.size) :
    Grown v ino id x newSize d x d := by
  have hino : Function.update ino id (some x) = ino := by rw [← hx, Function.update_eq_self]
  have hmono := totalBlocks_mono hlt (hs.size_le id x hx)
  refine ⟨⟨by rwa [hino], by omega, rfl, fun _ _ _ => rfl, fun _ _ _ _ _ _ => rfl⟩, ?_, ?_⟩
  · rw [blocksNeeded]
    omega
  · intro hc _
    rw [hino]
    exact ⟨hc, fun _ => rfl⟩

/-- The two halves of `Inode::increase_size`, when the blocks could be had. -/
theorem run_increaseSize_alloced (hs : Sound v ino [] d) (hx : ino id = some x)
    (hheld : HeldBelow v held) (hle : x.size ≤ newSize) (hmax : newSize ≤ 16540 * 512)
    (halloc : (Inode.allocBlocks v.fs (blocksNeeded x newSize) []).run held d = some (vs, d₁)) :
    ∃ x' d', (Inode.increaseSize v.fs newSize x).run held d = some (x', d') ∧
      Grown v ino id x newSize d x' d' := by
  obtain ⟨hlen, ha⟩ := alloced_of_run hheld.bitmap halloc
  have hs₁ := ha.taken hs
  obtain ⟨x', d', hrun, hsize, htype, hp⟩ := run_place hs₁ hx hheld hle hmax hlen
  have hmax' : x'.size ≤ 16540 * 512 := by omega
  have hused : v.fs.dataBitmap.used d' = v.fs.dataBitmap.used d₁ := by
    apply Bitmap.used_congr
    intro p hpm
    exact Bitmap.isSet_congr (fun b hb => hp.below hs₁ hx b (bitmap_lt_start hb)) hpm
  have hneed : (x.blocksNumNeeded newSize).run held d = some (blocksNeeded x newSize, d) :=
    Prog.run_bind_of (Prog.run_assert hle _ _) _
  refine ⟨x', d', ?_, ?_, ?_, ?_⟩
  · rw [Inode.increaseSize, if_neg (by omega), Prog.run_bind_of hneed, Prog.run_bind_of halloc,
      Prog.run_bind_of hrun]
    rfl
  · rw [Nat.max_eq_right hle, ← hsize]
    exact (hp.changed hs₁ hx hmax' htype).of_alloc hs ha
  · rw [hused, ha.used, hlen]
  · intro hc hfull
    rw [hused] at hfull
    obtain ⟨hc', hbytes⟩ := hp.clean hs₁ hx (by omega) hmax' (ha.clean hs hc hfull)
      (ha.zero hc hfull)
    refine ⟨hc', fun i => ?_⟩
    have hkeep : ∀ b ∈ owned d x, d₁ b = d b :=
      fun b hb => ha.frame b (not_bitmap_of_le (hs.used hx hb).start_le)
    have hk := dataBlocks_eq (hs.size_le id x hx)
    rw [hbytes i, fileAt, fileAt]
    split_ifs with hi
    · exact (owned_congr (hs.dataBlocks_le hx) hkeep).2.2 i (by omega)
    · rfl

theorem run_increaseSize_some (hs : Sound v ino [] d) (hx : ino id = some x)
    (hheld : HeldBelow v held) (hmax : newSize ≤ 16540 * 512)
    (h : (Inode.increaseSize v.fs newSize x).run held d = some (x', d')) :
    Grown v ino id x newSize d x' d' := by
  by_cases hlt : newSize < x.size
  · rw [Inode.increaseSize, if_pos hlt] at h
    cases h
    exact Grown.refl hs hx hlt.le
  · have h' := h
    rw [Inode.increaseSize, if_neg hlt] at h'
    obtain ⟨n, d₀, hn, h'⟩ := Prog.run_bind_eq_some h'
    obtain ⟨vs, d₁, halloc, -⟩ := Prog.run_bind_eq_some h'
    have hneed : (x.blocksNumNeeded newSize).run held d = some (blocksNeeded x newSize, d) :=
      Prog.run_bind_of (Prog.run_assert (Nat.le_of_not_lt hlt) _ _) _
    obtain ⟨rfl, rfl⟩ : blocksNeeded x newSize = n ∧ d = d₀ := by simpa [hneed] using hn
    obtain ⟨x₁, d₂, hr, hg⟩ := run_increaseSize_alloced hs hx hheld (by omega) hmax halloc
    obtain ⟨rfl, rfl⟩ : x₁ = x' ∧ d₂ = d' := by simpa [hr] using h
    exact hg

theorem run_increaseSize_total (hs : Sound v ino [] d) (hx : ino id = some x)
    (hheld : HeldBelow v held) (hmax : newSize ≤ 16540 * 512)
    (hfree : v.fs.dataBitmap.used d + blocksNeeded x newSize ≤ v.size) :
    ∃ x' d', (Inode.increaseSize v.fs newSize x).run held d = some (x', d') := by
  by_cases hlt : newSize < x.size
  · exact ⟨x, d, by rw [Inode.increaseSize, if_pos hlt]; rfl⟩
  · obtain ⟨vs, d₁, halloc⟩ := run_allocBlocks_total hheld.bitmap [] hfree
    obtain ⟨x', d', hr, -⟩ := run_increaseSize_alloced hs hx hheld (by omega) hmax halloc
    exact ⟨x', d', hr⟩

end RCore.EasyFs
