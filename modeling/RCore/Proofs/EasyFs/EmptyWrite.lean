import RCore.Proofs.EasyFs.Blank

/-! `write_at` with an empty buffer. It still opens the block that the offset lies in, and
at the end of a file whose last block is full there is no such block. -/

namespace RCore.EasyFs

open RCore.Lib Slot

variable {v : Volume} {P : Event ℕ → Prop} {held : List ℕ} {d : Disk} {x : DiskInode} {id offset k : ℕ}

namespace DiskInode

/-- `get_block_id` opens the blocks that the slot of the data block hangs on. -/
theorem always_getBlockId (hk : x.dataBlocks ≤ 16540) (hlt : k < x.dataBlocks)
    (hun : Unlocked held d x x.dataBlocks)
    (h : ∀ σ ∈ slotsUpTo x.dataBlocks, P (.request (load d x σ).toNat held)) :
    (x.getBlockId k).Always P held d := by
  have hmem := dataSlot_mem hlt
  rw [getBlockId, indirect1_bound_eq]
  unfold dataSlot at hmem
  split_ifs at hmem ⊢ with h28 h156
  · exact Prog.always_ret _
  · exact always_readAt (h .ind1 (mem_of_base hk hmem rfl)) fun _ => always_entry _ _
  · have hsub := mem_of_base hk hmem rfl
    have hind2 := mem_of_base hk hsub rfl
    have hfree : x.indirect2.toNat ∉ held := hun .ind2 hind2
    have hread : (EasyFs.readAt x.indirect2.toNat 0 4096 fun b => entry b ((k - 156) / 128)).run held d =
        some (load d x (.sub ((k - 156) / 128)), d) := by
      rw [run_readBlock hfree]
      exact run_entry (by omega)
    refine Prog.always_bind_of hread (always_readAt (h .ind2 hind2) fun _ => always_entry _ _) ?_
    exact always_readAt (h _ hsub) fun _ => always_entry _ _

/-- `increase_size` to the size that the file has opens its indirect blocks, and has nothing to put there. -/
theorem always_increaseSize_same
    (h1 : 28 < x.dataBlocks → P (.request x.indirect1.toNat held))
    (h2 : 156 < x.dataBlocks → P (.request x.indirect2.toNat held)) :
    (x.increaseSize x.size []).Always P held d := by
  rw [increaseSize]
  simp only [setSize_size, inode_direct_count_eq]
  rw [show min x.dataBlocks 28 - x.dataBlocks = 0 by omega]
  refine Prog.always_bind_of (a := (x, [])) (e := d) rfl (Prog.always_ret _) ?_
  simp only [Nat.add_zero]
  split_ifs with h28
  swap
  · exact Prog.always_ret _
  rw [growIndirect1, allocIndirect1, inode_direct_count_eq, inode_indirect1_count_eq, if_neg (by omega)]
  refine Prog.always_bind_of (a := (x, [])) (e := d) rfl (Prog.always_ret _) ?_
  simp only
  rw [show min (x.dataBlocks - 28) 128 - (x.dataBlocks - 28) = 0 by omega]
  refine Prog.always_bind (always_modifyAt (h1 h28) fun _ => Prog.always_ret _) fun new d' hr => ?_
  split_ifs with h156
  swap
  · exact Prog.always_ret _
  rw [growIndirect2, allocIndirect2, inode_indirect1_count_eq, if_neg (by omega)]
  refine Prog.always_bind_of (a := (x, new)) (e := d') rfl (Prog.always_ret _) ?_
  refine Prog.always_bind (always_modifyAt (h2 (by omega)) fun _ => ?_) fun _ _ _ => Prog.always_ret _
  rw [Nat.add_zero, Nat.sub_self, fillIndirect2]
  split_ifs
  · exact Prog.always_fail
  · exact Prog.always_ret _

/-- The one round of `write_at` for no bytes. -/
theorem writeAt_nil (h : offset ≤ x.size) : x.writeAt offset [] = (do
    let id ← x.getBlockId (offset / 512)
    modifyAt id.toNat 0 4096 fun b => pure (b, ())
    pure 0) := by
  have hend : min ((offset / 512 + 1) * 512) offset = offset := by omega
  rw [writeAt]
  simp only [List.length_nil, Nat.add_zero, Nat.min_eq_left h, Nat.sub_self, Nat.zero_add]
  rw [writeLoop, Prog.assert, if_pos (le_refl _)]
  simp only [hend, Nat.sub_self, List.drop_nil, List.take_nil, copyFromSlice, if_true]
  rfl

end DiskInode

/-- The block after the last one of a file: where its id should be there is a zero, and block 0 is
opened on the way to it. -/
theorem Blank.asks_zero {α : Type} {g : U32 → Fs α} (h : Blank d x) (hk : x.dataBlocks < 16540)
    (hun : Unlocked held d x x.dataBlocks) (hg : ∀ id d', (g id).Always P held d' → P (.request id.toNat held))
    (ha : (x.getBlockId x.dataBlocks >>= g).Always P held d) : P (.request 0 held) := by
  have hmem : ∀ σ : Slot, σ.Ok → σ.index < x.dataBlocks → σ ∈ slotsUpTo x.dataBlocks :=
    fun σ hok hlt => (mem_slotsUpTo hk.le σ).mpr ⟨hok, hlt⟩
  have hzero : ∀ σ : Slot, σ.Ok → x.dataBlocks ≤ σ.index →
      (∀ β, σ.base = some β → β.index < x.dataBlocks) → (load d x σ).toNat = 0 := by
    intro σ hok hle hbase
    rw [h σ hok hle fun β hβ => hmem β (base_index hβ hok).1 (hbase β hβ)]
    rfl
  obtain ⟨hget, hrest⟩ := ha.of_bind
  rw [DiskInode.getBlockId, indirect1_bound_eq, inode_direct_count_eq, inode_indirect1_count_eq] at hget hrest
  by_cases h28 : x.dataBlocks < 28
  · rw [if_pos h28] at hrest
    have hasked := hg _ _ (hrest _ d rfl)
    have hload : (x.direct x.dataBlocks).toNat = 0 :=
      hzero (.direct x.dataBlocks) h28 (le_refl _) fun β hβ => by cases hβ
    rwa [hload] at hasked
  rw [if_neg h28] at hget hrest
  by_cases h156 : x.dataBlocks < 156
  · rw [if_pos h156] at hget hrest
    by_cases hfirst : x.dataBlocks = 28
    · have hasked := hget.of_read.1
      have hload : x.indirect1.toNat = 0 := hzero .ind1 trivial hfirst.le fun β hβ => by cases hβ
      rwa [hload] at hasked
    · have hfree : x.indirect1.toNat ∉ held := hun .ind1 (hmem .ind1 trivial (by simp only [index]; omega))
      have hread := run_readBlock (d := d) (f := fun b => DiskInode.entry b (x.dataBlocks - 28)) hfree
      rw [DiskInode.run_entry (by omega)] at hread
      have hasked := hg _ _ (hrest _ d hread)
      have hload : (u32At (d x.indirect1.toNat) (x.dataBlocks - 28)).toNat = 0 := by
        refine hzero (.word1 (x.dataBlocks - 28)) (by simp only [Ok]; omega) (by simp only [index]; omega) ?_
        intro β hβ
        cases hβ
        simp only [index]
        omega
      rwa [hload] at hasked
  rw [if_neg h156] at hget hrest
  obtain ⟨hfirst, hsecond⟩ := hget.of_bind
  by_cases h0 : x.dataBlocks = 156
  · have hasked := hfirst.of_read.1
    have hload : x.indirect2.toNat = 0 := hzero .ind2 trivial h0.le fun β hβ => by cases hβ
    rwa [hload] at hasked
  have hfree2 : x.indirect2.toNat ∉ held := hun .ind2 (hmem .ind2 trivial (by simp only [index]; omega))
  have hread2 := run_readBlock (d := d)
    (f := fun b => DiskInode.entry b ((x.dataBlocks - 156) / 128)) hfree2
  rw [DiskInode.run_entry (by omega)] at hread2
  by_cases hsub : (x.dataBlocks - 156) % 128 = 0
  · have hasked := (hsecond _ d hread2).of_read.1
    have hload : (u32At (d x.indirect2.toNat) ((x.dataBlocks - 156) / 128)).toNat = 0 := by
      refine hzero (.sub ((x.dataBlocks - 156) / 128)) (by simp only [Ok]; omega) (by simp only [index]; omega) ?_
      intro β hβ
      cases hβ
      simp only [index]
      omega
    rwa [hload] at hasked
  · have hfree : (load d x (.sub ((x.dataBlocks - 156) / 128))).toNat ∉ held :=
      hun _ (hmem (.sub _) (by simp only [Ok]; omega) (by simp only [index]; omega))
    have hread := run_readBlock (d := d)
      (f := fun b => DiskInode.entry b ((x.dataBlocks - 156) % 128)) hfree
    rw [DiskInode.run_entry (by omega)] at hread
    have hasked := hg _ _ (hrest _ d ((Prog.run_bind_of hread2 _).trans hread))
    have hload : (u32At (d (load d x (.sub ((x.dataBlocks - 156) / 128))).toNat)
        ((x.dataBlocks - 156) % 128)).toNat = 0 := by
      refine hzero (.leaf _ _) (by simp only [Ok]; omega) (by simp only [index]; omega) ?_
      intro β hβ
      cases hβ
      simp only [index]
      omega
    rwa [hload] at hasked

section call

variable (hs : Sound v (v.fs.inodes d) [] d) (hx : v.fs.inodes d id = some x)

include hs hx

/-- `increase_size` has nothing to do. -/
theorem run_increaseSize_le (hoff : offset ≤ x.size) :
    (Inode.increaseSize v.fs offset x).run [v.inodeBlock id] d = some (x, d) := by
  have hsize := hs.size_le id x hx
  have hneed : blocksNeeded x offset = 0 := Nat.sub_eq_zero_of_le (totalBlocks_mono hoff hsize)
  rw [run_increaseSize_exact hs hx (heldBelow_inodeBlock hx) (by omega), hneed, Nat.max_eq_left hoff]
  change some ((placeBlocks d x x.size []).2, (placeBlocks d x x.size []).1) = _
  rw [placeBlocks_same]

theorem always_increaseSize_le (hoff : offset ≤ x.size)
    (h : ∀ b ∈ owned d x, P (.request b [v.inodeBlock id])) :
    (Inode.increaseSize v.fs offset x).Always P [v.inodeBlock id] d := by
  have hk := hs.dataBlocks_le hx
  have hmem : ∀ σ : Slot, σ.Ok → σ.index < x.dataBlocks → P (.request (load d x σ).toNat [v.inodeBlock id]) :=
    fun σ hok hlt => h _ (load_mem_owned ((mem_slotsUpTo hk σ).mpr ⟨hok, hlt⟩))
  rw [Inode.increaseSize]
  split_ifs with hlt
  · exact Prog.always_ret _
  obtain rfl : offset = x.size := by omega
  have hneed : (x.blocksNumNeeded x.size).run [v.inodeBlock id] d = some (0, d) := by
    rw [DiskInode.blocksNumNeeded, Prog.run_bind_of (Prog.run_assert (le_refl _) _ _), Nat.sub_self]
    rfl
  refine Prog.always_bind_of hneed
    (Prog.always_bind (Prog.always_assert _) fun _ _ _ => Prog.always_ret _) ?_
  refine Prog.always_bind_of (a := []) (e := d) rfl (Prog.always_ret _) ?_
  exact Prog.always_bind (DiskInode.always_increaseSize_same (hmem .ind1 trivial) (hmem .ind2 trivial))
    fun _ _ _ => Prog.always_ret _

/-- An offset in a block of the file. -/
theorem run_writeAt_nil (hoff : offset ≤ x.size) (hlt : offset / 512 < x.dataBlocks) :
    (Inode.writeAt v.fs (Inode.ofId v.fs id) offset []).run [] d = some (0, d) := by
  have hsize := hs.size_le id x hx
  have hun := hs.unlocked hx (heldBelow_inodeBlock hx)
  have hwrite : (x.writeAt offset []).run [v.inodeBlock id] d = some (0, d) := by
    rw [DiskInode.writeAt_nil hoff, Prog.run_bind_of (DiskInode.run_getBlockId (hs.dataBlocks_le hx) hlt hun),
      Prog.run_bind_of (run_modifyBlock (hun _ (dataSlot_mem hlt)) rfl), Function.update_eq_self]
    rfl
  rw [run_writeAt_of_parts hx (by simpa using hoff.trans hsize) (run_increaseSize_le hs hx hoff) hwrite]
  have hsame : splice (d (v.inodeBlock id)) (8 * v.inodeOffset id) x = d (v.inodeBlock id) := by
    rw [← (Volume.inodes_eq_some hx).2.2, v.inodeAt_eq]
    exact splice_field _ _ _
  rw [hsame, Function.update_eq_self]

theorem always_writeAt_nil (hoff : offset ≤ x.size) (hlt : offset / 512 < x.dataBlocks)
    (hinode : P (.request (v.inodeBlock id) [])) (hsync : P (.sync []))
    (h : ∀ b ∈ owned d x, P (.request b [v.inodeBlock id])) :
    (Inode.writeAt v.fs (Inode.ofId v.fs id) offset []).Always P [] d := by
  have hsize := hs.size_le id x hx
  have hun := hs.unlocked hx (heldBelow_inodeBlock hx)
  obtain ⟨-, -, hat⟩ := Volume.inodes_eq_some hx
  refine Prog.always_bind (always_modifyAt hinode fun _ => ?_) fun _ _ _ =>
    Prog.always_bind (Prog.always_sync hsync fun _ => Prog.always_ret _) fun _ _ _ => Prog.always_ret _
  change (do
    let x ← Inode.increaseSize v.fs ((offset + 0) % 2 ^ 32) (v.fs.inodeAt d id)
    let size ← x.writeAt offset []
    pure (x, size) : Fs (DiskInode × ℕ)).Always P [v.inodeBlock id] d
  rw [hat, Nat.add_zero, Nat.mod_eq_of_lt (by omega)]
  refine Prog.always_bind_of (run_increaseSize_le hs hx hoff) (always_increaseSize_le hs hx hoff h) ?_
  refine Prog.always_bind ?_ fun _ _ _ => Prog.always_ret _
  rw [DiskInode.writeAt_nil hoff]
  refine Prog.always_bind_of (DiskInode.run_getBlockId (hs.dataBlocks_le hx) hlt hun)
    (DiskInode.always_getBlockId (hs.dataBlocks_le hx) hlt hun fun σ hσ => h _ (load_mem_owned hσ)) ?_
  refine Prog.always_bind (always_modifyAt ?_ fun _ => Prog.always_ret _) fun _ _ _ => Prog.always_ret _
  exact h _ (load_mem_owned (dataSlot_mem hlt))

/-- The end of a file whose last block is full. -/
theorem writeAt_nil_asks_zero (hblank : Blank d x) (hfull : x.size % 512 = 0) (hlt : x.dataBlocks < 16540)
    (ha : (Inode.writeAt v.fs (Inode.ofId v.fs id) x.size []).Always P [] d) :
    P (.request 0 [v.inodeBlock id]) := by
  have hsize := hs.size_le id x hx
  have hk : x.size / 512 = x.dataBlocks := by rw [dataBlocks_eq hsize]; omega
  have hun := hs.unlocked hx (heldBelow_inodeBlock hx)
  obtain ⟨-, -, hat⟩ := Volume.inodes_eq_some hx
  have hbody := always_of_modifyAt List.not_mem_nil (v.inodeOffset_fits id) ha.of_bind.1
  change (do
    let y ← Inode.increaseSize v.fs ((x.size + 0) % 2 ^ 32) (v.fs.inodeAt d id)
    let size ← y.writeAt x.size []
    pure (y, size) : Fs (DiskInode × ℕ)).Always P [v.inodeBlock id] d at hbody
  rw [hat, Nat.add_zero, Nat.mod_eq_of_lt (by omega)] at hbody
  have hwrite := (hbody.of_bind.2 x d (run_increaseSize_le hs hx (le_refl x.size))).of_bind.1
  rw [DiskInode.writeAt_nil (le_refl _), hk] at hwrite
  exact hblank.asks_zero hlt hun (fun _ _ h => h.of_bind.1.of_modify.1) hwrite

/-- The end of a file that is as long as a file can be: the call does not return. -/
theorem run_writeAt_nil_full (hfull : x.size = 16540 * 512) :
    (Inode.writeAt v.fs (Inode.ofId v.fs id) x.size []).run [] d = none := by
  cases hrun : (Inode.writeAt v.fs (Inode.ofId v.fs id) x.size []).run [] d with
  | none => rfl
  | some r =>
    obtain ⟨r₁, d₁, hm, -⟩ := Prog.run_bind_eq_some hrun
    obtain ⟨x₁, d₂, hparts, -⟩ := run_modifyDiskInode_some hx hm
    rw [List.length_nil, Nat.add_zero, Nat.mod_eq_of_lt (by omega),
      Prog.run_bind_of (run_increaseSize_le hs hx (le_refl _))] at hparts
    obtain ⟨n, d₃, hw, -⟩ := Prog.run_bind_eq_some hparts
    rw [DiskInode.writeAt_nil (le_refl _)] at hw
    obtain ⟨b, d₄, hget, -⟩ := Prog.run_bind_eq_some hw
    rw [DiskInode.run_getBlockId_none (by omega)] at hget
    cases hget

end call

/-- A block of the file, of its inode or of a bitmap. -/
def State.BelongsTo (s : State) (file : Inode) (x : DiskInode) (b : ℕ) : Prop :=
  b ∈ owned s.disk x ∨ b = file.blockId ∨ s.fs.inodeBitmap.Owns b ∨ s.fs.dataBitmap.Owns b

/-- To write nothing returns 0 and changes nothing, and only blocks on the disk that belong to
the file are asked for. -/
def State.EmptyWriteHarmless (totalBlocks : ℕ) (s : State) (file : Inode) (x : DiskInode) (offset : ℕ) : Prop :=
  (Inode.writeAt s.fs file offset []).run [] s.disk = some (0, s.disk) ∧
    (Inode.writeAt s.fs file offset []).Always
      (Event.Asks fun b => b < totalBlocks ∧ s.BelongsTo file x b) [] s.disk

end RCore.EasyFs
