import RCore.Proofs.EasyFs.Ownership

/-! Where `alloc_data` allocates. The data bitmap has a bit for every block of the
data area, and then some more up to a whole number of blocks: they stand for blocks
past the end of the device. -/

namespace RCore.EasyFs

open RCore.Lib EasyFileSystem

variable {totalBlocks inodeBitmapBlocks : ℕ} {fs : EasyFileSystem} {a : Areas} {d d' : Disk}

/-- `alloc_data` returns the block of the first clear bit. -/
theorem run_allocData_next {n : ℕ} (hset : ∀ k < n, fs.dataBitmap.isSet d k = true)
    (hclear : fs.dataBitmap.isSet d n = false) (hn : n < fs.dataBitmap.maximum)
    (hlt : fs.dataAreaStartBlock + n < 2 ^ 32) :
    ∃ d', fs.allocData.run [] d = some (fs.dataAreaStartBlock + n, d') ∧
      fs.dataBitmap.Added d d' n := by
  rcases fs.dataBitmap.run_alloc [] d (by simp) with ⟨p, d', hr, ha, hleast⟩ | ⟨-, hfull⟩
  · obtain rfl : p = n := by
      rcases Nat.lt_trichotomy p n with h | h | h
      · exact absurd (hset p h) (by simp [ha.clear])
      · exact h
      · exact absurd (hleast n h) (by simp [hclear])
    refine ⟨d', ?_, ha⟩
    rw [allocData, Prog.run_bind_of hr, Prog.run_bind_of (Prog.run_ofOption_some _ _ _),
      Nat.mod_eq_of_lt (by omega), Nat.add_comm, checkedU32,
      Prog.run_bind_of (Prog.run_assert hlt _ _)]
    rfl
  · rw [hfull n hn] at hclear
    cases hclear

/-- A block that `alloc_data` has returned is that of a bit of the bitmap. -/
theorem run_allocData_some {b : ℕ} (h : fs.allocData.run [] d = some (b, d')) :
    ∃ p < fs.dataBitmap.maximum, b = p % 2 ^ 32 + fs.dataAreaStartBlock := by
  rw [allocData] at h
  rcases fs.dataBitmap.run_alloc [] d (by simp) with ⟨p, d₁, hr, ha, -⟩ | ⟨hr, -⟩
  · rw [Prog.run_bind_of hr, Prog.run_bind_of (Prog.run_ofOption_some _ _ _)] at h
    obtain ⟨-, rfl, -⟩ := run_checkedU32_some h
    exact ⟨p, ha.lt, rfl⟩
  · rw [Prog.run_bind_of hr] at h
    cases h

/-- The first `n` blocks can be taken, and a later bit stays as it is. -/
theorem exists_filled {d₁ : Disk} {q n : ℕ} (hq : q < fs.dataBitmap.maximum) (hn : n ≤ q)
    (hlt : fs.dataAreaStartBlock + n ≤ 2 ^ 32) (hclear : fs.dataBitmap.isSet d₁ q = false) :
    ∃ d out, AllocRun fs d₁ d out ∧ (∀ k < n, fs.dataBitmap.isSet d k = true) ∧
      fs.dataBitmap.isSet d q = false := by
  induction n with
  | zero => exact ⟨d₁, [], .init, by simp, hclear⟩
  | succ n ih =>
    obtain ⟨d, out, hrun, hset, hq'⟩ := ih (by omega) (by omega)
    by_cases hnext : fs.dataBitmap.isSet d n = true
    · refine ⟨d, out, hrun, fun k hk => ?_, hq'⟩
      rcases Nat.lt_succ_iff_lt_or_eq.mp hk with hk | rfl
      · exact hset k hk
      · exact hnext
    · obtain ⟨d', hr, ha⟩ := run_allocData_next hset (by simpa using hnext) (by omega) (by omega)
      refine ⟨d', _, hrun.alloc hr, fun k hk => ?_, ?_⟩
      · rw [ha.bits k (by omega)]
        rcases Nat.lt_succ_iff_lt_or_eq.mp hk with hk | rfl
        · simp [hset k hk]
        · simp
      · rw [ha.bits q hq, hq']
        simp
        omega

/-- The only bit that the root inode of an empty disk has is that of its type. -/
theorem rootInode_eq : rootInode = BitVec.twoPow 1024 992 := by decide +kernel

/-- After `create`, the bits of the data bitmap are clear. There is one exception, when
the number of blocks of the inode area does not fit in a `u32` and comes out as zero:
the root inode then lies in the data bitmap. -/
theorem Formatted.isSet_eq_false (h : Formatted totalBlocks inodeBitmapBlocks a d) {q : ℕ}
    (hq : q < 4096 * a.dataBitmapBlocks) (hne : q ≠ 992) :
    (ofAreas inodeBitmapBlocks a).dataBitmap.isSet d q = false := by
  have htot := h.laid.total
  have hstart : (ofAreas inodeBitmapBlocks a).dataBitmap.startBlockId =
    1 + inodeBitmapBlocks + a.inodeAreaBlocks := rfl
  rw [Bitmap.isSet_eq, hstart]
  by_cases hroot : a.inodeAreaBlocks + q / 4096 = 0
  · rw [show 1 + inodeBitmapBlocks + a.inodeAreaBlocks + q / 4096 = 1 + inodeBitmapBlocks by omega,
      h.root (by omega), getLsbD_splice, rootInode_eq]
    split_ifs
    · rw [BitVec.getLsbD_twoPow, show q % 4096 - 0 = q by omega]
      simp [hne.symm]
    · exact BitVec.getLsbD_zero
  · rw [h.zero _ (by omega) (by omega)]
    exact BitVec.getLsbD_zero

/-- Allocation stays on the device exactly when the blocks that are left for data and
its bitmap are a multiple of 4097: then the bitmap has no bit to spare. -/
theorem staysOnDevice_iff {d₀ d₁ : Disk} (htotal : totalBlocks < 2 ^ 32)
    (h : (EasyFileSystem.create totalBlocks inodeBitmapBlocks).run [] d₀ = some (fs, d₁)) :
    StaysOnDevice totalBlocks fs d₁ ↔
      (totalBlocks - 1 - (inodeBitmapBlocks + 1024 * inodeBitmapBlocks % 2 ^ 32)) % 4097 = 0 := by
  obtain ⟨a, rfl, hf⟩ := run_create_fs_some h
  obtain ⟨harea, htot, hbitmap, hchecked⟩ := hf.laid
  have hstart : (ofAreas inodeBitmapBlocks a).dataAreaStartBlock =
    1 + (inodeBitmapBlocks + a.inodeAreaBlocks) + a.dataBitmapBlocks := rfl
  have hmax : (ofAreas inodeBitmapBlocks a).dataBitmap.maximum = 4096 * a.dataBitmapBlocks :=
    Bitmap.maximum_eq _
  have hiff : (totalBlocks - 1 - (inodeBitmapBlocks + 1024 * inodeBitmapBlocks % 2 ^ 32)) % 4097 =
      0 ↔ a.dataAreaBlocks = 4096 * a.dataBitmapBlocks := by
    rw [← harea]
    omega
  rw [hiff]
  constructor
  · intro hstay
    by_contra hne
    -- there is a clear bit past those of the data area, and it stays so while these fill up
    obtain ⟨q, hle, hq, hq'⟩ : ∃ q, a.dataAreaBlocks ≤ q ∧ q < 4096 * a.dataBitmapBlocks ∧
        q ≠ 992 := by
      by_cases h992 : a.dataAreaBlocks = 992
      · exact ⟨993, by omega, by omega, by omega⟩
      · exact ⟨a.dataAreaBlocks, le_refl _, by omega, h992⟩
    obtain ⟨d, out, hrun, hset, hclear⟩ := exists_filled (by rwa [hmax]) hle (by rw [hstart]; omega)
      (hf.isSet_eq_false hq hq')
    have hnone := (hstay d out hrun).2 fun b hb hb' => hset _ (by rw [hstart] at hb ⊢; omega)
    rcases Bitmap.run_alloc (ofAreas inodeBitmapBlocks a).dataBitmap [] d (by simp) with
      ⟨p, d', hr, -⟩ | ⟨-, hfull⟩
    · rw [hr] at hnone
      cases hnone
    · rw [hfull q (by rwa [hmax])] at hclear
      cases hclear
  · intro heq d out _
    refine ⟨fun b d' hr => ?_, fun hfull => ?_⟩
    · obtain ⟨p, hp, rfl⟩ := run_allocData_some hr
      rw [hmax] at hp
      rw [hstart, Nat.mod_eq_of_lt (by omega)]
      omega
    · rcases Bitmap.run_alloc (ofAreas inodeBitmapBlocks a).dataBitmap [] d (by simp) with
        ⟨p, d', -, ha, -⟩ | ⟨hr, -⟩
      · have hp := ha.lt
        rw [hmax] at hp
        have := hfull ((ofAreas inodeBitmapBlocks a).dataAreaStartBlock + p) (by omega)
          (by rw [hstart]; omega)
        rw [Nat.add_sub_cancel_left, ha.clear] at this
        cases this
      · exact hr

/-- A disk whose data area fills its bitmap: 4096 blocks and one block of bits. -/
theorem staysOnDevice_full_bitmap :
    ∃ fs d₀ d₁, (EasyFileSystem.create 5123 1).run [] d₀ = some (fs, d₁) ∧
      StaysOnDevice 5123 fs d₁ := by
  obtain ⟨fs, d₁, hr⟩ := run_create_fs_total (a := ⟨1024, 1, 4096⟩) (fun _ => 0)
    (show (areas 5123 1).run [] _ = some (_, _) from rfl) (by omega)
  exact ⟨fs, _, d₁, hr, (staysOnDevice_iff (by omega) hr).mpr (by omega)⟩

/-- On a disk of 1030 blocks the fourth block that `alloc_data` returns is block 1030,
which is not there. -/
theorem alloc_data_past_the_end :
    ∃ fs d₀ d₁ d out d', (EasyFileSystem.create 1030 1).run [] d₀ = some (fs, d₁) ∧
      AllocRun fs d₁ d out ∧ fs.allocData.run [] d = some (1030, d') ∧
      ¬ StaysOnDevice 1030 fs d₁ := by
  obtain ⟨v, d₁, -, hib, hareas, hf, hr⟩ :=
    exists_formatted 1030 1 (a := ⟨1024, 1, 3⟩) (by omega) (by omega) (by omega) rfl
  have hstart : v.fs.dataAreaStartBlock = 1027 := by
    rw [Volume.fs, hareas, hib]
    rfl
  have hmax : v.fs.dataBitmap.maximum = 4096 := by
    rw [v.dataBitmap_maximum, hareas]
    rfl
  obtain ⟨d, out, hrun, hset, hclear⟩ := exists_filled (q := 3) (n := 3) (by omega)
    (le_refl _) (by omega) (hf.dataBits (by omega))
  obtain ⟨d', ha, -⟩ := run_allocData_next hset hclear (by omega) (by omega)
  rw [hstart] at ha
  refine ⟨v.fs, _, d₁, d, out, d', hr, hrun, ha, fun hstay => ?_⟩
  exact absurd ((hstay d out hrun).1 _ _ ha).2 (by omega)

end RCore.EasyFs
