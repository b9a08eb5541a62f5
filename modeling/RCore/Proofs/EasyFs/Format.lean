import RCore.Proofs.EasyFs.CreateCall

/-! `EasyFileSystem::create`: what a freshly formatted disk looks like. -/

namespace RCore.EasyFs

open RCore.Lib EasyFileSystem

variable {held : List ℕ} {d d' : Disk} {totalBlocks inodeBitmapBlocks : ℕ}

theorem run_checkedU32_some {n m : ℕ} (h : (checkedU32 n).run held d = some (m, d')) :
    n < 2 ^ 32 ∧ m = n ∧ d' = d := by
  by_cases hn : n < 2 ^ 32
  · rw [checkedU32, Prog.run_bind_of (Prog.run_assert hn _ _)] at h
    cases h
    exact ⟨hn, rfl, rfl⟩
  · rw [checkedU32, Prog.run_bind, Prog.assert, if_neg hn] at h
    cases h

theorem run_checkedSub_some {a b m : ℕ} (h : (checkedSub a b).run held d = some (m, d')) :
    b ≤ a ∧ m = a - b ∧ d' = d := by
  by_cases hb : b ≤ a
  · rw [checkedSub, Prog.run_bind_of (Prog.run_assert hb _ _)] at h
    cases h
    exact ⟨hb, rfl, rfl⟩
  · rw [checkedSub, Prog.run_bind, Prog.assert, if_neg hb] at h
    cases h

/-- The arithmetic of the layout, when no check stops it. -/
structure Laid (totalBlocks inodeBitmapBlocks : ℕ) (a : Areas) : Prop where
  inodeArea : a.inodeAreaBlocks = 1024 * inodeBitmapBlocks % 2 ^ 32
  total : 1 + inodeBitmapBlocks + a.inodeAreaBlocks + a.dataBitmapBlocks + a.dataAreaBlocks =
    totalBlocks
  bitmap : a.dataBitmapBlocks = (a.dataBitmapBlocks + a.dataAreaBlocks + 4096) / 4097
  checked : a.dataBitmapBlocks + a.dataAreaBlocks + 4096 < 2 ^ 32

theorem Laid.unique {a a' : Areas} (h : Laid totalBlocks inodeBitmapBlocks a)
    (h' : Laid totalBlocks inodeBitmapBlocks a') : a = a' := by
  obtain ⟨hi, ht, hb, -⟩ := h
  obtain ⟨hi', ht', hb', -⟩ := h'
  cases a
  cases a'
  simp only [Areas.mk.injEq] at *
  omega

theorem run_areas_some {a : Areas}
    (h : (areas totalBlocks inodeBitmapBlocks).run held d = some (a, d')) :
    Laid totalBlocks inodeBitmapBlocks a ∧ d' = d := by
  rw [areas] at h
  obtain ⟨t, d₁, ht, h₁⟩ := Prog.run_bind_eq_some h
  obtain ⟨r, d₂, hr, h₂⟩ := Prog.run_bind_eq_some h₁
  obtain ⟨s, d₃, hs, h₃⟩ := Prog.run_bind_eq_some h₂
  obtain ⟨u, d₄, hu, h₄⟩ := Prog.run_bind_eq_some h₃
  obtain ⟨w, d₅, hw, h₅⟩ := Prog.run_bind_eq_some h₄
  obtain ⟨-, rfl, rfl⟩ := run_checkedU32_some ht
  obtain ⟨hr, rfl, rfl⟩ := run_checkedSub_some hr
  obtain ⟨hs, rfl, rfl⟩ := run_checkedSub_some hs
  obtain ⟨hu, rfl, rfl⟩ := run_checkedU32_some hu
  obtain ⟨hw, rfl, rfl⟩ := run_checkedSub_some hw
  cases h₅
  have harea : (inodeBitmapBlocks * BLOCK_BITS * INODE_SIZE + BLOCK_SZ - 1) / BLOCK_SZ =
      1024 * inodeBitmapBlocks := by
    change (inodeBitmapBlocks * 4096 * 128 + 512 - 1) / 512 = _
    omega
  rw [harea] at hs hu hw ⊢
  refine ⟨⟨rfl, ?_, ?_, ?_⟩, rfl⟩ <;> simp only <;> omega

/-- Clearing the blocks from `i` on. -/
theorem run_clearBlocks (n i : ℕ) (d : Disk) :
    (clearBlocks n i).run [] d = some ((), fun b => if i ≤ b ∧ b < i + n then 0 else d b) := by
  induction n generalizing i d with
  | zero =>
    have : (fun b => if i ≤ b ∧ b < i + 0 then 0 else d b) = d := by
      funext b
      rw [if_neg (by omega)]
    rw [this]
    rfl
  | succ n ih =>
    rw [clearBlocks, Prog.run_bind_of (run_modifyBlock (by simp) rfl), ih]
    congr 2
    funext b
    by_cases hb : b = i
    · subst hb
      rw [if_neg (by omega), if_pos ⟨by omega, by omega⟩, Function.update_self]
    · rw [Function.update_of_ne hb]
      by_cases hc : i ≤ b ∧ b < i + (n + 1)
      · rw [if_pos hc, if_pos (by omega)]
      · rw [if_neg hc, if_neg (by omega)]

/-- The root inode of an empty disk. -/
def rootInode : DiskInode := DiskInode.initializeAs 0 .directory

/-- What `create` leaves on the disk. -/
structure Formatted (totalBlocks inodeBitmapBlocks : ℕ) (a : Areas) (d' : Disk) : Prop where
  laid : Laid totalBlocks inodeBitmapBlocks a
  pos : 0 < inodeBitmapBlocks
  inodeBits : ∀ k < 4096 * inodeBitmapBlocks,
    Bitmap.isSet ⟨1, inodeBitmapBlocks⟩ d' k = decide (k = 0)
  root : 1 + inodeBitmapBlocks < totalBlocks → d' (1 + inodeBitmapBlocks) = splice 0 0 rootInode
  zero : ∀ b < totalBlocks, 1 + inodeBitmapBlocks < b → d' b = 0

theorem run_allocInode_some {fs : EasyFileSystem} {p : ℕ}
    (h : fs.allocInode.run [] d = some (p, d')) :
    ∃ q, p = q % 2 ^ 32 ∧ fs.inodeBitmap.Added d d' q ∧
      ∀ k < q, fs.inodeBitmap.isSet d k = true := by
  rw [allocInode] at h
  rcases fs.inodeBitmap.run_alloc [] d (by simp) with ⟨q, d₁, hr, ha, hleast⟩ | ⟨hr, -⟩
  · rw [Prog.run_bind_of hr] at h
    cases h
    exact ⟨q, rfl, ha, hleast⟩
  · rw [Prog.run_bind_of hr] at h
    cases h

theorem run_create_fs_some {fs : EasyFileSystem}
    (h : (EasyFileSystem.create totalBlocks inodeBitmapBlocks).run [] d = some (fs, d')) :
    ∃ a, fs = ofAreas inodeBitmapBlocks a ∧ Formatted totalBlocks inodeBitmapBlocks a d' := by
  rw [EasyFileSystem.create] at h
  obtain ⟨a, d₀, ha, h₀⟩ := Prog.run_bind_eq_some h
  obtain ⟨hlaid, rfl⟩ := run_areas_some ha
  have htot := hlaid.total
  obtain ⟨u₁, d₁, hc, h₁⟩ := Prog.run_bind_eq_some h₀
  obtain ⟨u₂, d₂, hsb, h₂⟩ := Prog.run_bind_eq_some h₁
  obtain ⟨p, d₃, halloc, h₃⟩ := Prog.run_bind_eq_some h₂
  obtain ⟨u₄, d₄, hassert, h₄⟩ := Prog.run_bind_eq_some h₃
  obtain ⟨u₅, d₅, hroot, h₅⟩ := Prog.run_bind_eq_some h₄
  obtain ⟨u₆, d₆, hsync, h₆⟩ := Prog.run_bind_eq_some h₅
  cases h₆
  cases hsync
  have hclear : ∀ b, 1 ≤ b → b < totalBlocks → d₂ b = 0 := by
    intro b hb hlt
    rw [run_clearBlocks, Option.some.injEq, Prod.mk.injEq] at hc
    rw [run_modifyAt_pure_some hsb, Function.update_of_ne (by omega), ← hc.2]
    exact if_pos (by omega)
  have hd₄ : d₄ = d₃ := by
    rw [Prog.assert] at hassert
    split_ifs at hassert
    · cases hassert
      rfl
    · cases hassert
  subst hd₄
  -- the inode bitmap is empty, so the root gets its first bit
  obtain ⟨q, -, hadd, hleast⟩ := run_allocInode_some halloc
  have hbits : ∀ k < 4096 * inodeBitmapBlocks,
      Bitmap.isSet ⟨1, inodeBitmapBlocks⟩ d₂ k = false := by
    intro k hk
    rw [Bitmap.isSet_eq, hclear _ (by simp only; omega) (by simp only; omega)]
    exact BitVec.getLsbD_zero
  have hq : q < 4096 * inodeBitmapBlocks := by
    have := hadd.lt
    rwa [Bitmap.maximum_eq] at this
  have hq0 : q = 0 := by
    by_contra hne
    have hset := hleast 0 (by omega)
    rw [show (ofAreas inodeBitmapBlocks a).inodeBitmap = ⟨1, inodeBitmapBlocks⟩ from rfl,
      hbits 0 (by omega)] at hset
    cases hset
  subst hq0
  replace hroot := run_modifyAt_pure_some hroot
  have hframe : ∀ b, 1 + inodeBitmapBlocks ≤ b → d₄ b = d₂ b := by
    intro b hb
    apply hadd.frame
    change ¬ (1 ≤ b ∧ b < 1 + inodeBitmapBlocks)
    omega
  replace hroot : d' = Function.update d₄ (1 + inodeBitmapBlocks)
    (splice (d₄ (1 + inodeBitmapBlocks)) 0
      (DiskInode.initializeAs (field (d₄ (1 + inodeBitmapBlocks)) 0 1024) .directory)) := hroot
  have hbitmap : (ofAreas inodeBitmapBlocks a).inodeBitmap = ⟨1, inodeBitmapBlocks⟩ := rfl
  refine ⟨a, rfl, hlaid, by omega, fun k hk => ?_, fun hlt => ?_, fun b hlt hb => ?_⟩
  · have hmax : k < Bitmap.maximum ⟨1, inodeBitmapBlocks⟩ := by rwa [Bitmap.maximum_eq]
    have hkeep : ∀ b, Bitmap.Owns ⟨1, inodeBitmapBlocks⟩ b → d' b = d₄ b := by
      rintro b ⟨-, hb⟩
      rw [hroot, Function.update_of_ne (by simp only at hb; omega)]
    have hk' := hadd.bits k hmax
    rw [hbitmap, hbits k hk, Bool.or_false] at hk'
    rw [Bitmap.isSet_congr hkeep hmax, hk']
  · have hz : d₄ (1 + inodeBitmapBlocks) = 0 := by
      rw [hframe _ (le_refl _), hclear _ (by omega) hlt]
    rw [hroot, Function.update_self, hz, field_zero]
    rfl
  · rw [hroot, Function.update_of_ne (by omega), hframe b (by omega), hclear b (by omega) hlt]

/-- `create` completes on every layout that passes its checks. -/
theorem run_create_fs_total {a : Areas} (d : Disk)
    (ha : (areas totalBlocks inodeBitmapBlocks).run [] d = some (a, d))
    (hpos : 0 < inodeBitmapBlocks) :
    ∃ fs d', (EasyFileSystem.create totalBlocks inodeBitmapBlocks).run [] d = some (fs, d') := by
  have htot := (run_areas_some ha).1.total
  obtain ⟨d₂, hsb⟩ : ∃ d₂, (modifyAt 0 0 192 fun (superBlock : SuperBlock) =>
      pure (superBlock.initializeAs totalBlocks inodeBitmapBlocks a.inodeAreaBlocks
        a.dataBitmapBlocks a.dataAreaBlocks, ())).run []
        (fun b => if 0 ≤ b ∧ b < 0 + totalBlocks then 0 else d b) = some ((), d₂) :=
    ⟨_, run_modifyAt (by simp) (by omega) rfl⟩
  have hclear : ∀ b, 1 ≤ b → b < totalBlocks → d₂ b = 0 := by
    intro b hb hlt
    rw [run_modifyAt_pure_some hsb, Function.update_of_ne (by omega), if_pos (by omega)]
  have hbit : Bitmap.isSet ⟨1, inodeBitmapBlocks⟩ d₂ 0 = false := by
    rw [Bitmap.isSet_eq, hclear _ (by simp only; omega) (by simp only; omega)]
    exact BitVec.getLsbD_zero
  have hmax : 0 < Bitmap.maximum ⟨1, inodeBitmapBlocks⟩ := by
    rw [Bitmap.maximum_eq]
    simp only
    omega
  obtain ⟨d₃, halloc⟩ : ∃ d₃, (ofAreas inodeBitmapBlocks a).allocInode.run [] d₂ =
      some (0, d₃) := by
    rcases Bitmap.run_alloc ⟨1, inodeBitmapBlocks⟩ [] d₂ (by simp) with
      ⟨q, d₃, hr, -, hleast⟩ | ⟨-, hfull⟩
    · obtain rfl : q = 0 := by
        by_contra hne
        rw [hleast 0 (by omega)] at hbit
        cases hbit
      refine ⟨d₃, ?_⟩
      rw [allocInode]
      exact Prog.run_bind_of hr _
    · rw [hfull 0 hmax] at hbit
      cases hbit
  obtain ⟨d₄, hroot⟩ : ∃ d₄, (modifyAt (1 + inodeBitmapBlocks) 0 1024
      fun (diskInode : DiskInode) => pure (diskInode.initializeAs .directory, ())).run [] d₃ =
        some ((), d₄) :=
    ⟨_, run_modifyAt (by simp) (by omega) rfl⟩
  refine ⟨ofAreas inodeBitmapBlocks a, d₄, ?_⟩
  rw [EasyFileSystem.create, Prog.run_bind_of ha]
  simp only
  rw [Prog.run_bind_of (run_clearBlocks _ _ _), Prog.run_bind_of hsb, Prog.run_bind_of halloc,
    Prog.run_bind_of (Prog.run_assert rfl _ _)]
  refine (Prog.run_bind_of hroot _).trans ?_
  rw [Prog.run_bind_of run_sync]
  rfl

/-- A layout whose inode numbers fit in a `u32`. -/
def Laid.volume {a : Areas} (h : Laid totalBlocks inodeBitmapBlocks a)
    (hids : 4096 * inodeBitmapBlocks ≤ 2 ^ 32) (htotal : totalBlocks < 2 ^ 32) : Volume where
  totalBlocks := totalBlocks
  inodeBitmapBlocks := inodeBitmapBlocks
  areas := a
  inodeArea := by rw [h.inodeArea, Nat.mod_eq_of_lt (by omega)]
  inodeIds := hids
  total := h.total
  blockIds := htotal
  bitmapCovers := by have := h.bitmap; omega
  bitmapBits := by have := h.bitmap; have := h.checked; omega

namespace Formatted

variable {v : Volume}

theorem inodes (h : Formatted v.totalBlocks v.inodeBitmapBlocks v.areas d) :
    v.fs.inodes d = Function.update (fun _ => none) 0 (some rootInode) := by
  have hpos := h.pos
  have htot := v.total
  have harea := v.inodeArea
  funext j
  rw [EasyFileSystem.inodes, v.inodeBitmap_maximum]
  by_cases hj : j < 4096 * v.inodeBitmapBlocks
  · have hset : v.fs.inodeBitmap.isSet d j = decide (j = 0) := h.inodeBits j hj
    rw [hset]
    by_cases hj0 : j = 0
    · subst hj0
      rw [if_pos ⟨hj, rfl⟩, Function.update_self]
      change some (field (d (1 + v.inodeBitmapBlocks)) 0 1024) = _
      rw [h.root (by omega)]
      exact congrArg some (field_splice_self _ _ _ (by omega))
    · rw [if_neg (by simp [hj0]), Function.update_of_ne hj0]
  · rw [if_neg (by simp [hj]), Function.update_of_ne (by omega)]

theorem dataBits (h : Formatted v.totalBlocks v.inodeBitmapBlocks v.areas d) {p : ℕ}
    (hp : p < v.fs.dataBitmap.maximum) : v.fs.dataBitmap.isSet d p = false := by
  have hpos := h.pos
  have htot := v.total
  have harea := v.inodeArea
  rw [v.dataBitmap_maximum] at hp
  have hstart : v.fs.dataBitmap.startBlockId =
    1 + v.inodeBitmapBlocks + v.areas.inodeAreaBlocks := rfl
  rw [Bitmap.isSet_eq, hstart, h.zero _ (by omega) (by omega)]
  exact BitVec.getLsbD_zero

theorem used (h : Formatted v.totalBlocks v.inodeBitmapBlocks v.areas d) :
    v.fs.dataBitmap.used d = 0 := by
  rw [Bitmap.used, List.countP_eq_zero]
  intro p hp
  rw [h.dataBits (List.mem_range.mp hp)]
  exact Bool.false_ne_true

theorem sound (h : Formatted v.totalBlocks v.inodeBitmapBlocks v.areas d) :
    Sound v (v.fs.inodes d) [] d := by
  have hempty : Sound v (fun _ => none) [] d := by
    refine ⟨⟨fun i => ?_, fun i j _ b hb => ?_, fun b => ?_⟩, by simp⟩
    · cases i <;> simp [own]
    · cases i <;> simp [own] at hb
    · constructor
      · rintro ⟨p, hp, hset, rfl⟩
        rw [h.dataBits hp] at hset
        cases hset
      · rintro ⟨i, hi⟩
        cases i <;> simp [own] at hi
  rw [h.inodes]
  exact hempty.insert rfl (DiskInode.size_initializeAs _ _)

theorem clean (h : Formatted v.totalBlocks v.inodeBitmapBlocks v.areas d) :
    Clean v (v.fs.inodes d) d := by
  have hpos := h.pos
  have harea := v.inodeArea
  have hst := v.start_add_size
  rw [h.inodes]
  apply Clean.cleared _ (DiskInode.size_initializeAs _ _)
  refine ⟨fun p hp hset => ?_, fun p hp _ => ?_, by simp⟩
  · rw [h.dataBits hp] at hset
    cases hset
  · apply h.zero _ (by omega)
    rw [v.start_eq]
    omega

end Formatted

end RCore.EasyFs
