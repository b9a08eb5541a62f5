import RCore.Proofs.EasyFs.Blank

/-! `clear` undoes whatever has been written to a file that was empty. -/

namespace RCore.EasyFs

open RCore.Lib Slot

variable {v : Volume} {held : List ℕ} {d d₁ d' : Disk} {id n offset : ℕ} {x x' y : DiskInode}
  {buf : List UInt8} {vs : List U32}

namespace DiskInode

/-- An inode is its size, its slots, its type and the padding. -/
theorem ext_fields (hsize : x.size = y.size)
    (hload : ∀ σ : Slot, σ.Ok → σ.base = none → load d x σ = load d y σ)
    (htype : x.type_ = y.type_) (hpad : x.padding = y.padding) : x = y := by
  have hfield : ∀ off w i, field x off w = field y off w → off ≤ i → i < off + w → x.getLsbD i = y.getLsbD i := by
    intro off w i hf hle hlt
    have hbit := congrArg (fun f => f.getLsbD (i - off)) hf
    simpa only [getLsbD_field, show i - off < w by omega, decide_true, Bool.true_and,
      Nat.add_sub_cancel' hle] using hbit
  apply BitVec.eq_of_getLsbD_eq
  intro i hi
  by_cases h0 : i < 32
  · exact hfield 0 32 i (BitVec.eq_of_toNat_eq hsize) (by omega) (by omega)
  by_cases h1 : i < 928
  · exact hfield (32 + 32 * ((i - 32) / 32)) 32 i
      (hload (.direct ((i - 32) / 32)) (by simp only [Ok]; omega) rfl) (by omega) (by omega)
  by_cases h2 : i < 960
  · exact hfield 928 32 i (hload .ind1 trivial rfl) (by omega) (by omega)
  by_cases h3 : i < 992
  · exact hfield 960 32 i (hload .ind2 trivial rfl) (by omega) (by omega)
  by_cases h4 : i < 1000
  · exact hfield 992 8 i htype (by omega) (by omega)
  · exact hfield 1000 24 i hpad (by omega) (by omega)

/-- An empty inode that is blank all over is a fresh one. -/
theorem eq_initializeAs {t : DiskInodeType} (hsize : x.size = 0) (hblank : x.EndsBlank)
    (htype : x.type_ = t.toByte) (hpad : x.padding = 0) : x = initializeAs 0 t := by
  refine ext_fields (d := fun _ => 0) ?_ (fun σ hok hσ => ?_) ?_ ?_
  · rw [hsize, size_initializeAs]
  · rw [hblank _ σ hok hσ, load_initializeAs _ _ hσ hok]
    rw [dataBlocks_eq (by omega), hsize]
    omega
  · rw [htype, type_initializeAs]
  · rw [hpad, padding_initializeAs]
    exact (field_zero _ _).symm

end DiskInode

/-- New blocks are put into slots that lie before the new end. -/
theorem endsBlank_placeBlocks (d : Disk) (vs : List U32) (hx : x.size ≤ n) (hn : n ≤ 16540 * 512)
    (h : x.EndsBlank) : (placeBlocks d x n vs).2.EndsBlank := by
  have hk := dataBlocks_eq (x := x) (by omega)
  have hkn := dataBlocksOf_eq hn
  have hslots : ∀ σ ∈ slotsFrom x.dataBlocks (DiskInode.dataBlocksOf n - x.dataBlocks),
      σ.Ok ∧ σ.index < DiskInode.dataBlocksOf n := by
    intro σ hσ
    obtain ⟨hok, -, hlt⟩ := ok_of_mem_slotsFrom (by omega) hσ
    exact ⟨hok, by omega⟩
  intro d' σ hok hσ hle
  rw [DiskInode.dataBlocks, size_placeBlocks d x vs (by omega)] at hle
  have hnot : σ ∉ slotsFrom x.dataBlocks (DiskInode.dataBlocksOf n - x.dataBlocks) := by
    intro hmem
    have := (hslots σ hmem).2
    omega
  have hload : load (placeBlocks d x n vs).1 (placeBlocks d x n vs).2 σ = _ :=
    load_storeAll_inode (fun τ hτ => (hslots τ hτ).1) hσ hok hnot vs d (x.setSize n)
  rw [load_inode hσ d' (placeBlocks d x n vs).1, hload, DiskInode.load_setSize]
  exact h d σ hok hσ (by omega)

/-- A `write_at` that returns has grown the file within what its tree can hold: otherwise the loop over
the blocks ends at an index that is out of bounds. -/
theorem run_increaseSize_le_max {held' : List ℕ} {r : ℕ} {d₂ : Disk} (hs : Sound v (v.fs.inodes d) [] d)
    (hx : v.fs.inodes d id = some x)
    (hgrow : (Inode.increaseSize v.fs ((offset + buf.length) % 2 ^ 32) x).run held d = some (x', d₁))
    (hwrite : (x'.writeAt offset buf).run held' d₁ = some (r, d₂)) :
    (offset + buf.length) % 2 ^ 32 ≤ 16540 * 512 := by
  have hsize := hs.size_le id x hx
  have hk := hs.dataBlocks_le hx
  by_contra hmax
  have hnew : (offset + buf.length) % 2 ^ 32 < 2 ^ 32 := Nat.mod_lt _ (by omega)
  have hle : (offset + buf.length) % 2 ^ 32 ≤ offset + buf.length := Nat.mod_le _ _
  generalize (offset + buf.length) % 2 ^ 32 = newSize at *
  unfold Inode.increaseSize at hgrow
  rw [if_neg (by omega)] at hgrow
  obtain ⟨need, e₁, -, hgrow⟩ := Prog.run_bind_eq_some hgrow
  obtain ⟨vs, e₂, -, hgrow⟩ := Prog.run_bind_eq_some hgrow
  obtain ⟨⟨x₁, rest⟩, e₃, hplace, hret⟩ := Prog.run_bind_eq_some hgrow
  cases hret
  by_cases hover : 16540 < DiskInode.dataBlocksOf newSize
  · rw [DiskInode.run_increaseSize_over hk hnew hover] at hplace
    cases hplace
  -- the number of blocks has wrapped around, and the new size is there without blocks
  have hzero : DiskInode.dataBlocksOf newSize = 0 := by
    have hdef : DiskInode.dataBlocksOf newSize = (newSize + 512 - 1) % 2 ^ 32 / 512 := rfl
    omega
  unfold DiskInode.increaseSize at hplace
  simp only [DiskInode.dataBlocks_setSize hnew, hzero, inode_direct_count_eq] at hplace
  rw [show min 0 28 - x.dataBlocks = 0 by omega] at hplace
  cases hplace
  unfold DiskInode.writeAt at hwrite
  obtain ⟨u, e₄, -, hloop⟩ := Prog.run_bind_eq_some hwrite
  rw [DiskInode.size_setSize hnew, DiskInode.run_writeLoop_none (by omega)] at hloop
  cases hloop

/-- File `id` has been written to: its inode was `x`, and is `x'`. It has kept its blocks, and what is
not in its blocks, its inode or the data bitmap is as it was. -/
structure Rewritten (v : Volume) (id : ℕ) (d : Disk) (x : DiskInode) (d' : Disk) (x' : DiskInode) : Prop where
  inodes : v.fs.inodes d' = Function.update (v.fs.inodes d) id (some x')
  sound : Sound v (v.fs.inodes d') [] d'
  type_ : x'.type_ = x.type_
  padding : x'.padding = x.padding
  blank : x.EndsBlank → x'.EndsBlank
  kept : ∀ b ∈ owned d x, b ∈ owned d' x'
  others : ∀ j y, j ≠ id → v.fs.inodes d j = some y → ∀ b ∈ owned d y, d' b = d b
  data : ∀ b, v.start ≤ b → b ∉ owned d' x' → d' b = d b
  rest : ∀ b < v.start, ¬ v.fs.dataBitmap.Owns b → b ≠ v.inodeBlock id → d' b = d b
  block : d' (v.inodeBlock id) = splice (d (v.inodeBlock id)) (8 * v.inodeOffset id) x'

theorem Rewritten.refl (hs : Sound v (v.fs.inodes d) [] d) (hx : v.fs.inodes d id = some x) :
    Rewritten v id d x d x where
  inodes := by rw [← hx, Function.update_eq_self]
  sound := hs
  type_ := rfl
  padding := rfl
  blank h := h
  kept _ hb := hb
  others _ _ _ _ _ _ := rfl
  data _ _ _ := rfl
  rest _ _ _ _ := rfl
  block := by
    rw [← (Volume.inodes_eq_some hx).2.2, v.inodeAt_eq]
    exact (splice_field _ _ _).symm

theorem Rewritten.trans {d'' : Disk} {x'' : DiskInode} (hs : Sound v (v.fs.inodes d) [] d)
    (h : Rewritten v id d x d' x') (h' : Rewritten v id d' x' d'' x'') : Rewritten v id d x d'' x'' where
  inodes := by rw [h'.inodes, h.inodes, Function.update_idem]
  sound := h'.sound
  type_ := h'.type_.trans h.type_
  padding := h'.padding.trans h.padding
  blank hb := h'.blank (h.blank hb)
  kept b hb := h'.kept b (h.kept b hb)
  others j y hj hy b hb := by
    have hown := (owned_congr (hs.dataBlocks_le hy) (h.others j y hj hy)).2.1
    rw [h'.others j y hj (by rw [h.inodes, Function.update_of_ne hj, hy]) b (by rwa [hown]),
      h.others j y hj hy b hb]
  data b hle hb := by rw [h'.data b hle hb, h.data b hle fun hm => hb (h'.kept b hm)]
  rest b hlt hown hne := by rw [h'.rest b hlt hown hne, h.rest b hlt hown hne]
  block := by rw [h'.block, h.block, splice_splice_self]

/-- One call of `write_at` that returns, whatever its offset and buffer. -/
theorem rewritten_writeAt {r : ℕ} (hs : Sound v (v.fs.inodes d) [] d) (hx : v.fs.inodes d id = some x)
    (hr : (Inode.writeAt v.fs (Inode.ofId v.fs id) offset buf).run [] d = some (r, d')) :
    ∃ x', Rewritten v id d x d' x' := by
  have hheld := heldBelow_inodeBlock hx
  have hsize := hs.size_le id x hx
  obtain ⟨r₁, e₁, hm, hsync⟩ := Prog.run_bind_eq_some hr
  cases hsync
  obtain ⟨x₁, d₂, hbody, hd'⟩ := run_modifyDiskInode_some hx hm
  obtain ⟨x', d₁, hgrow, hbody⟩ := Prog.run_bind_eq_some hbody
  obtain ⟨r₂, d₃, hwrite, hret⟩ := Prog.run_bind_eq_some hbody
  cases hret
  have hmax := run_increaseSize_le_max hs hx hgrow hwrite
  have hg := (run_increaseSize_some hs hx hheld hmax hgrow).changed
  rw [run_increaseSize_exact hs hx hheld hmax, Option.map_eq_some_iff] at hgrow
  obtain ⟨⟨vs, e⟩, halloc, hplace⟩ := hgrow
  obtain ⟨hlen, hal⟩ := alloced_of_run hheld.bitmap halloc
  generalize hn : max x.size ((offset + buf.length) % 2 ^ 32) = n at *
  have hlen' : vs.length = blocksNeeded x n := by rw [hlen, ← hn, blocksNeeded_max hsize]
  obtain ⟨rfl, rfl⟩ := Prod.mk.inj hplace
  have hs₁ := hal.taken hs
  obtain ⟨hp, -, -⟩ := (room_of_sound hs₁ hx hheld).placed (by omega : x.size ≤ n) (by omega) hlen'
  have hpad := padding_placeBlocks e vs (by omega : x.size ≤ n) (by omega)
  have hblank := endsBlank_placeBlocks e vs (by omega : x.size ≤ n) (by omega)
  generalize (placeBlocks e x n vs).2 = x' at *
  generalize (placeBlocks e x n vs).1 = d₁ at *
  have hx' : Function.update (v.fs.inodes d) id (some x') id = some x' := Function.update_self ..
  have hk' := dataBlocks_eq (hg.sound.size_le id x' hx')
  have hw := DiskInode.run_writeAt_some (hg.sound.dataBlocks_le hx') (nodup_owned.mp (hg.sound.nodup hx'))
    (hg.sound.unlocked hx' hheld) (by omega) hwrite
  have hch := hg.trans hs (hw.changed hg.sound hx')
  obtain ⟨hino, hsound, hdata, -⟩ := hch.inodes_commit hx hd'
  -- the blocks of the file, before the inode goes back to disk and after
  have howned₃ : owned d₂ x' = owned d₁ x' := by
    rw [owned, ownedUpTo, List.map_congr_left hw.loads, owned, ownedUpTo]
  have howned : owned d' x' = owned d₂ x' :=
    (owned_congr (d := d₂) (hg.sound.dataBlocks_le hx')
      fun b hb => hdata b (hch.sound.used hx' hb).start_le).2.1
  have hkeep : owned e x = owned d x := (owned_congr (hs.dataBlocks_le hx) fun b hb =>
    hal.frame b (not_bitmap_of_le (hs.used hx hb).start_le)).2.1
  refine ⟨x', hino, hsound, hch.type_, hpad, hblank, fun b hb => ?_, fun j z hj hz b hb => ?_, fun b hle hb => ?_,
    fun b hlt hown hne => ?_, ?_⟩
  · rw [howned, howned₃, hp.blocks, hkeep]
    exact List.mem_append_left _ hb
  · rw [hdata b (hs.used hz hb).start_le, hch.others j z hj hz b hb]
  · rw [howned, howned₃] at hb
    rw [hdata b hle, hw.frame_owned rfl hb, hp.frame b hb, hal.frame b (not_bitmap_of_le hle)]
  · rw [hd', Function.update_of_ne hne, hch.frame b hlt hown]
  · rw [hd', Function.update_self]

/-- Calls of `write_at` on a file, from disk `d₀` on, that all return. -/
inductive WriteRun (fs : EasyFileSystem) (file : Inode) (d₀ : Disk) : Disk → Prop
  | nil : WriteRun fs file d₀ d₀
  | snoc {d d' : Disk} {offset r : ℕ} {buf : List UInt8} (h : WriteRun fs file d₀ d)
      (hr : (Inode.writeAt fs file offset buf).run [] d = some (r, d')) : WriteRun fs file d₀ d'

theorem WriteRun.rewritten {d₀ : Disk} (hs : Sound v (v.fs.inodes d₀) [] d₀) (hx : v.fs.inodes d₀ id = some x)
    (h : WriteRun v.fs (Inode.ofId v.fs id) d₀ d) : ∃ x', Rewritten v id d₀ x d x' := by
  induction h with
  | nil => exact ⟨x, .refl hs hx⟩
  | snoc h hr ih =>
    obtain ⟨x₁, h₁⟩ := ih
    obtain ⟨x₂, h₂⟩ := rewritten_writeAt h₁.sound (by rw [h₁.inodes, Function.update_self]) hr
    exact ⟨x₂, h₁.trans hs h₂⟩

/-- Bitmaps with the same bits are the same blocks. -/
theorem Bitmap.block_eq {m : Bitmap} (h : ∀ p < m.maximum, m.isSet d' p = m.isSet d p) {b : ℕ}
    (hb : m.Owns b) : d' b = d b := by
  apply BitVec.eq_of_getLsbD_eq
  intro i hi
  obtain ⟨hle, hlt⟩ := hb
  have hbit := h (4096 * (b - m.startBlockId) + i) (by rw [maximum_eq]; omega)
  rw [isSet_eq, isSet_eq] at hbit
  rwa [show (4096 * (b - m.startBlockId) + i) / 4096 = b - m.startBlockId by omega,
    show (4096 * (b - m.startBlockId) + i) % 4096 = i by omega, Nat.add_sub_cancel' hle] at hbit

/-- The blocks in use are those of the files. -/
theorem Sound.used_iff (hs : Sound v (v.fs.inodes d) [] d) {b : ℕ} :
    v.Used d b ↔ ∃ j y, v.fs.inodes d j = some y ∧ b ∈ owned d y := by
  rw [hs.part.mem b]
  constructor
  · rintro ⟨o, hb⟩
    cases o with
    | none => cases hb
    | some j =>
      cases hj : v.fs.inodes d j with
      | none =>
        rw [own, hj] at hb
        cases hb
      | some y => exact ⟨j, y, hj, by rwa [own_some hj] at hb⟩
  · rintro ⟨j, y, hj, hb⟩
    exact ⟨some j, by rwa [own_some hj]⟩

/-- Nothing but the blocks of an empty file could be used by it, and other files have what they
had. -/
theorem used_congr_empty {d₀ : Disk} (hs₀ : Sound v (v.fs.inodes d₀) [] d₀) (hs : Sound v (v.fs.inodes d) [] d)
    (hx : v.fs.inodes d₀ id = some x) (hzero : x.size = 0)
    (hino : v.fs.inodes d = Function.update (v.fs.inodes d₀) id (some x')) (hzero' : x'.size = 0)
    (hothers : ∀ j y, j ≠ id → v.fs.inodes d₀ j = some y → ∀ b ∈ owned d₀ y, d b = d₀ b) {b : ℕ} :
    v.Used d b ↔ v.Used d₀ b := by
  have hown : ∀ j y, j ≠ id → v.fs.inodes d₀ j = some y → owned d y = owned d₀ y := fun j y hj hy =>
    (owned_congr (hs₀.dataBlocks_le hy) (hothers j y hj hy)).2.1
  rw [hs.used_iff, hs₀.used_iff]
  constructor
  · rintro ⟨j, y, hy, hb⟩
    rw [hino] at hy
    by_cases hj : j = id
    · subst hj
      rw [Function.update_self, Option.some.injEq] at hy
      rw [← hy, owned_of_size_zero hzero'] at hb
      cases hb
    · rw [Function.update_of_ne hj] at hy
      exact ⟨j, y, hy, by rwa [hown j y hj hy] at hb⟩
  · rintro ⟨j, y, hy, hb⟩
    by_cases hj : j = id
    · subst hj
      obtain rfl := Option.some.inj (hx.symm.trans hy)
      rw [owned_of_size_zero hzero] at hb
      cases hb
    · exact ⟨j, y, by rw [hino, Function.update_of_ne hj, hy], by rwa [hown j y hj hy]⟩

theorem used_add {p : ℕ} (hp : p < v.fs.dataBitmap.maximum) :
    v.Used d (v.start + p) ↔ v.fs.dataBitmap.isSet d p = true := by
  constructor
  · rintro ⟨q, -, hset, heq⟩
    rwa [Nat.add_left_cancel heq]
  · intro hset
    exact ⟨p, hp, hset, rfl⟩

namespace Rewritten

variable {d₀ : Disk} (hs₀ : Sound v (v.fs.inodes d₀) [] d₀) (hx : v.fs.inodes d₀ id = some x) (hzero : x.size = 0)
  (h : Rewritten v id d₀ x d y)

include h in
theorem file : v.fs.inodes d id = some y := by rw [h.inodes, Function.update_self]

include hs₀ hx hzero h in
/-- What the file has got was free before. -/
theorem not_used {b : ℕ} (hb : b ∈ owned d y) : ¬ v.Used d₀ b := by
  rw [hs₀.used_iff]
  rintro ⟨j, z, hz, hmem⟩
  by_cases hj : j = id
  · subst hj
    obtain rfl := Option.some.inj (hx.symm.trans hz)
    rw [owned_of_size_zero hzero] at hmem
    cases hmem
  · have hown := (owned_congr (hs₀.dataBlocks_le hz) (h.others j z hj hz)).2.1
    have hz' : v.fs.inodes d j = some z := by rw [h.inodes, Function.update_of_ne hj, hz]
    exact h.sound.disjoint hj hz' h.file (by rwa [hown]) hb

include hs₀ hx hzero h in
/-- After `clear` the inode is a fresh one, and the disk is what it was. -/
theorem cleared (hc₀ : Clean v (v.fs.inodes d₀) d₀) (ht₀ : Tidy v d₀) :
    ∃ t d', y.clearSize.run [v.inodeBlock id] d =
        some ((DiskInode.initializeAs 0 t, ownedUpTo d y y.dataBlocks), d) ∧
      (Inode.clear v.fs (Inode.ofId v.fs id)).run [] d = some ((), d') ∧
      v.fs.inodes d' id = some (DiskInode.initializeAs 0 t) ∧ x = DiskInode.initializeAs 0 t ∧
      ∀ b < v.totalBlocks, d' b = d₀ b := by
  have hidlt := (Volume.inodes_eq_some hx).1
  obtain ⟨x', d₁, hsize, hcl, -, hch, hfreed, hzeroed, hclear⟩ := run_clear_parts h.sound h.file
  generalize hd' : Function.update d₁ (v.inodeBlock id)
    (splice (d (v.inodeBlock id)) (8 * v.inodeOffset id) x') = d' at hclear
  obtain ⟨hino, hsound', hdata, hbits⟩ := hch.inodes_commit h.file hd'.symm
  -- both inodes are fresh ones
  obtain ⟨t, htype⟩ := ht₀.type_ id x hx
  have hpad : x.padding = 0 := by
    rw [← (Volume.inodes_eq_some hx).2.2]
    exact ht₀.padding id hidlt
  have hblank := (ht₀.blank id x hx).endsBlank
  have hfresh : x = DiskInode.initializeAs 0 t := DiskInode.eq_initializeAs hzero hblank htype hpad
  have hfresh' : x' = DiskInode.initializeAs 0 t := by
    refine DiskInode.eq_initializeAs hcl.size (fun e σ hok hσ _ => ?_) ?_ ?_
    · exact hcl.load_eq_zero (h.blank hblank) hσ hok
    · rw [hcl.type_, h.type_, htype]
    · rw [hcl.padding, h.padding, hpad]
  have hsame : x' = x := hfresh'.trans hfresh.symm
  subst hsame
  refine ⟨t, d', hfresh' ▸ hsize, hclear, ?_, hfresh, fun b hb => ?_⟩
  · rw [hino, Function.update_self, ← hfresh]
  have hothers : ∀ j z, j ≠ id → v.fs.inodes d₀ j = some z → ∀ c ∈ owned d₀ z, d' c = d₀ c := by
    intro j z hj hz c hc
    have hz' : v.fs.inodes d j = some z := by rw [h.inodes, Function.update_of_ne hj, hz]
    have hown := (owned_congr (hs₀.dataBlocks_le hz) (h.others j z hj hz)).2.1
    rw [hdata c (hs₀.used hz hc).start_le, hch.others j z hj hz' c (by rwa [hown]), h.others j z hj hz c hc]
  by_cases hle : v.start ≤ b
  · rw [hdata b hle, hzeroed b hle]
    split_ifs with hown
    · have hp : b - v.start < v.size := by
        have := v.start_add_size
        omega
      have hmax : b - v.start < v.fs.dataBitmap.maximum := by
        rw [v.dataBitmap_maximum]
        exact hp.trans_le v.bitmapCovers
      have hfree := h.not_used hs₀ hx hzero hown
      rw [← Nat.add_sub_cancel' hle, used_add hmax, Bool.not_eq_true] at hfree
      rw [← Nat.add_sub_cancel' hle]
      exact (hc₀.free_zero _ hp hfree).symm
    · exact h.data b hle hown
  by_cases hbit : v.fs.dataBitmap.Owns b
  · refine Bitmap.block_eq (fun p hp => ?_) hbit
    have hino' : v.fs.inodes d' = Function.update (v.fs.inodes d₀) id (some x') := by
      rw [hino, h.inodes, Function.update_idem]
    have hused := used_congr_empty hs₀ hsound' hx hzero hino' hzero hothers (b := v.start + p)
    rw [used_add hp, used_add hp] at hused
    exact Bool.eq_iff_iff.mpr hused
  by_cases hblock : b = v.inodeBlock id
  · rw [hblock, ← hd', Function.update_self, h.block, splice_splice_self, ← (Volume.inodes_eq_some hx).2.2,
      v.inodeAt_eq]
    exact splice_field _ _ _
  · rw [← hd', Function.update_of_ne hblock, hfreed.frame b (Nat.lt_of_not_le hle) hbit,
      h.rest b (Nat.lt_of_not_le hle) hbit hblock]

end Rewritten

end RCore.EasyFs
