import RCore.Proofs.EasyFs.Ownership

/-! Growth accounting: `blocks_num_needed` is the number of blocks that `increase_size`
takes, and growing in steps is growing at once. -/

namespace RCore.EasyFs

open RCore.Lib Slot

variable {held : List ℕ} {d : Disk} {x : DiskInode} {m n : ℕ} {u w vs : List U32}

theorem dataBlocksOf_eq_ceil (h : n ≤ 2 ^ 32 - 512) :
    DiskInode.dataBlocksOf n = (n + 511) / 512 := by
  change (n + 512 - 1) % 2 ^ 32 / 512 = _
  omega

theorem DiskInode.run_blocksNumNeeded (h : x.size ≤ n) :
    (x.blocksNumNeeded n).run held d = some (blocksNeeded x n, d) :=
  Prog.run_bind_of (Prog.run_assert h _ _) _

/-- The slots that a file fills as it grows are as many as `blocks_num_needed` says. -/
theorem length_slotsFrom_eq (h : DiskInode.dataBlocksOf n = x.dataBlocks + m) :
    (slotsFrom x.dataBlocks m).length = blocksNeeded x n := by
  rw [length_slotsFrom, blocksNeeded, totalBlocks_eq, totalBlocks_eq, h, DiskInode.dataBlocks]

/-- A file that grows takes the blocks it needs from the front of the list. -/
theorem run_increaseSize_take (hn : n < 2 ^ 32)
    (htotal : DiskInode.dataBlocksOf n = x.dataBlocks + m) (hkm : x.dataBlocks + m ≤ 16540)
    (hroom : Room held d x x.dataBlocks vs) (hlen : blocksNeeded x n ≤ vs.length) :
    ∃ x' d', (x.increaseSize n vs).run held d = some ((x', vs.drop (blocksNeeded x n)), d') ∧
      x'.size = n ∧ Placed x d (vs.take (blocksNeeded x n)) x' d' ∧
      Unlocked held d' x' x'.dataBlocks ∧
      ∀ σ ∈ slotsUpTo x.dataBlocks, load d' x' σ = load d x σ := by
  have hslots := length_slotsFrom_eq htotal
  have hroom' := DiskInode.room_setSize (n := n) hroom
  have hst := hroom'.stored hkm (by omega)
  have hafter := hroom'.store hkm (by omega)
  have hrun : (x.increaseSize n vs).run held d = _ :=
    DiskInode.run_increaseSize_eq hn htotal hkm vs
  rw [hroom'.fill_eq hkm (by omega), Option.bind_some, if_pos (hafter.guarded hkm), hslots] at hrun
  rw [hslots] at hst
  generalize storeAll (d, x.setSize n) (slotsFrom x.dataBlocks m) vs = s at hrun hst hafter
  have hsize : s.2.size = n := by rw [hst.size, DiskInode.size_setSize hn]
  have hblocks : s.2.dataBlocks = x.dataBlocks + m := by rw [DiskInode.dataBlocks, hsize, htotal]
  refine ⟨s.2, s.1, hrun, hsize, placed_of_stored hkm ?_ hst hblocks, fun σ hσ => ?_,
    fun σ hσ => ?_⟩
  · exact hroom.nodup.sublist (List.Sublist.append_left (List.take_sublist _ _) _)
  · rw [hblocks] at hσ
    exact hafter.load_unlocked hσ
  · rw [hst.load_eq hσ, DiskInode.load_setSize]

theorem run_increaseSize_short (hn : n < 2 ^ 32)
    (htotal : DiskInode.dataBlocksOf n = x.dataBlocks + m) (hkm : x.dataBlocks + m ≤ 16540)
    (hlen : vs.length < blocksNeeded x n) : (x.increaseSize n vs).run held d = none := by
  rw [DiskInode.run_increaseSize_eq hn htotal hkm vs]
  cases hs : fill held (d, x.setSize n) (slotsFrom x.dataBlocks m) vs with
  | none => rfl
  | some s =>
    have := (fill_eq_some hs).1
    rw [length_slotsFrom_eq htotal] at this
    omega

/-- For a file whose blocks are all different from each other and from the new ones `vs`,
with none of them locked: growing to `n` bytes takes exactly the first `blocks_num_needed`
of them, and fails with fewer; the blocks the file had stay where they were, and those that
it takes are the new ones. It never gets past the last block of the tree. Then there are
blocks left when the tree is full: it is the index that fails. -/
theorem growth_accounting (hsize : x.size ≤ State.MAX_SIZE)
    (hroom : Room held d x x.dataBlocks vs) (hle : x.size ≤ n) (hn : n ≤ 2 ^ 32 - 512) :
    ∃ needed, (x.blocksNumNeeded n).run held d = some (needed, d) ∧
      ((n + 511) / 512 ≤ 28 + 128 + 128 * 128 →
        (vs.length < needed → (x.increaseSize n vs).run held d = none) ∧
        (needed ≤ vs.length → ∃ x' d',
          (x.increaseSize n vs).run held d = some ((x', vs.drop needed), d') ∧
          x'.size = n ∧ owned d' x' = owned d x ++ (vs.take needed).map BitVec.toNat ∧
          ∀ i < x.dataBlocks, ∃ b, (x.getBlockId i).run held d = some (b, d) ∧
            (x'.getBlockId i).run held d' = some (b, d'))) ∧
      (¬ (n + 511) / 512 ≤ 28 + 128 + 128 * 128 →
        (x.increaseSize n vs).run held d = none ∧
        (needed ≤ vs.length → ∃ x' b left d',
          (x.increaseSize State.MAX_SIZE vs).run held d = some ((x', b :: left), d'))) := by
  have hceil := dataBlocksOf_eq_ceil hn
  have hk := dataBlocks_eq hsize
  have hMAX : State.MAX_SIZE = 16540 * 512 := rfl
  have hun : Unlocked held d x x.dataBlocks := fun σ hσ => hroom.load_unlocked hσ
  refine ⟨blocksNeeded x n, DiskInode.run_blocksNumNeeded hle, fun hmax => ?_, fun hover => ?_⟩
  · obtain ⟨m, hm⟩ : ∃ m, DiskInode.dataBlocksOf n = x.dataBlocks + m :=
      ⟨_, (Nat.add_sub_cancel' (by omega)).symm⟩
    have hkm : x.dataBlocks + m ≤ 16540 := by omega
    refine ⟨run_increaseSize_short (by omega) hm hkm, fun hlen => ?_⟩
    obtain ⟨x', d', hrun, hsize', hp, hun', hkept⟩ :=
      run_increaseSize_take (by omega) hm hkm hroom hlen
    have hblocks : x'.dataBlocks = x.dataBlocks + m := by rw [DiskInode.dataBlocks, hsize', hm]
    refine ⟨x', d', hrun, hsize', hp.blocks, fun i hi => ?_⟩
    have hid := DiskInode.run_getBlockId (by omega : x.dataBlocks ≤ 16540) hi hun
    have hid' := DiskInode.run_getBlockId (by omega : x'.dataBlocks ≤ 16540)
      (by omega : i < x'.dataBlocks) hun'
    refine ⟨_, hid, hid'.trans ?_⟩
    rw [hkept _ (dataSlot_mem hi)]
  · refine ⟨DiskInode.run_increaseSize_over (by omega) (by omega) (by omega), fun hlen => ?_⟩
    have hfull : DiskInode.dataBlocksOf State.MAX_SIZE = x.dataBlocks + (16540 - x.dataBlocks) := by
      rw [dataBlocksOf_eq (le_refl _)]
      omega
    have hmore : blocksNeeded x State.MAX_SIZE < blocksNeeded x n := by
      rw [blocksNeeded, blocksNeeded, totalBlocks_eq, totalBlocks_eq n, length_slotsUpTo,
        length_slotsUpTo, hceil, dataBlocksOf_eq (le_refl _)]
      have := totalBlocks_mono hsize (le_refl _)
      rw [totalBlocks_eq State.MAX_SIZE, length_slotsUpTo, dataBlocksOf_eq (le_refl _)] at this
      split_ifs at * <;> omega
    obtain ⟨x', d', hrun, -⟩ :=
      run_increaseSize_take (by decide : State.MAX_SIZE < 2 ^ 32) hfull (by omega) hroom (by omega)
    cases hdrop : vs.drop (blocksNeeded x State.MAX_SIZE) with
    | nil =>
      have := List.drop_eq_nil_iff.mp hdrop
      omega
    | cons b left =>
      rw [hdrop] at hrun
      exact ⟨x', b, left, d', hrun⟩

/-- The first byte of an empty file takes one block. -/
theorem growth_accounting_first_byte : ∃ x' d',
    ((0 : DiskInode).increaseSize 1 [7]).run [] (fun _ => 0) = some ((x', []), d') ∧
      x'.size = 1 ∧ owned d' x' = [7] := by
  have hzero : (0 : DiskInode).size = 0 := by decide +kernel
  have hroom : Room [] (fun _ => 0) (0 : DiskInode) (0 : DiskInode).dataBlocks [7] := by
    rw [DiskInode.dataBlocks, hzero]
    exact ⟨by decide, fun _ _ => List.not_mem_nil⟩
  obtain ⟨needed, hneed, hgrow, -⟩ :=
    growth_accounting (n := 1) (by rw [hzero]; decide) hroom (by omega) (by omega)
  rw [DiskInode.run_blocksNumNeeded (by omega), Option.some.injEq, Prod.mk.injEq] at hneed
  obtain rfl : 1 = needed := by
    rw [← hneed.1, blocksNeeded, hzero]
    rfl
  obtain ⟨x', d', hrun, hsize, hown, -⟩ := (hgrow (by decide)).2 (by decide)
  rw [owned_of_size_zero hzero] at hown
  exact ⟨x', d', hrun, hsize, hown⟩

/-- The walk of `increase_size` takes no more than it has been given. -/
theorem fill_append_vs {T : List Slot} (h : T.length ≤ u.length) (s : Disk × DiskInode) :
    fill held s T (u ++ w) = fill held s T u := by
  induction T generalizing s u with
  | nil => simp
  | cons σ T ih =>
    cases u with
    | nil => simp at h
    | cons v u =>
      rw [List.cons_append, fill, fill]
      simp only [ih (by simpa using h)]

theorem size_storeAll (T : List Slot) (vs : List U32) (s : Disk × DiskInode) :
    (storeAll s T vs).2.size = s.2.size := by
  induction T generalizing s vs with
  | nil => rw [storeAll_nil]
  | cons σ T ih =>
    cases vs with
    | nil => rfl
    | cons v vs => rw [storeAll, ih, size_store]

/-- What can be opened at the end could be opened before. -/
theorem Guarded.of_later {k m : ℕ} {s s' : Disk × DiskInode} {vs : List U32}
    (hg : Guarded held (k + m) s'.2) (hkm : k + m ≤ 16540)
    (h : fill held s (slotsFrom k m) vs = some s') : Guarded held k s.2 := by
  constructor
  · intro hlt
    have hind1 := load_fill_inode (τ := .ind1) hkm h rfl trivial hlt
    have hout := hg.1 (by omega)
    rw [show s'.2.indirect1 = s.2.indirect1 from hind1] at hout
    exact hout
  · intro hlt
    have hind2 := load_fill_inode (τ := .ind2) hkm h rfl trivial hlt
    have hout := hg.2 (by omega)
    rw [show s'.2.indirect2 = s.2.indirect2 from hind2] at hout
    exact hout

/-- Growing twice is growing once with all the blocks. -/
theorem run_increaseSize_steps (held : List ℕ) (d : Disk) (x : DiskInode) (hm : x.size ≤ m)
    (hmn : m ≤ n) (hn : n ≤ State.MAX_SIZE)
    (hu : u.length = DiskInode.totalBlocks m - DiskInode.totalBlocks x.size)
    (hw : w.length = DiskInode.totalBlocks n - DiskInode.totalBlocks m) :
    (x.increaseSize m u >>= fun r => r.1.increaseSize n w).run held d =
      (x.increaseSize n (u ++ w)).run held d := by
  have hMAX : State.MAX_SIZE = 16540 * 512 := rfl
  have hk := dataBlocks_eq (x := x) (by omega)
  have hkm := dataBlocksOf_eq (n := m) (by omega)
  have hkn := dataBlocksOf_eq (n := n) (by omega)
  obtain ⟨a, ha⟩ : ∃ a, DiskInode.dataBlocksOf m = x.dataBlocks + a :=
    ⟨_, (Nat.add_sub_cancel' (by omega)).symm⟩
  obtain ⟨b, hb⟩ : ∃ b, DiskInode.dataBlocksOf n = x.dataBlocks + a + b :=
    ⟨_, (Nat.add_sub_cancel' (by omega)).symm⟩
  have hlu : (slotsFrom x.dataBlocks a).length = u.length := by
    rw [length_slotsFrom_eq ha, blocksNeeded, hu]
  have hlw : (slotsFrom (x.dataBlocks + a) b).length = w.length := by
    rw [hw, totalBlocks_eq, totalBlocks_eq, hb, ha, length_slotsFrom]
  rw [Prog.run_bind, DiskInode.run_increaseSize_eq (by omega) ha (by omega),
    DiskInode.run_increaseSize_eq (m := a + b) (by omega) (by omega) (by omega),
    slotsFrom_add, fill_append, fill_append_vs hlu.le, ← DiskInode.setSize_setSize m n,
    DiskInode.fill_setSize n, hlu, List.drop_left, List.length_append, hlu, hlw,
    ← List.length_append]
  simp only [List.drop_length]
  cases hs : fill held (d, x.setSize m) (slotsFrom x.dataBlocks a) u with
  | none => rfl
  | some s =>
    have hsize : s.2.size = m := by
      rw [(fill_eq_some hs).2, size_storeAll, DiskInode.size_setSize (by omega)]
    have hblocks : s.2.dataBlocks = x.dataBlocks + a := by rw [DiskInode.dataBlocks, hsize, ha]
    have hsecond : (s.2.increaseSize n w).run held s.1 = _ :=
      DiskInode.run_increaseSize_eq (m := b) (by omega) (by rw [hblocks, hb]) (by omega) w
    rw [hblocks, hlw, List.drop_length] at hsecond
    simp only [Option.bind_some, Option.map_some]
    cases hs' : fill held (s.1, s.2.setSize n) (slotsFrom (x.dataBlocks + a) b) w with
    | none =>
      rw [hs'] at hsecond
      split_ifs
      · rw [Option.bind_some, hsecond]
        rfl
      · rfl
    | some s' =>
      rw [hs', Option.bind_some] at hsecond
      rw [Option.bind_some, ← Nat.add_assoc]
      by_cases hg : Guarded held (x.dataBlocks + a + b) s'.2
      · have hlater := Guarded.of_later hg (by omega) hs'
        have hg₁ := (DiskInode.guarded_setSize n _).mp hlater
        rw [if_pos hg] at hsecond ⊢
        rw [if_pos hg₁, Option.bind_some, hsecond]
      · rw [if_neg hg] at hsecond ⊢
        split_ifs
        · rw [Option.bind_some, hsecond]
        · rfl

end RCore.EasyFs
