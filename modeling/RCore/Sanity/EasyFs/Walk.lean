import RCore.Sanity.EasyFs.Grow

/-! `get_block_id` reads one slot, and `clear_size` lists all the slots that are
in use. -/

namespace RCore.EasyFs

open RCore.Lib Slot

variable {held : List ℕ} {d : Disk} {x : DiskInode} {n : ℕ}

/-- No block of a file of `n` blocks is locked. -/
def Unlocked (held : List ℕ) (d : Disk) (x : DiskInode) (n : ℕ) : Prop :=
  ∀ σ ∈ slotsUpTo n, (load d x σ).toNat ∉ held

theorem mem_of_base {σ β : Slot} (hn : n ≤ 16540) (hσ : σ ∈ slotsUpTo n)
    (h : σ.base = some β) : β ∈ slotsUpTo n :=
  (closed_slotsUpTo hn).base σ hσ β h

namespace DiskInode

theorem run_entry {b : Block} {i : ℕ} (hi : i < 128) :
    (entry b i).run held d = some (u32At b i, d) := by
  rw [entry, inode_indirect1_count_eq, if_pos hi]
  rfl

theorem run_getBlockId {k : ℕ} (hn : n ≤ 16540) (hk : k < n) (hun : Unlocked held d x n) :
    (x.getBlockId k).run held d = some (load d x (dataSlot k), d) := by
  have hmem := dataSlot_mem hk
  rw [getBlockId, indirect1_bound_eq]
  unfold dataSlot at hmem ⊢
  split_ifs at hmem ⊢ with h28 h156
  · rfl
  · have hind1 : x.indirect1.toNat ∉ held := hun _ (mem_of_base hn hmem rfl)
    rw [run_readBlock hind1]
    exact run_entry (show k - 28 < 128 by omega)
  · have hsub := mem_of_base hn hmem rfl
    have hind2 : x.indirect2.toNat ∉ held := hun _ (mem_of_base hn hsub rfl)
    have hread : (EasyFs.readAt x.indirect2.toNat 0 4096 fun b => entry b ((k - 156) / 128)).run
        held d = some (load d x (.sub ((k - 156) / 128)), d) := by
      rw [run_readBlock hind2]
      exact run_entry (by omega)
    rw [inode_indirect1_count_eq, Prog.run_bind_of hread, run_readBlock (hun _ hsub)]
    exact run_entry (by omega)

/-- The entries that `direct[0..n]` hold. -/
theorem clearDirect_eq (n k : ℕ) (x : DiskInode) (v : List U32) (h : k + n ≤ 28) :
    (clearDirect n x k v).2 = v ++ (List.range' k n).map x.direct ∧
      (clearDirect n x k v).1.indirect1 = x.indirect1 ∧
      (clearDirect n x k v).1.indirect2 = x.indirect2 ∧
      (clearDirect n x k v).1.size = x.size ∧ (clearDirect n x k v).1.type_ = x.type_ ∧
      (clearDirect n x k v).1.padding = x.padding ∧
      ∀ i < 28, (clearDirect n x k v).1.direct i = if k ≤ i ∧ i < k + n then 0 else x.direct i := by
  induction n generalizing k x v with
  | zero =>
    refine ⟨by simp [clearDirect], rfl, rfl, rfl, rfl, rfl, fun i _ => ?_⟩
    rw [if_neg (by omega)]
    rfl
  | succ n ih =>
    obtain ⟨hv, h1, h2, h3, h4, h5, h6⟩ :=
      ih (k + 1) (x.setDirect k 0) (v ++ [x.direct k]) (by omega)
    rw [clearDirect]
    refine ⟨?_, ?_, ?_, ?_, ?_, ?_, fun i hi => ?_⟩
    · have hlater : (List.range' (k + 1) n).map (x.setDirect k 0).direct =
          (List.range' (k + 1) n).map x.direct := by
        apply List.map_congr_left
        intro i hi
        have := (List.mem_range'_1.mp hi).1
        exact field_splice_disjoint _ _ _ _ (by omega)
      rw [hv, hlater, List.range'_succ]
      simp
    · rw [h1]; exact field_splice_disjoint _ _ _ _ (by omega)
    · rw [h2]; exact field_splice_disjoint _ _ _ _ (by omega)
    · rw [h3]; exact congrArg BitVec.toNat (field_splice_disjoint _ _ _ _ (by omega))
    · rw [h4]; exact field_splice_disjoint _ _ _ _ (by omega)
    · rw [h5]; exact field_splice_disjoint _ _ _ _ (by omega)
    · rw [h6 i hi]
      by_cases hik : i = k
      · rw [if_neg (by omega), if_pos (by omega), hik]
        exact field_splice_self _ _ _ (by omega)
      · have hne : (x.setDirect k 0).direct i = x.direct i :=
          field_splice_disjoint _ _ _ _ (by omega)
        rw [hne]
        by_cases hin : k ≤ i ∧ i < k + (n + 1)
        · rw [if_pos (by omega), if_pos hin]
        · rw [if_neg (by omega), if_neg hin]

end DiskInode

/-- The slot of a sub-indirect block, and its first `m` entries. -/
def subGroup (a m : ℕ) : List Slot := .sub a :: (List.range m).map (.leaf a)

theorem subGroup_snoc (a m : ℕ) : subGroup a m ++ [.leaf a m] = subGroup a (m + 1) := by
  simp [subGroup, List.range_succ]

/-- The slots below the double indirect block, sub-indirect block by sub-indirect
block. -/
theorem subSlots_grouped (q : ℕ) : (List.range' 0 q).flatMap subSlots =
    ((List.range (q / 128)).flatMap fun a => subGroup a 128) ++
      if q % 128 = 0 then [] else subGroup (q / 128) (q % 128) := by
  induction q with
  | zero => rfl
  | succ q ih =>
    rw [List.range'_concat, List.flatMap_append, ih, Nat.one_mul, Nat.zero_add,
      List.flatMap_singleton, subSlots]
    by_cases h0 : q % 128 = 0
    · rw [if_pos h0, if_pos h0, if_neg (by omega), show (q + 1) / 128 = q / 128 by omega,
        show (q + 1) % 128 = 1 by omega, h0]
      simp [subGroup]
    · rw [if_neg h0, if_neg h0, List.append_assoc, subGroup_snoc]
      by_cases h127 : q % 128 = 127
      · rw [if_pos (by omega), show (q + 1) / 128 = q / 128 + 1 by omega, List.range_succ,
          List.flatMap_append, h127, List.flatMap_singleton, List.append_nil]
      · rw [if_neg (by omega), show (q + 1) / 128 = q / 128 by omega,
          show (q + 1) % 128 = q % 128 + 1 by omega]

theorem ownedUpTo_direct (hn : n ≤ 28) : ownedUpTo d x n = (List.range' 0 n).map x.direct := by
  rw [ownedUpTo, slotsUpTo, slotsFrom_direct (by omega), List.map_map]
  rfl

theorem ownedUpTo_ind1 (h28 : 28 < n) (hn : n ≤ 156) : ownedUpTo d x n =
    (List.range' 0 28).map x.direct ++
      x.indirect1 :: DiskInode.entries (d x.indirect1.toNat) (n - 28) := by
  obtain ⟨m, rfl⟩ : ∃ m, n = 28 + m := ⟨n - 28, by omega⟩
  rw [ownedUpTo, slotsUpTo_add, List.map_append, slotsFrom_word1 (by omega) (by omega) (by omega),
    if_pos rfl, List.map_append, List.map_map, Nat.add_sub_cancel_left, DiskInode.entries,
    List.range_eq_range']
  exact congrArg (· ++ _) (ownedUpTo_direct (d := d) (le_refl 28))

/-- The blocks below the double indirect block `b` that has `q` blocks below it. -/
def subBlocks (d : Disk) (b : Block) (q : ℕ) : List U32 :=
  ((List.range (q / 128)).flatMap fun a =>
      u32At b a :: DiskInode.entries (d (u32At b a).toNat) 128) ++
    if q % 128 = 0 then []
    else u32At b (q / 128) :: DiskInode.entries (d (u32At b (q / 128)).toNat) (q % 128)

theorem ownedUpTo_ind2 (h156 : 156 < n) : ownedUpTo d x n =
    ownedUpTo d x 156 ++ x.indirect2 :: subBlocks d (d x.indirect2.toNat) (n - 156) := by
  obtain ⟨m, rfl⟩ : ∃ m, n = 156 + m := ⟨n - 156, by omega⟩
  rw [ownedUpTo, slotsUpTo_add, List.map_append, slotsFrom_sub (by omega) (by omega), if_pos rfl,
    Nat.add_sub_cancel_left, Nat.sub_self, subSlots_grouped, subBlocks, List.map_append,
    List.map_append, List.map_flatMap, apply_ite (List.map _)]
  simp only [subGroup, List.map_cons, List.map_map, List.map_nil]
  rfl

namespace DiskInode

theorem run_clearSub {sub : U32} {m : ℕ} (h : sub.toNat ∉ held) :
    (clearSub sub m).run held d = some (sub :: entries (d sub.toNat) m, d) := by
  rw [clearSub, run_modifyBlock (v := d sub.toNat) (a := sub :: entries (d sub.toNat) m) (e := d)
    h rfl, Function.update_eq_self]

theorem run_clearSubs (b : Block) (as : List ℕ) (v : List U32)
    (h : ∀ a ∈ as, (u32At b a).toNat ∉ held) :
    (clearSubs b as v).run held d = some
      (v ++ as.flatMap fun a => u32At b a :: entries (d (u32At b a).toNat) 128, d) := by
  induction as generalizing v with
  | nil => simp [clearSubs]
  | cons a as ih =>
    rw [clearSubs, Prog.run_bind_of (run_clearSub (h a (by simp))),
      ih _ (fun a' ha' => h a' (by simp [ha'])), List.flatMap_cons, List.append_assoc,
      inode_indirect1_count_eq]

theorem run_clearIndirect2 {q : ℕ} {b : Block} (v : List U32) (hq : q ≤ 16384)
    (h : ∀ a, 128 * a < q → (u32At b a).toNat ∉ held) :
    (clearIndirect2 b q v).run held d = some ((b, v ++ subBlocks d b q), d) := by
  have hfull : ∀ a ∈ List.range (q / 128), (u32At b a).toNat ∉ held := by
    intro a ha
    rw [List.mem_range] at ha
    exact h a (by omega)
  rw [clearIndirect2, inode_indirect1_count_eq, Prog.run_bind_of (run_clearSubs b _ v hfull),
    subBlocks]
  by_cases h0 : q % 128 = 0
  · rw [if_neg (by omega), if_pos h0, List.append_nil]
    rfl
  · rw [if_pos (by omega), if_neg h0, Prog.run_bind_of (run_entry (by omega)),
      Prog.run_bind_of (run_clearSub (h _ (by omega))), ← List.append_assoc]
    rfl

/-- An inode whose size and whose first `n` entries have been cleared, with `ind1` and `ind2`
for the rest. -/
structure Cleared (n : ℕ) (x : DiskInode) (ind1 ind2 : U32) (x' : DiskInode) : Prop where
  size : x'.size = 0
  type_ : x'.type_ = x.type_
  padding : x'.padding = x.padding
  direct : ∀ i < 28, x'.direct i = if i < n then 0 else x.direct i
  indirect1 : x'.indirect1 = ind1
  indirect2 : x'.indirect2 = ind2

theorem Cleared.setIndirect1 {ind1 ind2 : U32} {y : DiskInode} (h : Cleared n x ind1 ind2 y)
    (c : U32) : Cleared n x c ind2 (y.setIndirect1 c) where
  size := by
    rw [← h.size]
    exact congrArg BitVec.toNat (field_splice_disjoint _ _ _ _ (by omega))
  type_ := by rw [← h.type_]; exact field_splice_disjoint _ _ _ _ (by omega)
  padding := by rw [← h.padding]; exact field_splice_disjoint _ _ _ _ (by omega)
  direct i hi := by rw [← h.direct i hi]; exact field_splice_disjoint _ _ _ _ (by omega)
  indirect1 := field_splice_self _ _ _ (by omega)
  indirect2 := by rw [← h.indirect2]; exact field_splice_disjoint _ _ _ _ (by omega)

theorem Cleared.setIndirect2 {ind1 ind2 : U32} {y : DiskInode} (h : Cleared n x ind1 ind2 y)
    (c : U32) : Cleared n x ind1 c (y.setIndirect2 c) where
  size := by
    rw [← h.size]
    exact congrArg BitVec.toNat (field_splice_disjoint _ _ _ _ (by omega))
  type_ := by rw [← h.type_]; exact field_splice_disjoint _ _ _ _ (by omega)
  padding := by rw [← h.padding]; exact field_splice_disjoint _ _ _ _ (by omega)
  direct i hi := by rw [← h.direct i hi]; exact field_splice_disjoint _ _ _ _ (by omega)
  indirect1 := by rw [← h.indirect1]; exact field_splice_disjoint _ _ _ _ (by omega)
  indirect2 := field_splice_self _ _ _ (by omega)

/-- The size and the direct entries are cleared first. -/
theorem clearDirect_cleared (n : ℕ) (x : DiskInode) :
    (clearDirect (min n 28) (x.setSize 0) 0 []).2 = (List.range' 0 (min n 28)).map x.direct ∧
      Cleared n x x.indirect1 x.indirect2 (clearDirect (min n 28) (x.setSize 0) 0 []).1 := by
  have hdirect : (x.setSize 0).direct = x.direct := by
    funext i
    exact field_splice_disjoint _ _ _ _ (by omega)
  obtain ⟨hv, h1, h2, h3, h4, h5, h6⟩ := clearDirect_eq (min n 28) 0 (x.setSize 0) [] (by omega)
  rw [hdirect, List.nil_append] at hv
  refine ⟨hv, ?_, ?_, ?_, fun i hi => ?_, ?_, ?_⟩
  · rw [h3, size_setSize (by omega)]
  · rw [h4, type_setSize]
  · rw [h5, padding_setSize]
  · rw [h6 i hi, hdirect]
    by_cases hin : i < n
    · rw [if_pos (by omega), if_pos hin]
    · rw [if_neg (by omega), if_neg hin]
  · rw [h1]
    exact field_splice_disjoint _ _ _ _ (by omega)
  · rw [h2]
    exact field_splice_disjoint _ _ _ _ (by omega)

/-- `clear_size` returns the blocks of the file in the order in which they were
put in, and changes nothing on disk. -/
theorem run_clearSize (hn : x.dataBlocks ≤ 16540)
    (hnd : (ownedUpTo d x x.dataBlocks).Nodup) (hun : Unlocked held d x x.dataBlocks) :
    ∃ x', x.clearSize.run held d = some ((x', ownedUpTo d x x.dataBlocks), d) ∧
      Cleared x.dataBlocks x (if 28 < x.dataBlocks then 0 else x.indirect1)
        (if 156 < x.dataBlocks then 0 else x.indirect2) x' := by
  have hmem : ∀ σ : Slot, σ.Ok → σ.index < x.dataBlocks → σ ∈ slotsUpTo x.dataBlocks := by
    intro σ hok hlt
    exact (mem_slotsUpTo hn σ).mpr ⟨hok, hlt⟩
  rw [clearSize]
  generalize x.dataBlocks = n at *
  obtain ⟨hv, hy⟩ := clearDirect_cleared n x
  simp only [inode_indirect1_count_eq]
  generalize clearDirect (min n 28) (x.setSize 0) 0 [] = r at *
  obtain ⟨y, v⟩ := r
  simp only at hv hy ⊢
  by_cases h28 : n > 28
  · have hc1 : x.indirect1.toNat ∉ held := hun .ind1 (hmem _ trivial h28)
    have hopen := run_modifyBlock (d := d) (f := fun indirect1 =>
      pure (indirect1, v ++ [x.indirect1] ++ entries indirect1 (min (n - 28) 128))) hc1 rfl
    rw [Function.update_eq_self] at hopen
    rw [Nat.min_eq_right (by omega)] at hv
    rw [if_pos h28, hy.indirect1, Prog.run_bind_of hopen, hv]
    have hz := hy.setIndirect1 0
    generalize y.setIndirect1 0 = z at *
    by_cases h156 : n - 28 > 128
    · have hown := ownedUpTo_ind2 (d := d) (x := x) (n := n) (by omega)
      rw [ownedUpTo_ind1 (n := 156) (by omega) (by omega)] at hown
      have hind2 : Slot.ind2 ∈ slotsUpTo n := hmem _ trivial (show 156 < n by omega)
      have hc2 : x.indirect2.toNat ∉ held := hun _ hind2
      have hsubs : ∀ a, 128 * a < n - 156 →
          (u32At (d x.indirect2.toNat) a).toNat ∉ x.indirect2.toNat :: held := by
        intro a ha
        have hsub : Slot.sub a ∈ slotsUpTo n := by
          apply hmem
          · simp only [Ok]; omega
          · simp only [index]; omega
        rw [List.mem_cons, not_or]
        refine ⟨fun he => ?_, hun _ hsub⟩
        have := List.inj_on_of_nodup_map hnd hsub hind2 (BitVec.eq_of_toNat_eq he)
        cases this
      have hopen2 := run_modifyBlock (f := fun b => clearIndirect2 b (n - 156)
        ((List.range' 0 28).map x.direct ++ [x.indirect1] ++
          entries (d x.indirect1.toNat) (min (n - 28) 128) ++ [x.indirect2])) hc2
        (run_clearIndirect2 _ (by omega) hsubs)
      rw [Function.update_eq_self] at hopen2
      have hq : n - 28 - 128 = n - 156 := by omega
      simp only [if_pos h156, hz.indirect2, hq]
      have hmax : n - 156 ≤ INODE_INDIRECT2_COUNT := show n - 156 ≤ 16384 by omega
      rw [Prog.run_bind_of (Prog.run_assert hmax _ _),
        Prog.run_bind_of hopen2]
      refine ⟨z.setIndirect2 0, ?_, ?_⟩
      · rw [hown, Nat.min_eq_right (by omega)]
        simp
      · rw [if_pos h28, if_pos (by omega)]
        exact hz.setIndirect2 0
    · rw [if_neg h156, Nat.min_eq_left (by omega)]
      refine ⟨z, ?_, ?_⟩
      · rw [ownedUpTo_ind1 h28 (by omega)]
        simp
      · rw [if_pos h28, if_neg (by omega)]
        exact hz
  · rw [if_neg h28, hv, Nat.min_eq_left (by omega), ← ownedUpTo_direct (d := d) (by omega),
      if_neg h28, if_neg (by omega)]
    exact ⟨y, rfl, hy⟩

end DiskInode

end RCore.EasyFs
