import RCore.Sanity.EasyFs.Fill

/-! What growing does to a file whose blocks are all different, and not locked. -/

namespace RCore.EasyFs

open RCore.Lib Slot

variable {held : List ℕ} {d : Disk} {x : DiskInode}

/-- The blocks of a file of `k` blocks and the new ones `vs` are all different,
and none of them is locked. -/
structure Room (held : List ℕ) (d : Disk) (x : DiskInode) (k : ℕ) (vs : List U32) : Prop where
  nodup : (ownedUpTo d x k ++ vs).Nodup
  unlocked : ∀ v ∈ ownedUpTo d x k ++ vs, v.toNat ∉ held

theorem Room.stored {k m : ℕ} {vs : List U32} (h : Room held d x k vs) (hkm : k + m ≤ 16540)
    (hlen : (slotsFrom k m).length ≤ vs.length) :
    Stored d x (slotsUpTo k) (slotsFrom k m) (vs.take (slotsFrom k m).length)
      (storeAll (d, x) (slotsFrom k m) vs).1 (storeAll (d, x) (slotsFrom k m) vs).2 := by
  rw [← storeAll_take]
  apply storeAll_spec (closed_slotsUpTo (by omega)) (extends_slotsFrom hkm)
  · rw [List.length_take]; omega
  · exact h.nodup.sublist (List.Sublist.append_left (List.take_sublist _ _) _)

/-- After some of the new blocks have been put in place, the rest is still free. -/
theorem Room.store {k m : ℕ} {vs : List U32} (h : Room held d x k vs) (hkm : k + m ≤ 16540)
    (hlen : (slotsFrom k m).length ≤ vs.length) :
    Room held (storeAll (d, x) (slotsFrom k m) vs).1 (storeAll (d, x) (slotsFrom k m) vs).2
      (k + m) (vs.drop (slotsFrom k m).length) := by
  have hown : ownedUpTo (storeAll (d, x) (slotsFrom k m) vs).1
      (storeAll (d, x) (slotsFrom k m) vs).2 (k + m) =
      ownedUpTo d x k ++ vs.take (slotsFrom k m).length := by
    rw [ownedUpTo, slotsUpTo_add]
    exact (h.stored hkm hlen).loads
  constructor
  · rw [hown, List.append_assoc, List.take_append_drop]
    exact h.nodup
  · rw [hown, List.append_assoc, List.take_append_drop]
    exact h.unlocked

theorem Room.load_unlocked {k : ℕ} {vs : List U32} (h : Room held d x k vs) {σ : Slot}
    (hσ : σ ∈ slotsUpTo k) : (load d x σ).toNat ∉ held :=
  h.unlocked _ (List.mem_append_left _ (List.mem_map_of_mem hσ))

/-- A block that hangs on a new slot can be opened, when the old blocks and the new ones are
all different and none is locked. -/
theorem free_of_unlocked {S : List Slot} {σ : Slot} (hS : Closed S)
    (hnd : (S.map (load d x)).Nodup) (hun : ∀ τ ∈ S, (load d x τ).toNat ∉ held)
    (hb : ∀ β, σ.base = some β → β ∈ S) : σ.Free held (d, x) := by
  cases σ with
  | direct i => trivial
  | ind1 => trivial
  | ind2 => trivial
  | word1 j => exact hun .ind1 (hb _ rfl)
  | sub a => exact hun .ind2 (hb _ rfl)
  | leaf a b =>
    have hsub : Slot.sub a ∈ S := hb _ rfl
    have hind2 : Slot.ind2 ∈ S := hS.base _ hsub _ rfl
    refine ⟨hun .ind2 hind2, ?_⟩
    rw [List.mem_cons, not_or]
    refine ⟨fun he => ?_, hun _ hsub⟩
    have := List.inj_on_of_nodup_map hnd hsub hind2 (BitVec.eq_of_toNat_eq he)
    cases this

theorem fill_of_unlocked {S T : List Slot} {vs : List U32} (hS : Closed S) (hT : Extends S T)
    (hlen : T.length ≤ vs.length) (hnd : (S.map (load d x) ++ vs).Nodup)
    (hun : ∀ b ∈ S.map (load d x) ++ vs, b.toNat ∉ held) :
    fill held (d, x) T vs = some (storeAll (d, x) T vs) := by
  induction T generalizing d x S vs with
  | nil => rw [fill_nil, storeAll_nil]
  | cons σ T ih =>
    obtain ⟨v, vs, rfl⟩ := List.exists_cons_of_length_pos (Nat.lt_of_lt_of_le (by simp) hlen)
    obtain - | ⟨hok, hσ, hb, hT⟩ := hT
    have hndS : (S.map (load d x)).Nodup := hnd.of_append_left
    have hfree : σ.Free held (d, x) := free_of_unlocked hS hndS
      (fun τ hτ => hun _ (List.mem_append_left _ (List.mem_map_of_mem hτ))) hb
    have hload : (S ++ [σ]).map (load (store (d, x) σ v).1 (store (d, x) σ v).2) =
        S.map (load d x) ++ [v] := by
      rw [List.map_append, List.map_singleton, load_store_self hS hndS hok hσ hb,
        List.map_congr_left fun τ hτ => load_store hS hndS hok hσ hb v hτ]
    rw [fill, if_pos hfree, storeAll]
    generalize store (d, x) σ v = s at hload ⊢
    apply ih (d := s.1) (x := s.2) (hS.snoc hok hb) hT (by simpa using hlen)
    · rw [hload, List.append_assoc]
      exact hnd
    · rw [hload, List.append_assoc]
      exact hun

/-- With room for them, the new blocks go into the new slots. -/
theorem Room.fill_eq {k m : ℕ} {vs : List U32} (h : Room held d x k vs) (hkm : k + m ≤ 16540)
    (hlen : (slotsFrom k m).length ≤ vs.length) :
    fill held (d, x) (slotsFrom k m) vs = some (storeAll (d, x) (slotsFrom k m) vs) :=
  fill_of_unlocked (closed_slotsUpTo (by omega)) (extends_slotsFrom hkm) hlen h.nodup h.unlocked

theorem Room.guarded {k : ℕ} {vs : List U32} (h : Room held d x k vs) (hk : k ≤ 16540) :
    Guarded held k x :=
  ⟨fun hlt => h.load_unlocked ((mem_slotsUpTo hk .ind1).mpr ⟨trivial, hlt⟩),
    fun hlt => h.load_unlocked ((mem_slotsUpTo hk .ind2).mpr ⟨trivial, hlt⟩)⟩

namespace DiskInode

theorem size_setSize {n : ℕ} (hn : n < 2 ^ 32) : (x.setSize n).size = n := by
  rw [size, setSize, field_splice_self _ _ _ (by omega), BitVec.toNat_ofNat, Nat.mod_eq_of_lt hn]

theorem dataBlocks_setSize {n : ℕ} (hn : n < 2 ^ 32) :
    (x.setSize n).dataBlocks = dataBlocksOf n := by
  rw [dataBlocks, size_setSize hn]

theorem type_setSize (n : ℕ) : (x.setSize n).type_ = x.type_ :=
  field_splice_disjoint _ _ _ _ (by omega)

theorem load_setSize (n : ℕ) (σ : Slot) : load d (x.setSize n) σ = load d x σ := by
  have hind1 : (x.setSize n).indirect1 = x.indirect1 := field_splice_disjoint _ _ _ _ (by omega)
  have hind2 : (x.setSize n).indirect2 = x.indirect2 := field_splice_disjoint _ _ _ _ (by omega)
  cases σ with
  | direct i => exact field_splice_disjoint _ _ _ _ (by omega)
  | _ => simp only [load, hind1, hind2]

theorem ownedUpTo_setSize (n k : ℕ) : ownedUpTo d (x.setSize n) k = ownedUpTo d x k :=
  List.map_congr_left fun σ _ => load_setSize n σ

theorem room_setSize {k n : ℕ} {vs : List U32} (h : Room held d x k vs) :
    Room held d (x.setSize n) k vs := by
  constructor <;> rw [ownedUpTo_setSize]
  exacts [h.nodup, h.unlocked]

theorem setSize_setSize (m n : ℕ) : (x.setSize m).setSize n = x.setSize n :=
  splice_splice_self _ _ _ _

/-- Filling slots and setting the size do not get into each other's way. -/
theorem store_setSize (n : ℕ) (σ : Slot) (v : U32) :
    store (d, x.setSize n) σ v = ((store (d, x) σ v).1, (store (d, x) σ v).2.setSize n) := by
  have hind1 : (x.setSize n).indirect1 = x.indirect1 := load_setSize (d := d) n .ind1
  have hind2 : (x.setSize n).indirect2 = x.indirect2 := load_setSize (d := d) n .ind2
  cases σ with
  | direct i => exact congrArg (Prod.mk d) (splice_comm _ _ _ _ _ (by omega))
  | ind1 => exact congrArg (Prod.mk d) (splice_comm _ _ _ _ _ (by omega))
  | ind2 => exact congrArg (Prod.mk d) (splice_comm _ _ _ _ _ (by omega))
  | word1 j => simp only [store, hind1]
  | sub a => simp only [store, hind2]
  | leaf a b => simp only [store, hind2]

theorem free_setSize (n : ℕ) (σ : Slot) :
    σ.Free held (d, x.setSize n) ↔ σ.Free held (d, x) := by
  have hind1 : (x.setSize n).indirect1 = x.indirect1 := load_setSize (d := d) n .ind1
  have hind2 : (x.setSize n).indirect2 = x.indirect2 := load_setSize (d := d) n .ind2
  cases σ <;> simp only [Free, hind1, hind2]

theorem guarded_setSize (n k : ℕ) : Guarded held k (x.setSize n) ↔ Guarded held k x := by
  have hind1 : (x.setSize n).indirect1 = x.indirect1 := load_setSize (d := fun _ => 0) n .ind1
  have hind2 : (x.setSize n).indirect2 = x.indirect2 := load_setSize (d := fun _ => 0) n .ind2
  rw [Guarded, Guarded, hind1, hind2]

theorem fill_setSize (n : ℕ) (T : List Slot) (vs : List U32) :
    fill held (d, x.setSize n) T vs =
      (fill held (d, x) T vs).map fun s => (s.1, s.2.setSize n) := by
  induction T generalizing d x vs with
  | nil => simp
  | cons σ T ih =>
    cases vs with
    | nil => rfl
    | cons v vs =>
      rw [fill, fill, store_setSize]
      by_cases hfree : σ.Free held (d, x)
      · rw [if_pos ((free_setSize n σ).mpr hfree), if_pos hfree, ih]
      · rw [if_neg fun h => hfree ((free_setSize n σ).mp h), if_neg hfree]
        rfl

/-- `increase_size` fills the slots of the new data blocks, as far as the new blocks last
and what has to be opened can be. -/
theorem run_increaseSize_eq {m newSize : ℕ} (hn : newSize < 2 ^ 32)
    (htotal : dataBlocksOf newSize = x.dataBlocks + m) (hkm : x.dataBlocks + m ≤ 16540)
    (vs : List U32) :
    (x.increaseSize newSize vs).run held d =
      (fill held (d, x.setSize newSize) (slotsFrom x.dataBlocks m) vs).bind fun s =>
        if Guarded held (x.dataBlocks + m) s.2
        then some ((s.2, vs.drop (slotsFrom x.dataBlocks m).length), s.1) else none := by
  rw [increaseSize]
  simp only [dataBlocks_setSize hn, htotal]
  -- `f` direct entries are filled first
  obtain ⟨f, hf⟩ : ∃ f, f = min (x.dataBlocks + m) 28 - x.dataBlocks := ⟨_, rfl⟩
  generalize x.setSize newSize = y
  generalize x.dataBlocks = k at *
  have hsplit : slotsFrom k m = slotsFrom k f ++ slotsFrom (k + f) (m - f) := by
    rw [← slotsFrom_add, Nat.add_sub_cancel' (by omega)]
  have hlenf : (slotsFrom k f).length = f := by rw [slotsFrom_direct (by omega)]; simp
  rw [← hf, Prog.run_bind, run_fillDirect, ← slotsFrom_direct (by omega), hsplit, fill_append,
    List.length_append, hlenf]
  cases fill held (d, y) (slotsFrom k f) vs with
  | none => rfl
  | some s =>
    simp only [Option.map_some, Option.bind_some]
    by_cases h28 : k + m > 28
    · have hrun := run_growIndirect1 held (k := k + f) (m := m - f) (by omega) (by omega)
        (by omega) s.1 s.2 (vs.drop f)
      rw [show k + f + (m - f) = k + m by omega, List.drop_drop] at hrun
      rw [if_pos h28, hrun]
    · have hz : m - f = 0 := by omega
      have hg : Guarded held (k + m) s.2 :=
        ⟨fun h => absurd h (by omega), fun h => absurd h (by omega)⟩
      rw [if_neg h28, hz, slotsFrom_zero, fill_nil, Option.bind_some, if_pos hg]
      rfl

/-- `increase_size` puts the new blocks, in order, into the slots of the new data
blocks, and uses them all up. -/
theorem run_increaseSize {m newSize : ℕ} {vs : List U32} (hn : newSize < 2 ^ 32)
    (htotal : dataBlocksOf newSize = x.dataBlocks + m) (hkm : x.dataBlocks + m ≤ 16540)
    (hroom : Room held d x x.dataBlocks vs)
    (hlen : vs.length = (slotsFrom x.dataBlocks m).length) :
    (x.increaseSize newSize vs).run held d =
      some (((storeAll (d, x.setSize newSize) (slotsFrom x.dataBlocks m) vs).2, []),
        (storeAll (d, x.setSize newSize) (slotsFrom x.dataBlocks m) vs).1) := by
  replace hroom : Room held d (x.setSize newSize) x.dataBlocks vs := room_setSize hroom
  have hguard := (hroom.store hkm hlen.ge).guarded hkm
  rw [run_increaseSize_eq hn htotal hkm, hroom.fill_eq hkm hlen.ge, Option.bind_some,
    if_pos hguard, List.drop_of_length_le hlen.le]

/-- The loop over the double indirect tree cannot get past its last block: the index into
the double indirect block is out of bounds. -/
theorem run_fillIndirect2_over {total : ℕ} (htotal : 16384 < total) (fuel q : ℕ) (hq : q ≤ 16384)
    (b : Block) (vs : List U32) (d : Disk) :
    (fillIndirect2 (total / 128) (total % 128) fuel b (q / 128) (q % 128) vs).run held d = none := by
  induction fuel generalizing q b vs d with
  | zero =>
    rw [fillIndirect2, if_pos (by omega)]
    rfl
  | succ fuel ih =>
    cases h : (fillIndirect2 (total / 128) (total % 128) (fuel + 1) b (q / 128) (q % 128) vs).run
      held d with
    | none => rfl
    | some r =>
      exfalso
      rw [fillIndirect2, if_pos (by omega)] at h
      obtain ⟨⟨b', vs'⟩, d₁, halloc, h⟩ := Prog.run_bind_eq_some h
      by_cases hlast : q = 16384
      · subst hlast
        cases vs with
        | nil => cases halloc
        | cons u vs => cases halloc
      · obtain ⟨sub, d₂, -, h⟩ := Prog.run_bind_eq_some h
        obtain ⟨new, d₃, -, h⟩ := Prog.run_bind_eq_some h
        rw [fillIndirect2_next, ih (q + 1) (by omega)] at h
        cases h

/-- A file does not grow past what the block tree can hold, whatever blocks there are. -/
theorem run_increaseSize_over {newSize : ℕ} {vs : List U32} (hk : x.dataBlocks ≤ 16540)
    (hn : newSize < 2 ^ 32) (htotal : 16540 < dataBlocksOf newSize) :
    (x.increaseSize newSize vs).run held d = none := by
  cases h : (x.increaseSize newSize vs).run held d with
  | none => rfl
  | some r =>
    exfalso
    rw [increaseSize] at h
    simp only [dataBlocks_setSize hn, inode_direct_count_eq] at h
    generalize dataBlocksOf newSize = total at *
    generalize x.dataBlocks = k at *
    obtain ⟨⟨y, new⟩, e, -, h⟩ := Prog.run_bind_eq_some h
    rw [if_pos (by omega), growIndirect1] at h
    obtain ⟨⟨y, new⟩, e, -, h⟩ := Prog.run_bind_eq_some h
    obtain ⟨new, e, -, h⟩ := Prog.run_bind_eq_some h
    simp only [inode_direct_count_eq, inode_indirect1_count_eq] at h
    rw [if_pos (by omega), growIndirect2] at h
    obtain ⟨⟨y, new⟩, e, -, h⟩ := Prog.run_bind_eq_some h
    obtain ⟨new', e', h, -⟩ := Prog.run_bind_eq_some h
    obtain ⟨-, b, e'', h, -⟩ := run_modifyAt_eq_some h
    simp only [inode_indirect1_count_eq] at h
    rw [run_fillIndirect2_over (by omega) _ _ (by omega)] at h
    cases h

end DiskInode

end RCore.EasyFs
