import RCore.Sanity.EasyFs.Slots

/-! `increase_size` fills the slots of the new blocks in order. The code walks the
tree with three loops, the last of which works on a copy of the double indirect
block that it holds locked; each loop is shown to fill a run of slots. Nothing is
assumed of the blocks: where a slot lies in a block whose lock is held, both the
code and `fill` stop. -/

namespace RCore.EasyFs

open RCore.Lib Slot

theorem storeAll_nil (s : Disk × DiskInode) (vs : List U32) : storeAll s [] vs = s := by
  cases vs <;> rfl

theorem storeAll_append {T T' : List Slot} {vs : List U32} (s : Disk × DiskInode)
    (h : T.length ≤ vs.length) :
    storeAll s (T ++ T') vs = storeAll (storeAll s T vs) T' (vs.drop T.length) := by
  induction T generalizing s vs with
  | nil => simp [storeAll_nil]
  | cons σ T ih =>
    cases vs with
    | nil => simp at h
    | cons v vs => exact ih _ (by simpa using h)

theorem storeAll_take (s : Disk × DiskInode) (T : List Slot) (vs : List U32) :
    storeAll s T (vs.take T.length) = storeAll s T vs := by
  induction T generalizing s vs with
  | nil => simp [storeAll_nil]
  | cons σ T ih =>
    cases vs with
    | nil => rfl
    | cons v vs => exact ih _ _

theorem slotsFrom_direct {k m : ℕ} (h : m = 0 ∨ k + m ≤ 28) :
    slotsFrom k m = (List.range' k m).map .direct := by
  induction m generalizing k with
  | zero => rfl
  | succ m ih =>
    rw [slotsFrom_succ, ih (by omega), slots, if_pos (by omega)]
    rfl

/-- The slots of a run of blocks below the indirect block, past its first entry. -/
theorem slotsFrom_word1_tail {k m : ℕ} (h28 : 28 < k) (h : m = 0 ∨ k + m ≤ 156) :
    slotsFrom k m = (List.range' (k - 28) m).map .word1 := by
  induction m generalizing k with
  | zero => rfl
  | succ m ih =>
    rw [slotsFrom_succ, ih (by omega) (by omega), slots, if_neg (by omega), if_neg (by omega),
      if_pos (by omega), List.range'_succ, show k + 1 - 28 = k - 28 + 1 by omega]
    rfl

theorem slotsFrom_word1 {k m : ℕ} (h28 : 28 ≤ k) (h : m = 0 ∨ k + m ≤ 156)
    (hm : 0 < m ∨ 28 < k) : slotsFrom k m =
      (if k = 28 then [.ind1] else []) ++ (List.range' (k - 28) m).map .word1 := by
  split_ifs with hk
  · obtain ⟨m, rfl⟩ : ∃ m', m = m' + 1 := ⟨m - 1, by omega⟩
    subst hk
    rw [slotsFrom_succ, slotsFrom_word1_tail (by omega) (by omega)]
    rfl
  · rw [slotsFrom_word1_tail (by omega) h]
    rfl

theorem slotsFrom_sub_tail {k m : ℕ} (h : 156 < k) :
    slotsFrom k m = (List.range' (k - 156) m).flatMap subSlots := by
  induction m generalizing k with
  | zero => rfl
  | succ m ih =>
    rw [slotsFrom_succ, ih (by omega), slots, if_neg (by omega), if_neg (by omega),
      if_neg (by omega), if_neg (by omega), List.range'_succ,
      show k + 1 - 156 = k - 156 + 1 by omega]
    rfl

theorem slotsFrom_sub {k m : ℕ} (h : 156 ≤ k) (hm : 0 < m ∨ 156 < k) : slotsFrom k m =
    (if k = 156 then [.ind2] else []) ++ (List.range' (k - 156) m).flatMap subSlots := by
  split_ifs with hk
  · obtain ⟨m, rfl⟩ : ∃ m', m = m' + 1 := ⟨m - 1, by omega⟩
    subst hk
    rw [slotsFrom_succ, slotsFrom_sub_tail (by omega)]
    rfl
  · rw [slotsFrom_sub_tail (by omega)]
    rfl

namespace Slot

/-- The blocks that have to be opened to fill the slot can be. -/
def Free (held : List ℕ) (s : Disk × DiskInode) : Slot → Prop
  | .word1 _ => s.2.indirect1.toNat ∉ held
  | .sub _ => s.2.indirect2.toNat ∉ held
  | .leaf a _ => s.2.indirect2.toNat ∉ held ∧
    (u32At (s.1 s.2.indirect2.toNat) a).toNat ∉ s.2.indirect2.toNat :: held
  | _ => True

instance (held : List ℕ) (s : Disk × DiskInode) : (σ : Slot) → Decidable (σ.Free held s)
  | .direct _ => isTrue trivial
  | .ind1 => isTrue trivial
  | .ind2 => isTrue trivial
  | .word1 _ => inferInstanceAs (Decidable (_ ∉ _))
  | .sub _ => inferInstanceAs (Decidable (_ ∉ _))
  | .leaf _ _ => inferInstanceAs (Decidable (_ ∧ _))

/-- The slots are filled one after the other, each with the next of the new blocks. -/
def fill (held : List ℕ) : Disk × DiskInode → List Slot → List U32 → Option (Disk × DiskInode)
  | s, [], _ => some s
  | _, _ :: _, [] => none
  | s, σ :: T, v :: vs => if σ.Free held s then fill held (store s σ v) T vs else none

variable {held : List ℕ} {d : Disk} {x : DiskInode} {s s' : Disk × DiskInode} {T : List Slot}
  {vs : List U32}

@[simp] theorem fill_nil (s : Disk × DiskInode) (vs : List U32) : fill held s [] vs = some s := by
  cases vs <;> rfl

theorem fill_append (s : Disk × DiskInode) (T T' : List Slot) (vs : List U32) :
    fill held s (T ++ T') vs =
      (fill held s T vs).bind fun s => fill held s T' (vs.drop T.length) := by
  induction T generalizing s vs with
  | nil => simp
  | cons σ T ih =>
    cases vs with
    | nil => rfl
    | cons v vs =>
      rw [List.cons_append, fill, fill]
      split_ifs
      · rw [ih]
        rfl
      · rfl

/-- Where everything can be opened, the slots hold the new blocks. -/
theorem fill_eq_some (h : fill held s T vs = some s') :
    T.length ≤ vs.length ∧ s' = storeAll s T vs := by
  induction T generalizing s vs with
  | nil =>
    rw [fill_nil, Option.some.injEq] at h
    rw [storeAll_nil]
    exact ⟨Nat.zero_le _, h.symm⟩
  | cons σ T ih =>
    cases vs with
    | nil => cases h
    | cons v vs =>
      rw [fill] at h
      split_ifs at h
      obtain ⟨hlen, hs⟩ := ih h
      exact ⟨Nat.succ_le_succ hlen, hs⟩

/-- The slots that lie outside of the inode leave it as it is. -/
theorem fill_snd (hT : ∀ σ ∈ T, ∃ β, σ.base = some β) (h : fill held s T vs = some s') :
    s'.2 = s.2 := by
  induction T generalizing s vs with
  | nil =>
    rw [fill_nil, Option.some.injEq] at h
    rw [h]
  | cons σ T ih =>
    cases vs with
    | nil => cases h
    | cons v vs =>
      rw [fill] at h
      split_ifs at h
      obtain ⟨β, hβ⟩ := hT σ (by simp)
      rw [ih (fun τ hτ => hT τ (by simp [hτ])) h]
      have hstore := congrArg Prod.snd (store_of_base (d := s.1) (x := s.2) (v := v) hβ)
      exact hstore

/-- A slot of the inode holds what it held, unless it is among those that are filled. -/
theorem load_storeAll_inode {τ : Slot} (hT : ∀ σ ∈ T, σ.Ok) (hτ : τ.base = none) (hok : τ.Ok)
    (hne : τ ∉ T) (vs : List U32) (d : Disk) (x : DiskInode) :
    load (storeAll (d, x) T vs).1 (storeAll (d, x) T vs).2 τ = load d x τ := by
  induction T generalizing d x vs with
  | nil => rw [storeAll_nil]
  | cons σ T ih =>
    cases vs with
    | nil => rfl
    | cons v vs =>
      rw [List.mem_cons, not_or] at hne
      rw [storeAll, show store (d, x) σ v = ((store (d, x) σ v).1, (store (d, x) σ v).2) from rfl,
        ih (fun τ hτ => hT τ (by simp [hτ])) hne.2]
      cases hσ : σ.base with
      | none => exact load_store_inode hσ hτ hne.1 (hT σ (by simp)) hok
      | some β =>
        rw [store_of_base hσ]
        cases τ <;> simp only [base, reduceCtorEq] at hτ <;> rfl

end Slot

variable {held : List ℕ} {d : Disk} {x : DiskInode}

/-- A block opened for writing, or waited for in vain. -/
theorem run_modifyBlock_eq {α : Type} {id : ℕ} {f : Block → Fs (Block × α)} :
    (modifyAt id 0 4096 f).run held d = if id ∈ held then none
      else ((f (d id)).run (id :: held) d).map fun r => (r.1.2, Function.update r.2 id r.1.1) := by
  split_ifs with hid
  · simp [modifyAt, Prog.run, hid]
  · cases hf : (f (d id)).run (id :: held) d with
    | none => simp [modifyAt, Prog.run, hid, hf, Prog.run_bind]
    | some r => exact run_modifyBlock hid hf

theorem range'_base_word1 (k n : ℕ) :
    ∀ σ ∈ (List.range' k n).map Slot.word1, ∃ β, σ.base = some β := by
  intro σ hσ
  obtain ⟨j, -, rfl⟩ := List.mem_map.mp hσ
  exact ⟨_, rfl⟩

theorem subSlots_base (q n : ℕ) :
    ∀ σ ∈ (List.range' q n).flatMap subSlots, ∃ β, σ.base = some β := by
  intro σ hσ
  obtain ⟨j, -, hσ⟩ := List.mem_flatMap.mp hσ
  rcases (mem_subSlots σ).mp hσ with ⟨-, rfl⟩ | rfl
  · exact ⟨_, rfl⟩
  · exact ⟨_, rfl⟩

namespace DiskInode

theorem run_fillDirect (n k : ℕ) (x : DiskInode) (vs : List U32) :
    (fillDirect n x k vs).run held d = (fill held (d, x) ((List.range' k n).map .direct) vs).map
      fun s => ((s.2, vs.drop n), s.1) := by
  induction n generalizing x k vs with
  | zero => simp [fillDirect]
  | succ n ih =>
    cases vs with
    | nil => rfl
    | cons v vs => exact ih (k + 1) (x.setDirect k v) vs

/-- The loop over the indirect block works on a copy `b` of the block `c`. -/
theorem run_fillIndirect1 (n k : ℕ) (b : Block) (vs : List U32) (hc : x.indirect1.toNat ∉ held) :
    (fillIndirect1 n b k vs).run (x.indirect1.toNat :: held) d =
      (fill held (Function.update d x.indirect1.toNat b, x) ((List.range' k n).map .word1) vs).map
        fun s => ((s.1 x.indirect1.toNat, vs.drop n),
          Function.update s.1 x.indirect1.toNat (d x.indirect1.toNat)) := by
  induction n generalizing b k vs with
  | zero => simp [fillIndirect1]
  | succ n ih =>
    cases vs with
    | nil => rfl
    | cons v vs =>
      have hfree : (Slot.word1 k).Free held (Function.update d x.indirect1.toNat b, x) := hc
      rw [List.range'_succ, List.map_cons, fill, if_pos hfree]
      simp only [store, Function.update_self, Function.update_idem]
      exact ih (k + 1) (setU32 b k v) vs

/-- What the disk holds once the copy of block `c` has been put aside again. -/
theorem update_restore {sub c : ℕ} (hne : sub ≠ c) (d : Disk) (b w : Block) :
    Function.update (Function.update (Function.update d c b) sub w) c (d c) =
      Function.update d sub w := by
  rw [Function.update_comm hne, Function.update_idem, Function.update_eq_self]

/-- Storing one entry of the sub-indirect block `sub`. -/
theorem run_fillLeaf {sub j : ℕ} (v : U32) (vs : List U32) :
    (modifyAt sub 0 4096 fun indirect1 => do
        let (v, new) ← next (v :: vs)
        pure (setU32 indirect1 j v, new)).run held d =
      if sub ∈ held then none else some (vs, Function.update d sub (setU32 (d sub) j v)) :=
  run_modifyBlock_eq

theorem run_fillLeaf_nil {sub j : ℕ} :
    (modifyAt sub 0 4096 fun indirect1 => do
        let (v, new) ← next []
        pure (setU32 indirect1 j v, new)).run held d = (none : Option (List U32 × Disk)) := by
  rw [run_modifyBlock_eq]
  split_ifs <;> rfl

theorem fillIndirect2_next (a1 b1 m q : ℕ) (b : Block) (vs : List U32) :
    (if q % 128 + 1 = INODE_INDIRECT1_COUNT then fillIndirect2 a1 b1 m b (q / 128 + 1) 0 vs
      else fillIndirect2 a1 b1 m b (q / 128) (q % 128 + 1) vs) =
    fillIndirect2 a1 b1 m b ((q + 1) / 128) ((q + 1) % 128) vs := by
  rw [inode_indirect1_count_eq]
  by_cases hw : q % 128 + 1 = 128
  · rw [if_pos hw, show (q + 1) / 128 = q / 128 + 1 by omega, show (q + 1) % 128 = 0 by omega]
  · rw [if_neg hw, show (q + 1) / 128 = q / 128 by omega,
      show (q + 1) % 128 = q % 128 + 1 by omega]

/-- The entry `v` goes to the sub-indirect block that the copy `b` names, and the loop goes on. -/
theorem run_fillIndirect2_leaf {q : ℕ} (a1 b1 m : ℕ) (b : Block) (d : Disk) (v : U32)
    (vs : List U32) (hq : q < 16384) (hc : x.indirect2.toNat ∉ held) :
    (entry b (q / 128) >>= fun sub => (modifyAt sub.toNat 0 4096 fun indirect1 => do
        let (v, new) ← next (v :: vs)
        pure (setU32 indirect1 (q % 128) v, new)) >>= fun new =>
      if q % 128 + 1 = INODE_INDIRECT1_COUNT then fillIndirect2 a1 b1 m b (q / 128 + 1) 0 new
      else fillIndirect2 a1 b1 m b (q / 128) (q % 128 + 1) new).run
        (x.indirect2.toNat :: held) d =
    (fill held (Function.update d x.indirect2.toNat b, x) [.leaf (q / 128) (q % 128)]
      (v :: vs)).bind fun s =>
        (fillIndirect2 a1 b1 m (s.1 x.indirect2.toNat) ((q + 1) / 128) ((q + 1) % 128) vs).run
          (x.indirect2.toNat :: held)
          (Function.update s.1 x.indirect2.toNat (d x.indirect2.toNat)) := by
  have ha : q / 128 < INODE_INDIRECT1_COUNT := by rw [inode_indirect1_count_eq]; omega
  rw [Prog.run_bind_of (a := u32At b (q / 128)) (e := d) (by rw [entry, if_pos ha]; rfl),
    Prog.run_bind, run_fillLeaf]
  by_cases hsub : (u32At b (q / 128)).toNat ∈ x.indirect2.toNat :: held
  · have hlocked : ¬ (Slot.leaf (q / 128) (q % 128)).Free held
        (Function.update d x.indirect2.toNat b, x) := by
      rintro ⟨-, h⟩
      simp only [Function.update_self] at h
      exact h hsub
    rw [if_pos hsub, fill, if_neg hlocked]
    rfl
  · have hfree : (Slot.leaf (q / 128) (q % 128)).Free held
        (Function.update d x.indirect2.toNat b, x) :=
      ⟨hc, by simpa only [Function.update_self] using hsub⟩
    have hne : (u32At b (q / 128)).toNat ≠ x.indirect2.toNat := by
      intro he
      rw [he] at hsub
      exact hsub List.mem_cons_self
    rw [if_neg hsub, fill, if_pos hfree, fill_nil]
    simp only [Option.bind_some, store, Function.update_self]
    rw [fillIndirect2_next, update_restore hne, Function.update_of_ne hne,
      Function.update_of_ne hne.symm, Function.update_self]

/-- One iteration of the loop over the double indirect tree, at its block `q`. It
works on a copy `b` of the double indirect block; what is stored in the
sub-indirect blocks goes to the disk at once. -/
theorem run_fillIndirect2_step {q : ℕ} (a1 b1 m : ℕ) (b : Block) (d : Disk) (vs : List U32)
    (hlt : q / 128 < a1 ∨ (q / 128 = a1 ∧ q % 128 < b1)) (hq : q < 16384)
    (hc : x.indirect2.toNat ∉ held) :
    (fillIndirect2 a1 b1 (m + 1) b (q / 128) (q % 128) vs).run (x.indirect2.toNat :: held) d =
      (fill held (Function.update d x.indirect2.toNat b, x) (subSlots q) vs).bind fun s =>
        (fillIndirect2 a1 b1 m (s.1 x.indirect2.toNat) ((q + 1) / 128) ((q + 1) % 128)
          (vs.drop (subSlots q).length)).run (x.indirect2.toNat :: held)
            (Function.update s.1 x.indirect2.toNat (d x.indirect2.toNat)) := by
  have ha : q / 128 < INODE_INDIRECT1_COUNT := by rw [inode_indirect1_count_eq]; omega
  rw [fillIndirect2, if_pos hlt]
  by_cases h0 : q % 128 = 0
  · rw [subSlots, if_pos h0]
    match vs with
    | [] =>
      rw [Prog.run_bind, allocSub, if_pos h0]
      rfl
    | [u] =>
      rw [Prog.run_bind_of (a := (setU32 b (q / 128) u, [])) (e := d)
        (by rw [allocSub, if_pos h0]; simp only [next, ha, if_true]; rfl)]
      have hfree : (Slot.sub (q / 128)).Free held (Function.update d x.indirect2.toNat b, x) := hc
      rw [fill, if_pos hfree, Prog.run_bind_of (a := u32At (setU32 b (q / 128) u) (q / 128)) (e := d)
        (by rw [entry, if_pos ha]; rfl), Prog.run_bind, run_fillLeaf_nil]
      rfl
    | u :: v :: vs =>
      rw [Prog.run_bind_of (a := (setU32 b (q / 128) u, v :: vs)) (e := d)
        (by rw [allocSub, if_pos h0]; simp only [next, ha, if_true]; rfl)]
      have hfree : (Slot.sub (q / 128)).Free held (Function.update d x.indirect2.toNat b, x) := hc
      rw [fill, if_pos hfree]
      simp only [store, Function.update_self, Function.update_idem]
      exact run_fillIndirect2_leaf _ _ _ _ _ v vs hq hc
  · rw [subSlots, if_neg h0]
    rw [Prog.run_bind_of (a := (b, vs)) (e := d) (by rw [allocSub, if_neg h0]; rfl)]
    match vs with
    | [] =>
      rw [Prog.run_bind_of (a := u32At b (q / 128)) (e := d) (by rw [entry, if_pos ha]; rfl),
        Prog.run_bind, run_fillLeaf_nil]
      rfl
    | v :: vs => exact run_fillIndirect2_leaf _ _ _ b _ v vs hq hc

theorem run_fillIndirect2 (m q : ℕ) (b : Block) (d : Disk) (vs : List U32)
    (hq : q + m ≤ 16384) (hc : x.indirect2.toNat ∉ held) :
    (fillIndirect2 ((q + m) / 128) ((q + m) % 128) m b (q / 128) (q % 128) vs).run
        (x.indirect2.toNat :: held) d =
      (fill held (Function.update d x.indirect2.toNat b, x) ((List.range' q m).flatMap subSlots)
        vs).map fun s => ((s.1 x.indirect2.toNat,
          vs.drop ((List.range' q m).flatMap subSlots).length),
          Function.update s.1 x.indirect2.toNat (d x.indirect2.toNat)) := by
  induction m generalizing q b d vs with
  | zero =>
    rw [fillIndirect2, if_neg (by omega)]
    simp
  | succ m ih =>
    rw [run_fillIndirect2_step _ _ _ _ _ _ (by omega) (by omega) hc, List.range'_succ,
      List.flatMap_cons, fill_append, Option.map_bind]
    cases hs : fill held (Function.update d x.indirect2.toNat b, x) (subSlots q) vs with
    | none => rfl
    | some s =>
      -- the copy goes on from where the first slots have left it
      have hx : s.2 = x := fill_snd (fun σ hσ => subSlots_base q 1 σ (by simpa using hσ)) hs
      have hback : s = (Function.update (Function.update s.1 x.indirect2.toNat
          (d x.indirect2.toNat)) x.indirect2.toNat (s.1 x.indirect2.toNat), x) := by
        rw [Function.update_idem, Function.update_eq_self, ← hx]
      simp only [Option.bind_some, Function.comp_apply]
      rw [show q + (m + 1) = q + 1 + m by omega, ih (q + 1) _ _ _ (by omega), ← hback,
        Function.update_self, List.length_append, List.drop_drop]

/-- The double indirect block is opened and filled, or waited for in vain. -/
theorem run_openIndirect2 (held : List ℕ) (m q : ℕ) (d : Disk) (x : DiskInode) (vs : List U32)
    (hq : q + m ≤ 16384) :
    ((modifyAt x.indirect2.toNat 0 4096 fun indirect2 =>
        fillIndirect2 ((q + m) / 128) ((q + m) % 128) m indirect2 (q / 128) (q % 128) vs) >>=
      fun new => (pure (x, new) : Fs (DiskInode × List U32))).run held d =
      (fill held (d, x) ((List.range' q m).flatMap subSlots) vs).bind fun s =>
        if s.2.indirect2.toNat ∈ held then none
        else some ((s.2, vs.drop ((List.range' q m).flatMap subSlots).length), s.1) := by
  rw [Prog.run_bind, run_modifyBlock_eq]
  by_cases hc : x.indirect2.toNat ∈ held
  · rw [if_pos hc]
    cases hs : fill held (d, x) ((List.range' q m).flatMap subSlots) vs with
    | none => rfl
    | some s => simp [fill_snd (subSlots_base q m) hs, hc]
  · rw [if_neg hc, run_fillIndirect2 m q _ d vs hq hc, Function.update_eq_self]
    cases hs : fill held (d, x) ((List.range' q m).flatMap subSlots) vs with
    | none => rfl
    | some s => simp [fill_snd (subSlots_base q m) hs, hc]

/-- `alloc indirect2`, and what follows it. -/
theorem run_growIndirect2 (held : List ℕ) {k m : ℕ} (h156 : 156 ≤ k) (hm : 0 < m ∨ 156 < k)
    (hkm : k + m ≤ 16540) (d : Disk) (x : DiskInode) (vs : List U32) :
    (growIndirect2 x (k - 28) (k + m - 28) vs).run held d =
      (fill held (d, x) (slotsFrom k m) vs).bind fun s =>
        if s.2.indirect2.toNat ∈ held then none
        else some ((s.2, vs.drop (slotsFrom k m).length), s.1) := by
  have hopen := fun x vs => run_openIndirect2 held m (k - 156) d x vs (by omega)
  rw [growIndirect2, slotsFrom_sub h156 hm, allocIndirect2, inode_indirect1_count_eq]
  have hk : k - 28 - 128 = k - 156 := by omega
  have hkm' : k + m - 28 - 128 = k - 156 + m := by omega
  simp only [hk, hkm', Nat.add_sub_cancel_left]
  by_cases hk : k = 156
  · subst hk
    rw [if_pos rfl, if_pos rfl, List.singleton_append]
    cases vs with
    | nil => rfl
    | cons v vs => exact hopen (x.setIndirect2 v) vs
  · rw [if_neg (by omega), if_neg hk, List.nil_append]
    exact hopen x vs

/-- The indirect block is opened and filled, or waited for in vain. -/
theorem run_openIndirect1 (f j : ℕ) (d : Disk) (x : DiskInode) (vs : List U32) :
    (modifyAt x.indirect1.toNat 0 4096 fun indirect1 => fillIndirect1 f indirect1 j vs).run held d =
      (fill held (d, x) ((List.range' j f).map .word1) vs).bind fun s =>
        if s.2.indirect1.toNat ∈ held then none else some (vs.drop f, s.1) := by
  rw [run_modifyBlock_eq]
  by_cases hc : x.indirect1.toNat ∈ held
  · rw [if_pos hc]
    cases hs : fill held (d, x) ((List.range' j f).map .word1) vs with
    | none => rfl
    | some s => simp [fill_snd (range'_base_word1 j f) hs, hc]
  · rw [if_neg hc, run_fillIndirect1 f j _ vs hc, Function.update_eq_self]
    cases hs : fill held (d, x) ((List.range' j f).map .word1) vs with
    | none => rfl
    | some s => simp [fill_snd (range'_base_word1 j f) hs, hc]

end DiskInode

/-- The indirect blocks that a file of `total` blocks has can be opened. -/
def Guarded (held : List ℕ) (total : ℕ) (x : DiskInode) : Prop :=
  (28 < total → x.indirect1.toNat ∉ held) ∧ (156 < total → x.indirect2.toNat ∉ held)

instance (held : List ℕ) (total : ℕ) (x : DiskInode) : Decidable (Guarded held total x) :=
  inferInstanceAs (Decidable (_ ∧ _))

theorem ok_of_mem_slotsFrom {k m : ℕ} (hkm : k + m ≤ 16540) {σ : Slot} (hσ : σ ∈ slotsFrom k m) :
    σ.Ok ∧ k ≤ σ.index ∧ σ.index < k + m := by
  obtain ⟨j, hj, hσ⟩ := List.mem_flatMap.mp hσ
  rw [List.mem_range'_1] at hj
  obtain ⟨hok, hi⟩ := (mem_slots (by omega) σ).mp hσ
  exact ⟨hok, by omega, by omega⟩

/-- A slot of the inode that earlier blocks use is not filled again. -/
theorem load_fill_inode {k m : ℕ} {s s' : Disk × DiskInode} {vs : List U32} {τ : Slot}
    (hkm : k + m ≤ 16540) (h : fill held s (slotsFrom k m) vs = some s') (hτ : τ.base = none)
    (hok : τ.Ok) (hlt : τ.index < k) : load s'.1 s'.2 τ = load s.1 s.2 τ := by
  rw [(fill_eq_some h).2]
  refine load_storeAll_inode (fun σ hσ => (ok_of_mem_slotsFrom hkm hσ).1) hτ hok ?_ vs s.1 s.2
  intro hmem
  have := (ok_of_mem_slotsFrom hkm hmem).2.1
  omega

/-- The indirect block stays, once a file has one. -/
theorem indirect1_fill {k m : ℕ} {s s' : Disk × DiskInode} {vs : List U32} (hk : 28 < k)
    (hkm : k + m ≤ 16540) (h : fill held s (slotsFrom k m) vs = some s') :
    s'.2.indirect1 = s.2.indirect1 := by
  have hload := load_fill_inode (τ := .ind1) hkm h rfl trivial hk
  exact hload

namespace DiskInode

/-- The double indirect block is grown after the indirect block has been found open, or not. -/
theorem run_growIndirect2_guarded (held : List ℕ) {k m : ℕ} (h156 : 156 ≤ k)
    (hm : 0 < m ∨ 156 < k) (hkm : k + m ≤ 16540) (s : Disk × DiskInode) (vs : List U32) :
    ((if s.2.indirect1.toNat ∈ held then none else some (vs, s.1)).bind fun r =>
      (growIndirect2 s.2 (k - 28) (k + m - 28) r.1).run held r.2) =
      (fill held s (slotsFrom k m) vs).bind fun s' =>
        if Guarded held (k + m) s'.2 then some ((s'.2, vs.drop (slotsFrom k m).length), s'.1)
        else none := by
  have hgrow := run_growIndirect2 held h156 hm hkm s.1 s.2 vs
  have hguard : ∀ s', fill held s (slotsFrom k m) vs = some s' → (Guarded held (k + m) s'.2 ↔
      s.2.indirect1.toNat ∉ held ∧ s'.2.indirect2.toNat ∉ held) := by
    intro s' hs'
    rw [Guarded, indirect1_fill (by omega) hkm hs']
    constructor
    · exact fun hg => ⟨hg.1 (by omega), hg.2 (by omega)⟩
    · exact fun hg => ⟨fun _ => hg.1, fun _ => hg.2⟩
  by_cases hc : s.2.indirect1.toNat ∈ held
  · rw [if_pos hc, Option.bind_none]
    cases hs' : fill held s (slotsFrom k m) vs with
    | none => rfl
    | some s' =>
      have hg : ¬ Guarded held (k + m) s'.2 := fun hg => ((hguard s' hs').mp hg).1 hc
      rw [Option.bind_some, if_neg hg]
  · rw [if_neg hc, Option.bind_some, hgrow]
    cases hs' : fill held s (slotsFrom k m) vs with
    | none => rfl
    | some s' =>
      simp only [Option.bind_some, hguard s' hs', hc, not_false_eq_true, true_and, ite_not]

/-- What follows once the indirect block is in place: `f` of its entries are filled first. -/
theorem run_growIndirect1_rest (held : List ℕ) {k m f : ℕ} (h28 : 28 ≤ k)
    (hm : 0 < m ∨ 28 < k) (hkm : k + m ≤ 16540) (hf : f = min (k + m - 28) 128 - (k - 28))
    (d : Disk) (x : DiskInode) (vs : List U32) :
    ((modifyAt x.indirect1.toNat 0 4096 fun indirect1 =>
        fillIndirect1 f indirect1 (k - 28) vs) >>= fun new =>
      if k + m - 28 > 128 then growIndirect2 x (k - 28 + f) (k + m - 28) new
      else pure (x, new)).run held d =
    ((fill held (d, x) ((List.range' (k - 28) f).map .word1) vs).bind fun s =>
      fill held s (slotsFrom (k + f) (m - f)) (vs.drop f)).bind fun s =>
        if Guarded held (k + m) s.2
        then some ((s.2, (vs.drop f).drop (slotsFrom (k + f) (m - f)).length), s.1) else none := by
  rw [Prog.run_bind, run_openIndirect1]
  cases hs : fill held (d, x) ((List.range' (k - 28) f).map .word1) vs with
  | none => rfl
  | some s =>
    have hx : s.2 = x := fill_snd (range'_base_word1 _ f) hs
    subst hx
    simp only [Option.bind_some]
    by_cases h156 : k + m - 28 > 128
    · simp only [if_pos h156]
      have hgrow := run_growIndirect2_guarded held (k := k + f) (m := m - f) (by omega)
        (by omega) (by omega) s (vs.drop f)
      rw [show k + f - 28 = k - 28 + f by omega, show k + f + (m - f) = k + m by omega] at hgrow
      exact hgrow
    · have hz : m - f = 0 := by omega
      simp only [if_neg h156, hz, slotsFrom_zero, fill_nil, Option.bind_some, List.length_nil,
        List.drop_zero]
      by_cases hc : s.2.indirect1.toNat ∈ held
      · have hg : ¬ Guarded held (k + m) s.2 := fun hg => hg.1 (by omega) hc
        rw [if_pos hc, if_neg hg]
        rfl
      · have hg : Guarded held (k + m) s.2 := ⟨fun _ => hc, fun h => absurd h (by omega)⟩
        rw [if_neg hc, if_pos hg]
        rfl

theorem run_growIndirect1 (held : List ℕ) {k m : ℕ} (h28 : 28 ≤ k) (hm : 0 < m ∨ 28 < k) (hkm : k + m ≤ 16540)
    (d : Disk) (x : DiskInode) (vs : List U32) :
    (growIndirect1 x k (k + m) vs).run held d =
      (fill held (d, x) (slotsFrom k m) vs).bind fun s =>
        if Guarded held (k + m) s.2 then some ((s.2, vs.drop (slotsFrom k m).length), s.1)
        else none := by
  -- `f` entries of the indirect block are filled first
  obtain ⟨f, hf⟩ : ∃ f, f = min (k + m - 28) 128 - (k - 28) := ⟨_, rfl⟩
  have hsplit : slotsFrom k m = slotsFrom k f ++ slotsFrom (k + f) (m - f) := by
    rw [← slotsFrom_add, Nat.add_sub_cancel' (by omega)]
  rw [hsplit, fill_append, slotsFrom_word1 h28 (by omega) (by omega), growIndirect1, allocIndirect1]
  simp only [inode_indirect1_count_eq]
  rw [← hf]
  by_cases hk : k = 28
  · subst hk
    rw [if_pos rfl, if_pos rfl]
    cases vs with
    | nil => rfl
    | cons v vs =>
      have h := run_growIndirect1_rest held h28 hm hkm hf d (x.setIndirect1 v) vs
      rw [List.drop_drop] at h
      simp only [List.singleton_append, List.length_append, List.length_cons, List.length_map,
        List.length_range', Nat.add_right_comm f 1, List.drop_succ_cons]
      exact h
  · rw [if_neg hk, if_neg hk]
    have h := run_growIndirect1_rest held h28 hm hkm hf d x vs
    simp only [List.nil_append, List.length_append, List.length_map, List.length_range',
      List.drop_drop] at h ⊢
    exact h

end DiskInode

end RCore.EasyFs
