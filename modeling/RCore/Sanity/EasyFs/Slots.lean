import RCore.Sanity.EasyFs.Tree

/-! Which slots a file of a given number of blocks uses. -/

namespace RCore.EasyFs

open Slot

theorem inode_direct_count_eq : INODE_DIRECT_COUNT = 28 := rfl

theorem inode_indirect1_count_eq : INODE_INDIRECT1_COUNT = 128 := rfl

theorem indirect1_bound_eq : INDIRECT1_BOUND = 156 := rfl

theorem mem_subSlots {q : ℕ} (σ : Slot) :
    σ ∈ subSlots q ↔ (q % 128 = 0 ∧ σ = .sub (q / 128)) ∨ σ = .leaf (q / 128) (q % 128) := by
  unfold subSlots
  split_ifs with h <;> simp [h]

theorem mem_slots {k : ℕ} (hk : k < 16540) (σ : Slot) : σ ∈ slots k ↔ σ.Ok ∧ σ.index = k := by
  unfold slots
  split_ifs with h1 h2 h3 h4 <;>
    simp only [List.mem_cons, List.not_mem_nil, or_false, mem_subSlots] <;>
    cases σ <;>
    simp only [direct.injEq, word1.injEq, sub.injEq, leaf.injEq, reduceCtorEq, Ok, index,
      and_false, false_or, or_false, or_self, false_iff, true_and, true_iff] <;>
    omega

theorem slotsFrom_zero (k : ℕ) : slotsFrom k 0 = [] := rfl

theorem slotsFrom_succ (k m : ℕ) : slotsFrom k (m + 1) = slots k ++ slotsFrom (k + 1) m := by
  simp [slotsFrom, List.range'_succ]

theorem slotsFrom_add (k m m' : ℕ) :
    slotsFrom k (m + m') = slotsFrom k m ++ slotsFrom (k + m) m' := by
  rw [slotsFrom, slotsFrom, slotsFrom, ← List.flatMap_append, List.range'_append_1]

theorem slotsUpTo_succ (n : ℕ) : slotsUpTo (n + 1) = slotsUpTo n ++ slots n := by
  rw [slotsUpTo, slotsFrom_add, slotsFrom_succ, slotsFrom_zero, Nat.zero_add, List.append_nil]
  rfl

theorem slotsUpTo_add (n m : ℕ) : slotsUpTo (n + m) = slotsUpTo n ++ slotsFrom n m := by
  rw [slotsUpTo, slotsFrom_add, Nat.zero_add]
  rfl

theorem mem_slotsUpTo {n : ℕ} (hn : n ≤ 16540) (σ : Slot) :
    σ ∈ slotsUpTo n ↔ σ.Ok ∧ σ.index < n := by
  induction n with
  | zero => simp [slotsUpTo, slotsFrom]
  | succ n ih =>
    rw [slotsUpTo_succ, List.mem_append, ih (by omega), mem_slots (by omega)]
    constructor
    · rintro (⟨h1, h2⟩ | ⟨h1, h2⟩)
      · exact ⟨h1, by omega⟩
      · exact ⟨h1, by omega⟩
    · rintro ⟨h1, h2⟩
      by_cases h : σ.index = n
      · exact Or.inr ⟨h1, h⟩
      · exact Or.inl ⟨h1, by omega⟩

theorem base_index {σ β : Slot} (h : σ.base = some β) (hok : σ.Ok) :
    β.Ok ∧ β.index ≤ σ.index := by
  cases σ <;> simp only [Slot.base, Option.some.injEq, reduceCtorEq] at h <;> subst h <;>
    simp only [Ok, index, true_and] at hok ⊢ <;> omega

theorem closed_slotsUpTo {n : ℕ} (hn : n ≤ 16540) : Closed (slotsUpTo n) := by
  constructor
  · intro σ hσ
    exact ((mem_slotsUpTo hn σ).mp hσ).1
  · intro σ hσ β hβ
    obtain ⟨hok, hlt⟩ := (mem_slotsUpTo hn σ).mp hσ
    obtain ⟨hok', hle⟩ := base_index hβ hok
    exact (mem_slotsUpTo hn β).mpr ⟨hok', by omega⟩

theorem Extends.append {S T T' : List Slot} (h : Extends S T) (h' : Extends (S ++ T) T') :
    Extends S (T ++ T') := by
  induction h with
  | nil S => simpa using h'
  | cons ok fresh base rest ih => exact .cons ok fresh base (ih (by simpa using h'))

theorem extends_subSlots {S : List Slot} {q : ℕ} (hq : q < 16384) (hind2 : .ind2 ∈ S)
    (hsub : .sub (q / 128) ∈ S ↔ q % 128 ≠ 0) (hleaf : .leaf (q / 128) (q % 128) ∉ S) :
    Extends S (subSlots q) := by
  have hok : (Slot.leaf (q / 128) (q % 128)).Ok := ⟨by omega, by omega⟩
  unfold subSlots
  split_ifs with h
  · refine .cons (by simp only [Ok]; omega) (by simp [hsub, h]) ?_ (.cons hok ?_ ?_ (.nil _))
    · intro β hβ
      simp only [Slot.base, Option.some.injEq] at hβ
      exact hβ ▸ hind2
    · simpa using hleaf
    · intro β hβ
      simp only [Slot.base, Option.some.injEq] at hβ
      simp [← hβ]
  · refine .cons hok hleaf ?_ (.nil _)
    intro β hβ
    simp only [Slot.base, Option.some.injEq] at hβ
    exact hβ ▸ hsub.mpr h

theorem extends_slots {k : ℕ} (hk : k < 16540) : Extends (slotsUpTo k) (slots k) := by
  have hmem : ∀ σ : Slot, σ ∈ slotsUpTo k ↔ σ.Ok ∧ σ.index < k := mem_slotsUpTo (by omega)
  unfold slots
  split_ifs with h1 h2 h3 h4
  · exact .cons h1 (by simp [hmem, index]) (by simp [Slot.base]) (.nil _)
  · refine .cons trivial ?_ (by simp [Slot.base]) (.cons (by simp [Ok]) ?_ ?_ (.nil _))
    · simp only [hmem, index]; omega
    · simp only [List.mem_append, List.mem_singleton, hmem, index, reduceCtorEq, or_false]; omega
    · simp [Slot.base]
  · refine .cons (by simp only [Ok]; omega) ?_ ?_ (.nil _)
    · simp only [hmem, index]; omega
    · intro β hβ
      simp only [Slot.base, Option.some.injEq] at hβ
      subst hβ
      exact (hmem _).mpr ⟨trivial, by simp only [index]; omega⟩
  · refine .cons trivial ?_ (by simp [Slot.base]) (extends_subSlots (by omega) (by simp) ?_ ?_)
    · simp only [hmem, index]; omega
    all_goals
      simp only [List.mem_append, List.mem_singleton, hmem, index, reduceCtorEq, or_false]
      omega
  · have hind2 : .ind2 ∈ slotsUpTo k := (hmem _).mpr ⟨trivial, by simp only [index]; omega⟩
    apply extends_subSlots (by omega) hind2
    all_goals simp only [hmem, Ok, index]; omega

theorem extends_slotsFrom {k m : ℕ} (h : k + m ≤ 16540) :
    Extends (slotsUpTo k) (slotsFrom k m) := by
  induction m generalizing k with
  | zero => exact .nil _
  | succ m ih =>
    rw [slotsFrom_succ]
    apply (extends_slots (by omega)).append
    rw [← slotsUpTo_succ]
    exact ih (by omega)

/-- The number of slots is what `total_blocks` computes. -/
theorem length_slotsUpTo (n : ℕ) : (slotsUpTo n).length =
    n + (if 28 < n then 1 else 0) + (if 156 < n then 1 + (n - 156 + 127) / 128 else 0) := by
  induction n with
  | zero => rfl
  | succ n ih =>
    have hs : (slots n).length = 1 + (if n = 28 then 1 else 0) + (if n = 156 then 1 else 0) +
        (if 156 ≤ n ∧ (n - 156) % 128 = 0 then 1 else 0) := by
      unfold slots subSlots
      split_ifs <;> simp_all <;> omega
    rw [slotsUpTo_succ, List.length_append, ih, hs]
    split_ifs <;> omega

theorem dataSlot_mem_slots (k : ℕ) : dataSlot k ∈ slots k := by
  unfold dataSlot slots
  split_ifs <;> simp_all [mem_subSlots]

theorem dataSlot_mem {n k : ℕ} (h : k < n) : dataSlot k ∈ slotsUpTo n :=
  List.mem_flatMap.mpr ⟨k, by simp [List.mem_range'_1, h], dataSlot_mem_slots k⟩

theorem dataSlot_index (k : ℕ) : (dataSlot k).index = k := by
  unfold dataSlot
  split_ifs <;> simp only [index] <;> omega

theorem dataSlot_inj {j k : ℕ} (h : dataSlot j = dataSlot k) : j = k := by
  rw [← dataSlot_index j, h, dataSlot_index]

/-- No slot hangs on the slot of a data block. -/
theorem base_ne_dataSlot {σ β : Slot} (h : σ.base = some β) (k : ℕ) : β ≠ dataSlot k := by
  unfold dataSlot
  cases σ <;> simp only [Slot.base, Option.some.injEq, reduceCtorEq] at h <;> subst h <;>
    split_ifs <;> simp

end RCore.EasyFs
