import Mathlib.Data.List.Nodup
import Mathlib.Logic.Function.Basic

/-! Resources shared out among owners: every resource in use has exactly one owner,
and lies in its list once. -/

namespace RCore.Lib

variable {ι β : Type}

structure Partition (own : ι → List β) (used : β → Prop) : Prop where
  nodup : ∀ i, (own i).Nodup
  disjoint : ∀ i j, i ≠ j → (own i).Disjoint (own j)
  mem : ∀ b, used b ↔ ∃ i, b ∈ own i

namespace Partition

variable {own : ι → List β} {used used' : β → Prop} {i j : ι} {b : β}

theorem congr (h : Partition own used) (hu : ∀ b, used' b ↔ used b) : Partition own used' :=
  ⟨h.nodup, h.disjoint, fun b => (hu b).trans (h.mem b)⟩

theorem self (h : Partition own used) : Partition own fun b => ∃ i, b ∈ own i :=
  h.congr fun b => (h.mem b).symm

/-- A resource is in the list of one owner only. -/
theorem owner_unique (h : Partition own used) (hi : b ∈ own i) (hj : b ∈ own j) : i = j := by
  by_contra hne
  exact h.disjoint i j hne hi hj

variable [DecidableEq ι]

/-- An owner takes a resource that was not in use. -/
theorem take (h : Partition own used) (hb : ¬ used b) (i : ι)
    (hu : ∀ c, used' c ↔ c = b ∨ used c) :
    Partition (Function.update own i (own i ++ [b])) used' := by
  have hnot : ∀ k, b ∉ own k := fun k hk => hb ((h.mem b).mpr ⟨k, hk⟩)
  have hmem : ∀ k c, c ∈ Function.update own i (own i ++ [b]) k ↔
      c ∈ own k ∨ (k = i ∧ c = b) := by
    intro k c
    by_cases hk : k = i
    · subst hk; simp
    · simp [hk]
  refine ⟨fun k => ?_, fun k l hkl c hck hcl => ?_, fun c => ?_⟩
  · by_cases hk : k = i
    · subst hk
      rw [Function.update_self]
      exact (h.nodup k).append (List.nodup_singleton b) (by simpa using hnot k)
    · rw [Function.update_of_ne hk]
      exact h.nodup k
  · rw [hmem] at hck hcl
    rcases hck with hck | ⟨rfl, rfl⟩
    · rcases hcl with hcl | ⟨rfl, rfl⟩
      · exact h.disjoint k l hkl hck hcl
      · exact hnot k hck
    · rcases hcl with hcl | ⟨rfl, -⟩
      · exact hnot l hcl
      · exact hkl rfl
  · rw [hu, h.mem]
    constructor
    · rintro (rfl | ⟨k, hk⟩)
      · exact ⟨i, (hmem i c).mpr (Or.inr ⟨rfl, rfl⟩)⟩
      · exact ⟨k, (hmem k c).mpr (Or.inl hk)⟩
    · rintro ⟨k, hk⟩
      rcases (hmem k c).mp hk with hk | ⟨-, rfl⟩
      · exact Or.inr ⟨k, hk⟩
      · exact Or.inl rfl

/-- An owner gives back one of its resources. -/
theorem release (h : Partition own used) (l₁ l₂ : List β) (hi : own i = l₁ ++ b :: l₂)
    (hu : ∀ c, used' c ↔ c ≠ b ∧ used c) :
    Partition (Function.update own i (l₁ ++ l₂)) used' := by
  have hnd : b ∉ l₁ ++ l₂ ∧ (l₁ ++ l₂).Nodup := by
    rw [← List.nodup_cons]
    exact List.perm_middle.nodup_iff.mp (hi ▸ h.nodup i)
  have hbi : b ∈ own i := by simp [hi]
  have hmem : ∀ k c, c ∈ Function.update own i (l₁ ++ l₂) k ↔ c ≠ b ∧ c ∈ own k := by
    intro k c
    by_cases hk : k = i
    · subst hk
      rw [Function.update_self, hi, List.perm_middle.mem_iff, List.mem_cons]
      constructor
      · exact fun hc => ⟨fun he => hnd.1 (he ▸ hc), Or.inr hc⟩
      · rintro ⟨hne, hc | hc⟩
        · exact absurd hc hne
        · exact hc
    · rw [Function.update_of_ne hk]
      exact ⟨fun hc => ⟨fun he => hk (h.owner_unique (he ▸ hc) hbi), hc⟩, And.right⟩
  refine ⟨fun k => ?_, fun k l hkl c hck hcl => ?_, fun c => ?_⟩
  · by_cases hk : k = i
    · subst hk
      rw [Function.update_self]
      exact hnd.2
    · rw [Function.update_of_ne hk]
      exact h.nodup k
  · exact h.disjoint k l hkl ((hmem k c).mp hck).2 ((hmem l c).mp hcl).2
  · rw [hu, h.mem]
    simp only [hmem]
    exact ⟨fun ⟨hne, k, hk⟩ => ⟨k, hne, hk⟩, fun ⟨k, hne, hk⟩ => ⟨hne, k, hk⟩⟩

/-- An owner is gone, with all it has. -/
theorem discard (h : Partition own used) (i : ι) (hu : ∀ c, used' c ↔ used c ∧ c ∉ own i) :
    Partition (Function.update own i []) used' := by
  have hmem : ∀ k c, c ∈ Function.update own i [] k ↔ k ≠ i ∧ c ∈ own k := by
    intro k c
    by_cases hk : k = i <;> simp [hk]
  refine ⟨fun k => ?_, fun k l hkl c hck hcl => ?_, fun c => ?_⟩
  · by_cases hk : k = i
    · simp [hk]
    · rw [Function.update_of_ne hk]
      exact h.nodup k
  · exact h.disjoint k l hkl ((hmem k c).mp hck).2 ((hmem l c).mp hcl).2
  · rw [hu, h.mem]
    simp only [hmem]
    constructor
    · rintro ⟨⟨k, hk⟩, hc⟩
      exact ⟨k, fun he => hc (he ▸ hk), hk⟩
    · rintro ⟨k, hki, hk⟩
      exact ⟨⟨k, hk⟩, fun hc => hki (h.owner_unique hk hc)⟩

/-- An owner hands all it has to another one. -/
theorem transfer (h : Partition own used) (hij : i ≠ j) :
    Partition (Function.update (Function.update own i (own i ++ own j)) j []) used := by
  have hmem : ∀ k c, c ∈ Function.update (Function.update own i (own i ++ own j)) j [] k ↔
      k ≠ j ∧ (c ∈ own k ∨ (k = i ∧ c ∈ own j)) := by
    intro k c
    by_cases hkj : k = j
    · subst hkj; simp
    · by_cases hki : k = i
      · subst hki; simp [hkj]
      · simp [hkj, hki]
  refine ⟨fun k => ?_, fun k l hkl c hck hcl => ?_, fun c => ?_⟩
  · by_cases hkj : k = j
    · subst hkj; simp
    · by_cases hki : k = i
      · subst hki
        rw [Function.update_of_ne hkj, Function.update_self]
        exact (h.nodup k).append (h.nodup j) (h.disjoint k j hij)
      · rw [Function.update_of_ne hkj, Function.update_of_ne hki]
        exact h.nodup k
  · rw [hmem] at hck hcl
    obtain ⟨hkj, hck⟩ := hck
    obtain ⟨hlj, hcl⟩ := hcl
    rcases hck with hck | ⟨rfl, hck⟩
    · rcases hcl with hcl | ⟨rfl, hcl⟩
      · exact hkl (h.owner_unique hck hcl)
      · exact hkj (h.owner_unique hck hcl)
    · rcases hcl with hcl | ⟨rfl, -⟩
      · exact hlj (h.owner_unique hcl hck)
      · exact hkl rfl
  · rw [h.mem]
    simp only [hmem]
    constructor
    · rintro ⟨k, hk⟩
      by_cases hkj : k = j
      · exact ⟨i, hij, Or.inr ⟨rfl, hkj ▸ hk⟩⟩
      · exact ⟨k, hkj, Or.inl hk⟩
    · rintro ⟨k, -, hk | ⟨-, hk⟩⟩
      · exact ⟨k, hk⟩
      · exact ⟨j, hk⟩

end Partition

end RCore.Lib
