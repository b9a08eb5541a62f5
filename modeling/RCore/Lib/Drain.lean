import Mathlib.Tactic

/-! A heap from whose top elements are taken as long as they are due. An element that is
not due keeps back all those below it. -/

namespace RCore.Lib

variable {α : Type} [DecidableEq α] {key : α → ℤ} {due : α → Bool} {top : List α → Option α}
  {l : List α} {n : ℕ} {x y : α}

/-- The top of a heap: one of the greatest, if there are any. -/
structure IsTop (key : α → ℤ) (top : List α → Option α) : Prop where
  none : ∀ l, top l = none → l = []
  some : ∀ l x, top l = some x → x ∈ l ∧ ∀ y ∈ l, key y ≤ key x

def drain (top : List α → Option α) (due : α → Bool) : ℕ → List α → List α
  | 0, l => l
  | n + 1, l =>
    match top l with
    | some x => if due x then drain top due n (l.erase x) else l
    | none => l

/-- Something at or above `x` is not due. -/
def Held (key : α → ℤ) (due : α → Bool) (l : List α) (x : α) : Prop :=
  ∃ y ∈ l, key x ≤ key y ∧ due y = false

instance : DecidablePred (Held key due l) := fun _ => inferInstanceAs (Decidable (∃ _ ∈ _, _))

theorem held_erase (hx : due x = true) : Held key due (l.erase x) y ↔ Held key due l y := by
  constructor
  · rintro ⟨z, hz, hkey, hdue⟩
    exact ⟨z, List.mem_of_mem_erase hz, hkey, hdue⟩
  · rintro ⟨z, hz, hkey, hdue⟩
    have hne : z ≠ x := by
      rintro rfl
      rw [hx] at hdue
      cases hdue
    exact ⟨z, (List.mem_erase_of_ne hne).mpr hz, hkey, hdue⟩

/-- What is left is what was kept back. -/
theorem drain_eq (htop : IsTop key top)
    (hdue : ∀ x ∈ l, ∀ y ∈ l, key x = key y → due x = due y) (hnodup : l.Nodup)
    (hn : l.length ≤ n) : drain top due n l = l.filter (Held key due l) := by
  induction n generalizing l with
  | zero =>
    rw [List.length_eq_zero_iff.mp (Nat.le_zero.mp hn)]
    rfl
  | succ n ih =>
    rw [drain]
    split
    next x hx =>
      obtain ⟨hmem, hmax⟩ := htop.some l x hx
      split_ifs with hd
      · -- what is at the top is due, and so is all that is as great
        have hnot : ¬ Held key due l x := by
          rintro ⟨y, hy, hkey, hy'⟩
          rw [hdue y hy x hmem (le_antisymm (hmax y hy) hkey), hd] at hy'
          cases hy'
        have hlen : (l.erase x).length ≤ n := by
          rw [List.length_erase_of_mem hmem]
          omega
        rw [ih (fun a ha b hb => hdue a (List.mem_of_mem_erase ha) b (List.mem_of_mem_erase hb))
          (hnodup.erase x) hlen]
        simp only [held_erase hd]
        rw [hnodup.erase_eq_filter, List.filter_filter]
        refine List.filter_congr fun y hy => ?_
        by_cases hyx : y = x
        · subst hyx
          simp [hnot]
        · simp [hyx]
      · rw [eq_comm, List.filter_eq_self]
        intro y hy
        exact decide_eq_true ⟨x, hmem, hmax y hy, by simpa using hd⟩
    next hx =>
      rw [htop.none l hx]
      rfl

end RCore.Lib
