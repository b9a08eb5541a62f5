import Mathlib.Data.List.Basic
import Mathlib.Tactic

/-! Counting the numbers below a bound that satisfy a test. -/

namespace RCore.Lib

variable {f g : ℕ → Bool} {n p : ℕ}

theorem countP_range_congr (h : ∀ k < n, g k = f k) :
    (List.range n).countP g = (List.range n).countP f := by
  apply List.countP_congr
  intro k hk
  rw [h k (List.mem_range.mp hk)]

/-- One more number passes the test. -/
theorem countP_range_insert (hp : p < n) (hf : f p = false)
    (hg : ∀ k < n, g k = (decide (k = p) || f k)) :
    (List.range n).countP g = (List.range n).countP f + 1 := by
  induction n with
  | zero => omega
  | succ n ih =>
    rw [List.range_succ, List.countP_append, List.countP_append, List.countP_singleton,
      List.countP_singleton, hg n (by omega)]
    by_cases hpn : p = n
    · subst hpn
      rw [countP_range_congr (f := f), hf]
      · simp
      · intro k hk
        rw [hg k (by omega)]
        have : k ≠ p := by omega
        simp [this]
    · rw [ih (by omega) fun k hk => hg k (by omega)]
      have : n ≠ p := fun h => hpn h.symm
      simp only [this, decide_false, Bool.false_or]
      omega

theorem le_countP_range (hp : p ≤ n) (h : ∀ k < p, f k = true) :
    p ≤ (List.range n).countP f := by
  have hall : (List.range p).countP f = p := by
    rw [List.countP_eq_length.mpr fun k hk => h k (List.mem_range.mp hk), List.length_range]
  obtain ⟨q, rfl⟩ := Nat.exists_eq_add_of_le hp
  rw [List.range_add, List.countP_append, hall]
  exact Nat.le_add_right _ _

end RCore.Lib
