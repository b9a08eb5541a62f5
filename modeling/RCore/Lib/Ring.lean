import Mathlib.Logic.Function.Basic
import Mathlib.Tactic

/-! A run of cells of an array, taken around its end: what a ring buffer holds. -/

namespace RCore.Lib

variable {α : Type} {N head n : ℕ} {arr : ℕ → α}

/-- The `n` cells from `head` on, of an array of `N` cells. -/
def ring (N : ℕ) (arr : ℕ → α) (head n : ℕ) : List α :=
  (List.range n).map fun i => arr ((head + i) % N)

@[simp] theorem length_ring (N : ℕ) (arr : ℕ → α) (head n : ℕ) :
    (ring N arr head n).length = n := by
  simp [ring]

/-- Fewer than `N` steps around the ring do not lead back. -/
theorem ring_index_ne {i j : ℕ} (hij : i < j) (hj : j < i + N) :
    (head + i) % N ≠ (head + j) % N := by
  intro h
  have hdvd : N ∣ (head + j) - (head + i) := (Nat.modEq_iff_dvd' (by omega)).mp h
  have := Nat.le_of_dvd (by omega) hdvd
  omega

/-- A byte goes in after the last one. -/
theorem ring_push (hn : n < N) (b : α) :
    ring N (Function.update arr ((head + n) % N) b) head (n + 1) = ring N arr head n ++ [b] := by
  rw [ring, List.range_succ, List.map_append, List.map_singleton, Function.update_self]
  congr 1
  apply List.map_congr_left
  intro i hi
  rw [List.mem_range] at hi
  exact Function.update_of_ne (ring_index_ne hi (by omega)) _ _

/-- The first byte comes out. -/
theorem ring_pop (hhead : head < N) :
    ring N arr head (n + 1) = arr head :: ring N arr ((head + 1) % N) n := by
  rw [ring, List.range_succ_eq_map, List.map_cons, List.map_map, Nat.add_zero,
    Nat.mod_eq_of_lt hhead]
  congr 1
  apply List.map_congr_left
  intro i _
  rw [Function.comp_apply, Nat.mod_add_mod]
  congr 2
  omega

end RCore.Lib
