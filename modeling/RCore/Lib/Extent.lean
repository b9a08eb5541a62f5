import Mathlib

/-! Runs of consecutive numbers, and lists of them that follow each other. -/

namespace RCore.Lib

/-- `size` numbers from `start` on. -/
structure Extent where
  start : ℕ
  size : ℕ
deriving DecidableEq

namespace Extent

def finish (e : Extent) : ℕ := e.start + e.size

/-- The numbers of the extent. -/
def range (e : Extent) : Set ℕ := Set.Ico e.start e.finish

theorem mem_range {e : Extent} {n : ℕ} : n ∈ e.range ↔ e.start ≤ n ∧ n < e.finish := Iff.rfl

/-- An extent that ends before the other one starts. -/
theorem disjoint_of_le {e e' : Extent} (h : e.finish ≤ e'.start) : Disjoint e.range e'.range := by
  rw [Set.disjoint_left]
  intro n hn hn'
  rw [mem_range] at hn hn'
  omega

end Extent

/-- The extents follow each other without a gap, from `lo` up to `hi`. -/
def Tiles (lo hi : ℕ) : List Extent → Prop
  | [] => lo = hi
  | e :: es => e.start = lo ∧ Tiles e.finish hi es

namespace Tiles

variable {lo hi : ℕ} {es : List Extent}

theorem le (h : Tiles lo hi es) : lo ≤ hi := by
  induction es generalizing lo with
  | nil => exact Nat.le_of_eq h
  | cons e es ih =>
    obtain ⟨rfl, hes⟩ := h
    exact (Nat.le_add_right _ _).trans (ih hes)

theorem start_le (h : Tiles lo hi es) : ∀ e ∈ es, lo ≤ e.start := by
  induction es generalizing lo with
  | nil => exact fun e he => absurd he List.not_mem_nil
  | cons e₀ es ih =>
    obtain ⟨rfl, hes⟩ := h
    intro e he
    rcases List.mem_cons.mp he with rfl | he
    · exact Nat.le_refl _
    · exact (Nat.le_add_right _ _).trans (ih hes e he)

theorem finish_le (h : Tiles lo hi es) : ∀ e ∈ es, e.finish ≤ hi := by
  induction es generalizing lo with
  | nil => exact fun e he => absurd he List.not_mem_nil
  | cons e₀ es ih =>
    intro e he
    rcases List.mem_cons.mp he with rfl | he
    · exact h.2.le
    · exact ih h.2 e he

theorem append {mid : ℕ} {es' : List Extent} (h : Tiles lo mid es) (h' : Tiles mid hi es') :
    Tiles lo hi (es ++ es') := by
  induction es generalizing lo with
  | nil =>
    obtain rfl : lo = mid := h
    exact h'
  | cons e es ih => exact ⟨h.1, ih h.2⟩

/-- No number is in two of the extents. -/
theorem pairwise_disjoint (h : Tiles lo hi es) :
    es.Pairwise fun e e' => Disjoint e.range e'.range := by
  induction es generalizing lo with
  | nil => exact .nil
  | cons e es ih =>
    exact .cons (fun e' he' => Extent.disjoint_of_le (h.2.start_le e' he')) (ih h.2)

/-- The extents have all numbers from `lo` up to `hi`, and no others. -/
theorem exists_mem_iff (h : Tiles lo hi es) (n : ℕ) :
    (∃ e ∈ es, n ∈ e.range) ↔ lo ≤ n ∧ n < hi := by
  induction es generalizing lo with
  | nil =>
    obtain rfl : lo = hi := h
    simp only [List.not_mem_nil, false_and, exists_false, false_iff]
    omega
  | cons e es ih =>
    obtain ⟨rfl, hes⟩ := h
    have hle := hes.le
    have hstart : e.start ≤ e.finish := Nat.le_add_right _ _
    rw [List.exists_mem_cons_iff, ih hes, Extent.mem_range]
    omega

end Tiles

end RCore.Lib
