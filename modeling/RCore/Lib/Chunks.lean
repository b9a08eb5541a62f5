import Mathlib.Tactic

/-! A list in pieces of one length, the last of which may be shorter. -/

namespace RCore.Lib

variable {α : Type} {n : ℕ} {l : List α}

/-- The pieces of `n` elements. -/
def chunks (n : ℕ) (l : List α) : List (List α) :=
  (List.range ((l.length + n - 1) / n)).map fun k => (l.drop (n * k)).take n

theorem chunks_nil (hn : 0 < n) : chunks n ([] : List α) = [] := by
  unfold chunks
  rw [List.length_nil, Nat.zero_add, Nat.div_eq_of_lt (by omega)]
  rfl

theorem chunks_of_ne_nil (hn : 0 < n) (hl : l ≠ []) : chunks n l = l.take n :: chunks n (l.drop n) := by
  have hpos := List.length_pos_iff.mpr hl
  have hcount : (l.length + n - 1) / n = ((l.drop n).length + n - 1) / n + 1 := by
    rw [List.length_drop, show l.length + n - 1 = (l.length - 1) + n by omega, Nat.add_div_right _ hn]
    rcases Nat.lt_or_ge l.length n with hlt | hge
    · rw [Nat.div_eq_of_lt (by omega), Nat.div_eq_of_lt (by omega)]
    · rw [show l.length - n + n - 1 = l.length - 1 by omega]
  unfold chunks
  rw [hcount, List.range_succ_eq_map, List.map_cons, List.map_map, Nat.mul_zero, List.drop_zero]
  refine congrArg _ (List.map_congr_left fun k _ => ?_)
  rw [Function.comp_apply, List.drop_drop, Nat.mul_succ, Nat.add_comm (n * k)]

theorem mem_chunks (hn : 0 < n) {c : List α} : c ∈ chunks n l ↔ ∃ k, n * k < l.length ∧ c = (l.drop (n * k)).take n := by
  unfold chunks
  simp only [List.mem_map, List.mem_range]
  constructor
  · rintro ⟨k, hk, rfl⟩
    rw [Nat.lt_div_iff_mul_lt hn, Nat.mul_comm] at hk
    exact ⟨k, by omega, rfl⟩
  · rintro ⟨k, hk, rfl⟩
    refine ⟨k, ?_, rfl⟩
    rw [Nat.lt_div_iff_mul_lt hn, Nat.mul_comm]
    omega

theorem ne_nil_of_mem_chunks (hn : 0 < n) {c : List α} (h : c ∈ chunks n l) : c ≠ [] := by
  obtain ⟨k, hk, rfl⟩ := (mem_chunks hn).mp h
  rw [ne_eq, List.take_eq_nil_iff, List.drop_eq_nil_iff]
  omega

theorem flatten_chunks (hn : 0 < n) (l : List α) : (chunks n l).flatten = l := by
  induction hlen : l.length using Nat.strong_induction_on generalizing l with
  | _ len ih =>
    cases l with
    | nil =>
      rw [chunks_nil hn]
      rfl
    | cons a l =>
      rw [chunks_of_ne_nil hn (List.cons_ne_nil a l), List.flatten_cons]
      have hdrop : ((a :: l).drop n).length < len := by
        rw [List.length_drop, hlen]
        rw [List.length_cons] at hlen
        omega
      rw [ih _ hdrop _ rfl, List.take_append_drop]

end RCore.Lib
