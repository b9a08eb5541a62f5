import Mathlib.Data.BitVec
import Mathlib.Tactic

/-! Fields of a bit vector. A record that a little-endian machine lays out in
memory is a bit vector, a field of it is a run of bits, and reading or storing
the field is `field` or `splice`. -/

namespace RCore.Lib

/-- The `w` bits of `b` from bit `off` upwards. -/
def field {n : ℕ} (b : BitVec n) (off w : ℕ) : BitVec w := b.extractLsb' off w

/-- `b` with the bits from `off` upwards replaced by `v`. -/
def splice {n w : ℕ} (b : BitVec n) (off : ℕ) (v : BitVec w) : BitVec n :=
  (b &&& ~~~((BitVec.allOnes w).setWidth n <<< off)) ||| (v.setWidth n <<< off)

variable {n w w' : ℕ}

theorem getLsbD_field (b : BitVec n) (off w i : ℕ) :
    (field b off w).getLsbD i = (decide (i < w) && b.getLsbD (off + i)) :=
  BitVec.getLsbD_extractLsb' off w b i

theorem getLsbD_splice (b : BitVec n) (off : ℕ) (v : BitVec w) (i : ℕ) :
    (splice b off v).getLsbD i =
      if off ≤ i ∧ i < off + w then decide (i < n) && v.getLsbD (i - off) else b.getLsbD i := by
  simp only [splice, BitVec.getLsbD_or, BitVec.getLsbD_and, BitVec.getLsbD_not,
    BitVec.getLsbD_shiftLeft, BitVec.getLsbD_setWidth, BitVec.getLsbD_allOnes]
  by_cases hn : i < n
  · by_cases ho : i < off
    · have hno : ¬ off ≤ i := by omega
      simp [hn, ho, hno]
    · have hi : i - off < n := by omega
      by_cases hw : i < off + w
      · have hiw : i - off < w := by omega
        simp [hn, ho, hi, hw, hiw, Nat.le_of_not_lt ho]
      · have hiw : ¬ i - off < w := by omega
        have hv : v.getLsbD (i - off) = false := BitVec.getLsbD_of_ge v _ (by omega)
        simp [hn, ho, hi, hw, hiw, hv]
  · have hb : b.getLsbD i = false := BitVec.getLsbD_of_ge b i (by omega)
    simp [hn, hb]

theorem field_splice_self (b : BitVec n) (off : ℕ) (v : BitVec w) (h : off + w ≤ n) :
    field (splice b off v) off w = v := by
  apply BitVec.eq_of_getLsbD_eq
  intro i hi
  rw [getLsbD_field, getLsbD_splice]
  have hin : off + i < n := by omega
  simp [hi, hin]

theorem field_splice_disjoint (b : BitVec n) (off off' : ℕ) (v : BitVec w)
    (h : off' + w' ≤ off ∨ off + w ≤ off') :
    field (splice b off v) off' w' = field b off' w' := by
  apply BitVec.eq_of_getLsbD_eq
  intro i hi
  rw [getLsbD_field, getLsbD_field, getLsbD_splice, if_neg (by omega)]

/-- Storing what is already there changes nothing. -/
theorem splice_field (b : BitVec n) (off w : ℕ) : splice b off (field b off w) = b := by
  apply BitVec.eq_of_getLsbD_eq
  intro i hi
  rw [getLsbD_splice, getLsbD_field]
  split_ifs with h
  · have hiw : i - off < w := by omega
    simp [hi, hiw, Nat.add_sub_cancel' h.1]
  · rfl

/-- The last store to a field counts. -/
theorem splice_splice_self (b : BitVec n) (off : ℕ) (v v' : BitVec w) :
    splice (splice b off v) off v' = splice b off v' := by
  apply BitVec.eq_of_getLsbD_eq
  intro i hi
  rw [getLsbD_splice, getLsbD_splice, getLsbD_splice]
  split_ifs <;> rfl

/-- Stores to fields that do not overlap can be made in any order. -/
theorem splice_comm (b : BitVec n) (off off' : ℕ) (v : BitVec w) (v' : BitVec w')
    (h : off' + w' ≤ off ∨ off + w ≤ off') :
    splice (splice b off v) off' v' = splice (splice b off' v') off v := by
  apply BitVec.eq_of_getLsbD_eq
  intro i hi
  rw [getLsbD_splice, getLsbD_splice, getLsbD_splice, getLsbD_splice]
  split_ifs <;> first | rfl | omega

@[simp] theorem field_zero (off w : ℕ) : field (0 : BitVec n) off w = 0 := by
  apply BitVec.eq_of_getLsbD_eq
  intro i _
  simp [getLsbD_field]

/-- A field that spans the whole vector is the vector. -/
@[simp] theorem field_full (b : BitVec n) : field b 0 n = b := by
  apply BitVec.eq_of_getLsbD_eq
  intro i hi
  rw [getLsbD_field, Nat.zero_add, decide_eq_true hi, Bool.true_and]

@[simp] theorem splice_full (b v : BitVec n) : splice b 0 v = v := by
  apply BitVec.eq_of_getLsbD_eq
  intro i hi
  rw [getLsbD_splice, if_pos ⟨Nat.zero_le i, by omega⟩, decide_eq_true hi, Bool.true_and,
    Nat.sub_zero]

theorem toNat_and_mask (x : BitVec n) {k : ℕ} (hk : k ≤ n) :
    (x &&& BitVec.ofNat n (2 ^ k - 1)).toNat = x.toNat % 2 ^ k := by
  have hlt : 2 ^ k - 1 < 2 ^ n := by
    have hpos := Nat.two_pow_pos k
    have hle := Nat.pow_le_pow_right (Nat.zero_lt_two) hk
    omega
  rw [BitVec.toNat_and, BitVec.toNat_ofNat, Nat.mod_eq_of_lt hlt, Nat.and_two_pow_sub_one_eq_mod]

/-- The lower `k` bits are cleared. -/
theorem toNat_and_not_mask (x : BitVec n) {k : ℕ} (hk : k ≤ n) :
    (x &&& ~~~BitVec.ofNat n (2 ^ k - 1)).toNat = x.toNat - x.toNat % 2 ^ k := by
  have hmask := toNat_and_mask x hk
  set mask := BitVec.ofNat n (2 ^ k - 1)
  have hzero : x &&& ~~~mask &&& (x &&& mask) = 0 := by
    have hand : x &&& ~~~mask &&& (x &&& mask) = (x &&& x) &&& (~~~mask &&& mask) := by ac_rfl
    rw [hand, BitVec.not_and_self]
    exact BitVec.and_zero
  -- the two parts have no bit in common, and make up the number
  have hor : x &&& ~~~mask ||| x &&& mask = x := by
    rw [← BitVec.and_or_distrib_left, BitVec.not_or_self, BitVec.and_allOnes]
  have hadd := BitVec.toNat_add_of_and_eq_zero hzero
  rw [BitVec.add_eq_or_of_and_eq_zero _ _ hzero, hor, hmask] at hadd
  omega

end RCore.Lib
