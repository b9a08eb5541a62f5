import RCore.Lib.Count
import RCore.Sanity.EasyFs.Block
import RCore.Spec.EasyFs.Bitmap

/-! A bitmap on disk, read as a set of numbers below `maximum`: `alloc` adds the
least number that is missing, `dealloc` removes one. -/

namespace RCore.EasyFs

open RCore.Lib

theorem trailingOnes_spec {x : BitVec 64} (hx : x ≠ BitVec.allOnes 64) :
    trailingOnes x < 64 ∧ x.getLsbD (trailingOnes x) = false ∧
      ∀ k < trailingOnes x, x.getLsbD k = true := by
  unfold trailingOnes
  cases hf : (List.range 64).find? fun i => !x.getLsbD i with
  | none =>
    exfalso
    apply hx
    apply BitVec.eq_of_getLsbD_eq
    intro i hi
    have hset := List.find?_range_eq_none.mp hf i hi
    rw [BitVec.getLsbD_allOnes, decide_eq_true hi]
    simpa using hset
  | some p =>
    obtain ⟨h1, h2, h3⟩ := List.find?_range_eq_some.mp hf
    refine ⟨List.mem_range.mp h2, by simpa using h1, fun k hk => ?_⟩
    simpa using h3 k hk

theorem getLsbD_u64At (b : Block) (i : ℕ) {k : ℕ} (hk : k < 64) :
    (u64At b i).getLsbD k = b.getLsbD (64 * i + k) := by
  rw [u64At, getLsbD_field, decide_eq_true hk, Bool.true_and]

theorem u64At_eq_allOnes {b : Block} {i : ℕ} (h : u64At b i = BitVec.allOnes 64) {k : ℕ}
    (hk : k / 64 = i) : b.getLsbD k = true := by
  have hm : k % 64 < 64 := Nat.mod_lt k (by decide)
  have hb := getLsbD_u64At b i hm
  rw [h, BitVec.getLsbD_allOnes, decide_eq_true hm] at hb
  rw [hb]
  congr 1
  omega

/-- Setting one bit of one word of a block. -/
theorem getLsbD_setU64_or (b : Block) {i p : ℕ} (hi : i < 64) (hp : p < 64) (k : ℕ) :
    (setU64 b i (u64At b i ||| (1#64 <<< p))).getLsbD k =
      (decide (k = i * 64 + p) || b.getLsbD k) := by
  rw [setU64, getLsbD_splice]
  split_ifs with h
  · have hk : k - 64 * i < 64 := by omega
    have hk2 : k < 4096 := by omega
    rw [BitVec.getLsbD_or, getLsbD_u64At b i hk, Nat.add_sub_cancel' h.1,
      decide_eq_true hk2, Bool.true_and, Bool.or_comm]
    congr 1
    rw [← BitVec.twoPow_eq, BitVec.getLsbD_twoPow]
    simp only [hp, decide_true, Bool.true_and, decide_eq_decide]
    omega
  · have hne : k ≠ i * 64 + p := by omega
    simp [hne]

namespace Bitmap

theorem allocInBlock_none {b : Block} (h : allocInBlock b = none) {k : ℕ} (hk : k < 4096) :
    b.getLsbD k = true := by
  unfold allocInBlock at h
  rw [Option.map_eq_none_iff, List.find?_range_eq_none] at h
  have := h (k / 64) (by omega)
  exact u64At_eq_allOnes (by simpa using this) rfl

theorem allocInBlock_some {b b' : Block} {p : ℕ} (h : allocInBlock b = some (p, b')) :
    p < 4096 ∧ b.getLsbD p = false ∧ (∀ k < p, b.getLsbD k = true) ∧
      ∀ k, b'.getLsbD k = (decide (k = p) || b.getLsbD k) := by
  unfold allocInBlock at h
  obtain ⟨i, hi, he⟩ := Option.map_eq_some_iff.mp h
  simp only [Prod.mk.injEq] at he
  obtain ⟨rfl, rfl⟩ := he
  obtain ⟨hne, hmem, hall⟩ := List.find?_range_eq_some.mp hi
  have hi64 : i < 64 := List.mem_range.mp hmem
  obtain ⟨hlt, hclear, hbelow⟩ := trailingOnes_spec (x := u64At b i) (by simpa using hne)
  refine ⟨by omega, ?_, fun k hk => ?_, getLsbD_setU64_or b hi64 hlt⟩
  · rw [getLsbD_u64At b i hlt] at hclear
    rwa [Nat.mul_comm]
  · -- a lower bit lies in an earlier word, all ones, or lower in the same word
    by_cases hw : k / 64 < i
    · have := hall (k / 64) hw
      exact u64At_eq_allOnes (by simpa using this) rfl
    · have hkm : k - 64 * i < trailingOnes (u64At b i) := by omega
      have hb := hbelow _ hkm
      rw [getLsbD_u64At b i (by omega)] at hb
      rwa [show 64 * i + (k - 64 * i) = k by omega] at hb

/-- A block that belongs to the bitmap. -/
def Owns (m : Bitmap) (b : ℕ) : Prop := m.startBlockId ≤ b ∧ b < m.startBlockId + m.blocks

theorem maximum_eq (m : Bitmap) : m.maximum = 4096 * m.blocks := Nat.mul_comm _ _

theorem isSet_eq (m : Bitmap) (d : Disk) (k : ℕ) :
    m.isSet d k = (d (m.startBlockId + k / 4096)).getLsbD (k % 4096) := rfl

theorem isSet_congr {m : Bitmap} {d d' : Disk} (h : ∀ b, m.Owns b → d' b = d b) {k : ℕ}
    (hk : k < m.maximum) : m.isSet d' k = m.isSet d k := by
  rw [maximum_eq] at hk
  rw [isSet_eq, isSet_eq, h]
  exact ⟨by omega, by omega⟩

theorem used_congr {m : Bitmap} {d d' : Disk} (h : ∀ k < m.maximum, m.isSet d' k = m.isSet d k) :
    m.used d' = m.used d := by
  apply List.countP_congr
  intro k hk
  rw [h k (List.mem_range.mp hk)]

/-- `p` has been added to the set, and nothing else has changed. -/
structure Added (m : Bitmap) (d d' : Disk) (p : ℕ) : Prop where
  lt : p < m.maximum
  clear : m.isSet d p = false
  bits : ∀ k < m.maximum, m.isSet d' k = (decide (k = p) || m.isSet d k)
  frame : ∀ b, ¬ m.Owns b → d' b = d b

/-- `p` has been removed from the set, and nothing else has changed. -/
structure Removed (m : Bitmap) (d d' : Disk) (p : ℕ) : Prop where
  bits : ∀ k < m.maximum, m.isSet d' k = (decide (k ≠ p) && m.isSet d k)
  frame : ∀ b, ¬ m.Owns b → d' b = d b

/-- One bit of the bitmap after one block of it has been stored. -/
theorem isSet_update (m : Bitmap) (d : Disk) (j : ℕ) (b : Block) (k : ℕ) :
    m.isSet (Function.update d (j + m.startBlockId) b) k =
      if k / 4096 = j then b.getLsbD (k % 4096) else m.isSet d k := by
  rw [isSet_eq, isSet_eq, Function.update_apply]
  by_cases h : k / 4096 = j
  · rw [if_pos (by omega), if_pos h]
  · rw [if_neg (by omega), if_neg h]

theorem run_allocFrom (m : Bitmap) (n j : ℕ) (held : List ℕ) (d : Disk)
    (hj : j + n = m.blocks) (hheld : ∀ b, m.Owns b → b ∉ held) :
    (∃ p d', (allocFrom m.startBlockId n j).run held d = some (some p, d') ∧ m.Added d d' p ∧
      ∀ k < p, 4096 * j ≤ k → m.isSet d k = true) ∨
    ((allocFrom m.startBlockId n j).run held d = some (none, d) ∧
      ∀ k < m.maximum, 4096 * j ≤ k → m.isSet d k = true) := by
  -- the blocks before `j` are full; induction on the blocks that are left
  induction n generalizing j with
  | zero =>
    right
    refine ⟨rfl, fun k hk hjk => ?_⟩
    rw [maximum_eq] at hk
    omega
  | succ n ih =>
    have hown : m.Owns (j + m.startBlockId) := ⟨by omega, by omega⟩
    cases hin : allocInBlock (d (j + m.startBlockId)) with
    | none =>
      have hfull : ∀ k, k / 4096 = j → m.isSet d k = true := by
        intro k hk
        rw [isSet_eq, hk, Nat.add_comm]
        exact allocInBlock_none hin (Nat.mod_lt k (by decide))
      have hrun : (allocFrom m.startBlockId (n + 1) j).run held d =
          (allocFrom m.startBlockId n (j + 1)).run held d := by
        rw [allocFrom, Prog.run_bind_of (run_modifyBlock (v := d (j + m.startBlockId))
          (a := none) (e := d) (hheld _ hown) (by simp [hin])), Function.update_eq_self]
        rfl
      rw [hrun]
      rcases ih (j + 1) (by omega) with ⟨p, d', hr, ha, hb⟩ | ⟨hr, hb⟩
      · left
        refine ⟨p, d', hr, ha, fun k hk hjk => ?_⟩
        by_cases hkj : k / 4096 = j
        · exact hfull k hkj
        · exact hb k hk (by omega)
      · right
        refine ⟨hr, fun k hk hjk => ?_⟩
        by_cases hkj : k / 4096 = j
        · exact hfull k hkj
        · exact hb k hk (by omega)
    | some r =>
      left
      obtain ⟨p, b'⟩ := r
      obtain ⟨hp, hclear, hbelow, hbits⟩ := allocInBlock_some hin
      have hdiv : (j * 4096 + p) / 4096 = j := by omega
      have hmod : (j * 4096 + p) % 4096 = p := by omega
      refine ⟨j * 4096 + p, Function.update d (j + m.startBlockId) b', ?_, ⟨?_, ?_, ?_, ?_⟩, ?_⟩
      · rw [allocFrom, Prog.run_bind_of (run_modifyBlock (v := b')
          (a := some (j * 4096 + p)) (e := d) (hheld _ hown) (by simp only [hin]; rfl))]
        rfl
      · rw [maximum_eq]; omega
      · rw [isSet_eq, hdiv, hmod, Nat.add_comm]; exact hclear
      · intro k _
        rw [isSet_update]
        split_ifs with hk
        · rw [hbits, isSet_eq, hk, Nat.add_comm m.startBlockId j]
          congr 1
          rw [decide_eq_decide]
          omega
        · have hne : k ≠ j * 4096 + p := by omega
          simp [hne]
      · intro b hb
        exact Function.update_of_ne (by rintro rfl; exact hb hown) _ _
      · intro k hk hjk
        rw [isSet_eq, show k / 4096 = j by omega, Nat.add_comm]
        exact hbelow _ (by omega)

/-- `alloc` adds the least number that is not in the set, or the set is full. -/
theorem run_alloc (m : Bitmap) (held : List ℕ) (d : Disk) (hheld : ∀ b, m.Owns b → b ∉ held) :
    (∃ p d', m.alloc.run held d = some (some p, d') ∧ m.Added d d' p ∧
      ∀ k < p, m.isSet d k = true) ∨
    (m.alloc.run held d = some (none, d) ∧ ∀ k < m.maximum, m.isSet d k = true) := by
  rcases run_allocFrom m m.blocks 0 held d (by omega) hheld with ⟨p, d', hr, ha, hb⟩ | ⟨hr, hb⟩
  · exact Or.inl ⟨p, d', hr, ha, fun k hk => hb k hk (by omega)⟩
  · exact Or.inr ⟨hr, fun k hk => hb k hk (by omega)⟩

end Bitmap

/-- Clearing one bit of one word of a block, by subtraction. -/
theorem getLsbD_setU64_sub (b : Block) {i p : ℕ} (hi : i < 64) (hp : p < 64)
    (hset : b.getLsbD (i * 64 + p) = true) (k : ℕ) :
    (setU64 b i (u64At b i - (1#64 <<< p))).getLsbD k =
      (decide (k ≠ i * 64 + p) && b.getLsbD k) := by
  have hand : (u64At b i &&& ~~~(1#64 <<< p)) &&& (1#64 <<< p) = 0#64 := by
    rw [BitVec.and_assoc, BitVec.and_comm (~~~(1#64 <<< p)), BitVec.and_not_self]
    exact BitVec.and_zero
  have hor : (u64At b i &&& ~~~(1#64 <<< p)) ||| (1#64 <<< p) = u64At b i := by
    apply BitVec.eq_of_getLsbD_eq
    intro j hj
    rw [← BitVec.twoPow_eq, BitVec.getLsbD_or, BitVec.getLsbD_and, BitVec.getLsbD_not,
      BitVec.getLsbD_twoPow]
    by_cases hjp : p = j
    · subst hjp
      rw [getLsbD_u64At b i hp, Nat.mul_comm, hset]
      simp [hp]
    · simp [hjp, hj]
  have hsub : u64At b i - (1#64 <<< p) = u64At b i &&& ~~~(1#64 <<< p) := by
    have hadd := BitVec.add_eq_or_of_and_eq_zero _ _ hand
    rw [hor] at hadd
    rw [← hadd, BitVec.add_sub_cancel, hadd]
  rw [setU64, getLsbD_splice, hsub]
  split_ifs with h
  · have hk : k - 64 * i < 64 := by omega
    have hk2 : k < 4096 := by omega
    rw [BitVec.getLsbD_and, getLsbD_u64At b i hk, Nat.add_sub_cancel' h.1,
      decide_eq_true hk2, Bool.true_and, Bool.and_comm, ← BitVec.twoPow_eq, BitVec.getLsbD_not,
      BitVec.getLsbD_twoPow]
    congr 1
    simp only [hp, hk, decide_true, Bool.true_and]
    rw [← decide_not, decide_eq_decide]
    omega
  · have hne : k ≠ i * 64 + p := by omega
    simp [hne]

namespace Bitmap

/-- `dealloc` of a number in the set removes it. -/
theorem run_dealloc (m : Bitmap) {held : List ℕ} {d : Disk} (hheld : ∀ b, m.Owns b → b ∉ held)
    {p : ℕ} (hp : p < m.maximum) (hset : m.isSet d p = true) :
    ∃ d', (m.dealloc p).run held d = some ((), d') ∧ m.Removed d d' p := by
  have hp' := hp
  rw [maximum_eq] at hp'
  have hown : m.Owns (p / 4096 + m.startBlockId) := ⟨by omega, by omega⟩
  have hpos : p % 4096 / 64 * 64 + p % 4096 % 64 = p % 4096 := by omega
  rw [isSet_eq, Nat.add_comm] at hset
  set b := d (p / 4096 + m.startBlockId) with hb
  have hbit : b.getLsbD (p % 4096 / 64 * 64 + p % 4096 % 64) = true := by rw [hpos]; exact hset
  have hassert : u64At b (p % 4096 / 64) &&& (1#64 <<< (p % 4096 % 64)) ≠ 0 := by
    intro h0
    have hlt : p % 4096 % 64 < 64 := Nat.mod_lt _ (by decide)
    have hz : (u64At b (p % 4096 / 64) &&& (1#64 <<< (p % 4096 % 64))).getLsbD (p % 4096 % 64) =
        false := by rw [h0]; exact BitVec.getLsbD_zero
    rw [BitVec.getLsbD_and, getLsbD_u64At b _ hlt, Nat.mul_comm 64, hbit, ← BitVec.twoPow_eq,
      BitVec.getLsbD_twoPow, decide_eq_true hlt, decide_eq_true rfl] at hz
    exact Bool.noConfusion hz
  refine ⟨Function.update d (p / 4096 + m.startBlockId)
    (setU64 b (p % 4096 / 64) (u64At b (p % 4096 / 64) - (1#64 <<< (p % 4096 % 64)))), ?_, ?_, ?_⟩
  · simp only [dealloc, decomposition]
    apply run_modifyBlock (hheld _ hown)
    exact Prog.run_bind_of (Prog.run_assert hassert _ _) _
  · intro k _
    rw [isSet_update]
    split_ifs with hk
    · rw [getLsbD_setU64_sub b (by omega) (Nat.mod_lt _ (by decide)) hbit, isSet_eq, hk,
        Nat.add_comm m.startBlockId, ← hb, hpos]
      congr 1
      rw [decide_eq_decide]
      omega
    · have hne : k ≠ p := fun he => hk (by rw [he])
      simp [hne]
  · intro c hc
    exact Function.update_of_ne (by rintro rfl; exact hc hown) _ _

theorem used_added {m : Bitmap} {d d' : Disk} {p : ℕ} (h : m.Added d d' p) :
    m.used d' = m.used d + 1 :=
  countP_range_insert h.lt h.clear h.bits

/-- Where everything below `p` is in the set, the set has at least `p` elements. -/
theorem le_used {m : Bitmap} {d : Disk} {p : ℕ} (hp : p ≤ m.maximum)
    (h : ∀ k < p, m.isSet d k = true) : p ≤ m.used d :=
  le_countP_range hp h

end Bitmap

end RCore.EasyFs
