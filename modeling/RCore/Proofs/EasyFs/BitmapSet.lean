import RCore.Sanity.EasyFs.Requests

/-! A bitmap stands for a finite set of numbers below `maximum`, after any sequence of
calls: `alloc` adds the least number that is missing, `dealloc` takes one out. -/

namespace RCore.EasyFs

open RCore.Lib

variable {d d₁ d' : Disk}

namespace Bitmap

variable {m : Bitmap} {bit : ℕ}

/-- The mask of `dealloc` meets no bit of the word when the number is not in the set. -/
theorem u64At_and_eq_zero {b : Block} (h : b.getLsbD (bit % 4096) = false) :
    u64At b (bit % 4096 / 64) &&& (1#64 <<< (bit % 4096 % 64)) = 0 := by
  apply BitVec.eq_of_getLsbD_eq
  intro k hk
  rw [BitVec.getLsbD_and, ← BitVec.twoPow_eq, BitVec.getLsbD_twoPow, getLsbD_u64At _ _ hk]
  by_cases hkb : bit % 4096 % 64 = k
  · have hpos : 64 * (bit % 4096 / 64) + k = bit % 4096 := by omega
    rw [hpos, h, Bool.false_and]
    exact BitVec.getLsbD_zero.symm
  · rw [decide_eq_false hkb, Bool.and_false, Bool.and_false]
    exact BitVec.getLsbD_zero.symm

/-- The assertion of `dealloc` fails for a number that is not in the set. -/
theorem run_dealloc_clear (m : Bitmap) (held : List ℕ) (hclear : m.isSet d bit = false) :
    (m.dealloc bit).run held d = none := by
  cases h : (m.dealloc bit).run held d with
  | none => rfl
  | some r =>
    exfalso
    simp only [dealloc, decomposition] at h
    obtain ⟨-, v, d₂, hf, -⟩ := run_modifyAt_eq_some h
    obtain ⟨u, d₃, hassert, -⟩ := Prog.run_bind_eq_some hf
    rw [Nat.mul_zero, field_full] at hassert
    rw [isSet_eq, Nat.add_comm] at hclear
    exact Prog.run_assert_eq_some hassert (u64At_and_eq_zero hclear)

theorem mem_members {k : ℕ} : k ∈ m.members d ↔ k < m.maximum ∧ m.isSet d k = true := by
  simp [members]

theorem members_added {p : ℕ} (h : m.Added d d' p) : m.members d' = insert p (m.members d) := by
  ext k
  rw [Finset.mem_insert, mem_members, mem_members]
  constructor
  · rintro ⟨hk, hset⟩
    rw [h.bits k hk, Bool.or_eq_true, decide_eq_true_eq] at hset
    exact hset.imp_right fun hs => ⟨hk, hs⟩
  · rintro (rfl | ⟨hk, hset⟩)
    · exact ⟨h.lt, by rw [h.bits k h.lt]; simp⟩
    · exact ⟨hk, by rw [h.bits k hk, hset]; simp⟩

theorem members_removed (h : m.Removed d d' bit) : m.members d' = (m.members d).erase bit := by
  ext k
  rw [Finset.mem_erase, mem_members, mem_members]
  constructor
  · rintro ⟨hk, hset⟩
    rw [h.bits k hk, Bool.and_eq_true, decide_eq_true_eq] at hset
    exact ⟨hset.1, hk, hset.2⟩
  · rintro ⟨hne, hk, hset⟩
    exact ⟨hk, by rw [h.bits k hk, hset]; simpa using hne⟩

end Bitmap

/-- What `alloc` does to the set that the bitmap stands for. -/
theorem Bitmap.run_alloc_members (m : Bitmap) (d : Disk) :
    (∃ p d', m.alloc.run [] d = some (some p, d') ∧ IsLeast {k | k ∉ m.members d} p ∧
      p < m.maximum ∧ m.members d' = insert p (m.members d) ∧ ∀ b, ¬ m.Owns b → d' b = d b) ∨
    (m.alloc.run [] d = some (none, d) ∧ m.members d = Finset.range m.maximum) := by
  rcases m.run_alloc [] d (by simp) with ⟨p, d', hr, ha, hbelow⟩ | ⟨hr, hfull⟩
  · left
    refine ⟨p, d', hr, ⟨?_, fun k hk => ?_⟩, ha.lt, members_added ha, ha.frame⟩
    · rw [Set.mem_ofPred_eq, mem_members, ha.clear]
      simp
    · by_contra hlt
      exact hk (mem_members.mpr ⟨by have := ha.lt; omega, hbelow k (by omega)⟩)
  · right
    refine ⟨hr, ?_⟩
    ext k
    rw [mem_members, Finset.mem_range]
    exact ⟨fun h => h.1, fun h => ⟨h, hfull k h⟩⟩

/-- The set that the calls so far amount to is the one on disk. -/
theorem BitmapRun.members_eq {m : Bitmap} {S : Finset ℕ} (h : BitmapRun m d₁ d S) :
    m.members d = S := by
  induction h with
  | init => rfl
  | alloc h hr ih =>
    subst ih
    rcases m.run_alloc_members _ with ⟨p, d₂, hr', -, -, hadd, -⟩ | ⟨hr', -⟩
    · rw [hr, Option.some.injEq, Prod.mk.injEq] at hr'
      obtain ⟨rfl, rfl⟩ := hr'
      exact hadd
    · rw [hr, Option.some.injEq, Prod.mk.injEq] at hr'
      obtain ⟨rfl, rfl⟩ := hr'
      rfl
  | @dealloc d d' S bit h hbit hr ih =>
    subst ih
    cases hset : m.isSet d bit with
    | false =>
      rw [m.run_dealloc_clear [] hset] at hr
      cases hr
    | true =>
      obtain ⟨d₂, hr', hrem⟩ := m.run_dealloc (fun _ _ => List.not_mem_nil) hbit hset
      rw [hr, Option.some.injEq, Prod.mk.injEq] at hr'
      rw [hr'.2]
      exact Bitmap.members_removed hrem

/-- After any calls, `alloc` returns the least number that is not in the set and adds it,
or the set is full and nothing changes; `dealloc` takes a member out, and fails for any
other number below `maximum`. Both open blocks of the bitmap only, and change no other. -/
theorem bitmap_as_set {m : Bitmap} {S : Finset ℕ} (h : BitmapRun m d₁ d S) :
    (∀ k ∈ S, k < m.maximum) ∧ (∀ k < m.maximum, k ∈ S ↔ m.isSet d k = true) ∧
    ((∃ p d', m.alloc.run [] d = some (some p, d') ∧ IsLeast {k | k ∉ S} p ∧ p < m.maximum ∧
        m.members d' = insert p S ∧ ∀ b, ¬ m.Owns b → d' b = d b) ∨
      (m.alloc.run [] d = some (none, d) ∧ S = Finset.range m.maximum)) ∧
    (∀ bit ∈ S, ∃ d', (m.dealloc bit).run [] d = some ((), d') ∧ m.members d' = S.erase bit ∧
      ∀ b, ¬ m.Owns b → d' b = d b) ∧
    (∀ bit < m.maximum, bit ∉ S → (m.dealloc bit).run [] d = none) ∧
    m.alloc.Always (Event.Asks m.Owns) [] d ∧
    ∀ bit < m.maximum, (m.dealloc bit).Always (Event.Asks m.Owns) [] d := by
  obtain rfl := h.members_eq
  refine ⟨fun k hk => (Bitmap.mem_members.mp hk).1, fun k hk => ?_, m.run_alloc_members d,
    fun bit hbit => ?_, fun bit hlt hbit => ?_, Bitmap.always_alloc (fun b hb => hb) d,
    fun bit hlt => Bitmap.always_dealloc (fun b hb => hb) hlt d⟩
  · rw [Bitmap.mem_members]
    exact ⟨fun hm => hm.2, fun hs => ⟨hk, hs⟩⟩
  · obtain ⟨hlt, hset⟩ := Bitmap.mem_members.mp hbit
    obtain ⟨d', hr, hrem⟩ := m.run_dealloc (fun _ _ => List.not_mem_nil) hlt hset
    exact ⟨d', hr, Bitmap.members_removed hrem, hrem.frame⟩
  · apply m.run_dealloc_clear []
    by_contra hset
    exact hbit (Bitmap.mem_members.mpr ⟨hlt, by simpa using hset⟩)

/-- The first number out of an empty bitmap of one block. -/
theorem bitmap_as_set_empty : ∃ d', (Bitmap.mk 5 1).alloc.run [] (fun _ => 0) =
    some (some 0, d') ∧ (Bitmap.mk 5 1).members d' = {0} ∧ d' 4 = 0 := by
  have hempty : (Bitmap.mk 5 1).members (fun _ => 0) = ∅ := by
    ext k
    rw [Bitmap.mem_members, Bitmap.isSet_eq, BitVec.ofNat_eq_ofNat, BitVec.getLsbD_zero]
    simp
  rcases (bitmap_as_set (m := ⟨5, 1⟩) (BitmapRun.init)).2.2.1 with
    ⟨p, d', hr, hp, -, hmem, hframe⟩ | ⟨-, hfull⟩
  · rw [hempty] at hp hmem
    obtain rfl : p = 0 := Nat.le_zero.mp (hp.2 (Finset.notMem_empty 0))
    exact ⟨d', hr, hmem, hframe 4 fun h => absurd h.1 (by decide)⟩
  · rw [hempty] at hfull
    exact absurd hfull.symm (by decide +kernel)

end RCore.EasyFs
