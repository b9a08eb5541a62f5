import RCore.Lib.Ensures

/-! Loops with a condition and a body that may end with an error. -/

namespace RCore.Lib

variable {ε σ : Type}

/-- The loop stops when its condition is false, or after so many rounds. -/
def whileM (cond : σ → Bool) (body : σ → Except ε σ) : ℕ → σ → Except ε σ
  | 0, s => pure s
  | rounds + 1, s => if cond s then body s >>= whileM cond body rounds else pure s

variable {cond : σ → Bool} {body : σ → Except ε σ} {fails : ε → Prop}

theorem whileM_inv (inv : σ → Prop) (hbody : ∀ s, inv s → Ensures (body s) inv fails) {rounds : ℕ} {s : σ}
    (hs : inv s) : Ensures (whileM cond body rounds s) inv fails := by
  induction rounds generalizing s with
  | zero => exact Ensures.pure hs
  | succ rounds ih => exact Ensures.ite (fun _ => (hbody s hs).bind fun s' hs' => ih hs') fun _ => Ensures.pure hs

/-- A loop keeps its invariant. As many rounds as the variant says are enough: the condition
is false in the end. -/
theorem whileM_spec (inv : σ → Prop) (variant : σ → ℕ) (hpos : ∀ s, inv s → cond s = true → 0 < variant s)
    (hbody : ∀ s, inv s → cond s = true → Ensures (body s) (fun s' => inv s' ∧ variant s' < variant s) fails)
    {rounds : ℕ} {s : σ} (hs : inv s) (hrounds : variant s ≤ rounds) :
    Ensures (whileM cond body rounds s) (fun s' => inv s' ∧ cond s' = false) fails := by
  induction rounds generalizing s with
  | zero =>
    refine Ensures.pure ⟨hs, ?_⟩
    rw [← Bool.not_eq_true]
    intro hc
    have := hpos s hs hc
    omega
  | succ rounds ih =>
    refine Ensures.ite (fun hc => ?_) fun hc => Ensures.pure ⟨hs, Bool.eq_false_iff.mpr hc⟩
    refine (hbody s hs hc).bind fun s' hs' => ih hs'.1 ?_
    have := hs'.2
    omega

/-- A loop that counts up to `n`. -/
theorem whileM_count {n : ℕ} (inv : ℕ → σ → Prop)
    (hcond : ∀ k s, k ≤ n → inv k s → (cond s = true ↔ k < n))
    (hbody : ∀ k s, k < n → inv k s → Ensures (body s) (inv (k + 1)) fails) {s : σ} (hs : inv 0 s) :
    Ensures (whileM cond body n s) (inv n) fails := by
  suffices h : ∀ rounds k s, k + rounds = n → inv k s → Ensures (whileM cond body rounds s) (inv n) fails from
    h n 0 s (Nat.zero_add n) hs
  intro rounds
  induction rounds with
  | zero =>
    rintro k s rfl hs
    exact Ensures.pure hs
  | succ rounds ih =>
    intro k s hk hs
    refine Ensures.ite (fun _ => ?_) fun hc => ?_
    · exact (hbody k s (by omega) hs).bind fun s' hs' => ih (k + 1) s' (by omega) hs'
    · exact absurd ((hcond k s (by omega) hs).mpr (by omega)) hc

theorem whileM_of_false {s : σ} (h : cond s = false) (rounds : ℕ) : whileM cond body rounds s = pure s := by
  cases rounds with
  | zero => rfl
  | succ rounds => exact if_neg (by rw [h]; exact Bool.false_ne_true)

end RCore.Lib
