import RCore.Lib.While

/-! How much a computation takes of a supply. It ends with a certain error when there is
nothing left. -/

namespace RCore.Lib

variable {ε α β σ : Type}

/-- At most `n` is taken of `supply`; `left` says what is left. The computation does not end
with the error `none` when there was as much as that. -/
def Takes (none : ε) (supply : ℕ) (left : α → ℕ) (n : ℕ) (r : Except ε α) : Prop :=
  Ensures r (fun a => supply ≤ left a + n) fun e => e = none → supply < n

namespace Takes

variable {none : ε} {supply n k : ℕ} {left : α → ℕ} {left' : β → ℕ} {r : Except ε α} {f : α → Except ε β}

theorem pure {a : α} (h : supply ≤ left a + n) : Takes none supply left n (pure a) := h

theorem ok {a : α} (h : supply ≤ left a + n) : Takes none supply left n (.ok a) := h

theorem throw {e : ε} (h : e ≠ none) : Takes none supply left n (throw e) := fun he => absurd he h

theorem mono (h : Takes none supply left n r) (hle : n ≤ k) : Takes none supply left k r :=
  (Ensures.mono h fun _ ha => ha.trans (Nat.add_le_add_left hle _)).fails_imp fun _ he hn => (he hn).trans_le hle

theorem bind (h : Takes none supply left n r) (hf : ∀ a, r = .ok a → Takes none (left a) left' k (f a)) :
    Takes none supply left' (n + k) (r >>= f) := by
  cases r with
  | error e => exact fun hn => (h hn).trans_le (Nat.le_add_right n k)
  | ok a =>
    have hle : supply ≤ left a + n := h
    refine (Ensures.mono (hf a rfl) fun b hb => ?_).fails_imp fun e he hn => ?_
    · omega
    · have := he hn
      omega

/-- Nothing is taken by the first part. -/
theorem bind_free {γ : Type} {r : Except ε γ} {f : γ → Except ε β} (h : ∀ e, r = .error e → e ≠ none)
    (hf : ∀ a, r = .ok a → Takes none supply left' k (f a)) : Takes none supply left' k (r >>= f) := by
  cases r with
  | error e => exact fun hn => absurd hn (h e rfl)
  | ok a => exact hf a rfl

theorem ite {p : Prop} [Decidable p] {r' : Except ε α} (ht : p → Takes none supply left n r)
    (hf : ¬ p → Takes none supply left n r') : Takes none supply left n (if p then r else r') :=
  Ensures.ite ht hf

/-- A loop takes what its rounds take. -/
theorem whileM {cond : σ → Bool} {body : σ → Except ε σ} (left : σ → ℕ)
    (hbody : ∀ s, Takes none (left s) left n (body s)) (rounds : ℕ) (s : σ) :
    Takes none (left s) left (rounds * n) (whileM cond body rounds s) := by
  induction rounds generalizing s with
  | zero => exact pure (Nat.le_add_right _ _)
  | succ rounds ih =>
    refine ite (fun _ => ?_) fun _ => pure (Nat.le_add_right _ _)
    refine (bind (hbody s) fun s' _ => ih s').mono ?_
    rw [Nat.succ_mul, Nat.add_comm]

/-- The variant says how many rounds there are. -/
theorem whileM_variant {cond : σ → Bool} {body : σ → Except ε σ} (left : σ → ℕ) (inv : σ → Prop) (variant : σ → ℕ) (hpos : ∀ s, inv s → cond s = true → 0 < variant s)
    (hinv : ∀ s, inv s → cond s = true → Ensures (body s) (fun s' => inv s' ∧ variant s' < variant s) fun _ => True)
    (hbody : ∀ s, inv s → cond s = true → Takes none (left s) left 1 (body s)) (rounds : ℕ) {s : σ} (hs : inv s) :
    Takes none (left s) left (variant s) (Lib.whileM cond body rounds s) := by
  induction rounds generalizing s with
  | zero => exact pure (Nat.le_add_right _ _)
  | succ rounds ih =>
    refine ite (fun hc => ?_) fun _ => pure (Nat.le_add_right _ _)
    have hpos := hpos s hs hc
    refine (bind (k := variant s - 1) (hbody s hs hc) fun s' hs' => ?_).mono (by omega)
    have hnext := (hinv s hs hc).post_of_ok hs'
    exact (ih hnext.1).mono (by omega)

end Takes

end RCore.Lib
