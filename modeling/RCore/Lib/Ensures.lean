import Mathlib.Tactic

/-! What a computation that may end with an error guarantees: a postcondition of its
result, and a condition on its errors. -/

namespace RCore.Lib

variable {ε α β : Type}

def Ensures (r : Except ε α) (post : α → Prop) (fails : ε → Prop) : Prop :=
  match r with
  | .ok a => post a
  | .error e => fails e

theorem ok_of_toOption {r : Except ε α} {a : α} (h : r.toOption = some a) : r = .ok a := by
  cases r with
  | ok b => rw [Option.some.inj h]
  | error e => cases h

/-- The error, if there is one. -/
def error? : Except ε α → Option ε
  | .ok _ => none
  | .error e => some e

theorem error_of_error? {r : Except ε α} {e : ε} (h : error? r = some e) : r = .error e := by
  cases r with
  | ok a => cases h
  | error e' => rw [Option.some.inj h]

namespace Ensures

variable {r : Except ε α} {f : α → Except ε β} {post post' : α → Prop} {goal : β → Prop}
  {fails : ε → Prop}

theorem pure {a : α} (h : post a) : Ensures (pure a : Except ε α) post fails := h

theorem ok {a : α} (h : post a) : Ensures (.ok a : Except ε α) post fails := h

theorem error {e : ε} (h : fails e) : Ensures (.error e : Except ε α) post fails := h

theorem throw {e : ε} (h : fails e) : Ensures (throw e : Except ε α) post fails := h

theorem mono (h : Ensures r post fails) (himp : ∀ a, post a → post' a) :
    Ensures r post' fails := by
  cases r with
  | ok a => exact himp a h
  | error e => exact h

theorem bind (h : Ensures r post fails) (hf : ∀ a, post a → Ensures (f a) goal fails) :
    Ensures (r >>= f) goal fails := by
  cases r with
  | ok a => exact hf a h
  | error e => exact h

theorem ite {p : Prop} [Decidable p] {s : Except ε α} (ht : p → Ensures r post fails)
    (hf : ¬ p → Ensures s post fails) : Ensures (if p then r else s) post fails := by
  split_ifs with hp
  · exact ht hp
  · exact hf hp

/-- What comes out is the result. -/
theorem result : Ensures r (fun a => r = .ok a) fun _ => True := by
  cases r with
  | ok a => exact rfl
  | error e => exact trivial

/-- What comes out is the result or the error. -/
theorem cases : Ensures r (fun a => r = .ok a) fun e => r = .error e := by
  cases r with
  | ok a => exact rfl
  | error e => exact rfl

theorem fails_imp {fails' : ε → Prop} (h : Ensures r post fails) (himp : ∀ e, fails e → fails' e) :
    Ensures r post fails' := by
  cases r with
  | ok a => exact h
  | error e => exact himp e h

/-- A computation that never fails. -/
theorem total (h : Ensures r post fun _ => False) : ∃ a, r = .ok a ∧ post a := by
  cases r with
  | ok a => exact ⟨a, rfl, h⟩
  | error e => exact h.elim

theorem weaken (h : Ensures r post fails) : Ensures r post fun _ => True := by
  cases r with
  | ok a => exact h
  | error e => exact trivial

theorem and {fails' : ε → Prop} (h : Ensures r post fails) (h' : Ensures r post' fails') :
    Ensures r (fun a => post a ∧ post' a) fails := by
  cases r with
  | ok a => exact ⟨h, h'⟩
  | error e => exact h

theorem and_fails {fails' : ε → Prop} (h : Ensures r post fails) (h' : Ensures r post' fails') :
    Ensures r (fun a => post a ∧ post' a) fun e => fails e ∧ fails' e := by
  cases r with
  | ok a => exact ⟨h, h'⟩
  | error e => exact ⟨h, h'⟩

theorem post_of_ok {a : α} (h : Ensures r post fails) (hr : r = .ok a) : post a := by
  rw [hr] at h
  exact h

theorem post_of_some {a : α} (h : Ensures r post fails) (hr : r.toOption = some a) : post a :=
  h.post_of_ok (ok_of_toOption hr)

theorem fails_of_error {e : ε} (h : Ensures r post fails) (hr : r = .error e) : fails e := by
  rw [hr] at h
  exact h

end Ensures

end RCore.Lib
