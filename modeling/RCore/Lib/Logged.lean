import Mathlib.Tactic

/-! Programs over a state that may stop, and that log what they do up to where they end. -/

namespace RCore.Lib

/-- A log of `ω`, a state `σ` and a reason `ε` to stop. The log is there also when the program
has stopped. -/
def Logged (ω σ ε α : Type) : Type := σ → List ω × Except ε (α × σ)

namespace Logged

variable {ω σ ε α β : Type}

def bind (x : Logged ω σ ε α) (f : α → Logged ω σ ε β) : Logged ω σ ε β := fun s =>
  match x s with
  | (log, .ok (a, s)) => (log ++ (f a s).1, (f a s).2)
  | (log, .error e) => (log, .error e)

instance : Monad (Logged ω σ ε) where
  pure a := fun s => ([], .ok (a, s))
  bind := bind

def stop (e : ε) : Logged ω σ ε α := fun _ => ([], .error e)

/-- Everything that is logged from state `s` on has the property. -/
def All (P : ω → Prop) (x : Logged ω σ ε α) (s : σ) : Prop := ∀ w ∈ (x s).1, P w

variable {P : ω → Prop} {x : Logged ω σ ε α} {f : α → Logged ω σ ε β} {s s' : σ} {a : α} {e : ε}

theorem bind_of_ok (h : (x s).2 = .ok (a, s')) :
    (x >>= f) s = ((x s).1 ++ (f a s').1, (f a s').2) := by
  change bind x f s = _
  rcases hx : x s with ⟨log, r⟩
  rw [hx] at h
  subst h
  rw [bind, hx]

theorem bind_of_error (h : (x s).2 = .error e) : (x >>= f) s = ((x s).1, .error e) := by
  change bind x f s = _
  rcases hx : x s with ⟨log, r⟩
  rw [hx] at h
  subst h
  rw [bind, hx]

/-- A sequence returns only if both parts do. -/
theorem ok_of_bind {r : β × σ} (h : ((x >>= f) s).2 = .ok r) :
    ∃ a s', (x s).2 = .ok (a, s') ∧ (f a s').2 = .ok r := by
  cases hx : (x s).2 with
  | error e =>
    rw [bind_of_error hx] at h
    cases h
  | ok q =>
    obtain ⟨a, s'⟩ := q
    rw [bind_of_ok hx] at h
    exact ⟨a, s', rfl, h⟩

@[simp] theorem all_pure (P : ω → Prop) (a : α) (s : σ) : All P (pure a : Logged ω σ ε α) s :=
  fun _ hw => absurd hw List.not_mem_nil

/-- A sequence logs what its parts do, and the second part only if the first one returns. -/
theorem all_bind : All P (x >>= f) s ↔
    All P x s ∧ ∀ a s', (x s).2 = .ok (a, s') → All P (f a) s' := by
  cases hx : (x s).2 with
  | error e =>
    rw [All, bind_of_error hx]
    exact ⟨fun h => ⟨h, fun _ _ h' => by cases h'⟩, fun h => h.1⟩
  | ok r =>
    obtain ⟨a, s'⟩ := r
    rw [All, bind_of_ok hx]
    simp only [List.mem_append]
    constructor
    · intro h
      refine ⟨fun w hw => h w (.inl hw), fun a' s'' heq => ?_⟩
      cases heq
      exact fun w hw => h w (.inr hw)
    · rintro ⟨h, h'⟩ w (hw | hw)
      · exact h w hw
      · exact h' a s' rfl w hw

theorem all_map {g : α → β} : All P (g <$> x) s ↔ All P x s := by
  change All P (x >>= fun a => pure (g a)) s ↔ _
  rw [all_bind]
  exact ⟨fun h => h.1, fun h => ⟨h, fun _ _ _ => all_pure P _ _⟩⟩

end Logged

end RCore.Lib
