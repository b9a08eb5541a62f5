import Mathlib.Logic.Function.Basic
import Mathlib.Tactic

/-! Programs over a store of locked cells. A program opens a cell, works on its
value while it holds the cell's lock (opening further cells meanwhile), and
closes it again. The tree says nothing about how the store keeps its cells:
`run` interprets it over a plain array. -/

namespace RCore.Lib

/-- A program over cells named by `κ` that hold a `ν`. `read` and `modify` hold
the cell's lock while `body` runs, and `modify` stores the first component of
what `body` returns. `fail` is a panic. `sync` visits every cell. -/
inductive Prog (κ ν : Type) : Type → Type 1
  | ret {α : Type} (a : α) : Prog κ ν α
  | fail {α : Type} : Prog κ ν α
  | read {α β : Type} (key : κ) (body : ν → Prog κ ν β) (k : β → Prog κ ν α) : Prog κ ν α
  | modify {α β : Type} (key : κ) (body : ν → Prog κ ν (ν × β)) (k : β → Prog κ ν α) : Prog κ ν α
  | sync {α : Type} (k : Prog κ ν α) : Prog κ ν α

namespace Prog

variable {κ ν α β : Type}

def bind : Prog κ ν α → (α → Prog κ ν β) → Prog κ ν β
  | .ret a, f => f a
  | .fail, _ => .fail
  | .read key body k, f => .read key body fun b => (k b).bind f
  | .modify key body k, f => .modify key body fun b => (k b).bind f
  | .sync k, f => .sync (k.bind f)

instance : Monad (Prog κ ν) where
  pure := .ret
  bind := bind

/-- An `unwrap`: `none` is a panic. -/
def ofOption : Option α → Prog κ ν α
  | some a => .ret a
  | none => .fail

/-- An `assert!`. -/
def assert (p : Prop) [Decidable p] : Prog κ ν Unit := if p then .ret () else .fail

/-- At most `n` locks are held at once, on top of those held at the start. -/
def Within : {α : Type} → ℕ → Prog κ ν α → Prop
  | _, _, .ret _ => True
  | _, _, .fail => True
  | _, n, .read _ body k => 0 < n ∧ (∀ v, (body v).Within (n - 1)) ∧ ∀ b, (k b).Within n
  | _, n, .modify _ body k => 0 < n ∧ (∀ v, (body v).Within (n - 1)) ∧ ∀ b, (k b).Within n
  | _, n, .sync k => k.Within n

/-- What happens to a store that writes cells back only now and then: if it has nothing
to be written back at the start (`settled`), or the program syncs it later, then it has
nothing to be written back at the end (`settled'`). -/
def Settles : {α : Type} → Bool → Bool → Prog κ ν α → Prop
  | _, settled, settled', .ret _ => settled' = true → settled = true
  | _, _, _, .fail => True
  | _, settled, settled', .read _ body k =>
    ∃ m, (∀ v, (body v).Settles settled m) ∧ ∀ b, (k b).Settles m settled'
  | _, _, settled', .modify _ _ k => ∀ b, (k b).Settles false settled'
  | _, _, settled', .sync k => k.Settles true settled'

variable [DecidableEq κ]

/-- Run over a plain array of cells. Opening a cell whose lock is already held
spins for ever, as does visiting every cell while some lock is held: neither
gives a result. -/
def run : {α : Type} → Prog κ ν α → List κ → (κ → ν) → Option (α × (κ → ν))
  | _, .ret a, _, d => some (a, d)
  | _, .fail, _, _ => none
  | _, .read key body k, held, d =>
    if key ∈ held then none
    else match (body (d key)).run (key :: held) d with
      | none => none
      | some (b, d') => (k b).run held d'
  | _, .modify key body k, held, d =>
    if key ∈ held then none
    else match (body (d key)).run (key :: held) d with
      | none => none
      | some ((v, b), d') => (k b).run held (Function.update d' key v)
  | _, .sync k, held, d => if held = [] then k.run held d else none

@[simp] theorem run_pure (a : α) (held : List κ) (d : κ → ν) :
    (pure a : Prog κ ν α).run held d = some (a, d) := rfl

@[simp] theorem run_ret (a : α) (held : List κ) (d : κ → ν) :
    (ret a : Prog κ ν α).run held d = some (a, d) := rfl

@[simp] theorem run_fail (held : List κ) (d : κ → ν) :
    (fail : Prog κ ν α).run held d = none := rfl

theorem run_bind (p : Prog κ ν α) (f : α → Prog κ ν β) (held : List κ) (d : κ → ν) :
    (p >>= f).run held d = (p.run held d).bind fun r => (f r.1).run held r.2 := by
  change (p.bind f).run held d = _
  induction p generalizing held d with
  | ret a => rfl
  | fail => rfl
  | read key body k _ ihk =>
    simp only [bind, run]
    split_ifs
    · rfl
    · split <;> simp [ihk]
  | modify key body k _ ihk =>
    simp only [bind, run]
    split_ifs
    · rfl
    · split <;> simp [ihk]
  | sync k ih =>
    simp only [bind, run]
    split_ifs
    · simp [ih]
    · rfl

/-- Sequencing after a part whose result is known. -/
theorem run_bind_of {p : Prog κ ν α} {held : List κ} {d e : κ → ν} {a : α}
    (h : p.run held d = some (a, e)) (f : α → Prog κ ν β) :
    (p >>= f).run held d = (f a).run held e := by
  rw [run_bind, h]
  rfl

/-- Inversion of sequencing: both parts gave a result. -/
theorem run_bind_eq_some {p : Prog κ ν α} {f : α → Prog κ ν β} {held : List κ} {d : κ → ν}
    {r : β × (κ → ν)} (h : (p >>= f).run held d = some r) :
    ∃ a d', p.run held d = some (a, d') ∧ (f a).run held d' = some r := by
  rw [run_bind] at h
  obtain ⟨⟨a, d'⟩, hp, hf⟩ := Option.bind_eq_some_iff.mp h
  exact ⟨a, d', hp, hf⟩

theorem run_modify_of {key : κ} {body : ν → Prog κ ν (ν × β)} {held : List κ} {d d' : κ → ν}
    {v : ν} {b : β} (hk : key ∉ held)
    (h : (body (d key)).run (key :: held) d = some ((v, b), d')) :
    (modify key body ret).run held d = some (b, Function.update d' key v) := by
  simp [run, hk, h]

theorem run_read_eq_some {key : κ} {body : ν → Prog κ ν β} {held : List κ} {d : κ → ν}
    {r : β × (κ → ν)} (h : (read key body ret).run held d = some r) :
    key ∉ held ∧ (body (d key)).run (key :: held) d = some r := by
  simp only [run] at h
  split_ifs at h with hk
  refine ⟨hk, ?_⟩
  cases hb : (body (d key)).run (key :: held) d with
  | none => simp [hb] at h
  | some p => simpa [hb] using h

theorem run_modify_eq_some {key : κ} {body : ν → Prog κ ν (ν × β)} {held : List κ}
    {d : κ → ν} {b : β} {d₁ : κ → ν} (h : (modify key body ret).run held d = some (b, d₁)) :
    key ∉ held ∧ ∃ v d', (body (d key)).run (key :: held) d = some ((v, b), d') ∧
      d₁ = Function.update d' key v := by
  simp only [run] at h
  split_ifs at h with hk
  refine ⟨hk, ?_⟩
  cases hb : (body (d key)).run (key :: held) d with
  | none => simp [hb] at h
  | some p =>
    obtain ⟨⟨v, b'⟩, d'⟩ := p
    simp only [hb, Option.some.injEq, Prod.mk.injEq] at h
    obtain ⟨rfl, rfl⟩ := h
    exact ⟨v, d', rfl, rfl⟩

@[simp] theorem run_ofOption_some (a : α) (held : List κ) (d : κ → ν) :
    (ofOption (some a) : Prog κ ν α).run held d = some (a, d) := rfl

@[simp] theorem run_ofOption_none (held : List κ) (d : κ → ν) :
    (ofOption none : Prog κ ν α).run held d = none := rfl

theorem run_assert {p : Prop} [Decidable p] (hp : p) (held : List κ) (d : κ → ν) :
    (assert p : Prog κ ν Unit).run held d = some ((), d) := by
  simp [assert, hp]

theorem run_assert_eq_some {p : Prop} [Decidable p] {held : List κ} {d : κ → ν}
    {r : Unit × (κ → ν)} (h : (assert p : Prog κ ν Unit).run held d = some r) : p := by
  by_contra hp
  simp [assert, hp] at h

omit [DecidableEq κ] in
theorem within_bind {n : ℕ} {p : Prog κ ν α} {f : α → Prog κ ν β}
    (hp : p.Within n) (hf : ∀ a, (f a).Within n) : (p >>= f).Within n := by
  change (p.bind f).Within n
  induction p with
  | ret a => exact hf a
  | fail => trivial
  | read key body k _ ihk => exact ⟨hp.1, hp.2.1, fun b => ihk b (hp.2.2 b) hf⟩
  | modify key body k _ ihk => exact ⟨hp.1, hp.2.1, fun b => ihk b (hp.2.2 b) hf⟩
  | sync k ih => exact ih hp hf

omit [DecidableEq κ] in
theorem within_mono {m n : ℕ} (hmn : m ≤ n) {p : Prog κ ν α} (hp : p.Within m) : p.Within n := by
  induction p generalizing m n with
  | ret a => trivial
  | fail => trivial
  | read key body k ihb ihk =>
    exact ⟨hp.1.trans_le hmn, fun v => ihb v (by omega) (hp.2.1 v), fun b => ihk b hmn (hp.2.2 b)⟩
  | modify key body k ihb ihk =>
    exact ⟨hp.1.trans_le hmn, fun v => ihb v (by omega) (hp.2.1 v), fun b => ihk b hmn (hp.2.2 b)⟩
  | sync k ih => exact ih hmn hp

omit [DecidableEq κ] in
/-- Nothing is said about the end. -/
theorem settles_false (p : Prog κ ν α) (settled : Bool) : p.Settles settled false := by
  induction p generalizing settled with
  | ret a => intro h; cases h
  | fail => trivial
  | read key body k ihb ihk => exact ⟨false, fun v => ihb v settled, fun b => ihk b false⟩
  | modify key body k _ ihk => exact fun b => ihk b false
  | sync k ih => exact ih true

omit [DecidableEq κ] in
theorem settles_mono {c d c' : Bool} (hcd : c = true → d = true) {p : Prog κ ν α}
    (hp : p.Settles c c') : p.Settles d c' := by
  induction p generalizing c d c' with
  | ret a => exact fun h => hcd (hp h)
  | fail => trivial
  | read key body k ihb _ =>
    obtain ⟨m, hb, hk⟩ := hp
    exact ⟨m, fun v => ihb v hcd (hb v), hk⟩
  | modify key body k _ _ => exact hp
  | sync k _ => exact hp

omit [DecidableEq κ] in
theorem settles_bind {c m c' : Bool} {p : Prog κ ν α} {f : α → Prog κ ν β}
    (hp : p.Settles c m) (hf : ∀ a, (f a).Settles m c') : (p >>= f).Settles c c' := by
  change (p.bind f).Settles c c'
  induction p generalizing c with
  | ret a =>
    cases m with
    | false => exact settles_mono (by simp) (hf a)
    | true => rw [show c = true from hp rfl]; exact hf a
  | fail => trivial
  | read key body k _ ihk =>
    obtain ⟨m', hb, hk⟩ := hp
    exact ⟨m', hb, fun b => ihk b (hk b) hf⟩
  | modify key body k _ ihk => exact fun b => ihk b (hp b) hf
  | sync k ih => exact ih hp hf

end Prog

end RCore.Lib
