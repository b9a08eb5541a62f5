import RCore.Proofs.Os.Mutexes

/-! Threads that add to a counter with a mutex locked (`race_adder_mutex_blocking.rs`). -/

namespace RCore.Os

open RCore.Lib Kernel

/-- `A`, what each thread has read of it and not written yet, and the threads that have written. -/
structure CountState where
  hold : HoldState
  a : BitVec 64
  cur : ℕ → Option (BitVec 64)
  log : List ℕ

/-- A thread runs in user mode with the mutex `m`. -/
def CountState.Inside (s : CountState) (m t : ℕ) : Prop :=
  t = s.hold.kernel.current ∧ s.hold.kernel.contOf t = some .user ∧ (t, m) ∈ s.hold.held

/-- All runs of the kernel, with the loop of `f` in any number of threads: `A` is read and written
with the mutex `m` locked, which is not unlocked in between. -/
inductive CountRun (m : ℕ) : CountState → Prop
  | boot {k : Kernel} {entry ustackTop : UInt64} (h : boot entry ustackTop = .ok k) :
      CountRun m ⟨⟨k, ∅⟩, 0, fun _ => none, []⟩
  | kernel {s : CountState} {k' : Kernel} {e : Event} (h : CountRun m s) (he : s.hold.kernel.enabled e)
      (ho : s.hold.orderly e) (hs : s.hold.kernel.step e = .ok k')
      (hf : s.cur s.hold.kernel.current ≠ none → ¬ s.hold.Releases e m) : CountRun m { s with hold := s.hold.next e k' }
  /-- `let cur = a.read_volatile()` -/
  | read {s : CountState} {t : ℕ} (h : CountRun m s) (ht : s.Inside m t) :
      CountRun m { s with cur := Function.update s.cur t (some s.a) }
  /-- `a.write_volatile(cur + 1)` -/
  | write {s : CountState} {t : ℕ} {cur : BitVec 64} (h : CountRun m s) (ht : s.Inside m t) (hcur : s.cur t = some cur) :
      CountRun m { s with a := cur + 1, cur := Function.update s.cur t none, log := s.log ++ [t] }

variable {m t : ℕ} {s : CountState}

theorem HoldState.mem_held_next {s : HoldState} {e : Event} {k' : Kernel} (h : (t, m) ∈ s.held)
    (hr : t = s.kernel.current → ¬ s.Releases e m) : (t, m) ∈ (s.next e k').held := by
  have herase : ∀ m', s.Releases e m' → (t, m) ∈ s.held.erase (s.kernel.current, m') := by
    intro m' hm'
    refine Finset.mem_erase.mpr ⟨fun heq => ?_, h⟩
    obtain ⟨rfl, rfl⟩ := Prod.mk.inj heq
    exact hr rfl hm'
  unfold next
  cases hop : s.kernel.syncOp e with
  | none => exact h
  | some op =>
    cases op with
    | unlock m' => exact herase m' (.inl hop)
    | wait c m' => exact herase m' (.inr ⟨c, hop⟩)
    | _ => grind [Sync.holding]

theorem CountRun.hold (h : CountRun m s) : HoldTrace s.hold := by
  induction h with
  | boot h => exact .boot h
  | kernel _ he ho hs _ ih => exact ih.step he ho hs
  | read _ _ ih => exact ih
  | write _ _ _ ih => exact ih

/-- What a thread has read is still there, and the thread has the mutex. -/
theorem CountRun.cur (h : CountRun m s) {v : BitVec 64} (hv : s.cur t = some v) : v = s.a ∧ (t, m) ∈ s.hold.held := by
  induction h generalizing t v with
  | boot h => cases hv
  | kernel h he ho hs hf ih =>
    obtain ⟨hv', hheld⟩ := ih hv
    refine ⟨hv', HoldState.mem_held_next hheld ?_⟩
    rintro rfl
    exact hf (by rw [hv]; nofun)
  | read h ht ih =>
    dsimp only at hv
    rw [Function.update_apply] at hv
    split_ifs at hv with hu
    · exact ⟨(Option.some.inj hv).symm, hu ▸ ht.2.2⟩
    · exact ih hv
  | write h ht hcur ih =>
    dsimp only at hv
    rw [Function.update_apply] at hv
    split_ifs at hv with hu
    -- nobody else has the mutex
    exact absurd ((HoldState.exclusive h.hold.ok).unique _ _ m (ih hv).2 ht.2.2) hu

/-- Nobody adds. -/
theorem HoldTrace.count {hold : HoldState} (h : HoldTrace hold) : CountRun m ⟨hold, 0, fun _ => none, []⟩ := by
  induction h with
  | boot h => exact .boot h
  | step _ he ho hs ih => exact ih.kernel he ho hs fun hf => absurd rfl hf

end RCore.Os
