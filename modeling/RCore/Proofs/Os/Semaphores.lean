import RCore.Lib.Semaphore
import RCore.Proofs.Os.Runs
import RCore.Proofs.Os.SyncStep

/-! Semaphores along a run: what the count and the wait queue say of the calls that have
been made. -/

namespace RCore.Os

open RCore.Lib Kernel

theorem wrap_range (z : ℤ) : -2 ^ 63 ≤ wrap z ∧ wrap z < 2 ^ 63 := by
  rw [wrap, Int.bmod_def]
  split_ifs <;> omega

theorem wrap_eq {z : ℤ} (h : -2 ^ 63 ≤ z ∧ z < 2 ^ 63) : wrap z = z := by
  rw [wrap, Int.bmod_def]
  split_ifs <;> omega

namespace Sync

variable {s : Sync} {x : Semaphore} {t sem : ℕ}

theorem semaphores_up (h : s.semaphores[sem]? = some x) (i : ℕ) :
    (s.up i).semaphores[sem]? = some (if i = sem then x.up else x) := by
  rw [up]
  split_ifs with hi
  · subst hi
    rw [h]
    exact List.getElem?_set_self (List.getElem?_eq_some_iff.mp h).1
  · split
    · exact (List.getElem?_set_ne hi).trans h
    · exact h

theorem semaphores_down (h : s.semaphores[sem]? = some x) (t i : ℕ) :
    (s.down t i).semaphores[sem]? = some (if i = sem then x.down t else x) := by
  rw [down]
  split_ifs with hi
  · subst hi
    rw [h]
    exact List.getElem?_set_self (List.getElem?_eq_some_iff.mp h).1
  · split
    · exact (List.getElem?_set_ne hi).trans h
    · exact h

/-- Only calls on a semaphore change it. -/
theorem semaphores_apply (h : s.semaphores[sem]? = some x) (t : ℕ) (op : SyncOp) :
    (s.apply t op).semaphores[sem]? = some
      (if op = .up sem then x.up else if op = .down sem then x.down t else x) := by
  cases op with
  | newMutex blocking => exact h
  | lock mutex => exact (congrArg (·[sem]?) (semaphores_lock s t mutex)).trans h
  | granted mutex => exact h
  | unlock mutex => exact (congrArg (·[sem]?) (semaphores_unlock s mutex)).trans h
  | newSemaphore resCount =>
    exact (List.getElem?_append_left (List.getElem?_eq_some_iff.mp h).1).trans h
  | up i => simpa [apply] using semaphores_up h i
  | down i => simpa [apply] using semaphores_down h t i
  | newCondvar => exact h
  | signal condvar => exact (congrArg (·[sem]?) (semaphores_signal s condvar)).trans h
  | wait condvar mutex =>
    exact (congrArg (·[sem]?) ((semaphores_sleep ..).trans (semaphores_unlock s mutex))).trans h

end Sync

/-- A kernel, and the calls that have been made on one of its semaphores: how often it has
been raised, the tasks that have called `down`, and those of them that do not wait or wait
no more. -/
structure SemState where
  kernel : Kernel
  ups : ℕ
  started : List ℕ
  granted : List ℕ

namespace SemState

/-- The tasks that wait, with the one that calls `down`. -/
def asking (s : SemState) (sem : ℕ) (e : Event) : List ℕ :=
  s.kernel.queue (.semaphore sem) ++
    if s.kernel.syncOp e = some (.down sem) then [s.kernel.current] else []

/-- After an event, which leads to the kernel `k'`. -/
def next (s : SemState) (sem : ℕ) (e : Event) (k' : Kernel) : SemState where
  kernel := k'
  ups := s.ups + if s.kernel.syncOp e = some (.up sem) then 1 else 0
  started := s.started ++
    if s.kernel.syncOp e = some (.down sem) then [s.kernel.current] else []
  granted := s.granted ++ (s.asking sem e).filter fun t => t ∉ k'.queue (.semaphore sem)

/-- The account balances, and tasks wait only when there is nothing left for them. -/
structure Accounted (s : SemState) (sem n : ℕ) : Prop where
  count : ∃ x, s.kernel.semaphores[sem]? = some x ∧ x.count = n + s.ups - s.started.length ∧
    (x.waitQueue.length : ℤ) = max 0 (-x.count)
  started : s.started = s.granted ++ s.kernel.queue (.semaphore sem)
  granted_le : s.granted.length ≤ n + s.ups
  queue : s.granted.length ≠ n + s.ups → s.kernel.queue (.semaphore sem) = []

/-- The balance is an `isize`. -/
def InRange (s : SemState) (n : ℕ) : Prop :=
  -2 ^ 63 ≤ (n + s.ups - s.started.length : ℤ) ∧ (n + s.ups - s.started.length : ℤ) < 2 ^ 63

instance (s : SemState) (n : ℕ) : Decidable (s.InRange n) :=
  inferInstanceAs (Decidable (_ ∧ _))

end SemState

/-- The states from the call that makes the semaphore `sem` on, the last one first. -/
inductive SemTrace (sem n : ℕ) : SemState → List SemState → Prop
  | create {k k' : Kernel} {states : List Kernel} {e : Event} (h : Trace k states)
      (he : k.enabled e) (hs : k.step e = .ok k') (hop : k.syncOp e = some (.newSemaphore n))
      (hn : n < 2 ^ 63) (hsem : k.semaphores.length = sem) :
      SemTrace sem n ⟨k', 0, [], []⟩ [⟨k', 0, [], []⟩]
  | step {s : SemState} {states : List SemState} {k' : Kernel} {e : Event}
      (h : SemTrace sem n s states) (he : s.kernel.enabled e) (hs : s.kernel.step e = .ok k') :
      SemTrace sem n (s.next sem e k') (s.next sem e k' :: states)

variable {sem n : ℕ} {s : SemState} {states : List SemState}

namespace SemTrace

theorem trace (h : SemTrace sem n s states) : ∃ states', Trace s.kernel states' := by
  induction h with
  | create h he hs => exact ⟨_, .step h he hs⟩
  | step h he hs ih =>
    obtain ⟨states', h'⟩ := ih
    exact ⟨_, .step h' he hs⟩

end SemTrace

/-- What an event does to a semaphore. -/
theorem semaphore_step {k k' : Kernel} {e : Event} {x : Semaphore}
    (hx : k.semaphores[sem]? = some x) (he : k.enabled e) (hs : k.step e = .ok k') :
    k'.semaphores[sem]? = some (if k.syncOp e = some (.up sem) then x.up
      else if k.syncOp e = some (.down sem) then x.down k.current else x) := by
  have hsync : k'.semaphores = (k.syncAfter e).semaphores :=
    congrArg Sync.semaphores (step_effect he hs).sync
  rw [hsync, syncAfter]
  cases hop : k.syncOp e with
  | none => simpa [sync] using hx
  | some op => simpa using Sync.semaphores_apply (s := k.sync) hx k.current op

theorem semaphore_new {k k' : Kernel} {e : Event} (hop : k.syncOp e = some (.newSemaphore n))
    (he : k.enabled e) (hs : k.step e = .ok k') :
    k'.semaphores[k.semaphores.length]? = some ⟨wrap n, []⟩ := by
  have hsync : k'.semaphores = (k.syncAfter e).semaphores :=
    congrArg Sync.semaphores (step_effect he hs).sync
  rw [hsync, syncAfter, hop]
  exact List.getElem?_concat_length

/-- The count is an `isize` all along. -/
theorem SemTrace.count_range (h : SemTrace sem n s states) :
    ∃ x, s.kernel.semaphores[sem]? = some x ∧ -2 ^ 63 ≤ x.count ∧ x.count < 2 ^ 63 := by
  induction h with
  | create h he hs hop hn hsem =>
    subst hsem
    refine ⟨_, semaphore_new hop he hs, ?_⟩
    dsimp only
    exact wrap_range _
  | step h he hs ih =>
    obtain ⟨x, hx, hrange⟩ := ih
    refine ⟨_, semaphore_step hx he hs, ?_⟩
    split_ifs
    · exact wrap_range _
    · exact wrap_range _
    · exact hrange

theorem filter_not_mem_self (l : List ℕ) : (l.filter fun t => t ∉ l) = [] := by
  rw [List.filter_eq_nil_iff]
  intro t ht
  simpa using ht

theorem filter_not_mem_tail {l : List ℕ} (h : l.Nodup) :
    (l.filter fun t => t ∉ l.tail) = l.take 1 := by
  cases l with
  | nil => rfl
  | cons t l =>
    have ht : t ∉ l := (List.nodup_cons.mp h).1
    rw [List.tail_cons, List.filter_cons_of_pos (by simpa using ht), filter_not_mem_self]
    rfl

namespace SemState

variable {x : Semaphore} {e : Event} {k' : Kernel}

theorem filter_asking (h : Account n s.ups s.started s.granted x.count x.waitQueue) (t : ℕ) :
    ((x.waitQueue ++ [t]).filter fun u =>
      u ∉ if x.count - 1 < 0 then x.waitQueue ++ [t] else x.waitQueue) =
        if x.count - 1 < 0 then [] else [t] := by
  split_ifs with hc
  · exact filter_not_mem_self _
  · rw [h.queue_eq_nil (by omega)]
    rfl

/-- The account is kept as long as the balance is an `isize`. -/
theorem account_next (hx : s.kernel.semaphores[sem]? = some x) (hnodup : x.waitQueue.Nodup)
    (h : Account n s.ups s.started s.granted x.count x.waitQueue)
    (he : s.kernel.enabled e) (hs : s.kernel.step e = .ok k')
    (hrange : (s.next sem e k').InRange n) :
    ∃ x', k'.semaphores[sem]? = some x' ∧ Account n (s.next sem e k').ups (s.next sem e k').started
      (s.next sem e k').granted x'.count x'.waitQueue := by
  have hx' := semaphore_step hx he hs
  refine ⟨_, hx', ?_⟩
  have hq : s.kernel.queue (.semaphore sem) = x.waitQueue := queue_semaphore hx
  have hq' := queue_semaphore hx'
  have hcount := h.count
  simp only [next, InRange] at hrange
  simp only [next, asking, hq, hq']
  by_cases hup : s.kernel.syncOp e = some (.up sem)
  · simp only [hup, if_true, reduceCtorEq, if_false, List.append_nil, Option.some.injEq] at hrange ⊢
    have hw : wrap (x.count + 1) = x.count + 1 := by
      apply wrap_eq
      push_cast at hrange
      omega
    simp only [Semaphore.up, hw, h.ite_tail, filter_not_mem_tail hnodup]
    exact h.up
  · by_cases hdown : s.kernel.syncOp e = some (.down sem)
    · simp only [hdown, if_true, reduceCtorEq, if_false, Option.some.injEq, List.length_append,
        List.length_singleton] at hrange ⊢
      have hw : wrap (x.count - 1) = x.count - 1 := by
        apply wrap_eq
        push_cast at hrange
        omega
      simp only [Semaphore.down, hw, filter_asking h]
      exact h.down s.kernel.current
    · simp only [hup, hdown, if_false, List.append_nil, Nat.add_zero, filter_not_mem_self]
      exact h

theorem accounted_of_account (hx : s.kernel.semaphores[sem]? = some x)
    (h : Account n s.ups s.started s.granted x.count x.waitQueue) : s.Accounted sem n := by
  have hq : s.kernel.queue (.semaphore sem) = x.waitQueue := queue_semaphore hx
  refine ⟨⟨x, hx, h.count, h.length_queue⟩, ?_, h.granted_le, ?_⟩
  · rw [hq]
    exact h.started_eq
  · rw [hq]
    exact h.queue_eq_nil_of_ne

end SemState

theorem SemTrace.account (h : SemTrace sem n s states) (hrange : ∀ r ∈ states, r.InRange n) :
    ∃ x, s.kernel.semaphores[sem]? = some x ∧
      Account n s.ups s.started s.granted x.count x.waitQueue := by
  induction h with
  | create h he hs hop hn hsem =>
    subst hsem
    refine ⟨_, semaphore_new hop he hs, ?_⟩
    dsimp only
    rw [wrap_eq (by omega)]
    exact Account.new n
  | step h he hs ih =>
    obtain ⟨x, hx, hacc⟩ := ih fun r hr => hrange r (List.mem_cons_of_mem _ hr)
    obtain ⟨states', htrace⟩ := h.trace
    have hinv : Inv False _ := htrace.inv nofun
    have hnodup : x.waitQueue.Nodup := queue_semaphore hx ▸ hinv.sched.queue_nodup (.semaphore sem)
    exact SemState.account_next hx hnodup hacc he hs (hrange _ List.mem_cons_self)

/-- Each state of a run ends a run of its own. -/
theorem SemTrace.of_mem {r : SemState} (h : SemTrace sem n s states) (hr : r ∈ states) :
    ∃ states', SemTrace sem n r states' ∧ states' ⊆ states := by
  induction h with
  | create h he hs hop hn hsem =>
    rw [List.mem_singleton.mp hr]
    exact ⟨_, .create h he hs hop hn hsem, List.Subset.refl _⟩
  | step h he hs ih =>
    rcases List.mem_cons.mp hr with rfl | hr
    · exact ⟨_, .step h he hs, List.Subset.refl _⟩
    · obtain ⟨states', h', hsub⟩ := ih hr
      exact ⟨states', h', List.subset_cons_of_subset _ hsub⟩

/-- The accounts of a semaphore balance all along a run exactly when the balance does not
leave the range of an `isize`. -/
theorem semaphore_accounting_iff (h : SemTrace sem n s states) :
    (∀ r ∈ states, r.Accounted sem n) ↔ ∀ r ∈ states, r.InRange n := by
  constructor
  · intro hall r hr
    obtain ⟨states', h', -⟩ := h.of_mem hr
    obtain ⟨x, hx, hrange⟩ := h'.count_range
    obtain ⟨y, hy, hcount, -⟩ := (hall r hr).count
    rw [hx, Option.some.injEq] at hy
    subst hy
    rwa [hcount] at hrange
  · intro hall r hr
    obtain ⟨states', h', hsub⟩ := h.of_mem hr
    obtain ⟨x, hx, hacc⟩ := h'.account fun q hq => hall q (hsub hq)
    exact SemState.accounted_of_account hx hacc

/-- The states after some events, if they can happen and nothing panics. -/
def SemState.run (sem : ℕ) (s : SemState) (states : List SemState) :
    List Event → Option (SemState × List SemState)
  | [] => some (s, states)
  | e :: es =>
    if s.kernel.enabled e then
      match s.kernel.step e with
      | .ok k' => (s.next sem e k').run sem (s.next sem e k' :: states) es
      | .error _ => none
    else none

theorem SemTrace.run {r : SemState × List SemState} {es : List Event} (h : SemTrace sem n s states)
    (hr : s.run sem states es = some r) : SemTrace sem n r.1 r.2 := by
  induction es generalizing s states with
  | nil =>
    cases hr
    exact h
  | cons e es ih =>
    rw [SemState.run] at hr
    split_ifs at hr with he
    split at hr
    next k' hs => exact ih (.step h he hs) hr
    next => cases hr

/-- The shell makes a semaphore, and then some events happen. -/
def Kernel.semRun (k : Kernel) (n : ℕ) (es : List Event) : Option (SemState × List SemState) :=
  let create : Event := .syscall (.semaphoreCreate n) (.newUser 0 0)
  if k.enabled create ∧ k.semaphores.length = 0 then
    match k.step create with
    | .ok k' => SemState.run 0 ⟨k', 0, [], []⟩ [⟨k', 0, [], []⟩] es
    | .error _ => none
  else none

theorem exists_semTrace {es : List Event} {test : SemState × List SemState → Bool} (hn : n < 2 ^ 63)
    (h : (((booted 0 0).run (List.replicate 4 (.proceed .zero))).bind (·.semRun n es)).any test = true) :
    ∃ s states, SemTrace 0 n s states ∧ test (s, states) = true := by
  obtain ⟨r, hr, htest⟩ := (Option.any_eq_true ..).mp h
  obtain ⟨k, hk, hrun⟩ := Option.bind_eq_some_iff.mp hr
  obtain ⟨states, htrace⟩ := (Trace.boot (boot_eq 0 0)).run hk
  rw [semRun] at hrun
  split_ifs at hrun with hc
  split at hrun
  next k' hs => exact ⟨r.1, r.2, (SemTrace.create htrace hc.1 hs rfl hn hc.2).run hrun, htest⟩
  next => cases hrun

/-- The shell makes a semaphore of 1, lowers it twice and so waits. -/
theorem semaphore_accounting_iff_waiting : ∃ s states, SemTrace 0 1 s states ∧
    s.kernel.queue (.semaphore 0) = [4] ∧ ∀ r ∈ states, r.Accounted 0 1 := by
  have hrun : (((booted 0 0).run (List.replicate 4 (.proceed .zero))).bind (·.semRun 1
      [.syscall (.semaphoreDown 0) (.newUser 0 0), .syscall (.semaphoreDown 0) (.newUser 0 0)])).any
        (fun r => r.1.kernel.queue (.semaphore 0) == [4] && r.2.all fun s => s.InRange 1) = true := by
    decide +kernel
  obtain ⟨s, states, h, htest⟩ := exists_semTrace (by norm_num) hrun
  simp only [Bool.and_eq_true, beq_iff_eq, List.all_eq_true, decide_eq_true_eq] at htest
  exact ⟨s, states, h, htest.1, (semaphore_accounting_iff h).mpr htest.2⟩

/-- The shell makes a semaphore of the greatest `isize` and raises it: the count is then
the least one. -/
theorem semaphore_count_overflow : ∃ s states x, SemTrace 0 (2 ^ 63 - 1) s states ∧
    s.kernel.semaphores[0]? = some x ∧ s.ups = 1 ∧ s.started = [] ∧ x.count = -2 ^ 63 ∧
    ¬ s.Accounted 0 (2 ^ 63 - 1) := by
  have hrun : (((booted 0 0).run (List.replicate 4 (.proceed .zero))).bind (·.semRun (2 ^ 63 - 1)
      [.syscall (.semaphoreUp 0) (.newUser 0 0)])).any (fun r => r.1.ups == 1 && r.1.started == [] &&
        r.1.kernel.semaphores == [⟨-2 ^ 63, []⟩]) = true := by
    decide +kernel
  obtain ⟨s, states, h, htest⟩ := exists_semTrace (by norm_num) hrun
  simp only [Bool.and_eq_true, beq_iff_eq] at htest
  obtain ⟨⟨hups, hstarted⟩, hsem⟩ := htest
  have hx : s.kernel.semaphores[0]? = some ⟨-2 ^ 63, []⟩ := by
    rw [hsem]
    rfl
  refine ⟨s, states, _, h, hx, hups, hstarted, rfl, fun hacc => ?_⟩
  obtain ⟨x, hx', hcount, -⟩ := hacc.count
  obtain rfl : x = ⟨-2 ^ 63, []⟩ := Option.some.inj (hx'.symm.trans hx)
  rw [hups, hstarted] at hcount
  norm_num at hcount

end RCore.Os
