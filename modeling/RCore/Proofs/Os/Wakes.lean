import RCore.Proofs.Os.Runs
import RCore.Proofs.Os.SyncStep

/-! Who is woken by a step: `signal`, `unlock` and `wait` wake the first task of a queue,
and nobody else. -/

namespace RCore.Os

open RCore.Lib

namespace Kernel

variable {k k₁ k' : Kernel} {t u w : ℕ} {f : Task → Task} {x : Prop}

/-- No task but the current one changes its state. -/
structure Apart (k k' : Kernel) : Prop where
  current : k'.current = k.current
  state : ∀ u, u ≠ k.current → k'.stateOf u = k.stateOf u

theorem apart_of_eq (htasks : k'.tasks = k.tasks) (hcur : k'.current = k.current) : Apart k k' :=
  ⟨hcur, fun u _ => by rw [stateOf, htasks, stateOf]⟩

theorem Apart.modify (h : Apart k k₁) (f : Task → Task) :
    Apart k (k₁.modifyTask k₁.current f) := by
  refine ⟨h.current, fun u hu => ?_⟩
  rw [stateOf, getElem?_modifyTask, if_neg (by rwa [h.current])]
  exact h.state u hu

theorem Apart.trans (h : Apart k k₁) (h' : Apart k₁ k') : Apart k k' :=
  ⟨h'.current.trans h.current, fun u hu => (h'.state u (by rwa [h.current])).trans (h.state u hu)⟩

/-- Of the tasks that are not the current one, one that is ready may begin to run, or the
idle one. -/
def Spares (k k' : Kernel) : Prop :=
  ∀ u, u ≠ k.current → k'.stateOf u = k.stateOf u ∨
    (k.stateOf u = some .ready ∨ u = idleTask) ∧ k'.stateOf u = some .running

theorem Apart.spares (h : Apart k k') : Spares k k' := fun u hu => .inl (h.state u hu)

theorem Spares.of (h : Apart k k₁) (h' : Spares k₁ k') : Spares k k' := by
  intro u hu
  rw [← h.state u hu]
  exact h' u (by rwa [h.current])

theorem switchTo_spares (h : k.stateOf t = some .ready ∨ t = idleTask) :
    Leads (k.switchTo t) (Spares k) := by
  have hs : Spares k (k.setState t .running) := by
    intro u _
    rw [stateOf, setState, getElem?_modifyTask]
    split_ifs with hu
    · subst hu
      rw [stateOf] at h ⊢
      cases htask : k.tasks[u]? with
      | none => exact .inl rfl
      | some task =>
        rw [htask] at h
        exact .inr ⟨h, rfl⟩
    · exact .inl rfl
  exact .ite (fun _ => .ok hs) fun _ => .ite (fun _ => trivial) fun _ => .ok hs

theorem resched_spares (k : Kernel) : Leads k.resched (Spares k) := by
  refine .ite (fun _ => trivial) fun _ => ?_
  have hpick : Leads k.pickNextTask fun r => r.2.tasks = k.tasks ∧ r.2.current = k.current ∧
      ∀ t, r.1 = some t → k.stateOf t = some .ready :=
    .bind (pickNext_ready k k.readyQueue) fun r hr => .pure ⟨rfl, rfl, hr⟩
  refine .bind hpick ?_
  rintro ⟨next, k₁⟩ ⟨htasks, hcur, hready⟩
  have hk₁ : Apart k k₁ := apart_of_eq htasks hcur
  cases next with
  | none => exact (switchTo_spares (.inr rfl)).mono fun k' h => .of hk₁ h
  | some t =>
    refine (switchTo_spares (.inl ?_)).mono fun k' h => .of hk₁ h
    rw [stateOf, show k₁.tasks = k.tasks from htasks]
    exact hready t rfl

theorem apart_refl (k : Kernel) : Apart k k := ⟨rfl, fun _ _ => rfl⟩

theorem blockAndYield_spares (k : Kernel) (c : Cont) : Leads (k.blockAndYield c) (Spares k) := by
  have h : Apart k ((k.setCont c).setState k.current .blocking) := ((apart_refl k).modify _).modify _
  exact (resched_spares _).mono fun k' h' => .of h h'

theorem exit_spares (k : Kernel) (code : Int32) : Leads (k.exit code) (Spares k) := by
  refine .bind (Leads.any _) fun task _ => ?_
  have hk : Apart k ((k.setState k.current .zombie).setExitCode k.current code) :=
    ((apart_refl k).modify _).modify _
  refine .bind (taskExit_tasks _ _ _) fun k₁ h₁ => .ite (fun _ => trivial) fun _ => ?_
  have hk₁ : Apart k k₁ := hk.trans (apart_of_eq h₁.1 h₁.2)
  have h₂ : Apart k (((k₁.setState k₁.current .zombie).setExitCode k₁.current code).setCont .exited) :=
    ((hk₁.modify _).modify _).modify _
  exact (resched_spares _).mono fun k' h' => .of h₂ h'

theorem handleSignals_spares (k : Kernel) : Leads k.handleSignals (Spares k) := by
  refine .bind (Leads.any _) fun task _ => .bind (Leads.any _) fun p _ => ?_
  obtain ⟨signal, inner, tf⟩ := task.signal.checkPendingSignals p.signalActions task.tf
  refine .bind (Leads.any _) fun _ _ => ?_
  have hk : Apart k (k.modifyTask k.current fun task => { task with signal := inner, tf }) :=
    (apart_refl k).modify _
  have hend : Leads ((k.modifyTask k.current fun task =>
      { task with signal := inner, tf }).signalsHandled inner) (Spares k) := by
    rw [signalsHandled]
    split
    · exact (exit_spares _ _).mono fun k' h => .of hk h
    · exact .pure (hk.modify _).spares
  exact .ite (fun _ => hend) fun _ => .ite
    (fun _ => (blockAndYield_spares _ _).mono fun k' h => .of hk h) fun _ => hend

theorem finish_spares (k : Kernel) (ret : ℤ) : Leads (k.finish ret) (Spares k) :=
  (handleSignals_spares _).mono fun _ h => .of ((apart_refl k).modify _) h

/-! The tasks that are resumed -/

/-- A task is ready that was waiting, and nobody else changes its state. -/
structure Resumed (w : ℕ) (k k' : Kernel) : Prop where
  current : k'.current = k.current
  state : ∀ u, k'.stateOf u = if u = w then some .ready else k.stateOf u

theorem resume_resumed (htasks : k₁.tasks = k.tasks) (hcur : k₁.current = k.current) (w : ℕ) :
    Leads (k₁.resume w) (Resumed w k) := by
  refine .ite (fun hb => .ite (fun _ => .ok ⟨hcur, fun u => ?_⟩) fun _ => trivial) fun _ => trivial
  have hs := congrFun (stateOf_setState (k := k₁) (t := w) (by rw [hb]; simp) .ready) u
  rw [show ((k₁.setState w .ready).addReadyTask w).stateOf u = _ from hs, Function.update_apply,
    stateOf, htasks, stateOf]

theorem mutexUnlock_resumed {m : ℕ} {locked : Bool} {waitQueue : List ℕ}
    (hm : k.mutexes[m]? = some (.blocking locked (w :: waitQueue))) :
    Leads (k.mutexUnlock m) (Resumed w k) := by
  rw [mutexUnlock, hm]
  cases locked with
  | false => trivial
  | true =>
    refine resume_resumed (k := k) ?_ ?_ w
    · rfl
    · rfl

theorem condvarSignal_resumed {c : ℕ} {waitQueue : List ℕ}
    (hc : k.condvars[c]? = some ⟨w :: waitQueue⟩) : Leads (k.condvarSignal c) (Resumed w k) := by
  rw [condvarSignal, hc]
  refine resume_resumed (k := k) ?_ ?_ w
  · rfl
  · rfl

/-- What is left of it when the step is over: the task may be running by then. -/
structure Wakes (w : ℕ) (k k' : Kernel) : Prop where
  woken : k'.stateOf w = some .ready ∨ k'.stateOf w = some .running
  others : ∀ u, u ≠ w → k.stateOf u = some .blocking → k'.stateOf u = some .blocking

theorem Resumed.wakes (h : Inv x k) (hw : k.stateOf w = some .blocking) (hr : Resumed w k k₁)
    (hs : Spares k₁ k') : Wakes w k k' := by
  have hne : ∀ u, k.stateOf u = some .blocking → u ≠ k₁.current := by
    rintro u hu rfl
    rw [hr.current, h.running] at hu
    cases hu
  refine ⟨?_, fun u hu hb => ?_⟩
  · have hready : k₁.stateOf w = some .ready := by rw [hr.state, if_pos rfl]
    rcases hs w (hne w hw) with he | ⟨-, he⟩
    · exact .inl (he.trans hready)
    · exact .inr he
  · have hb₁ : k₁.stateOf u = some .blocking := by rw [hr.state, if_neg hu, hb]
    rcases hs u (hne u hb) with he | ⟨hready | hidle, -⟩
    · exact he.trans hb₁
    · rw [hb₁] at hready
      cases hready
    · subst hidle
      have hi := status_eq_iff.mpr hb
      rw [h.sched.idle] at hi
      cases hi

/-! The events that resume a task -/

variable {e : Event} {c m : ℕ} {waitQueue : List ℕ}

theorem syncOp_signal (h : k.syncOp e = some (.signal c)) : ∃ id tf,
    e = .syscall (.condvarSignal id) tf ∧ k.objectOf Process.condvarList id = some c := by
  cases e with
  | syscall call tf => cases call <;> simp_all [syncOp, Option.bind_eq_some_iff]
  | proceed input =>
    rw [syncOp] at h
    split at h <;> simp at h
  | _ => cases h

theorem syncOp_unlock (h : k.syncOp e = some (.unlock m)) : ∃ id tf,
    e = .syscall (.mutexUnlock id) tf ∧ k.objectOf Process.mutexList id = some m := by
  cases e with
  | syscall call tf => cases call <;> simp_all [syncOp, Option.bind_eq_some_iff]
  | proceed input =>
    rw [syncOp] at h
    split at h <;> simp at h
  | _ => cases h

theorem syncOp_wait (h : k.syncOp e = some (.wait c m)) : ∃ cid mid tf,
    e = .syscall (.condvarWait cid mid) tf ∧ k.objectOf Process.condvarList cid = some c ∧
      k.objectOf Process.mutexList mid = some m := by
  cases e with
  | syscall call tf => cases call <;> simp_all [syncOp, Option.bind_eq_some_iff]
  | proceed input =>
    rw [syncOp] at h
    split at h <;> simp at h
  | _ => cases h

theorem objectOf_setTf (k : Kernel) (tf : TrapFrame) (list : Process → List (Option ℕ)) (id : ℕ) :
    (k.setTf tf).objectOf list id = k.objectOf list id := by
  rw [objectOf, objectOf, proc_setTf]

/-- The object that a call finds is the one that its operation is on. -/
theorem object_eq {p : Process} {pid id o : ℕ} {panic : Panic} {tf : TrapFrame}
    (list : Process → List (Option ℕ)) (hp : (k.setTf tf).proc = .ok (pid, p))
    (ho : k.objectOf list id = some o) : Leads (object (list p) id panic) fun o' => o = o' := by
  refine (objectOf_spec list hp).mono fun o' ho' => ?_
  rw [objectOf_setTf, ho] at ho'
  exact Option.some.inj ho'

section events

variable (h : Inv x k)
include h

/-- `setTf` changes the current task only, which does not wait. -/
theorem Resumed.wakes_setTf {tf : TrapFrame} (hw : k.stateOf w = some .blocking)
    (hr : Resumed w (k.setTf tf) k₁) (hs : Spares k₁ k') : Wakes w k k' := by
  have hstate : (k.setTf tf).stateOf = k.stateOf := stateOf_modifyTask fun _ _ => rfl
  refine Resumed.wakes h hw ⟨hr.current, fun u => ?_⟩ hs
  rw [hr.state, hstate]

theorem signal_wakes (hop : k.syncOp e = some (.signal c))
    (hc : k.condvars[c]? = some ⟨w :: waitQueue⟩) (hs : k.step e = .ok k') : Wakes w k k' := by
  obtain ⟨id, tf, rfl, ho⟩ := syncOp_signal hop
  have hw : k.stateOf w = some .blocking := by
    rw [h.blocking_iff]
    exact .inl ⟨.condvar c, by rw [queue_condvar hc]; exact List.mem_cons_self⟩
  have hl : Leads (k.step (.syscall (.condvarSignal id) tf)) (Wakes w k) := by
    have hcall : Leads ((k.setTf tf).sysCondvarSignal id) fun r =>
        r.1 = .ret 0 ∧ Resumed w (k.setTf tf) r.2 := by
      refine .bind (Leads.self _) ?_
      rintro ⟨pid, p⟩ hp
      refine .bind (object_eq Process.condvarList hp ho) ?_
      rintro _ rfl
      exact .bind (condvarSignal_resumed hc) fun k₁ h₁ => .pure ⟨rfl, h₁⟩
    refine .bind hcall ?_
    rintro ⟨flow, k₁⟩ ⟨rfl, h₁⟩
    exact (finish_spares k₁ 0).mono fun k' h' => h₁.wakes_setTf h hw h'
  exact hl.post_of_ok hs

theorem unlock_wakes {locked : Bool} (hop : k.syncOp e = some (.unlock m))
    (hm : k.mutexes[m]? = some (.blocking locked (w :: waitQueue))) (hs : k.step e = .ok k') :
    Wakes w k k' := by
  obtain ⟨id, tf, rfl, ho⟩ := syncOp_unlock hop
  have hw : k.stateOf w = some .blocking := by
    rw [h.blocking_iff]
    exact .inl ⟨.mutex m, by rw [queue_mutex hm]; exact List.mem_cons_self⟩
  have hl : Leads (k.step (.syscall (.mutexUnlock id) tf)) (Wakes w k) := by
    have hcall : Leads ((k.setTf tf).sysMutexUnlock id) fun r =>
        r.1 = .ret 0 ∧ Resumed w (k.setTf tf) r.2 := by
      refine .bind (Leads.self _) ?_
      rintro ⟨pid, p⟩ hp
      refine .bind (object_eq Process.mutexList hp ho) ?_
      rintro _ rfl
      exact .bind (mutexUnlock_resumed hm) fun k₁ h₁ => .pure ⟨rfl, h₁⟩
    refine .bind hcall ?_
    rintro ⟨flow, k₁⟩ ⟨rfl, h₁⟩
    exact (finish_spares k₁ 0).mono fun k' h' => h₁.wakes_setTf h hw h'
  exact hl.post_of_ok hs

theorem wait_wakes {locked : Bool} (hop : k.syncOp e = some (.wait c m))
    (hm : k.mutexes[m]? = some (.blocking locked (w :: waitQueue))) (hs : k.step e = .ok k') :
    Wakes w k k' := by
  obtain ⟨cid, mid, tf, rfl, hoc, hom⟩ := syncOp_wait hop
  have hw : k.stateOf w = some .blocking := by
    rw [h.blocking_iff]
    exact .inl ⟨.mutex m, by rw [queue_mutex hm]; exact List.mem_cons_self⟩
  have hl : Leads (k.step (.syscall (.condvarWait cid mid) tf)) (Wakes w k) := by
    have hcall : Leads ((k.setTf tf).sysCondvarWait cid mid) fun r =>
        r.1 = .away ∧ Wakes w k r.2 := by
      refine .bind (Leads.self _) ?_
      rintro ⟨pid, p⟩ hp
      refine .bind (object_eq Process.condvarList hp hoc) ?_
      rintro _ rfl
      refine .bind (object_eq Process.mutexList hp hom) ?_
      rintro _ rfl
      have hwait : Leads ((k.setTf tf).condvarWait c m) (Wakes w k) := by
        refine .bind (mutexUnlock_resumed hm) fun k₁ h₁ => ?_
        split
        · refine (blockAndYield_spares _ _).mono fun k' h' => h₁.wakes_setTf h hw (.of ?_ h')
          exact apart_of_eq rfl rfl
        · trivial
      exact .bind hwait fun k' h' => .pure ⟨rfl, h'⟩
    refine .bind hcall ?_
    rintro ⟨flow, k₁⟩ ⟨rfl, h₁⟩
    exact .pure h₁
  exact hl.post_of_ok hs

end events

end Kernel

end RCore.Os
