import RCore.Proofs.Os.Effects

/-! Every step of the kernel does to mutexes, semaphores and condition variables what
`Sync.apply` says, and leaves the write ends of pipes set. -/

namespace RCore.Os

open RCore.Lib

namespace Kernel

variable {k k' : Kernel} {c : Cont} {e : Event}

/-! The objects of a kernel -/

theorem Keeps.sync_eq (h : Keeps none k k') : k'.sync = k.sync := by
  have hphase : k'.phase = k.phase := funext fun u => (h.phase u).resolve_right nofun
  rw [sync, sync, h.mutexes, h.semaphores, h.condvars, hphase]

theorem Leaves.sync_eq (h : Leaves k k') : k'.sync = k.sync.setPhase k.current none := by
  have hphase : k'.phase = Function.update k.phase k.current none := by
    funext u
    rw [Function.update_apply]
    split_ifs with hu
    · rw [hu, h.phase]
    · exact (h.keeps.phase u).resolve_right fun hr => hu (Option.some.inj hr.1).symm
  rw [sync, h.keeps.mutexes, h.keeps.semaphores, h.keeps.condvars, hphase]
  rfl

/-- A task that is not busy with a lock leaves everything as it is. -/
theorem Keeps.sync_of_user (h : Keeps (some k.current) k k') (hu : k.phase k.current = none) :
    k'.sync = k.sync := by
  have hphase : k'.phase = k.phase := by
    funext u
    rcases h.phase u with he | ⟨hc, hn⟩
    · exact he
    · rw [hn, ← Option.some.inj hc, hu]
  rw [sync, sync, h.mutexes, h.semaphores, h.condvars, hphase]

theorem setPhase_of_eq {s : Sync} {t : ℕ} {ph : Option Phase} (h : s.phase t = ph) :
    s.setPhase t ph = s := by
  rw [Sync.setPhase, ← h, Function.update_eq_self]

theorem sync_setCont (ht : k.tasks[k.current]? ≠ none) (c : Cont) :
    (k.setCont c).sync = k.sync.setPhase k.current c.phase := by
  have hphase : (k.setCont c).phase = Function.update k.phase k.current c.phase := by
    funext u
    rw [phase_setCont k c u ht, Function.update_apply]
  rw [sync, hphase]
  rfl

/-- What a call did that gave way at `c`, after it had changed objects. -/
theorem sync_away {s : Sync} {k₁ : Kernel} (h : Keeps none (k₁.setCont c) k')
    (ht : k₁.tasks[k₁.current]? ≠ none) (hs : k₁.sync = s) :
    k'.sync = s.setPhase k₁.current c.phase := by
  rw [h.sync_eq, sync_setCont ht, hs]

/-! The calls that act on objects -/

section calls

variable (ht : k.tasks[k.current]? ≠ none)
include ht

theorem mutexLock_effect (mutex : ℕ) : Leads (k.mutexLock mutex) fun r =>
    (r.1 = true → r.2.current = k.current) ∧ Side k r.2 ∧
      (if r.1 then r.2.sync.setPhase k.current none else r.2.sync) =
        k.sync.lock k.current mutex := by
  rw [mutexLock]
  split
  next locked hm =>
    have hlock : k.sync.mutexes[mutex]? = some (.spin locked) := hm
    cases locked with
    | true =>
      refine .bind (yieldNow_keeps k (.lock mutex)) fun k' h => .pure ⟨(fun h => by cases h), ⟨h.pipes, h.timers⟩, ?_⟩
      rw [Sync.lock, hlock]
      exact sync_away h ht rfl
    | false =>
      refine .pure ⟨fun _ => rfl, ⟨id, rfl⟩, ?_⟩
      rw [Sync.lock, hlock]
      rfl
  next locked waitQueue hm =>
    have hlock : k.sync.mutexes[mutex]? = some (.blocking locked waitQueue) := hm
    cases locked with
    | true =>
      refine .bind (blockAndYield_keeps _ (.locked mutex)) fun k' h =>
        .pure ⟨(fun h => by cases h), ⟨h.pipes, h.timers⟩, ?_⟩
      rw [Sync.lock, hlock]
      exact sync_away h ht rfl
    | false =>
      refine .pure ⟨fun _ => rfl, ⟨id, rfl⟩, ?_⟩
      rw [Sync.lock, hlock]
      rfl
  next => trivial

omit ht in
theorem mutexUnlock_effect (k : Kernel) (mutex : ℕ) : Leads (k.mutexUnlock mutex) fun k' =>
    k'.current = k.current ∧ k'.tasks.length = k.tasks.length ∧ Side k k' ∧
      k'.sync = k.sync.unlock mutex := by
  rw [mutexUnlock]
  split
  next hm =>
    refine .pure ⟨rfl, rfl, ⟨id, rfl⟩, ?_⟩
    rw [Sync.unlock, show k.sync.mutexes[mutex]? = _ from hm]
    rfl
  next => trivial
  next wakingTask waitQueue hm =>
    refine (resume_keeps _ wakingTask).mono fun k' h => ⟨h.2.1, h.2.2, ⟨h.1.pipes, h.1.timers⟩, ?_⟩
    rw [h.1.sync_eq, Sync.unlock, show k.sync.mutexes[mutex]? = _ from hm]
    rfl
  next hm =>
    refine .pure ⟨rfl, rfl, ⟨id, rfl⟩, ?_⟩
    rw [Sync.unlock, show k.sync.mutexes[mutex]? = _ from hm]
    rfl
  next => trivial

omit ht in
theorem semaphoreUp_effect (k : Kernel) (sem : ℕ) : Leads (k.semaphoreUp sem) fun k' =>
    k'.current = k.current ∧ Side k k' ∧ k'.sync = k.sync.up sem := by
  rw [semaphoreUp]
  split
  next count waitQueue hs =>
    have hup : ∀ q, (if wrap (count + 1) ≤ 0 then waitQueue.tail else waitQueue) = q →
        k.sync.up sem = { k.sync with semaphores := k.semaphores.set sem ⟨wrap (count + 1), q⟩ } := by
      intro q hq
      rw [Sync.up, show k.sync.semaphores[sem]? = _ from hs, ← hq]
      rfl
    refine .ite (fun hle => ?_) fun hle => .pure ⟨rfl, ⟨id, rfl⟩, (hup _ (if_neg hle)).symm⟩
    rw [if_pos hle] at hup
    cases waitQueue with
    | nil => exact .pure ⟨rfl, ⟨id, rfl⟩, (hup _ rfl).symm⟩
    | cons t waitQueue =>
      refine (resume_keeps _ t).mono fun k' h => ⟨h.2.1, ⟨h.1.pipes, h.1.timers⟩, ?_⟩
      rw [h.1.sync_eq, hup _ rfl]
      rfl
  next => trivial

theorem semaphoreDown_effect (hu : k.phase k.current = none) (sem : ℕ) :
    Leads (k.semaphoreDown sem) fun r => (r.1 = true → r.2.current = k.current) ∧
      Side k r.2 ∧ r.2.sync = k.sync.down k.current sem := by
  rw [semaphoreDown]
  split
  next count waitQueue hs =>
    have hdown : ∀ q, (if wrap (count - 1) < 0 then waitQueue ++ [k.current] else waitQueue) = q →
        k.sync.down k.current sem =
          { k.sync with semaphores := k.semaphores.set sem ⟨wrap (count - 1), q⟩ } := by
      intro q hq
      rw [Sync.down, show k.sync.semaphores[sem]? = _ from hs, ← hq]
      rfl
    refine .ite (fun hlt => ?_) fun hlt => .pure ⟨fun _ => rfl, ⟨id, rfl⟩, (hdown _ (if_neg hlt)).symm⟩
    refine .bind (blockAndYield_keeps _ (.finish 0)) fun k' h =>
      .pure ⟨(fun h => by cases h), ⟨h.pipes, h.timers⟩, ?_⟩
    rw [sync_away h ht rfl, hdown _ (if_pos hlt)]
    exact setPhase_of_eq hu
  next => trivial

omit ht in
theorem condvarSignal_effect (k : Kernel) (condvar : ℕ) : Leads (k.condvarSignal condvar) fun k' =>
    k'.current = k.current ∧ Side k k' ∧ k'.sync = k.sync.signal condvar := by
  rw [condvarSignal]
  split
  next t waitQueue hc =>
    refine (resume_keeps _ t).mono fun k' h => ⟨h.2.1, ⟨h.1.pipes, h.1.timers⟩, ?_⟩
    rw [h.1.sync_eq, Sync.signal, show k.sync.condvars[condvar]? = _ from hc]
    rfl
  next hc =>
    have hset : k.condvars.set condvar ⟨[]⟩ = k.condvars := by
      obtain ⟨hlt, he⟩ := List.getElem?_eq_some_iff.mp hc
      rw [← he, List.set_getElem_self]
    refine .pure ⟨rfl, ⟨id, rfl⟩, ?_⟩
    rw [Sync.signal, show k.sync.condvars[condvar]? = _ from hc]
    exact congrArg (fun condvars => { k.sync with condvars }) hset.symm
  next => trivial

theorem condvarWait_effect (condvar mutex : ℕ) : Leads (k.condvarWait condvar mutex) fun k' =>
    Side k k' ∧ k'.sync = (k.sync.unlock mutex).sleep k.current condvar mutex := by
  refine .bind (mutexUnlock_effect k mutex) ?_
  rintro k₁ ⟨hcur, hlen, hpipes, hsync⟩
  have ht₁ : k₁.tasks[k₁.current]? ≠ none := by
    rw [Ne, List.getElem?_eq_none_iff] at ht ⊢
    rwa [hcur, hlen]
  split
  next waitQueue hc =>
    refine (blockAndYield_keeps _ (.lock mutex)).mono fun k' h =>
      ⟨hpipes.trans ⟨h.pipes, h.timers⟩, ?_⟩
    rw [sync_away h ht₁ rfl, ← hsync, Sync.sleep, show k₁.sync.condvars[condvar]? = _ from hc, ← hcur]
    rfl
  next => trivial

end calls

/-! Steps -/

/-- The timers after an event that is no timer interrupt. -/
def timersAfter (k : Kernel) : Event → List TimerCondVar
  | .syscall (.sleep ms) _ => k.timers ++ [⟨(k.timeMs + ms) % 2 ^ 64, k.current⟩]
  | _ => k.timers

/-- What a step does to objects, pipes and timers. -/
structure Effect (k : Kernel) (e : Event) (k' : Kernel) : Prop where
  sync : k'.sync = k.syncAfter e
  pipes : k.PipesOk → k'.PipesOk
  timers : (∀ tie, e ≠ .timer tie) → k'.timers = k.timersAfter e

/-- An event that is no call of `sleep` leaves the timers as they are. -/
theorem Side.effect (h : Side k k') (hsync : k'.sync = k.syncAfter e)
    (hsleep : ∀ ms tf, e ≠ .syscall (.sleep ms) tf) : Effect k e k' := by
  refine ⟨hsync, h.pipes, fun _ => ?_⟩
  rw [timersAfter]
  · exact h.timers
  · exact hsleep

/-- A system call that does not act on objects. -/
def plain : Syscall → Bool
  | .mutexCreate _ | .mutexLock _ | .mutexUnlock _ => false
  | .semaphoreCreate _ | .semaphoreUp _ | .semaphoreDown _ => false
  | .condvarCreate | .condvarSignal _ | .condvarWait _ _ => false
  | .sleep _ => false
  | _ => true

theorem syscall_acted (k : Kernel) {call : Syscall} (h : plain call = true) :
    Leads (k.syscall call) (Acted k) := by
  cases call with
  | read fd len => exact sysRead_acted k fd len
  | write fd len => exact sysWrite_acted k fd len
  | exit code => exact .bind (exit_leaves k code) fun _ h => .pure (acted_away h.keeps)
  | exitGroup code => exact exitGroup_acted k code
  | yield => exact .bind (yield_keeps k rfl) fun _ h => .pure (acted_away h)
  | getTime => exact .pure (acted_ret (.refl k) rfl)
  | getpid => exact .bind (Leads.any _) fun _ _ => .pure (acted_ret (.refl k) rfl)
  | fork => exact sysFork_acted k
  | exec path args elf stackMapped => exact sysExec_acted k path args elf stackMapped
  | waitpid pid exitCodePtr => exact sysWaitpid_acted k pid exitCodePtr
  | open_ path flags found => exact sysOpen_acted k path flags found
  | close fd => exact sysClose_acted k fd
  | dup fd => exact sysDup_acted k fd
  | pipe ptr => exact sysPipe_acted k ptr
  | kill pid signum => exact .bind (kill_acted k pid signum) fun _ h => .pure h
  | sigaction signum action oldAction => exact sysSigaction_acted k signum action oldAction
  | sigprocmask mask => exact sysSigprocmask_acted k mask
  | sigreturn => exact sysSigreturn_acted k
  | threadCreate entry arg => exact sysThreadCreate_acted k entry arg
  | gettid => exact .bind (Leads.any _) fun _ _ => .pure (acted_ret (.refl k) rfl)
  | waittid tid => exact sysWaittid_acted k tid
  | unsupported => exact .bind (exit_leaves k (-1)) fun _ h => .pure (acted_away h.keeps)
  | mutexCreate _ | mutexLock _ | mutexUnlock _ | semaphoreCreate _ | semaphoreUp _ => cases h
  | semaphoreDown _ | condvarCreate | condvarSignal _ | condvarWait _ _ | sleep _ => cases h

theorem keeps_setTf {a : Option ℕ} (k : Kernel) (tf : TrapFrame) : Keeps a k (k.setTf tf) := by
  refine keeps_modifyTask ?_ ?_
  · exact fun _ => rfl
  · exact fun _ => ⟨rfl, rfl⟩

/-- An object that a call has found. -/
theorem objectOf_spec {p : Process} {pid id : ℕ} {panic : Panic} (list : Process → List (Option ℕ))
    (hp : k.proc = .ok (pid, p)) :
    Leads (object (list p) id panic) fun o => k.objectOf list id = some o := by
  rw [object]
  split
  next o ho =>
    refine .ok ?_
    rw [objectOf, hp]
    simp [ho]
  next => trivial

/-- What a call leaves behind that makes `s` of the objects. When it returns, the task is
done with locks. -/
structure Did (k : Kernel) (s : Sync) (r : Flow × Kernel) : Prop where
  side : Side k r.2
  ret : ∀ v, r.1 = .ret v → r.2.current = k.current ∧ r.2.sync.setPhase k.current none = s
  away : r.1 = .away → r.2.sync = s

theorem did_away {s : Sync} (hp : Side k k') (hs : k'.sync = s) :
    Did k s (.away, k') := ⟨hp, nofun, fun _ => hs⟩

theorem did_ret {s : Sync} {v : ℤ} (hp : Side k k') (hcur : k'.current = k.current)
    (hs : k'.sync = s) (hu : s.phase k.current = none) : Did k s (.ret v, k') :=
  ⟨hp, fun _ _ => ⟨hcur, by rw [hs, setPhase_of_eq hu]⟩, nofun⟩

theorem proceed_did {s : Sync} {r : Flow × Kernel} (h : Did k s r) :
    Leads (proceed r) fun k' => Side k k' ∧ k'.sync = s := by
  obtain ⟨flow, k₁⟩ := r
  cases flow with
  | ret v =>
    obtain ⟨hcur, hs⟩ := h.ret v rfl
    refine (finish_leaves k₁ v).mono fun k' hl => ⟨h.side.trans hl.keeps.side, ?_⟩
    rw [hl.sync_eq, ← hs, show k₁.current = k.current from hcur]
  | away => exact .pure ⟨h.side, h.away rfl⟩

/-- `lock` and `down`, which may give way. -/
theorem returnZero_did {s : Sync} {r : Except Panic (Bool × Kernel)}
    (h : Leads r fun r => (r.1 = true → r.2.current = k.current) ∧ Side k r.2 ∧
      (if r.1 then r.2.sync.setPhase k.current none else r.2.sync) = s) :
    Leads (returnZero r) (Did k s) := by
  refine .bind h ?_
  rintro ⟨returned, k₁⟩ ⟨hcur, hpipes, hsync⟩
  cases returned with
  | true => exact .pure ⟨hpipes, fun _ _ => ⟨hcur rfl, hsync⟩, nofun⟩
  | false => exact .pure (did_away hpipes hsync)

theorem syncAfter_of (op : SyncOp) (h : k.syncOp e = some op) :
    k.syncAfter e = k.sync.apply k.current op := by
  rw [syncAfter, h]

section syscalls

variable (ht : k.tasks[k.current]? ≠ none) (hu : k.phase k.current = none)
include ht hu

/-- A call on objects does what `Sync.apply` says of the operation it amounts to. -/
theorem syncCall_did {call : Syscall} (h : plain call = false) (hsleep : ∀ ms, call ≠ .sleep ms)
    (tf : TrapFrame) : Leads (k.syscall call) (Did k (k.syncAfter (.syscall call tf))) := by
  cases call with
  | mutexCreate blocking =>
    refine .bind (Leads.any _) ?_
    rintro ⟨pid, p⟩ -
    exact .pure (did_ret ⟨id, rfl⟩ rfl rfl hu)
  | semaphoreCreate resCount =>
    refine .bind (Leads.any _) ?_
    rintro ⟨pid, p⟩ -
    exact .pure (did_ret ⟨id, rfl⟩ rfl rfl hu)
  | condvarCreate =>
    refine .bind (Leads.any _) ?_
    rintro ⟨pid, p⟩ -
    exact .pure (did_ret ⟨id, rfl⟩ rfl rfl hu)
  | mutexLock mutexId =>
    refine .bind (Leads.self _) ?_
    rintro ⟨pid, p⟩ hp
    refine .bind (objectOf_spec Process.mutexList hp) fun mutex ho => ?_
    rw [syncAfter_of (.lock mutex) (by rw [syncOp, ho]; rfl)]
    exact returnZero_did (mutexLock_effect ht mutex)
  | mutexUnlock mutexId =>
    refine .bind (Leads.self _) ?_
    rintro ⟨pid, p⟩ hp
    refine .bind (objectOf_spec Process.mutexList hp) fun mutex ho => ?_
    rw [syncAfter_of (.unlock mutex) (by rw [syncOp, ho]; rfl)]
    refine .bind (mutexUnlock_effect k mutex) fun k' h => .pure (did_ret h.2.2.1 h.1 h.2.2.2 ?_)
    exact (congrFun (Sync.phase_unlock ..) _).trans hu
  | semaphoreUp semId =>
    refine .bind (Leads.self _) ?_
    rintro ⟨pid, p⟩ hp
    refine .bind (objectOf_spec Process.semaphoreList hp) fun sem ho => ?_
    rw [syncAfter_of (.up sem) (by rw [syncOp, ho]; rfl)]
    refine .bind (semaphoreUp_effect k sem) fun k' h => .pure (did_ret h.2.1 h.1 h.2.2 ?_)
    exact (congrFun (Sync.phase_up ..) _).trans hu
  | semaphoreDown semId =>
    refine .bind (Leads.self _) ?_
    rintro ⟨pid, p⟩ hp
    refine .bind (objectOf_spec Process.semaphoreList hp) fun sem ho => ?_
    rw [syncAfter_of (.down sem) (by rw [syncOp, ho]; rfl)]
    refine returnZero_did ((semaphoreDown_effect ht hu sem).mono fun r h => ⟨h.1, h.2.1, ?_⟩)
    have hphase : r.2.sync.phase k.current = none := by rw [h.2.2, Sync.phase_down]; exact hu
    split_ifs
    · rw [setPhase_of_eq hphase]
      exact h.2.2
    · exact h.2.2
  | condvarSignal condvarId =>
    refine .bind (Leads.self _) ?_
    rintro ⟨pid, p⟩ hp
    refine .bind (objectOf_spec Process.condvarList hp) fun condvar ho => ?_
    rw [syncAfter_of (.signal condvar) (by rw [syncOp, ho]; rfl)]
    refine .bind (condvarSignal_effect k condvar) fun k' h => .pure (did_ret h.2.1 h.1 h.2.2 ?_)
    exact (congrFun (Sync.phase_signal ..) _).trans hu
  | condvarWait condvarId mutexId =>
    refine .bind (Leads.self _) ?_
    rintro ⟨pid, p⟩ hp
    refine .bind (objectOf_spec Process.condvarList hp) fun condvar hc => ?_
    refine .bind (objectOf_spec Process.mutexList hp) fun mutex hm => ?_
    rw [syncAfter_of (.wait condvar mutex) (by rw [syncOp, hc, hm]; rfl)]
    exact .bind (condvarWait_effect ht condvar mutex) fun k' h => .pure (did_away h.1 h.2)
  | sleep ms => exact absurd rfl (hsleep ms)
  | _ => cases h

theorem sysSleep_effect (ms : ℕ) : Leads (k.sysSleep ms) fun r => r.1 = .away ∧ r.2.sync = k.sync ∧
    (k.PipesOk → r.2.PipesOk) ∧
      r.2.timers = k.timers ++ [⟨(k.timeMs + ms) % 2 ^ 64, k.current⟩] := by
  refine .bind (blockAndYield_keeps _ (.finish 0)) fun k' h => .pure ⟨rfl, ?_, h.pipes, h.timers⟩
  rw [sync_away h ht rfl]
  exact setPhase_of_eq hu

end syscalls

theorem syncOp_plain {call : Syscall} (h : plain call = true) (tf : TrapFrame) :
    k.syncOp (.syscall call tf) = none := by
  cases call <;> first | rfl | cases h

/-- The registers that a trap saves make no difference to what a call does. -/
theorem syncAfter_setTf (call : Syscall) (tf : TrapFrame) :
    (k.setTf tf).syncAfter (.syscall call tf) = k.syncAfter (.syscall call tf) := by
  have hsync : (k.setTf tf).sync = k.sync := (keeps_setTf k tf).sync_eq
  have hobject : ∀ list id, (k.setTf tf).objectOf list id = k.objectOf list id := fun list id => by
    rw [objectOf, objectOf, proc_setTf]
  have hop : (k.setTf tf).syncOp (.syscall call tf) = k.syncOp (.syscall call tf) := by
    cases call <;> simp only [syncOp, hobject]
  rw [syncAfter, syncAfter, hop, hsync]
  rfl

theorem syscall_effect (hu : k.contOf k.current = some .user) (call : Syscall) (tf : TrapFrame) :
    Leads (k.step (.syscall call tf)) (Effect k (.syscall call tf)) := by
  have ht : (k.setTf tf).tasks[k.current]? ≠ none := by
    rw [getElem?_modifyTask, if_pos rfl, Ne, Option.map_eq_none_iff]
    intro hn
    rw [contOf, hn] at hu
    cases hu
  have hphase : (k.setTf tf).phase k.current = none := by
    rw [((keeps_setTf (a := none) k tf).phase _).resolve_right (fun h => by cases h.1), phase, hu]
    rfl
  have hside : Side k (k.setTf tf) := ⟨id, rfl⟩
  have hsync : (k.setTf tf).sync = k.sync := (keeps_setTf k tf).sync_eq
  cases hplain : plain call with
  | true =>
    refine .bind (syscall_acted (k.setTf tf) hplain) fun r hr => (proceed_keeps hr).mono fun k' h => ?_
    refine (hside.trans h.side).effect ?_ ?_
    · rw [h.sync_of_user hphase, syncAfter, syncOp_plain hplain, hsync]
    · rintro ms tf' ⟨rfl, rfl⟩
      cases hplain
  | false =>
    by_cases hsleep : ∃ ms, call = .sleep ms
    · obtain ⟨ms, rfl⟩ := hsleep
      refine .bind (sysSleep_effect ht hphase ms) ?_
      rintro ⟨flow, k'⟩ ⟨rfl, hs, hpipes, htimers⟩
      exact .pure ⟨hs.trans hsync, fun hok => hpipes (hside.pipes hok), fun _ => htimers⟩
    · push Not at hsleep
      refine .bind (syncCall_did ht hphase hplain hsleep tf) fun r hr =>
        (proceed_did hr).mono fun k' h => (hside.trans h.1).effect ?_ ?_
      · rw [h.2, syncAfter_setTf]
      · rintro ms tf' ⟨rfl, rfl⟩
        exact hsleep ms rfl

theorem proceed_effect {task : Task} (htask : k.tasks[k.current]? = some task) (input : Input) :
    Leads (k.proceedWith input task.cont) (Effect k (.proceed input)) := by
  have ht : k.tasks[k.current]? ≠ none := by rw [htask]; simp
  have hphase : k.phase k.current = task.cont.phase := by rw [phase, contOf, htask]; rfl
  -- most loops are none of a lock
  have hplain : task.cont.phase = none → ∀ {r : Except Panic Kernel},
      Leads r (Keeps (some k.current) k) → Leads r (Effect k (.proceed input)) := by
    intro hc r hr
    rw [hc] at hphase
    refine hr.mono fun k' h => h.side.effect ?_ fun _ _ h => by cases h
    rw [h.sync_of_user hphase, syncAfter, syncOp, hphase]
  cases hc : task.cont with
  | user => exact hplain (by rw [hc]; rfl) (.pure (.refl k))
  | finish ret => exact hplain (by rw [hc]; rfl) ((finish_leaves k ret).mono fun _ h => h.keeps)
  | lock mutex =>
    have hop : k.syncOp (.proceed input) = some (.lock mutex) := by
      rw [syncOp, hphase, hc]
      rfl
    refine .bind (returnZero_did (mutexLock_effect ht mutex)) fun r hr =>
      (proceed_did hr).mono fun k' h => h.1.effect ?_ fun _ _ h => by cases h
    rw [h.2, syncAfter_of _ hop]
    rfl
  | locked mutex =>
    have hop : k.syncOp (.proceed input) = some (.granted mutex) := by
      rw [syncOp, hphase, hc]
      rfl
    refine (finish_leaves k 0).mono fun k' h => h.keeps.side.effect ?_ fun _ _ h => by cases h
    rw [h.sync_eq, syncAfter_of _ hop]
    rfl
  | readStdin => exact hplain (by rw [hc]; rfl) (readStdin_keeps k)
  | readInode file len => exact hplain (by rw [hc]; rfl) (readDone_keeps k _ _)
  | readPipe pipe call => exact hplain (by rw [hc]; rfl) (readPipe_keeps k pipe call)
  | write file len count => exact hplain (by rw [hc]; rfl) (writeChunk_keeps k file len count)
  | writePipe pipe call len count =>
    exact hplain (by rw [hc]; rfl) (writePipe_keeps k pipe call len count)
  | signals => exact hplain (by rw [hc]; rfl) ((handleSignals_leaves k).mono fun _ h => h.keeps)
  | rootReap => exact hplain (by rw [hc]; rfl) (rootReap_keeps k)
  | rootCheck => exact hplain (by rw [hc]; rfl) (rootCheck_keeps k)
  | kernelEntry => exact hplain (by rw [hc]; rfl) ((exit_leaves k 0).mono fun _ h => h.keeps)
  | run => trivial
  | exited => trivial

theorem checkTimerLoop_keeps (tie : List TimerCondVar → ℕ) (n : ℕ) (k : Kernel) :
    Leads (checkTimerLoop tie n k) fun k' => k'.sync = k.sync ∧ (k.PipesOk → k'.PipesOk) := by
  induction n generalizing k with
  | zero => exact .pure ⟨rfl, id⟩
  | succ n ih =>
    rw [checkTimerLoop]
    split
    · refine .ite (fun _ => .bind (resume_keeps k _) fun k₁ h => (ih _).mono fun k' h' => ?_)
        fun _ => .pure ⟨rfl, id⟩
      exact ⟨h'.1.trans h.1.sync_eq, fun hok => h'.2 (h.1.pipes hok)⟩
    · exact .pure ⟨rfl, id⟩

theorem step_effect {k k' : Kernel} {e : Event} (he : k.enabled e) (hs : k.step e = .ok k') :
    Effect k e k' := by
  have hl : Leads (k.step e) (Effect k e) := by
    cases e with
    | syscall call tf => exact syscall_effect (by simpa [enabled] using he) call tf
    | fault =>
      have hu : k.phase k.current = none := by
        rw [phase, show k.contOf k.current = some .user by simpa [enabled] using he]
        rfl
      exact (exit_leaves k (-1)).mono fun k' h => h.keeps.side.effect (h.keeps.sync_of_user hu) fun _ _ h => by cases h
    | proceed input =>
      exact .bind (Leads.of (task_spec k _)) fun task htask => proceed_effect htask input
    | timer tie =>
      refine .bind (checkTimerLoop_keeps tie _ k) fun k₁ h₁ => (yieldCurrent_keeps (a := none) k₁).mono
        fun k' h => ?_
      exact ⟨h.sync_eq.trans h₁.1, fun hok => h.pipes (h₁.2 hok), fun hne => absurd rfl (hne tie)⟩
    | clock ms => exact .pure ⟨rfl, id, fun _ => rfl⟩
  exact hl.post_of_ok hs

end Kernel

end RCore.Os
