import RCore.Proofs.Os.Effects
import RCore.Spec.Os.Descriptors

/-! What a step does to the signals of tasks and to the files of processes: signals move as
`SignalRun` says, and only the calls of `FdOp` change which files there are. -/

namespace RCore.Os

open RCore.Lib

namespace Kernel

variable {S : SignalFlags → Prop} {k k' k'' : Kernel} {t pid : ℕ} {c : Cont} {f : Task → Task}
  {g : Process → Process} {call : Syscall} {input : Input}

/-- The signals of every task have come about with those of `S` only. -/
def Sent (S : SignalFlags → Prop) (k : Kernel) : Prop :=
  ∀ task ∈ k.tasks, SignalRun S task.signal

/-- Signals have moved, and no file has come or gone. -/
structure Moves (S : SignalFlags → Prop) (k k' : Kernel) : Prop where
  signals : k.Sent S → k'.Sent S
  fds : k'.fds = k.fds

namespace Moves

theorem refl (k : Kernel) : Moves S k k := ⟨id, rfl⟩

theorem trans (h : Moves S k k') (h' : Moves S k' k'') : Moves S k k'' :=
  ⟨fun hs => h'.signals (h.signals hs), h'.fds.trans h.fds⟩

theorem of_eq (htasks : k'.tasks = k.tasks) (hprocs : k'.procs = k.procs) : Moves S k k' := by
  refine ⟨fun h => ?_, ?_⟩
  · rw [Sent, htasks]
    exact h
  · funext pid
    rw [Kernel.fds, Kernel.fds, hprocs]

/-- What comes next may move signals on. -/
theorem leads (h : Moves S k k') {r : Except Panic Kernel} (hr : Leads r (Moves S k')) :
    Leads r (Moves S k) :=
  hr.mono fun _ => h.trans

end Moves

theorem moves_modifyTask (hf : ∀ task, k.tasks[t]? = some task → SignalRun S task.signal →
    SignalRun S (f task).signal) : Moves S k (k.modifyTask t f) := by
  refine ⟨fun h task htask => ?_, rfl⟩
  obtain ⟨u, hu⟩ := List.mem_iff_getElem?.mp htask
  rw [getElem?_modifyTask] at hu
  split_ifs at hu with hut
  · obtain ⟨task₀, hget, rfl⟩ := Option.map_eq_some_iff.mp hu
    exact hf _ (hut ▸ hget) (h _ (List.mem_of_getElem? hget))
  · exact h _ (List.mem_of_getElem? hu)

/-- The map of a process that is modified. -/
theorem fds_modifyProc (k : Kernel) (pid : ℕ) (g : Process → Process) (q : ℕ) :
    (k.modifyProc pid g).fds q =
      if q = pid then (k.procs[q]?.join.map g).map Process.fds else k.fds q := by
  rw [fds, getElem?_modifyProc]
  split_ifs with h
  · cases k.procs[q]? with
    | none => rfl
    | some p => rfl
  · rfl

theorem moves_modifyProc (hg : ∀ p, (g p).fdTable = p.fdTable) :
    Moves S k (k.modifyProc pid g) := by
  refine ⟨id, funext fun q => ?_⟩
  rw [fds_modifyProc]
  split_ifs with h
  · have hmap : ∀ p : Process, (g p).fds = p.fds := fun p => congrArg PartialMap.ofTable (hg p)
    rw [Option.map_map, fds]
    exact Option.map_congr fun p _ => hmap p
  · rfl

theorem moves_setState (k : Kernel) (t : ℕ) (s : TaskState) : Moves S k (k.setState t s) :=
  moves_modifyTask fun _ _ => id

theorem moves_setExitCode (k : Kernel) (t : ℕ) (code : Int32) :
    Moves S k (k.setExitCode t code) :=
  moves_modifyTask fun _ _ => id

theorem moves_setCont (k : Kernel) (c : Cont) : Moves S k (k.setCont c) :=
  moves_modifyTask fun _ _ => id

/-- A new task has no signals. -/
theorem moves_newTask {task : Task} (htasks : k'.tasks = k.tasks ++ [task])
    (hnew : task.signal = .new) (hfds : k'.fds = k.fds) : Moves S k k' := by
  refine ⟨fun h task' htask' => ?_, hfds⟩
  rw [htasks] at htask'
  rcases List.mem_append.mp htask' with hold | hlast
  · exact h _ hold
  · rw [List.mem_singleton.mp hlast, hnew]
    exact .new

/-! Scheduling -/

theorem switchTo_moves (k : Kernel) (t : ℕ) : Leads (k.switchTo t) (Moves S k) := by
  refine .ite (fun _ => .ok (moves_setState k t _)) fun _ => .ite (fun _ => trivial) fun _ => .ok ?_
  exact (moves_setState k t .running).trans (.of_eq rfl rfl)

theorem resched_moves (k : Kernel) : Leads k.resched (Moves S k) := by
  have hpick : Leads k.pickNextTask fun r => Moves S k r.2 :=
    .bind (Leads.any _) fun _ _ => .pure (.of_eq rfl rfl)
  refine .ite (fun _ => trivial) fun _ => .bind hpick ?_
  rintro ⟨next, k₁⟩ hk
  cases next with
  | none => exact hk.leads (switchTo_moves k₁ idleTask)
  | some t => exact hk.leads (switchTo_moves k₁ t)

theorem yieldCurrent_moves (k : Kernel) : Leads k.yieldCurrent (Moves S k) := by
  refine .ite (fun _ => trivial) fun _ => .bind (Leads.any _) fun isIdle _ => ?_
  have hk : Moves S k (k.setState k.current .ready) := moves_setState ..
  have hready : Moves S k ((k.setState k.current .ready).addReadyTask k.current) :=
    hk.trans (.of_eq rfl rfl)
  exact .ite (fun _ => hk.leads (resched_moves _)) fun _ => hready.leads (resched_moves _)

theorem yieldNow_moves (k : Kernel) (c : Cont) : Leads (k.yieldNow c) (Moves S k) :=
  (moves_setCont k c).leads (yieldCurrent_moves _)

theorem blockAndYield_moves (k : Kernel) (c : Cont) : Leads (k.blockAndYield c) (Moves S k) :=
  ((moves_setCont k c).trans (moves_setState ..)).leads (resched_moves _)

theorem spawn_moves (k : Kernel) (t : ℕ) : Leads (k.spawn t) (Moves S k) :=
  .ite (fun _ => .ok (.of_eq rfl rfl)) fun _ => trivial

theorem resume_moves (k : Kernel) (t : ℕ) : Leads (k.resume t) (Moves S k) :=
  .ite (fun _ => (moves_setState ..).leads (spawn_moves _ _)) fun _ => trivial

theorem checkTimerLoop_moves (tie : List TimerCondVar → ℕ) (n : ℕ) (k : Kernel) :
    Leads (checkTimerLoop tie n k) (Moves S k) := by
  induction n generalizing k with
  | zero => exact .pure (.refl k)
  | succ n ih =>
    rw [checkTimerLoop]
    split
    next timer _ =>
      have hresume : Leads (k.resume timer.task) (Moves S k) := resume_moves k timer.task
      refine .ite (fun _ => .bind hresume fun k₁ h₁ => ?_) fun _ => .pure (.refl k)
      have htimers : Moves S k { k₁ with timers := k₁.timers.erase timer } :=
        h₁.trans (.of_eq rfl rfl)
      exact htimers.leads (ih _)
    next => exact .pure (.refl k)

/-! The end of a task, and of a system call -/

theorem exit_moves (k : Kernel) (code : Int32) : Leads (k.exit code) (Moves S k) := by
  refine .bind (Leads.any _) fun task _ => ?_
  have hk : Moves S k ((k.setState k.current .zombie).setExitCode k.current code) :=
    (moves_setState ..).trans (moves_setExitCode ..)
  have hexit : Leads (((k.setState k.current .zombie).setExitCode k.current code).taskExit
      task.process code) (Moves S k) :=
    .bind (Leads.any _) fun p _ => .ite (fun _ => .bind (Leads.any _) fun _ _ =>
      .pure (hk.trans (moves_modifyProc fun _ => rfl))) fun _ => .pure hk
  exact .bind hexit fun k₁ h₁ => .ite (fun _ => trivial) fun _ =>
    (((h₁.trans (moves_setState ..)).trans (moves_setExitCode ..)).trans (moves_setCont ..)).leads
      (resched_moves _)

theorem access_moves {α : Type} {ref : UserRef α} {body : α → Except Panic (Flow × Kernel)}
    (hk : Moves S k k') (hbody : ∀ a, Leads (body a) fun r => Moves S k r.2) :
    Leads (access ref k' body) fun r => Moves S k r.2 := by
  cases ref with
  | refused => trivial
  | fault => exact .bind (exit_moves k' (-1)) fun _ h => .pure (hk.trans h)
  | mapped a => exact hbody a

theorem moves_leakProc (k : Kernel) (pid : ℕ) : Moves S k (k.leakProc pid) := .of_eq rfl rfl

theorem moves_setSignal {inner : SignalInner} {tf : TrapFrame}
    (h : k.Sent S → SignalRun S inner) : Moves S k (k.setSignal inner tf) := by
  refine ⟨fun hs => ?_, rfl⟩
  have hinner := h hs
  have hmoves : Moves S k (k.setSignal inner tf) := moves_modifyTask fun _ _ _ => hinner
  exact hmoves.signals hs

theorem handleSignals_moves (k : Kernel) : Leads k.handleSignals (Moves S k) := by
  refine .bind (Leads.self _) fun task htask => .bind (Leads.any _) fun p _ => ?_
  have hrun : k.Sent S → SignalRun S
      (task.signal.checkPendingSignals p.signalActions task.tf).2.1 := fun hs =>
    .check (hs task (List.mem_of_getElem? ((task_spec k _).post_of_ok htask))) _ _
  generalize task.signal.checkPendingSignals p.signalActions task.tf = r at hrun
  obtain ⟨signal, inner, tf⟩ := r
  refine .bind (Leads.any _) fun _ _ => ?_
  have hk : Moves S k (k.setSignal inner tf) := moves_setSignal hrun
  have hend : Leads ((k.setSignal inner tf).signalsHandled inner) (Moves S k) := by
    rw [signalsHandled]
    split
    · exact hk.leads (exit_moves _ _)
    · exact .pure (hk.trans (moves_setCont ..))
  exact .ite (fun _ => hend) fun _ => .ite (fun _ => hk.leads (blockAndYield_moves _ _)) fun _ => hend

theorem finish_moves (k : Kernel) (ret : ℤ) : Leads (k.finish ret) (Moves S k) := by
  have hk : Moves S k (k.modifyTask k.current fun task =>
      { task with tf := task.tf.setR0 (UInt64.ofInt ret) }) := moves_modifyTask fun _ _ => id
  exact hk.leads (handleSignals_moves _)

theorem proceed_moves (r : Flow × Kernel) : Leads (proceed r) (Moves S r.2) := by
  obtain ⟨flow, k₁⟩ := r
  cases flow with
  | ret value => exact finish_moves k₁ value
  | away => exact .pure (.refl k₁)

/-! Calls that leave the files as they are -/

theorem mutexLock_moves (k : Kernel) (mutex : ℕ) :
    Leads (k.mutexLock mutex) fun r => Moves S k r.2 := by
  rw [mutexLock]
  split
  · exact .ite (fun _ => .bind (yieldNow_moves k _) fun _ h => .pure h) fun _ =>
      .pure (.of_eq rfl rfl)
  next locked waitQueue _ =>
    have hk : Moves S k { k with
        mutexes := k.mutexes.set mutex (.blocking locked (waitQueue ++ [k.current])) } :=
      .of_eq rfl rfl
    exact .ite (fun _ => .bind (hk.leads (blockAndYield_moves _ _)) fun _ h => .pure h) fun _ =>
      .pure (.of_eq rfl rfl)
  · trivial

theorem mutexUnlock_moves (k : Kernel) (mutex : ℕ) :
    Leads (k.mutexUnlock mutex) (Moves S k) := by
  rw [mutexUnlock]
  split
  · exact .pure (.of_eq rfl rfl)
  · trivial
  next wakingTask waitQueue _ =>
    have hk : Moves S k { k with
        mutexes := k.mutexes.set mutex (.blocking true waitQueue) } := .of_eq rfl rfl
    exact hk.leads (resume_moves _ _)
  · exact .pure (.of_eq rfl rfl)
  · trivial

theorem semaphoreUp_moves (k : Kernel) (sem : ℕ) : Leads (k.semaphoreUp sem) (Moves S k) := by
  rw [semaphoreUp]
  split
  next count _ _ =>
    refine .ite (fun _ => ?_) fun _ => .pure (.of_eq rfl rfl)
    split
    next t waitQueue _ =>
      have hk : Moves S k { k with
          semaphores := k.semaphores.set sem ⟨wrap (count + 1), waitQueue⟩ } := .of_eq rfl rfl
      exact hk.leads (resume_moves _ _)
    next => exact .pure (.of_eq rfl rfl)
  next => trivial

theorem semaphoreDown_moves (k : Kernel) (sem : ℕ) :
    Leads (k.semaphoreDown sem) fun r => Moves S k r.2 := by
  rw [semaphoreDown]
  split
  next count waitQueue _ =>
    have hk : Moves S k { k with
        semaphores := k.semaphores.set sem ⟨wrap (count - 1), waitQueue ++ [k.current]⟩ } :=
      .of_eq rfl rfl
    exact .ite (fun _ => .bind (hk.leads (blockAndYield_moves _ _)) fun _ h => .pure h) fun _ =>
      .pure (.of_eq rfl rfl)
  next => trivial

theorem condvarSignal_moves (k : Kernel) (condvar : ℕ) :
    Leads (k.condvarSignal condvar) (Moves S k) := by
  rw [condvarSignal]
  split
  next t waitQueue _ =>
    have hk : Moves S k { k with condvars := k.condvars.set condvar ⟨waitQueue⟩ } :=
      .of_eq rfl rfl
    exact hk.leads (resume_moves _ _)
  next => exact .pure (.refl k)
  next => trivial

theorem condvarWait_moves (k : Kernel) (condvar mutex : ℕ) :
    Leads (k.condvarWait condvar mutex) (Moves S k) := by
  refine .bind (mutexUnlock_moves (S := S) k mutex) fun k₁ h₁ => ?_
  split
  next waitQueue _ =>
    have hk : Moves S k { k₁ with
        condvars := k₁.condvars.set condvar ⟨waitQueue ++ [k₁.current]⟩ } :=
      h₁.trans (.of_eq rfl rfl)
    exact hk.leads (blockAndYield_moves _ _)
  next => trivial

theorem returnZero_moves {r : Except Panic (Bool × Kernel)}
    (h : Leads r fun r => Moves S k r.2) : Leads (returnZero r) fun r => Moves S k r.2 :=
  .bind h fun _ hr => .pure hr

/-- A call that returns 0. -/
theorem zero_moves {r : Except Panic Kernel} (h : Leads r (Moves S k)) :
    Leads (do pure (Flow.ret 0, ← r)) fun r => Moves S k r.2 :=
  .bind h fun _ hr => .pure hr

theorem insertSignal_moves {flag : SignalFlags} (hflag : S flag) (k : Kernel) (t : ℕ) :
    Moves S k (k.insertSignal t flag).2 := by
  rw [insertSignal]
  split
  · split_ifs
    · exact moves_modifyTask fun _ _ h => h.send hflag
    · exact .refl k
  · exact .refl k

theorem insertSignals_moves {flag : SignalFlags} (hflag : S flag) (tasks : List (ℕ × ℕ))
    (k : Kernel) : Moves S k (k.insertSignals flag tasks).2 := by
  induction tasks generalizing k with
  | nil => exact .refl k
  | cons e tasks ih => exact (insertSignal_moves hflag k e.2).trans (ih (k.insertSignal e.2 flag).2)

theorem stop_moves (hkill : S SignalFlags.SIGKILL) (k : Kernel) (pid : ℕ) (code : Int32) :
    Leads (k.stop pid code) (Moves S k) := by
  refine .bind (Leads.any _) fun p _ => .ite (fun _ => trivial) fun _ => .pure ?_
  have hroot : Moves S k (k.modifyProc ROOT_PID fun root =>
      { root with children := root.children ++ p.children }) := moves_modifyProc fun _ => rfl
  have hk : Moves S k (k.reparent pid p.children) := hroot.trans (moves_modifyProc fun _ => rfl)
  exact (hk.trans (insertSignals_moves hkill p.tasks _)).trans (moves_modifyProc fun _ => rfl)

theorem kill_moves {signum : ℤ} (hflag : S ⟨SignalFlags.shift signum⟩) (k : Kernel) (pid : ℕ) :
    Leads (k.kill pid signum) fun r => Moves S k r.2 :=
  .ite (fun _ => .bind (Leads.any _) fun p _ => .pure (insertSignals_moves hflag p.tasks k))
    fun _ => .pure (.refl k)

theorem sysSigaction_moves (k : Kernel) (signum : ℤ) (action : Option (UserRef SignalAction))
    (oldAction : Option (UserRef Unit)) :
    Leads (k.sysSigaction signum action oldAction) fun r => Moves S k r.2 := by
  rw [sysSigaction]
  split
  · split
    · refine .ite (fun _ => .pure (.refl k)) fun _ => .bind (Leads.any _) ?_
      rintro ⟨pid, p⟩ -
      have hk : Moves S k ((k.leakProc pid).leakLock (.signalActions pid)) := .of_eq rfl rfl
      exact .bind (Leads.any _) fun _ _ => access_moves hk fun _ => access_moves hk fun _ =>
        .pure (moves_modifyProc fun _ => rfl)
    · exact .pure (.refl k)
  · exact .pure (.refl k)

theorem sysSigprocmask_moves (k : Kernel) (mask : BitVec 32) :
    Leads (k.sysSigprocmask mask) fun r => Moves S k r.2 := by
  refine .bind (Leads.any _) fun task _ => ?_
  split
  · exact .pure (moves_modifyTask fun _ _ h => h.sigprocmask _)
  · exact .pure (.refl k)

theorem sysSigreturn_moves (k : Kernel) : Leads k.sysSigreturn fun r => Moves S k r.2 := by
  refine .bind (Leads.self _) fun task htask => ?_
  split
  next backup mask hbackup hmask =>
    refine .pure (moves_modifyTask fun task' hget h => h.sigreturn ?_)
    rw [(task_spec k _).post_of_ok htask] at hget
    rwa [← Option.some.inj hget]
  next => trivial
  next => exact .pure (.refl k)

theorem sysExec_moves (k : Kernel) (path : UserRef String) (args : UserRef (List String))
    (elf : Option (UInt64 × ℕ)) (stackMapped : Bool) :
    Leads (k.sysExec path args elf stackMapped) fun r => Moves S k r.2 := by
  refine access_moves (.refl k) fun _ => .bind (Leads.any _) ?_
  rintro ⟨pid, p⟩ -
  refine access_moves (moves_leakProc k pid) fun args => ?_
  refine .bind (Leads.any _) fun _ _ => .ite (fun _ => trivial) fun _ =>
    .ite (fun _ => trivial) fun _ => ?_
  split
  · have hk : Moves S k (k.modifyProc pid fun p => { p with vm := true }) :=
      moves_modifyProc fun _ => rfl
    have hleak : Moves S k (((k.modifyProc pid fun p => { p with vm := true }).leakProc pid).leakLock
      (.vm pid)) := hk.trans (.of_eq rfl rfl)
    exact .bind (Leads.any _) fun _ _ => access_moves hleak fun _ =>
      .pure (hk.trans (moves_modifyTask fun _ _ => id))
  · exact .pure (.refl k)

theorem sysThreadCreate_moves (k : Kernel) (entry arg : UInt64) :
    Leads (k.sysThreadCreate entry arg) fun r => Moves S k r.2 := by
  refine .bind (Leads.any _) ?_
  rintro ⟨pid, p⟩ -
  have hnew : Leads (k.newUserTask pid entry arg) fun r => Moves S k r.2.2 := by
    refine .bind (Leads.any _) fun p _ => .bind (Leads.any _) fun _ _ => .ite (fun _ => trivial)
      fun _ => .ite (fun _ => trivial) fun _ => .pure ?_
    have hk : Moves S k { k with tasks := k.tasks ++ [Task.new p.tidAllocator pid
        (.newUserArg entry (UInt64.ofNat (userStack p.tidAllocator).2) arg 0) .user] } :=
      moves_newTask rfl rfl rfl
    exact hk.trans (moves_modifyProc fun _ => rfl)
  refine .bind hnew ?_
  rintro ⟨tid, t, k₁⟩ hk
  exact .bind (hk.leads (spawn_moves _ _)) fun _ h => .pure h

theorem sysWaittid_moves (k : Kernel) (tid : ℕ) :
    Leads (k.sysWaittid tid) fun r => Moves S k r.2 := by
  refine .bind (Leads.any _) fun task _ => .ite (fun _ => .pure (.refl k)) fun _ => ?_
  have hw : Leads (k.waittid task.process tid) fun r => Moves S k r.2 := by
    refine .bind (Leads.any _) fun p _ => ?_
    split
    · exact .bind (Leads.any _) fun _ _ => .ite (fun _ => .pure (moves_modifyProc fun _ => rfl))
        fun _ => .pure (.refl k)
    · exact .pure (.refl k)
  exact .bind hw fun _ h => .pure h

/-! Calls that change which files there are -/

/-- Signals have moved, and the maps have changed as the operation says. -/
structure Turns (S : SignalFlags → Prop) (op : FdOp) (k k' : Kernel) : Prop where
  signals : k.Sent S → k'.Sent S
  fds : k'.fds = op.apply k.fds

variable {op : FdOp} {p : Process}

theorem Moves.turns (h : Moves S k k') : Turns S .nothing k k' := ⟨h.signals, h.fds⟩

theorem Turns.trans (h : Turns S op k k') (h' : Moves S k' k'') : Turns S op k k'' :=
  ⟨fun hs => h'.signals (h.signals hs), h'.fds.trans h.fds⟩

/-- What a call leads to, and what it returns if it does. -/
structure Serves (S : SignalFlags → Prop) (op : FdOp) (k : Kernel) (r : Flow × Kernel) : Prop where
  turns : Turns S op k r.2
  result : ∀ v n, r.1 = .ret v → op.result k.fds = some n → v = n

theorem Moves.serves {r : Flow × Kernel} (h : Moves S k r.2) : Serves S .nothing k r :=
  ⟨h.turns, fun _ _ _ hn => by cases hn⟩

theorem fds_of_proc (h : k.procs[pid]? = some (some p)) : k.fds pid = some p.fds := by
  rw [Kernel.fds, h]
  rfl

/-- The table of a process changes. -/
theorem turns_modifyProc (fm : FdMap → FdMap) (hp : k.procs[pid]? = some (some p))
    (hg : (g p).fds = fm p.fds) (htasks : k'.tasks = k.tasks) (hprocs : k'.procs = k.procs)
    (hop : op.apply k.fds = FdOp.onMap k.fds pid fm) : Turns S op k (k'.modifyProc pid g) := by
  refine ⟨fun h => ?_, funext fun q => ?_⟩
  · change Sent S k'
    rw [Sent, htasks]
    exact h
  · rw [hop, fds_modifyProc, hprocs, FdOp.onMap, fds_of_proc hp]
    split_ifs with h
    · rw [h, hp, Function.update_self, Option.map_some, ← hg]
      rfl
    · rw [Function.update_of_ne h, Kernel.fds, Kernel.fds, hprocs]

theorem allocSlot_fst {α : Type} (table : List (Option α)) (x : α) :
    (allocSlot table x).1 = (PartialMap.ofTable table).fresh := by
  rw [allocSlot]
  split
  next n hn =>
    obtain ⟨hlt, hnone, hbound⟩ := List.findIdx?_eq_some_iff_getElem.mp hn
    refine (PartialMap.fresh_ofTable ?_ fun i hi => ?_).symm
    · rw [List.getElem?_eq_getElem hlt, Option.isNone_iff_eq_none.mp hnone]
    · rw [List.getElem?_eq_getElem (hi.trans hlt), Option.join_some]
      exact fun hi' => hbound i hi (Option.isNone_iff_eq_none.mpr hi')
  next hfull =>
    rw [List.findIdx?_eq_none_iff] at hfull
    refine (PartialMap.fresh_ofTable_full fun i hi => ?_).symm
    rw [List.getElem?_eq_getElem hi, Option.join_some]
    intro hi'
    have hbound := hfull _ (List.getElem_mem hi)
    rw [hi'] at hbound
    cases hbound

/-- The first free place of a table is taken: the smallest number that is not bound. -/
theorem ofTable_allocSlot {α : Type} (table : List (Option α)) (x : α) :
    PartialMap.ofTable (allocSlot table x).2 = (PartialMap.ofTable table).push x := by
  have hfst := allocSlot_fst table x
  rw [PartialMap.push, ← hfst, allocSlot]
  split
  next n hn =>
    obtain ⟨hlt, -⟩ := List.findIdx?_eq_some_iff_getElem.mp hn
    exact PartialMap.ofTable_set_some hlt x
  next => exact PartialMap.ofTable_append table x

theorem callOp_of_proc (h : k.proc = .ok (pid, p)) (call : Syscall) :
    k.callOp call = k.opOf pid call := by
  rw [callOp, h]

theorem sysOpen_serves (k : Kernel) (path : UserRef String) (flags : BitVec 32) (found : Bool) :
    Leads (k.sysOpen path flags found) (Serves S (k.callOp (.open_ path flags found)) k) := by
  refine .bind (Leads.self _) ?_
  rintro ⟨pid, p⟩ hproc
  have hp : k.procs[pid]? = some (some p) := ((proc_spec k).post_of_ok hproc).1
  rw [callOp_of_proc hproc]
  cases path with
  | refused => trivial
  | fault => exact .bind ((moves_leakProc k pid).leads (exit_moves _ _)) fun _ h => .pure h.serves
  | mapped s =>
    simp only [access]
    cases found with
    | false =>
      split
      · trivial
      · exact .pure (Moves.refl k).serves
    | true =>
      rw [opOf]
      cases openFlags flags with
      | none => trivial
      | some mode =>
        refine .pure ⟨turns_modifyProc (fun m => m.push _) hp (ofTable_allocSlot _ _) rfl rfl rfl,
          fun v n hv hn => ?_⟩
        rw [FdOp.result, fds_of_proc hp] at hn
        cases hv
        cases hn
        exact congrArg _ (allocSlot_fst _ _)

theorem join_eq_none {fd : ℕ} {table : List (Option File)}
    (h : ∀ file, table[fd]? = some (some file) → False) : table[fd]?.join = none := by
  rw [Option.join_eq_none_iff]
  cases hfd : table[fd]? with
  | none => exact .inl rfl
  | some x =>
    cases x with
    | none => exact .inr rfl
    | some file => exact (h file hfd).elim

theorem sysClose_serves (k : Kernel) (fd : ℕ) :
    Leads (k.sysClose fd) (Serves S (k.callOp (.close fd)) k) := by
  refine .bind (Leads.self _) ?_
  rintro ⟨pid, p⟩ hproc
  have hp : k.procs[pid]? = some (some p) := ((proc_spec k).post_of_ok hproc).1
  rw [callOp_of_proc hproc]
  have hresult : (k.opOf pid (.close fd)).result k.fds =
      some (if (p.fdTable[fd]?.join).isSome then 0 else -1) := by
    rw [opOf, FdOp.result, fds_of_proc hp]
    rfl
  dsimp only
  split
  next file hfd =>
    have hlt := (List.getElem?_eq_some_iff.mp hfd).1
    refine .pure ⟨turns_modifyProc (fun m => m.erase fd) hp (PartialMap.ofTable_set_none hlt) rfl rfl rfl,
      fun v n hv hn => ?_⟩
    rw [hresult, hfd] at hn
    cases hv
    cases hn
    rfl
  next hunbound =>
    have hnone := join_eq_none hunbound
    refine .pure ⟨⟨id, ?_⟩, fun v n hv hn => ?_⟩
    · have herase : p.fds.erase fd = p.fds := PartialMap.erase_of_unbound hnone
      rw [opOf, FdOp.apply, FdOp.onMap, fds_of_proc hp, Option.map_some, herase,
        ← fds_of_proc hp, Function.update_eq_self]
    · rw [hresult, hnone] at hn
      cases hv
      cases hn
      rfl

theorem sysDup_serves (k : Kernel) (fd : ℕ) :
    Leads (k.sysDup fd) (Serves S (k.callOp (.dup fd)) k) := by
  refine .bind (Leads.self _) ?_
  rintro ⟨pid, p⟩ hproc
  have hp : k.procs[pid]? = some (some p) := ((proc_spec k).post_of_ok hproc).1
  rw [callOp_of_proc hproc]
  have hresult : (k.opOf pid (.dup fd)).result k.fds =
      some (if (p.fdTable[fd]?.join).isSome then (p.fds.fresh : ℤ) else -1) := by
    rw [opOf, FdOp.result, fds_of_proc hp]
    rfl
  dsimp only
  split
  next file hfd =>
    have hget : p.fds.get fd = some file := by rw [Process.fds, PartialMap.get_ofTable, hfd]; rfl
    refine .pure ⟨turns_modifyProc _ hp ((ofTable_allocSlot _ _).trans ?_) rfl rfl rfl, fun v n hv hn => ?_⟩
    · rw [hget]
      rfl
    · rw [hresult, hfd] at hn
      cases hv
      cases hn
      exact congrArg _ (allocSlot_fst _ _)
  next hunbound =>
    have hnone := join_eq_none hunbound
    have hget : p.fds.get fd = none := hnone
    refine .pure ⟨⟨id, ?_⟩, fun v n hv hn => ?_⟩
    · rw [opOf, FdOp.apply, FdOp.onMap, fds_of_proc hp, Option.map_some]
      simp only [hget]
      rw [← fds_of_proc hp, Function.update_eq_self]
    · rw [hresult, hnone] at hn
      cases hv
      cases hn
      rfl

theorem sysPipe_serves (k : Kernel) (ptr : UserRef Unit) :
    Leads (k.sysPipe ptr) (Serves S (k.callOp (.pipe ptr)) k) := by
  refine .bind (Leads.self _) ?_
  rintro ⟨pid, p⟩ hproc
  have hp : k.procs[pid]? = some (some p) := ((proc_spec k).post_of_ok hproc).1
  rw [callOp_of_proc hproc]
  dsimp only
  generalize hread : allocSlot p.fdTable (.pipeRead k.pipes.length) = slot
  obtain ⟨readFd, table⟩ := slot
  dsimp only
  generalize hwrite : allocSlot table (.pipeWrite k.pipes.length) = slot
  obtain ⟨writeFd, table'⟩ := slot
  have htable : PartialMap.ofTable table' =
      (p.fds.push (.pipeRead k.pipes.length)).push (.pipeWrite k.pipes.length) := by
    have h₁ := ofTable_allocSlot p.fdTable (.pipeRead k.pipes.length)
    have h₂ := ofTable_allocSlot table (.pipeWrite k.pipes.length)
    rw [hread] at h₁
    rw [hwrite] at h₂
    exact h₂.trans (congrArg (PartialMap.push · _) h₁)
  have hturns : Turns S (k.opOf pid (.pipe ptr)) k (modifyProc { k with
      pipes := k.pipes ++ [PipeRingBuffer.new.setWriteEnd] } pid fun p =>
        { p with fdTable := table' }) :=
    turns_modifyProc (fun m => (m.push _).push _) hp htable rfl rfl rfl
  cases ptr with
  | refused => trivial
  | fault =>
    refine .bind (exit_moves (S := S) _ _) fun k₁ h => .pure ⟨hturns.trans ?_, fun v n hv _ => by cases hv⟩
    exact (moves_leakProc _ pid).trans h
  | mapped u =>
    refine .pure ⟨hturns, fun v n hv hn => ?_⟩
    cases hv
    cases hn
    rfl

/-- A process is added at the end. -/
theorem fds_append {m : FdMap} (hprocs : k'.procs = k.procs ++ [some p]) (hm : p.fds = m) :
    k'.fds = Function.update k.fds k.procs.length (some m) := by
  subst hm
  funext q
  rw [fds, hprocs]
  rcases lt_trichotomy q k.procs.length with h | h | h
  · rw [List.getElem?_append_left h, Function.update_of_ne h.ne, fds]
  · rw [h, List.getElem?_append_right (Nat.le_refl _), Nat.sub_self, Function.update_self]
    rfl
  · rw [List.getElem?_eq_none (by rw [List.length_append, List.length_singleton]; omega),
      Function.update_of_ne h.ne', fds, List.getElem?_eq_none h.le]

/-- A process is gone. -/
theorem fds_set_none {child : ℕ} (hprocs : k'.procs = k.procs.set child none) :
    k'.fds = Function.update k.fds child none := by
  funext q
  rw [fds, hprocs]
  by_cases h : q = child
  · rw [h, Function.update_self, List.getElem?_set, if_pos rfl]
    split_ifs <;> rfl
  · rw [List.getElem?_set_ne (Ne.symm h), Function.update_of_ne h, fds]

theorem newFork_turns (k : Kernel) (pid : ℕ) (tf : TrapFrame) : Leads (k.newFork pid tf) fun r =>
    r.1 = k.procs.length ∧ Turns S (.fork pid k.procs.length) k r.2 := by
  refine .bind (process_spec k pid).weaken fun p hp => .ite (fun _ => trivial) fun _ =>
    .bind (Leads.any _) fun _ _ => .ite (fun _ => trivial) fun _ => .pure ⟨rfl, ?_⟩
  have hnew : Turns S (.fork pid k.procs.length) k (k.newProcess
      { Process.new false with vm := true, fdTable := p.fdTable } tf.newFork .user) := by
    refine ⟨fun h task htask => ?_, ?_⟩
    · rcases List.mem_append.mp htask with hold | hlast
      · exact h _ hold
      · rw [List.mem_singleton.mp hlast]
        exact .new
    · rw [FdOp.apply, fds_of_proc hp]
      exact fds_append rfl rfl
  exact hnew.trans (moves_modifyProc fun _ => rfl)

theorem sysFork_serves (k : Kernel) : Leads k.sysFork (Serves S (k.callOp .fork) k) := by
  refine .bind (Leads.self _) fun task htask => ?_
  refine .bind ((newFork_turns (S := S) k task.process task.tf).and (Leads.self _)) ?_
  rintro ⟨child, k₁⟩ ⟨⟨hchild, hturns⟩, hfork⟩
  -- the process is there, or `new_fork` would have failed
  have hop : k.callOp .fork = .fork task.process k.procs.length := by
    cases hprocess : k.process task.process with
    | error e =>
      rw [newFork, hprocess] at hfork
      cases hfork
    | ok p =>
      have hproc : k.proc = .ok (task.process, p) := by
        rw [proc, htask]
        change (do let p ← k.process task.process; pure (task.process, p)) = _
        rw [hprocess]
        rfl
      rw [callOp_of_proc hproc, opOf]
  rw [hop]
  refine .bind (Leads.any _) fun t _ => ?_
  have hmap : Moves S k₁ { k₁ with procMap := k₁.procMap ++ [child] } := .of_eq rfl rfl
  refine .bind (hmap.leads (spawn_moves _ t)) fun k₂ h₂ => .pure ⟨hturns.trans h₂, fun v n hv hn => ?_⟩
  cases hv
  cases hn
  exact congrArg _ hchild

theorem waitpid_turns (k : Kernel) (parent : ℕ) (pid : ℤ) : Leads (k.waitpid parent pid) fun r =>
    Turns S (k.reapOp parent pid) k r.2.2 ∧
      ∀ n, (k.reapOp parent pid).result k.fds = some n → r.1 = n := by
  have hcases : Leads (k.waitpid parent pid) fun r =>
      (∃ (child : ℕ) (code : Int32), r.1 = child ∧ r.2.1 = some code ∧ Turns S (.reap child) k r.2.2) ∨
        r.2.1 = none ∧ r.2.2 = k := by
    refine .bind (Leads.any _) fun p _ => ?_
    dsimp only
    split
    next child hchild =>
      refine .bind (Leads.any _) fun c _ => .ite (fun _ => trivial) fun _ =>
        .pure (.inl ⟨child, c.exitCode, rfl, rfl, ?_⟩)
      have hk : Moves S k (k.modifyProc parent fun p =>
        { p with children := p.children.erase child }) := moves_modifyProc fun _ => rfl
      refine ⟨hk.signals, ?_⟩
      rw [FdOp.apply, ← hk.fds]
      exact fds_set_none rfl
    next => exact .pure (.inr ⟨rfl, rfl⟩)
  refine (hcases.and (Leads.self _)).mono ?_
  rintro ⟨ret, code, k₁⟩ ⟨⟨child, c, rfl, rfl, hturns⟩ | ⟨rfl, rfl⟩, hself⟩
  · have hop : k.reapOp parent pid = .reap child := by rw [reapOp, hself]; rfl
    rw [hop]
    refine ⟨hturns, fun n hn => ?_⟩
    cases hn
    rfl
  · have hop : k₁.reapOp parent pid = .nothing := by rw [reapOp, hself]
    rw [hop]
    exact ⟨(Moves.refl k₁).turns, fun n hn => by cases hn⟩

theorem sysWaitpid_serves (k : Kernel) (pid : ℤ) (exitCodePtr : UserRef Unit) :
    Leads (k.sysWaitpid pid exitCodePtr) (Serves S (k.callOp (.waitpid pid exitCodePtr)) k) := by
  refine .bind (Leads.self _) ?_
  rintro ⟨parent, p⟩ hproc
  rw [callOp_of_proc hproc, opOf]
  refine .bind (waitpid_turns (S := S) k parent pid) ?_
  rintro ⟨ret, code, k₁⟩ ⟨hturns, hresult⟩
  cases exitCodePtr with
  | refused => trivial
  | fault =>
    exact .bind (exit_moves (S := S) k₁ _) fun _ h => .pure ⟨hturns.trans h, fun v n hv _ => by cases hv⟩
  | mapped u =>
    refine .pure ⟨hturns, fun v n hv hn => ?_⟩
    cases hv
    exact hresult n hn

/-! System calls, and what a task does in the kernel -/

theorem callOp_nothing (h : ∀ pid, k.opOf pid call = .nothing) : k.callOp call = .nothing := by
  rw [callOp]
  split
  · exact h _
  · rfl

theorem Moves.serves_call {r : Except Panic (Flow × Kernel)} (h : ∀ pid, k.opOf pid call = .nothing)
    (hr : Leads r fun r => Moves S k r.2) : Leads r (Serves S (k.callOp call) k) := by
  rw [callOp_nothing h]
  exact hr.mono fun _ => Moves.serves

/-- The signals that a task may be sent without a call of `sys_kill`. -/
structure SentByKernel (S : SignalFlags → Prop) : Prop where
  sigkill : S SignalFlags.SIGKILL
  sigint : S SignalFlags.SIGINT

theorem away_moves {r : Except Panic Kernel} (h : Leads r (Moves S k)) :
    Leads (do pure (Flow.away, ← r)) fun r => Moves S k r.2 :=
  .bind h fun _ hr => .pure hr

theorem create_moves {v : ℤ} (htasks : k'.tasks = k.tasks) (hprocs : k'.procs = k.procs)
    (hg : ∀ p, (g p).fdTable = p.fdTable) :
    Leads (pure (Flow.ret v, k'.modifyProc pid g)) fun r => Moves S k r.2 :=
  .pure ((Moves.of_eq htasks hprocs).trans (moves_modifyProc hg))

theorem sysRead_moves (k : Kernel) (fd len : ℕ) : Leads (k.sysRead fd len) fun r => Moves S k r.2 := by
  refine .bind (Leads.any _) ?_
  rintro ⟨pid, p⟩ -
  dsimp only
  split
  · refine .ite (fun _ => .pure (.refl k)) fun _ => ?_
    split
    · exact .ite (fun _ => trivial) fun _ => .pure (moves_setCont k _)
    · exact .pure (moves_setCont k _)
    · exact .pure (moves_setCont k _)
    · trivial
  · exact .pure (.refl k)

theorem sysWrite_moves (k : Kernel) (fd len : ℕ) : Leads (k.sysWrite fd len) fun r => Moves S k r.2 := by
  refine .bind (Leads.any _) ?_
  rintro ⟨pid, p⟩ -
  dsimp only
  split
  · exact .ite (fun _ => .pure (.refl k)) fun _ => .pure (moves_setCont k _)
  · exact .pure (.refl k)

theorem exitGroup_moves (hS : SentByKernel S) (k : Kernel) (code : Int32) :
    Leads (k.syscall (.exitGroup code)) fun r => Moves S k r.2 := by
  refine .bind (Leads.any _) ?_
  rintro ⟨pid, p⟩ -
  exact .bind (stop_moves hS.sigkill k pid code) fun k₁ h₁ => away_moves (h₁.leads (exit_moves k₁ code))

theorem syscall_serves (hS : SentByKernel S) (k : Kernel) (call : Syscall)
    (hkill : ∀ pid signum, call = .kill pid signum → S ⟨SignalFlags.shift signum⟩) :
    Leads (k.syscall call) (Serves S (k.callOp call) k) := by
  cases call with
  | open_ path flags found => exact sysOpen_serves k path flags found
  | close fd => exact sysClose_serves k fd
  | dup fd => exact sysDup_serves k fd
  | pipe ptr => exact sysPipe_serves k ptr
  | fork => exact sysFork_serves k
  | waitpid pid exitCodePtr => exact sysWaitpid_serves k pid exitCodePtr
  | read fd len => exact Moves.serves_call (fun _ => rfl) (sysRead_moves k fd len)
  | write fd len => exact Moves.serves_call (fun _ => rfl) (sysWrite_moves k fd len)
  | exit code => exact Moves.serves_call (fun _ => rfl) (away_moves (exit_moves k code))
  | exitGroup code => exact Moves.serves_call (fun _ => rfl) (exitGroup_moves hS k code)
  | yield => exact Moves.serves_call (fun _ => rfl) (away_moves (yieldNow_moves k _))
  | getTime => exact Moves.serves_call (fun _ => rfl) (.pure (.refl k))
  | getpid => exact Moves.serves_call (fun _ => rfl) (.bind (Leads.any _) fun _ _ => .pure (.refl k))
  | exec path args elf stackMapped =>
    exact Moves.serves_call (fun _ => rfl) (sysExec_moves k path args elf stackMapped)
  | kill pid signum =>
    exact Moves.serves_call (fun _ => rfl)
      (.bind (kill_moves (hkill pid signum rfl) k pid) fun _ h => .pure h)
  | sigaction signum action oldAction =>
    exact Moves.serves_call (fun _ => rfl) (sysSigaction_moves k signum action oldAction)
  | sigprocmask mask => exact Moves.serves_call (fun _ => rfl) (sysSigprocmask_moves k mask)
  | sigreturn => exact Moves.serves_call (fun _ => rfl) (sysSigreturn_moves k)
  | sleep ms =>
    have hk : Moves S k { k with timers := k.timers ++ [⟨(k.timeMs + ms) % 2 ^ 64, k.current⟩] } :=
      .of_eq rfl rfl
    exact Moves.serves_call (fun _ => rfl) (away_moves (hk.leads (blockAndYield_moves _ _)))
  | threadCreate entry arg =>
    exact Moves.serves_call (fun _ => rfl) (sysThreadCreate_moves k entry arg)
  | gettid => exact Moves.serves_call (fun _ => rfl) (.bind (Leads.any _) fun _ _ => .pure (.refl k))
  | waittid tid => exact Moves.serves_call (fun _ => rfl) (sysWaittid_moves k tid)
  | mutexCreate _ | semaphoreCreate _ | condvarCreate =>
    refine Moves.serves_call (fun _ => rfl) (.bind (Leads.any _) ?_)
    rintro ⟨pid, p⟩ -
    exact create_moves rfl rfl fun _ => rfl
  | mutexLock mutexId =>
    exact Moves.serves_call (fun _ => rfl) (.bind (Leads.any _) fun _ _ => .bind (Leads.any _)
      fun _ _ => returnZero_moves (mutexLock_moves k _))
  | mutexUnlock mutexId =>
    exact Moves.serves_call (fun _ => rfl) (.bind (Leads.any _) fun _ _ => .bind (Leads.any _)
      fun _ _ => zero_moves (mutexUnlock_moves k _))
  | semaphoreUp semId =>
    exact Moves.serves_call (fun _ => rfl) (.bind (Leads.any _) fun _ _ => .bind (Leads.any _)
      fun _ _ => zero_moves (semaphoreUp_moves k _))
  | semaphoreDown semId =>
    exact Moves.serves_call (fun _ => rfl) (.bind (Leads.any _) fun _ _ => .bind (Leads.any _)
      fun _ _ => returnZero_moves (semaphoreDown_moves k _))
  | condvarSignal condvarId =>
    exact Moves.serves_call (fun _ => rfl) (.bind (Leads.any _) fun _ _ => .bind (Leads.any _)
      fun _ _ => zero_moves (condvarSignal_moves k _))
  | condvarWait condvarId mutexId =>
    exact Moves.serves_call (fun _ => rfl) (.bind (Leads.any _) fun _ _ => .bind (Leads.any _)
      fun _ _ => .bind (Leads.any _) fun _ _ => away_moves (condvarWait_moves k _ _))
  | unsupported => exact Moves.serves_call (fun _ => rfl) (away_moves (exit_moves k (-1)))

theorem Moves.proceed {r : Except Panic (Flow × Kernel)} (h : Leads r fun r => Moves S k r.2) :
    Leads (do Kernel.proceed (← r)) (Moves S k) :=
  .bind h fun r hr => hr.leads (proceed_moves r)

theorem readDone_moves (k : Kernel) (file : File) (n : ℕ) :
    Leads (k.readDone file n input) (Moves S k) := by
  refine .bind (Leads.any _) ?_
  rintro ⟨pid, p⟩ -
  have hleak : Moves S k ((k.leakProc pid).leakFile file) := .of_eq rfl rfl
  exact Moves.proceed (access_moves hleak fun _ => .pure (.refl k))

theorem readStdin_moves (hS : SentByKernel S) (k : Kernel) :
    Leads (k.readStdin input) (Moves S k) := by
  rw [readStdin]
  split
  · exact yieldNow_moves k _
  · have hk : Moves S k (k.modifyTask k.current fun task => { task with
        signal := { task.signal with signals := task.signal.signals.insert SignalFlags.SIGINT } }) :=
      moves_modifyTask fun _ _ h => h.send hS.sigint
    exact .ite (fun _ => hk.leads (readDone_moves _ _ _)) fun _ => readDone_moves k _ _

theorem readPipe_moves (k : Kernel) (pipe : ℕ) (call : ReadCall) :
    Leads (k.readPipe pipe call input) (Moves S k) := by
  rw [readPipe]
  split
  · trivial
  · split
    · trivial
    next call' ring' _ _ =>
      have hk : Moves S k { k with pipes := k.pipes.set pipe ring' } := .of_eq rfl rfl
      dsimp only
      split
      · exact hk.leads (readDone_moves _ _ _)
      · exact .ite (fun _ => hk.leads (yieldNow_moves _ _)) fun _ => .pure (hk.trans (moves_setCont ..))

theorem writeChunk_moves (k : Kernel) (file : File) (len count : ℕ) :
    Leads (k.writeChunk file len count input) (Moves S k) := by
  refine .ite (fun _ => .bind (Leads.any _) ?_) fun _ => finish_moves k count
  rintro ⟨pid, p⟩ -
  have hleak : Moves S k ((k.leakProc pid).leakFile file) := .of_eq rfl rfl
  refine Moves.proceed (access_moves hleak fun bytes => ?_)
  split
  · exact .ite (fun _ => .pure (moves_setCont ..)) fun _ => trivial
  · exact .pure (moves_setCont ..)
  · exact .ite (fun _ => .pure (moves_setCont ..)) fun _ => trivial
  · trivial

theorem writePipe_moves (k : Kernel) (pipe : ℕ) (call : WriteCall) (len count : ℕ) :
    Leads (k.writePipe pipe call len count) (Moves S k) := by
  rw [writePipe]
  split
  · trivial
  next ring _ =>
    generalize writeRound call ring = r
    obtain ⟨call', ring', bytes⟩ := r
    have hk : Moves S k { k with pipes := k.pipes.set pipe ring' } := .of_eq rfl rfl
    dsimp only
    split
    · exact .ite (fun _ => .pure (hk.trans (moves_setCont ..))) fun _ => trivial
    · exact .ite (fun _ => hk.leads (yieldNow_moves _ _)) fun _ => .pure (hk.trans (moves_setCont ..))

theorem rootReap_turns (hc : k.contOf k.current = some .rootReap) :
    Leads k.rootReap (Turns S (k.fdOp (.proceed input)) k) := by
  refine .bind (Leads.self _) ?_
  rintro ⟨pid, p⟩ hproc
  have hop : k.fdOp (.proceed input) = k.reapOp pid (-1) := by rw [fdOp, hc, hproc]
  rw [hop]
  refine .bind (waitpid_turns (S := S) k pid (-1)) ?_
  rintro ⟨ret, code, k₁⟩ ⟨hturns, -⟩
  refine .pure ?_
  split_ifs
  · exact hturns
  · exact hturns.trans (moves_setCont ..)

theorem rootCheck_moves (k : Kernel) : Leads k.rootCheck (Moves S k) :=
  .bind (Leads.any _) fun _ _ => .ite (fun _ => .pure (moves_setCont ..)) fun _ => yieldNow_moves k _

/-- A task that is not the root task at `waitpid` leaves the files as they are. -/
theorem proceedWith_moves (hS : SentByKernel S) (k : Kernel) (hc : c ≠ .rootReap) :
    Leads (k.proceedWith input c) (Moves S k) := by
  cases c with
  | rootReap => exact absurd rfl hc
  | user => exact .pure (.refl k)
  | finish ret => exact finish_moves k ret
  | lock mutex => exact Moves.proceed (returnZero_moves (mutexLock_moves k mutex))
  | locked mutex => exact finish_moves k 0
  | readStdin => exact readStdin_moves hS k
  | readInode file len => exact readDone_moves k file _
  | readPipe pipe call => exact readPipe_moves k pipe call
  | write file len count => exact writeChunk_moves k file len count
  | writePipe pipe call len count => exact writePipe_moves k pipe call len count
  | signals => exact handleSignals_moves k
  | rootCheck => exact rootCheck_moves k
  | kernelEntry => exact exit_moves k 0
  | run => trivial
  | exited => trivial

theorem fdOp_proceed {task : Task} (htask : k.tasks[k.current]? = some task) (hc : task.cont ≠ .rootReap) :
    k.fdOp (.proceed input) = .nothing := by
  rw [fdOp, contOf, htask, Option.map_some]
  split
  next heq _ => exact absurd (Option.some.inj heq) hc
  next => rfl

/-- What an event does to signals and files. -/
theorem step_turns {e : Event} (hS : SentByKernel S)
    (hkill : ∀ pid signum tf, e = .syscall (.kill pid signum) tf → S ⟨SignalFlags.shift signum⟩)
    (k : Kernel) : Leads (k.step e) (Turns S (k.fdOp e) k) := by
  cases e with
  | syscall call tf =>
    have htf : Moves S k (k.trapped tf) := moves_modifyTask fun _ _ => id
    refine .bind (syscall_serves hS (k.trapped tf) call ?_) fun r hr => ?_
    · rintro pid signum rfl
      exact hkill pid signum tf rfl
    · refine (proceed_moves (S := S) r).mono fun k' hk' => ?_
      have hturns := hr.turns.trans hk'
      exact ⟨fun hs => hturns.signals (htf.signals hs), hturns.fds.trans (by rw [htf.fds]; rfl)⟩
  | fault => exact (exit_moves (S := S) k (-1)).mono fun _ h => h.turns
  | timer tie =>
    refine .bind (checkTimerLoop_moves (S := S) tie _ k) fun k₁ h₁ => ?_
    exact (h₁.leads (yieldCurrent_moves k₁)).mono fun _ h => h.turns
  | clock ms =>
    have hk : Moves S k { k with timeMs := ms } := .of_eq rfl rfl
    exact .pure hk.turns
  | proceed input =>
    refine .bind (task_spec k k.current).weaken fun task htask => ?_
    by_cases hc : task.cont = .rootReap
    · rw [hc]
      exact rootReap_turns (by rw [contOf, htask, Option.map_some, hc])
    · rw [fdOp_proceed htask hc]
      exact (proceedWith_moves hS k hc).mono fun _ h => h.turns

end Kernel

end RCore.Os
