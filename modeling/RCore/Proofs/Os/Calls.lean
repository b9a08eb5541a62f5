import RCore.Proofs.Os.Invariant

/-! Every step of the kernel keeps the invariant, and ends in none of the panics of the
scheduler. -/

namespace RCore.Os

open RCore.Lib

namespace Kernel

variable {x : Prop} {k k' : Kernel} {t pid : ℕ} {c : Cont} {code : Int32}

theorem task_spec (k : Kernel) (t : ℕ) :
    Ensures (k.task t) (fun task => k.tasks[t]? = some task) Harmless := by
  rw [Kernel.task]
  split
  next task h => exact .ok h
  next => exact .error rfl

theorem process_spec (k : Kernel) (pid : ℕ) :
    Ensures (k.process pid) (fun p => k.procs[pid]? = some (some p)) Harmless := by
  rw [Kernel.process]
  split
  next p h => exact .ok h
  next => exact .error rfl

theorem lock_spec (k : Kernel) (lock : ProcLock) :
    Ensures (k.lock lock) (fun _ => True) Harmless :=
  .ite (fun _ => .error rfl) fun _ => .ok trivial

theorem proc_spec (k : Kernel) : Ensures k.proc (fun r => k.procs[r.1]? = some (some r.2) ∧
    ∃ task, k.tasks[k.current]? = some task ∧ task.process = r.1) Harmless :=
  .bind (task_spec k k.current) fun task htask =>
    .bind (process_spec k task.process) fun _ hp => .pure ⟨hp, task, htask, rfl⟩

/-- What a system call leaves behind: if it returns, it is not the root task that made it. -/
structure Settled (x : Prop) (r : Flow × Kernel) : Prop where
  inv : Inv x r.2
  user : ∀ v, r.1 = .ret v → r.2.current ≠ 1

theorem settled_ret {v : ℤ} (h : Inv x k) (hroot : k.current ≠ 1) (hq : Quiet k k') :
    Settled x (.ret v, k') :=
  ⟨h.quiet hq, fun _ _ => by rw [hq.current]; exact hroot⟩

theorem settled_away (h : Inv x k) : Settled x (.away, k) := ⟨h, fun _ hv => by cases hv⟩

theorem away_spec {r : Except Panic Kernel} (h : Ensures r (Inv x) Harmless) :
    Ensures (do pure (.away, ← r)) (Settled x) Harmless :=
  .bind h fun _ hk => .pure (settled_away hk)

section running

variable (h : Inv x k) (hroot : k.current ≠ 1)
include h hroot

theorem settled_setCont (hc : c ≠ .run) (hc' : c ≠ .exited) : Settled x (.away, k.setCont c) :=
  settled_away (h.quiet (quiet_setCont (fun hr => absurd hr hroot) hc hc'))

omit h hroot in
theorem taskExit_spec (k : Kernel) (pid : ℕ) (code : Int32) :
    Ensures (k.taskExit pid code) (Quiet k) Harmless :=
  .bind (process_spec k pid) fun _ _ =>
    .ite (fun _ => .bind (lock_spec k _) fun _ _ => .pure (quiet_modifyProc fun _ => rfl))
      fun _ => .pure (.refl k)

theorem exit_spec (code : Int32) : Ensures (k.exit code) (Inv x) Harmless :=
  .bind (task_spec k k.current) fun _ _ =>
    .bind (taskExit_spec _ _ code) fun k' hq => by
      have hquiet : Quiet (k.setState k.current .zombie) k' := (quiet_setExitCode ..).trans hq
      obtain ⟨hinv, hzombie⟩ := h.ended hroot
      have hcur : k'.current = k.current := hquiet.current
      refine exitCurrent_spec (hinv.quiet hquiet) (by rwa [hcur]) ?_
      rw [hcur, hquiet.stateOf, hzombie]

/-- A fault ends the task; otherwise the call goes on. -/
theorem access_spec {α : Type} {ref : UserRef α} {f : α → Except Panic (Flow × Kernel)}
    (hq : Quiet k k') (hf : ∀ a, Ensures (f a) (Settled x) Harmless) :
    Ensures (access ref k' f) (Settled x) Harmless := by
  cases ref with
  | refused => exact .error rfl
  | fault => exact away_spec (exit_spec (h.quiet hq) (by rw [hq.current]; exact hroot) _)
  | mapped a => exact hf a

omit h hroot in
theorem quiet_leakProc (k : Kernel) (pid : ℕ) : Quiet k (k.leakProc pid) :=
  ⟨rfl, rfl, rfl, rfl, fun h => h⟩

omit h hroot in
theorem quiet_leakFile (k : Kernel) (file : File) : Quiet k (k.leakFile file) :=
  ⟨rfl, rfl, rfl, rfl, fun h => h⟩

omit h hroot in
theorem quiet_leakLock (k : Kernel) (lock : ProcLock) : Quiet k (k.leakLock lock) :=
  ⟨rfl, rfl, rfl, rfl, fun h => h⟩

/-! Files -/

theorem sysRead_spec (fd len : ℕ) : Ensures (k.sysRead fd len) (Settled x) Harmless := by
  refine .bind (proc_spec k) ?_
  rintro ⟨pid, p⟩ -
  dsimp only
  split
  · refine .ite (fun _ => .pure (settled_ret h hroot (.refl k))) fun _ => ?_
    split
    · exact .ite (fun _ => .error rfl) fun _ => .pure (settled_setCont h hroot nofun nofun)
    · exact .pure (settled_setCont h hroot nofun nofun)
    · exact .pure (settled_setCont h hroot nofun nofun)
    · exact .error rfl
  · exact .pure (settled_ret h hroot (.refl k))

theorem sysWrite_spec (fd len : ℕ) : Ensures (k.sysWrite fd len) (Settled x) Harmless := by
  refine .bind (proc_spec k) ?_
  rintro ⟨pid, p⟩ -
  dsimp only
  split
  · exact .ite (fun _ => .pure (settled_ret h hroot (.refl k))) fun _ =>
      .pure (settled_setCont h hroot nofun nofun)
  · exact .pure (settled_ret h hroot (.refl k))

theorem sysOpen_spec (path : UserRef String) (flags : BitVec 32) (found : Bool) :
    Ensures (k.sysOpen path flags found) (Settled x) Harmless := by
  refine .bind (proc_spec k) ?_
  rintro ⟨pid, p⟩ -
  dsimp only
  refine access_spec h hroot (quiet_leakProc k pid) fun _ => ?_
  split
  · exact .error rfl
  · split
    · refine .pure (settled_ret h hroot ?_)
      exact (show Quiet k { k with inodes := k.inodes + 1 } from
        ⟨rfl, rfl, rfl, rfl, fun h => h⟩).trans (quiet_modifyProc fun _ => rfl)
    · exact .pure (settled_ret h hroot (.refl k))

theorem sysClose_spec (fd : ℕ) : Ensures (k.sysClose fd) (Settled x) Harmless := by
  refine .bind (proc_spec k) ?_
  rintro ⟨pid, p⟩ -
  dsimp only
  split
  · exact .pure (settled_ret h hroot (quiet_modifyProc fun _ => rfl))
  · exact .pure (settled_ret h hroot (.refl k))

theorem sysDup_spec (fd : ℕ) : Ensures (k.sysDup fd) (Settled x) Harmless := by
  refine .bind (proc_spec k) ?_
  rintro ⟨pid, p⟩ -
  dsimp only
  split
  · exact .pure (settled_ret h hroot (quiet_modifyProc fun _ => rfl))
  · exact .pure (settled_ret h hroot (.refl k))

theorem sysPipe_spec (ptr : UserRef Unit) : Ensures (k.sysPipe ptr) (Settled x) Harmless := by
  refine .bind (proc_spec k) ?_
  rintro ⟨pid, p⟩ -
  dsimp only
  have hq : ∀ (pipes : List PipeRingBuffer) (pid : ℕ) (fdTable : List (Option File)),
      Quiet k (modifyProc { k with pipes } pid fun p => { p with fdTable }) := fun pipes pid fdTable =>
    (show Quiet k { k with pipes } from ⟨rfl, rfl, rfl, rfl, fun h => h⟩).trans
      (quiet_modifyProc fun _ => rfl)
  exact access_spec h hroot ((hq _ _ _).trans (quiet_leakProc ..)) fun _ =>
    .pure (settled_ret h hroot (hq _ _ _))

/-! Processes and threads -/

omit hroot in
theorem two_le_tasks : 2 ≤ k.tasks.length := by
  have hroot : k.sched.status 1 ≠ none := by
    rcases h.sched.root with hr | hr
    · rw [(h.sched.running 1).mpr hr]
      simp
    · rw [((h.sched.ready 1).mp hr).1]
      simp
  rw [Ne, status_eq_none_iff] at hroot
  omega

omit h hroot in
theorem exists_proc (hp : (k.tree pid).isSome) : ∃ p, k.procs[pid]? = some (some p) := by
  rw [tree] at hp
  split at hp
  next p hp' => exact ⟨p, hp'⟩
  next => cases hp

omit hroot in
theorem two_le_procs : 2 ≤ k.procs.length := by
  obtain ⟨p, hp⟩ := exists_proc h.family.root
  exact (List.getElem?_eq_some_iff.mp hp).1

omit hroot in
theorem process_ne_zero {task : Task} (htask : k.tasks[k.current]? = some task) :
    task.process ≠ 0 :=
  fun he => h.sched.ne_idle ((h.tasks _ _ htask).idle he)

theorem spawn_settled {task : Task} (v : ℤ) (htasks : k'.tasks = k.tasks ++ [task])
    (hready : k'.readyQueue = k.readyQueue) (hcurrent : k'.current = k.current)
    (hskipped : k'.skipped = k.skipped) (hqueue : k'.queue = k.queue)
    (hfamily : Family x k'.tree) (hstate : task.state = .ready)
    (hfrozen : task.signal.frozen = false) (hcont : task.cont = .user)
    (hprocess : task.process ≠ 0) :
    Ensures (do pure (.ret v, ← k'.spawn k.tasks.length)) (Settled x) Harmless := by
  have htwo := two_le_tasks h
  have hok : Task.Ok k.tasks.length task := by
    refine ⟨fun he => ?_, fun hc => ?_, fun hc => ?_, fun he => absurd he hprocess⟩
    · omega
    · rw [hcont] at hc
      cases hc
    · rw [hcont] at hc
      cases hc
  exact .bind (spawn_spec h htasks hready hcurrent hskipped hqueue hfamily hstate hfrozen hok)
    fun _ hk => .pure ⟨hk.1, fun _ _ => by rw [hk.2]; exact hroot⟩

omit h hroot in
theorem newFork_spec (k : Kernel) (pid : ℕ) (tf : TrapFrame) : Ensures (k.newFork pid tf)
    (fun r => r.1 = k.procs.length ∧ ∃ p q, k.procs[pid]? = some (some p) ∧ q.children = [] ∧
      r.2 = (k.newProcess q tf.newFork .user).addChild pid k.procs.length) Harmless :=
  .bind (process_spec k pid) fun p hp =>
    .ite (fun _ => .error rfl) fun _ => .bind (lock_spec k _) fun _ _ =>
      .ite (fun _ => .error rfl) fun _ => .pure ⟨rfl, p, _, hp, rfl, rfl⟩

theorem sysFork_spec : Ensures k.sysFork (Settled x) Harmless := by
  refine .bind (task_spec k k.current) fun task htask => ?_
  refine .bind (newFork_spec k task.process task.tf) ?_
  rintro ⟨child, k₁⟩ ⟨rfl, p, q, hp, hq, rfl⟩
  dsimp only
  have hlt := (List.getElem?_eq_some_iff.mp hp).1
  have hparent : (k.newProcess q task.tf.newFork .user).procs[task.process]? = some (some p) := by
    rw [getElem?_newProcess, if_neg hlt.ne, hp]
  have honly : Ensures (onlyTask { (k.newProcess q task.tf.newFork .user).addChild task.process
      k.procs.length with procMap := k.procMap ++ [k.procs.length] } k.procs.length)
        (· = k.tasks.length) Harmless := by
    have hchild : Kernel.process { (k.newProcess q task.tf.newFork .user).addChild task.process
        k.procs.length with procMap := k.procMap ++ [k.procs.length] } k.procs.length =
          .ok { q with tasks := [(0, k.tasks.length)], tidAllocator := 1 } := by
      simp [Kernel.process, addChild, getElem?_modifyProc, hlt.ne', getElem?_newProcess]
    rw [onlyTask, hchild]
    exact .ite (fun _ => .error rfl) fun _ => .pure rfl
  refine .bind honly fun t ht => ?_
  subst ht
  refine spawn_settled h hroot _ rfl rfl rfl rfl rfl ?_ rfl rfl rfl ?_
  · have htree : ((k.newProcess q task.tf.newFork .user).addChild task.process k.procs.length).tree =
        Function.update (Function.update k.tree k.procs.length (some [])) task.process
          (some (childrenOf k.tree task.process ++ [k.procs.length])) := by
      rw [addChild, tree_modifyProc_eq hparent, tree_newProcess, hq, childrenOf_eq hp]
    change Family x ((k.newProcess q task.tf.newFork .user).addChild _ _).tree
    rw [htree]
    refine h.family.fork (by rw [tree_eq hp]; rfl) ?_ (two_le_procs h)
    simp [tree]
  · have := two_le_procs h
    change k.procs.length ≠ 0
    omega

omit h hroot in
theorem newUserTask_spec (k : Kernel) (pid : ℕ) (entry arg : UInt64) :
    Ensures (k.newUserTask pid entry arg) (fun r => r.2.1 = k.tasks.length ∧ ∃ task g,
      r.2.2 = modifyProc { k with tasks := k.tasks ++ [task] } pid g ∧
      (∀ p, (g p).children = p.children) ∧ task.state = .ready ∧ task.signal.frozen = false ∧
      task.cont = .user ∧ task.process = pid) Harmless :=
  .bind (process_spec k pid) fun _ _ =>
    .bind (lock_spec k _) fun _ _ => .ite (fun _ => .error rfl) fun _ =>
      .ite (fun _ => .error rfl) fun _ => .pure ⟨rfl, _, _, rfl, fun _ => rfl, rfl, rfl, rfl, rfl⟩

theorem sysThreadCreate_spec (entry arg : UInt64) :
    Ensures (k.sysThreadCreate entry arg) (Settled x) Harmless := by
  refine .bind (proc_spec k) ?_
  rintro ⟨pid, p⟩ ⟨-, task, htask, rfl⟩
  refine .bind (newUserTask_spec k task.process entry arg) ?_
  rintro ⟨tid, t, k₁⟩ ⟨rfl, new, g, rfl, hg, hstate, hfrozen, hcont, hprocess⟩
  refine spawn_settled h hroot _ rfl rfl rfl rfl rfl ?_ hstate hfrozen hcont ?_
  · rw [tree_modifyProc hg]
    exact h.family
  · rw [hprocess]
    exact process_ne_zero h htask

theorem exec_spec (pid : ℕ) (args : List String) (elf : Option (UInt64 × ℕ)) (stackMapped : Bool) :
    Ensures (k.exec pid args elf stackMapped) (Settled x) Harmless := by
  refine .bind (process_spec k pid) fun p _ =>
    .ite (fun _ => .error rfl) fun _ => .ite (fun _ => .error rfl) fun _ => ?_
  split
  · refine .bind (lock_spec k _) fun _ _ => ?_
    have hq : Quiet k (k.modifyProc pid fun p => { p with vm := true }) :=
      quiet_modifyProc fun _ => rfl
    refine access_spec h hroot (hq.trans ((quiet_leakProc _ pid).trans (quiet_leakLock ..)))
      fun _ => .pure (settled_ret h hroot (hq.trans (quiet_modifyTask ?_)))
    exact fun _ => ⟨rfl, rfl, rfl, rfl, rfl⟩
  · exact .pure (settled_ret h hroot (.refl k))

theorem sysExec_spec (path : UserRef String) (args : UserRef (List String))
    (elf : Option (UInt64 × ℕ)) (stackMapped : Bool) :
    Ensures (k.sysExec path args elf stackMapped) (Settled x) Harmless := by
  refine access_spec h hroot (.refl k) fun _ => .bind (proc_spec k) ?_
  rintro ⟨pid, p⟩ -
  exact access_spec h hroot (quiet_leakProc k pid) fun args =>
    exec_spec h hroot pid args elf stackMapped

omit hroot in
/-- Reaping a child keeps the tree of processes together, if it has no children. -/
theorem waitpid_spec (hx : x → k.NoZombieParent) (parent : ℕ) (pid : ℤ) :
    Ensures (k.waitpid parent pid) (fun r => Inv x r.2.2 ∧ r.2.2.current = k.current) Harmless := by
  refine .bind (process_spec k parent) fun p hp => ?_
  dsimp only
  split
  next child hfind =>
    have hmem := List.mem_of_find?_eq_some hfind
    have hfound := List.find?_some hfind
    refine .bind (process_spec k child) fun c hc => .ite (fun _ => .error rfl) fun _ => ?_
    have hzombie : c.state = .zombie := by
      simpa [isZombie, hc] using (Bool.and_eq_true_iff.mp hfound).2
    have hlt := (List.getElem?_eq_some_iff.mp hc).1
    have hnil : x → childrenOf k.tree child = [] := fun hx' => by
      rw [childrenOf_eq hc, hx hx' child c hc hzombie]
    have hfamily := h.family.reap (by rwa [childrenOf_eq hp]) hnil
    rw [childrenOf_eq hp, ← tree_modifyProc_eq (g := fun p =>
      { p with children := p.children.erase child }) hp, ← tree_set_none
        (by simpa [modifyProc] using hlt)] at hfamily
    exact .pure ⟨⟨h.sched, h.skipped, h.tasks, hfamily⟩, rfl⟩
  next => exact .pure ⟨h, rfl⟩

omit hroot in
theorem stop_spec (pid : ℕ) (code : Int32) :
    Ensures (k.stop pid code) (fun k' => Inv x k' ∧ k'.current = k.current) Harmless := by
  refine .bind (process_spec k pid) fun p hp => .ite (fun _ => .error rfl) fun hne => ?_
  push Not at hne
  obtain ⟨root, hr⟩ := exists_proc h.family.root
  have hinv : Inv x (k.reparent pid p.children) := by
    refine ⟨h.sched, h.skipped, h.tasks, ?_⟩
    rw [tree_reparent hr hp hne.2]
    exact h.family.stop (by rw [tree_eq hp]; rfl) hne.2
  have hq := quiet_insertSignals SignalFlags.SIGKILL p.tasks (k.reparent pid p.children)
  have hq' : Quiet _ (((k.reparent pid p.children).insertSignals SignalFlags.SIGKILL
      p.tasks).2.modifyProc pid fun p => { p with state := .stop, exitCode := code }) :=
    hq.trans (quiet_modifyProc fun _ => rfl)
  exact .pure ⟨hinv.quiet hq', hq'.current⟩

theorem sysWaitpid_spec (hx : x → k.NoZombieParent) (pid : ℤ) (exitCodePtr : UserRef Unit) :
    Ensures (k.sysWaitpid pid exitCodePtr) (Settled x) Harmless := by
  refine .bind (proc_spec k) ?_
  rintro ⟨parent, p⟩ -
  refine .bind (waitpid_spec h hx parent pid) ?_
  rintro ⟨ret, exitCode, k₁⟩ ⟨hinv, hcur⟩
  have hroot₁ : k₁.current ≠ 1 := by rwa [show k₁.current = _ from hcur]
  exact access_spec hinv hroot₁ (.refl k₁) fun _ => .pure (settled_ret hinv hroot₁ (.refl k₁))

theorem exitGroup_spec (code : Int32) : Ensures (k.syscall (.exitGroup code)) (Settled x) Harmless := by
  refine .bind (proc_spec k) ?_
  rintro ⟨pid, p⟩ -
  refine .bind (stop_spec h pid code) fun k₁ hk => away_spec (exit_spec hk.1 ?_ code)
  rwa [hk.2]

theorem sysWaittid_spec (tid : ℕ) : Ensures (k.sysWaittid tid) (Settled x) Harmless := by
  refine .bind (task_spec k k.current) fun task _ =>
    .ite (fun _ => .pure (settled_ret h hroot (.refl k))) fun _ => ?_
  have hw : Ensures (k.waittid task.process tid) (fun r => Quiet k r.2) Harmless := by
    refine .bind (process_spec k task.process) fun p _ => ?_
    split
    · exact .bind (task_spec k _) fun _ _ =>
        .ite (fun _ => .pure (quiet_modifyProc fun _ => rfl)) fun _ => .pure (.refl k)
    · exact .pure (.refl k)
  refine .bind hw ?_
  rintro ⟨ret, k₁⟩ hq
  exact .pure (settled_ret h hroot hq)

/-! Signals -/

omit h hroot in
theorem quiet_kill (k : Kernel) (pid : ℕ) (signum : ℤ) :
    Ensures (k.kill pid signum) (fun r => Quiet k r.2) Harmless := by
  refine .ite (fun _ => .bind (process_spec k pid) fun p _ => ?_) fun _ => .pure (.refl k)
  split
  · exact .pure (quiet_insertSignals _ p.tasks k)
  · exact .pure (.refl k)

theorem sysSigaction_spec (signum : ℤ) (action : Option (UserRef SignalAction))
    (oldAction : Option (UserRef Unit)) :
    Ensures (k.sysSigaction signum action oldAction) (Settled x) Harmless := by
  rw [sysSigaction]
  split
  · split
    · refine .ite (fun _ => .pure (settled_ret h hroot (.refl k))) fun _ => .bind (proc_spec k) ?_
      rintro ⟨pid, p⟩ -
      have hq := (quiet_leakProc k pid).trans (quiet_leakLock _ (.signalActions pid))
      exact .bind (lock_spec k _) fun _ _ => access_spec h hroot hq fun _ =>
        access_spec h hroot hq fun _ =>
          .pure (settled_ret h hroot (quiet_modifyProc fun _ => rfl))
    · exact .pure (settled_ret h hroot (.refl k))
  · exact .pure (settled_ret h hroot (.refl k))

theorem sysSigprocmask_spec (mask : BitVec 32) :
    Ensures (k.sysSigprocmask mask) (Settled x) Harmless := by
  refine .bind (task_spec k k.current) fun task _ => ?_
  split
  · exact .pure (settled_ret h hroot (quiet_modifyTask fun _ => ⟨rfl, rfl, rfl, rfl, rfl⟩))
  · exact .pure (settled_ret h hroot (.refl k))

theorem sysSigreturn_spec : Ensures k.sysSigreturn (Settled x) Harmless := by
  refine .bind (task_spec k k.current) fun task _ => ?_
  split
  · exact .pure (settled_ret h hroot (quiet_modifyTask fun _ => ⟨rfl, rfl, rfl, rfl, rfl⟩))
  · exact .error rfl
  · exact .pure (settled_ret h hroot (.refl k))

/-! Waiting -/

theorem yieldNow_spec (hc : c ≠ .run) (hc' : c ≠ .exited) :
    Ensures (k.yieldNow c) (Inv x) Harmless :=
  yieldCurrent_spec (h.quiet (quiet_setCont (fun hr => absurd hr hroot) hc hc'))

theorem sysSleep_spec (ms : ℕ) : Ensures (k.sysSleep ms) (Settled x) Harmless := by
  refine away_spec (block_spec (p := .timers) h hroot ⟨rfl, rfl, rfl, rfl, rfl, ?_⟩ nofun nofun)
  rw [queue_setTimers, List.map_append]
  rfl

/-- A call that may give way: if it has not, it is not the root task that made it. -/
def Waited (x : Prop) (r : Bool × Kernel) : Prop := Inv x r.2 ∧ (r.1 = true → r.2.current ≠ 1)

omit h hroot in
theorem waited_away {r : Except Panic Kernel} (h : Ensures r (Inv x) Harmless) :
    Ensures (do pure (false, ← r)) (Waited x) Harmless :=
  .bind h fun _ hk => .pure ⟨hk, nofun⟩

omit h hroot in
theorem returnZero_spec {r : Except Panic (Bool × Kernel)} (h : Ensures r (Waited x) Harmless) :
    Ensures (returnZero r) (Settled x) Harmless := by
  refine .bind h ?_
  rintro ⟨returned, k₁⟩ ⟨hinv, hroot⟩
  cases returned with
  | true => exact .pure (settled_ret hinv (hroot rfl) (.refl k₁))
  | false => exact .pure (settled_away hinv)

omit h hroot in
theorem object_spec (list : List (Option ℕ)) (id : ℕ) {e : Panic} (he : Harmless e) :
    Ensures (object list id e) (fun _ => True) Harmless := by
  rw [object]
  split
  · exact .ok trivial
  · exact .error he

theorem mutexLock_spec (mutex : ℕ) : Ensures (k.mutexLock mutex) (Waited x) Harmless := by
  rw [mutexLock]
  split
  next locked hm =>
    refine .ite (fun _ => waited_away (yieldNow_spec h hroot nofun nofun)) fun _ =>
      .pure ⟨h.quiet (Requeued.quiet ⟨rfl, rfl, rfl, rfl, rfl, ?_⟩), fun _ => hroot⟩
    exact queue_setMutex_self hm rfl
  next locked waitQueue hm =>
    refine .ite (fun _ => waited_away (block_spec (p := .mutex mutex) h hroot
      ⟨rfl, rfl, rfl, rfl, rfl, ?_⟩ nofun nofun)) fun _ =>
        .pure ⟨h.quiet (Requeued.quiet ⟨rfl, rfl, rfl, rfl, rfl, ?_⟩), fun _ => hroot⟩
    · rw [queue_setMutex hm, queue_mutex hm]
      rfl
    · exact queue_setMutex_self hm rfl
  next => exact .error rfl

omit hroot in
theorem mutexUnlock_spec (mutex : ℕ) : Ensures (k.mutexUnlock mutex)
    (fun k' => Inv x k' ∧ k'.current = k.current) Harmless := by
  rw [mutexUnlock]
  split
  next hm => exact .pure ⟨h.quiet (Requeued.quiet ⟨rfl, rfl, rfl, rfl, rfl,
      queue_setMutex_self hm rfl⟩), rfl⟩
  next => exact .error rfl
  next wakingTask waitQueue hm =>
    have hq : k.queue (.mutex mutex) = [] ++ wakingTask :: waitQueue := queue_mutex hm
    exact wake_spec h hq ⟨rfl, rfl, rfl, rfl, rfl, queue_setMutex hm⟩
  next hm => exact .pure ⟨h.quiet (Requeued.quiet ⟨rfl, rfl, rfl, rfl, rfl,
      queue_setMutex_self hm rfl⟩), rfl⟩
  next => exact .error rfl

omit hroot in
theorem semaphoreUp_spec (sem : ℕ) : Ensures (k.semaphoreUp sem)
    (fun k' => Inv x k' ∧ k'.current = k.current) Harmless := by
  rw [semaphoreUp]
  split
  next count waitQueue hs =>
    refine .ite (fun _ => ?_) fun _ => .pure ⟨h.quiet (Requeued.quiet ⟨rfl, rfl, rfl, rfl, rfl,
      queue_setSemaphore_self hs rfl⟩), rfl⟩
    cases waitQueue with
    | nil => exact .pure ⟨h.quiet (Requeued.quiet ⟨rfl, rfl, rfl, rfl, rfl,
        queue_setSemaphore_self hs rfl⟩), rfl⟩
    | cons t waitQueue =>
      have hq : k.queue (.semaphore sem) = [] ++ t :: waitQueue := queue_semaphore hs
      exact wake_spec h hq ⟨rfl, rfl, rfl, rfl, rfl, queue_setSemaphore hs⟩
  next => exact .error rfl

theorem semaphoreDown_spec (sem : ℕ) : Ensures (k.semaphoreDown sem) (Waited x) Harmless := by
  rw [semaphoreDown]
  split
  next count waitQueue hs =>
    refine .ite (fun _ => waited_away (block_spec (p := .semaphore sem) h hroot
      ⟨rfl, rfl, rfl, rfl, rfl, ?_⟩ nofun nofun)) fun _ =>
        .pure ⟨h.quiet (Requeued.quiet ⟨rfl, rfl, rfl, rfl, rfl, ?_⟩), fun _ => hroot⟩
    · rw [queue_setSemaphore hs, queue_semaphore hs]
    · exact queue_setSemaphore_self hs rfl
  next => exact .error rfl

omit hroot in
theorem condvarSignal_spec (condvar : ℕ) : Ensures (k.condvarSignal condvar)
    (fun k' => Inv x k' ∧ k'.current = k.current) Harmless := by
  rw [condvarSignal]
  split
  next t waitQueue hc =>
    have hq : k.queue (.condvar condvar) = [] ++ t :: waitQueue := queue_condvar hc
    exact wake_spec h hq ⟨rfl, rfl, rfl, rfl, rfl, queue_setCondvar hc⟩
  next => exact .pure ⟨h, rfl⟩
  next => exact .error rfl

theorem condvarWait_spec (condvar mutex : ℕ) :
    Ensures (k.condvarWait condvar mutex) (Inv x) Harmless := by
  refine .bind (mutexUnlock_spec h mutex) ?_
  rintro k₁ ⟨hinv, hcur⟩
  split
  next waitQueue hc =>
    refine block_spec (p := .condvar condvar) hinv (by rwa [hcur]) ⟨rfl, rfl, rfl, rfl, rfl, ?_⟩
      nofun nofun
    rw [queue_setCondvar hc, queue_condvar hc]
  next => exact .error rfl

/-- A new object belongs to a process. -/
theorem create_settled {k₁ : Kernel} {v : ℤ} (hr : Requeued k k₁ k.queue) {g : Process → Process}
    (hg : ∀ p, (g p).children = p.children) : Settled x (.ret v, k₁.modifyProc pid g) :=
  settled_ret h hroot (hr.quiet.trans (quiet_modifyProc hg))

theorem sysMutexCreate_spec ( blocking : Bool) :
    Ensures (k.sysMutexCreate blocking) (Settled x) Harmless := by
  refine .bind (proc_spec k) ?_
  rintro ⟨pid, p⟩ -
  refine .pure (create_settled h hroot ?_ ?_)
  · refine ⟨rfl, rfl, rfl, rfl, rfl, queue_newMutex ?_⟩
    cases blocking <;> rfl
  · exact fun _ => rfl

theorem sysSemaphoreCreate_spec (resCount : ℕ) :
    Ensures (k.sysSemaphoreCreate resCount) (Settled x) Harmless := by
  refine .bind (proc_spec k) ?_
  rintro ⟨pid, p⟩ -
  refine .pure (create_settled h hroot ?_ ?_)
  · exact ⟨rfl, rfl, rfl, rfl, rfl, queue_newSemaphore rfl⟩
  · exact fun _ => rfl

theorem sysCondvarCreate_spec : Ensures k.sysCondvarCreate (Settled x) Harmless := by
  refine .bind (proc_spec k) ?_
  rintro ⟨pid, p⟩ -
  refine .pure (create_settled h hroot ?_ ?_)
  · exact ⟨rfl, rfl, rfl, rfl, rfl, queue_newCondvar rfl⟩
  · exact fun _ => rfl

theorem sysMutexLock_spec (mutexId : ℕ) :
    Ensures (k.sysMutexLock mutexId) (Settled x) Harmless := by
  refine .bind (proc_spec k) ?_
  rintro ⟨pid, p⟩ -
  exact .bind (object_spec _ _ rfl) fun mutex _ => returnZero_spec (mutexLock_spec h hroot mutex)

theorem sysSemaphoreDown_spec (semId : ℕ) :
    Ensures (k.sysSemaphoreDown semId) (Settled x) Harmless := by
  refine .bind (proc_spec k) ?_
  rintro ⟨pid, p⟩ -
  exact .bind (object_spec _ _ rfl) fun sem _ => returnZero_spec (semaphoreDown_spec h hroot sem)

omit h in
/-- A call that returns 0 to the task that made it. -/
theorem ret_spec {r : Except Panic Kernel} {v : ℤ}
    (h : Ensures r (fun k' => Inv x k' ∧ k'.current = k.current) Harmless) :
    Ensures (do pure (.ret v, ← r)) (Settled x) Harmless :=
  .bind h fun k' hk => .pure (settled_ret hk.1 (by rwa [hk.2]) (.refl k'))

theorem sysMutexUnlock_spec (mutexId : ℕ) :
    Ensures (k.sysMutexUnlock mutexId) (Settled x) Harmless := by
  refine .bind (proc_spec k) ?_
  rintro ⟨pid, p⟩ -
  exact .bind (object_spec _ _ rfl) fun mutex _ => ret_spec hroot (mutexUnlock_spec h mutex)

theorem sysSemaphoreUp_spec (semId : ℕ) :
    Ensures (k.sysSemaphoreUp semId) (Settled x) Harmless := by
  refine .bind (proc_spec k) ?_
  rintro ⟨pid, p⟩ -
  exact .bind (object_spec _ _ rfl) fun sem _ => ret_spec hroot (semaphoreUp_spec h sem)

theorem sysCondvarSignal_spec (condvarId : ℕ) :
    Ensures (k.sysCondvarSignal condvarId) (Settled x) Harmless := by
  refine .bind (proc_spec k) ?_
  rintro ⟨pid, p⟩ -
  exact .bind (object_spec _ _ rfl) fun condvar _ => ret_spec hroot (condvarSignal_spec h condvar)

theorem sysCondvarWait_spec (condvarId mutexId : ℕ) :
    Ensures (k.sysCondvarWait condvarId mutexId) (Settled x) Harmless := by
  refine .bind (proc_spec k) ?_
  rintro ⟨pid, p⟩ -
  exact .bind (object_spec _ _ rfl) fun condvar _ => .bind (object_spec _ _ rfl) fun mutex _ =>
    away_spec (condvarWait_spec h hroot condvar mutex)

/-- Every system call. -/
theorem syscall_spec (hx : x → k.NoZombieParent) (call : Syscall) :
    Ensures (k.syscall call) (Settled x) Harmless := by
  cases call with
  | read fd len => exact sysRead_spec h hroot fd len
  | write fd len => exact sysWrite_spec h hroot fd len
  | exit code => exact away_spec (exit_spec h hroot code)
  | exitGroup code => exact exitGroup_spec h hroot code
  | yield => exact away_spec (yieldNow_spec h hroot nofun nofun)
  | getTime => exact .pure (settled_ret h hroot (.refl k))
  | getpid => exact .bind (proc_spec k) fun _ _ => .pure (settled_ret h hroot (.refl k))
  | fork => exact sysFork_spec h hroot
  | exec path args elf stackMapped => exact sysExec_spec h hroot path args elf stackMapped
  | waitpid pid exitCodePtr => exact sysWaitpid_spec h hroot hx pid exitCodePtr
  | open_ path flags found => exact sysOpen_spec h hroot path flags found
  | close fd => exact sysClose_spec h hroot fd
  | dup fd => exact sysDup_spec h hroot fd
  | pipe ptr => exact sysPipe_spec h hroot ptr
  | kill pid signum =>
    exact .bind (quiet_kill k pid signum) fun _ hq => .pure (settled_ret h hroot hq)
  | sigaction signum action oldAction => exact sysSigaction_spec h hroot signum action oldAction
  | sigprocmask mask => exact sysSigprocmask_spec h hroot mask
  | sigreturn => exact sysSigreturn_spec h hroot
  | sleep ms => exact sysSleep_spec h hroot ms
  | threadCreate entry arg => exact sysThreadCreate_spec h hroot entry arg
  | gettid => exact .bind (task_spec k _) fun _ _ => .pure (settled_ret h hroot (.refl k))
  | waittid tid => exact sysWaittid_spec h hroot tid
  | mutexCreate blocking => exact sysMutexCreate_spec h hroot blocking
  | mutexLock mutexId => exact sysMutexLock_spec h hroot mutexId
  | mutexUnlock mutexId => exact sysMutexUnlock_spec h hroot mutexId
  | semaphoreCreate resCount => exact sysSemaphoreCreate_spec h hroot resCount
  | semaphoreUp semId => exact sysSemaphoreUp_spec h hroot semId
  | semaphoreDown semId => exact sysSemaphoreDown_spec h hroot semId
  | condvarCreate => exact sysCondvarCreate_spec h hroot
  | condvarSignal condvarId => exact sysCondvarSignal_spec h hroot condvarId
  | condvarWait condvarId mutexId => exact sysCondvarWait_spec h hroot condvarId mutexId
  | unsupported => exact away_spec (exit_spec h hroot (-1))

end running

end Kernel

end RCore.Os
