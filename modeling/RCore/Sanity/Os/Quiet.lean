import RCore.Sanity.Os.Sched

/-! What the functions leave unchanged that schedule nothing: the scheduler, and which
process is the child of which. -/

namespace RCore.Os

open RCore.Lib

/-- What is known of the task at place `t`. -/
structure Task.Ok (t : ℕ) (task : Task) : Prop where
  root : t = 1 → task.cont = .rootReap ∨ task.cont = .rootCheck
  run : task.cont = .run → t = 0
  exited : task.cont = .exited → task.state = .zombie
  idle : task.process = 0 → t = 0

namespace Kernel

def TasksOk (k : Kernel) : Prop := ∀ t task, k.tasks[t]? = some task → Task.Ok t task

structure Quiet (k k' : Kernel) : Prop where
  sched : k'.sched = k.sched
  current : k'.current = k.current
  skipped : k'.skipped = k.skipped
  tree : k'.tree = k.tree
  tasks : k.TasksOk → k'.TasksOk

variable {k k' k'' : Kernel} {t pid : ℕ} {f : Task → Task} {g : Process → Process}

theorem Quiet.refl (k : Kernel) : Quiet k k := ⟨rfl, rfl, rfl, rfl, id⟩

theorem Quiet.trans (h : Quiet k k') (h' : Quiet k' k'') : Quiet k k'' :=
  ⟨h'.sched.trans h.sched, h'.current.trans h.current, h'.skipped.trans h.skipped,
    h'.tree.trans h.tree, fun hk => h'.tasks (h.tasks hk)⟩

theorem Quiet.stateOf (h : Quiet k k') : k'.stateOf = k.stateOf := by
  funext t
  have hstatus := congrFun (congrArg Sched.status h.sched) t
  exact Option.map_injective (fun _ _ => TaskState.status_inj) hstatus

theorem TasksOk.modifyTask (h : k.TasksOk)
    (hf : ∀ task, k.tasks[t]? = some task → Task.Ok t task → Task.Ok t (f task)) :
    (k.modifyTask t f).TasksOk := by
  intro u task hu
  rw [getElem?_modifyTask] at hu
  split_ifs at hu with hut
  · subst hut
    obtain ⟨task', htask', rfl⟩ := Option.map_eq_some_iff.mp hu
    exact hf task' htask' (h u task' htask')
  · exact h u task hu

theorem TasksOk.setState (h : k.TasksOk) {s : TaskState}
    (hne : k.stateOf t ≠ some .zombie ∨ s = .zombie) : (k.setState t s).TasksOk := by
  refine h.modifyTask fun task htask hok => ⟨hok.root, hok.run, fun hc => ?_, hok.idle⟩
  exact hne.resolve_left fun hz => hz (by rw [stateOf, htask, Option.map_some, hok.exited hc])

theorem TasksOk.setCont_exited (h : k.TasksOk) (hroot : k.current ≠ 1)
    (hz : k.stateOf k.current = some .zombie) : (k.setCont .exited).TasksOk := by
  refine h.modifyTask fun task htask hok =>
    ⟨fun hr => absurd hr hroot, (fun hc => by cases hc), fun _ => ?_, hok.idle⟩
  rwa [stateOf, htask, Option.map_some, Option.some.injEq] at hz

/-- A task that stays what it is to the scheduler. -/
theorem quiet_modifyTask (hf : ∀ task, (f task).state = task.state ∧ (f task).cont = task.cont ∧
      (f task).process = task.process ∧ (f task).signal.frozen = task.signal.frozen ∧
      (f task).signal.killed = task.signal.killed) : Quiet k (k.modifyTask t f) := by
  refine ⟨sched_modifyTask (fun task _ => (hf task).1) (fun task _ => ?_), rfl, rfl, rfl,
    fun h => h.modifyTask fun task _ hok => ?_⟩
  · rw [(hf task).2.2.2.1, (hf task).2.2.2.2]
  · obtain ⟨hstate, hcont, hproc, -, -⟩ := hf task
    exact ⟨by rw [hcont]; exact hok.root, by rw [hcont]; exact hok.run,
      by rw [hcont, hstate]; exact hok.exited, by rw [hproc]; exact hok.idle⟩

theorem quiet_setExitCode (k : Kernel) (t : ℕ) (code : Int32) : Quiet k (k.setExitCode t code) :=
  quiet_modifyTask fun _ => ⟨rfl, rfl, rfl, rfl, rfl⟩

/-- The task goes on elsewhere: as the root task in its loop, or as another one. -/
theorem quiet_setCont {c : Cont} (hroot : k.current = 1 → c = .rootReap ∨ c = .rootCheck)
    (hrun : c ≠ .run) (hexited : c ≠ .exited) : Quiet k (k.setCont c) := by
  refine ⟨sched_setCont k c, rfl, rfl, rfl, fun h => h.modifyTask fun task _ hok => ?_⟩
  exact ⟨hroot, fun hc => absurd hc hrun, fun hc => absurd hc hexited, hok.idle⟩

theorem quiet_modifyProc (hg : ∀ p, (g p).children = p.children) :
    Quiet k (k.modifyProc pid g) :=
  ⟨rfl, rfl, rfl, tree_modifyProc hg, fun h => h⟩

theorem quiet_insertSignal (k : Kernel) (t : ℕ) (flag : SignalFlags) :
    Quiet k (k.insertSignal t flag).2 := by
  rw [insertSignal]
  split
  · split_ifs
    · exact quiet_modifyTask fun _ => ⟨rfl, rfl, rfl, rfl, rfl⟩
    · exact .refl k
  · exact .refl k

theorem quiet_insertSignals (flag : SignalFlags) (tasks : List (ℕ × ℕ)) (k : Kernel) :
    Quiet k (k.insertSignals flag tasks).2 := by
  induction tasks generalizing k with
  | nil => exact .refl k
  | cons e tasks ih => exact (quiet_insertSignal k e.2 flag).trans (ih _)

section queues

variable {i : ℕ}

/-- A new object has an empty wait queue. -/
theorem queue_newMutex {mutex : UserMutex} (h : mutex.waitQueue = []) :
    { k with mutexes := k.mutexes ++ [mutex] }.queue = k.queue := by
  funext p
  cases p with
  | mutex i => exact getD_map_snoc h
  | _ => rfl

theorem queue_newSemaphore {s : Semaphore} (h : s.waitQueue = []) :
    { k with semaphores := k.semaphores ++ [s] }.queue = k.queue := by
  funext p
  cases p with
  | semaphore i => exact getD_map_snoc h
  | _ => rfl

theorem queue_newCondvar {c : Condvar} (h : c.waitQueue = []) :
    { k with condvars := k.condvars ++ [c] }.queue = k.queue := by
  funext p
  cases p with
  | condvar i => exact getD_map_snoc h
  | _ => rfl

theorem queue_mutex {m : UserMutex} (h : k.mutexes[i]? = some m) :
    k.queue (.mutex i) = m.waitQueue := by simp [queue, h]

theorem queue_semaphore {s : Semaphore} (h : k.semaphores[i]? = some s) :
    k.queue (.semaphore i) = s.waitQueue := by simp [queue, h]

theorem queue_condvar {c : Condvar} (h : k.condvars[i]? = some c) :
    k.queue (.condvar i) = c.waitQueue := by simp [queue, h]

theorem queue_setMutex {m m' : UserMutex} (h : k.mutexes[i]? = some m) :
    { k with mutexes := k.mutexes.set i m' }.queue =
      Function.update k.queue (.mutex i) m'.waitQueue := by
  funext p
  rw [Function.update_apply]
  cases p with
  | mutex j => simpa only [queue, Place.mutex.injEq] using getD_map_set h
  | _ => rfl

theorem queue_setSemaphore {s s' : Semaphore} (h : k.semaphores[i]? = some s) :
    { k with semaphores := k.semaphores.set i s' }.queue =
      Function.update k.queue (.semaphore i) s'.waitQueue := by
  funext p
  rw [Function.update_apply]
  cases p with
  | semaphore j => simpa only [queue, Place.semaphore.injEq] using getD_map_set h
  | _ => rfl

theorem queue_setCondvar {c c' : Condvar} (h : k.condvars[i]? = some c) :
    { k with condvars := k.condvars.set i c' }.queue =
      Function.update k.queue (.condvar i) c'.waitQueue := by
  funext p
  rw [Function.update_apply]
  cases p with
  | condvar j => simpa only [queue, Place.condvar.injEq] using getD_map_set h
  | _ => rfl

/-- An object whose wait queue stays what it is. -/
theorem queue_setMutex_self {m m' : UserMutex} (h : k.mutexes[i]? = some m)
    (hw : m'.waitQueue = m.waitQueue) :
    { k with mutexes := k.mutexes.set i m' }.queue = k.queue := by
  rw [queue_setMutex h, hw, ← queue_mutex h, Function.update_eq_self]

theorem queue_setSemaphore_self {s s' : Semaphore} (h : k.semaphores[i]? = some s)
    (hw : s'.waitQueue = s.waitQueue) :
    { k with semaphores := k.semaphores.set i s' }.queue = k.queue := by
  rw [queue_setSemaphore h, hw, ← queue_semaphore h, Function.update_eq_self]

theorem queue_setTimers (timers : List TimerCondVar) : { k with timers }.queue =
    Function.update k.queue .timers (timers.map TimerCondVar.task) := by
  funext p
  cases p <;> rfl

/-- Only wait queues change: they are `queue` afterwards. -/
structure Requeued (k k' : Kernel) (queue : Place → List ℕ) : Prop where
  tasks : k'.tasks = k.tasks
  ready : k'.readyQueue = k.readyQueue
  current : k'.current = k.current
  skipped : k'.skipped = k.skipped
  procs : k'.procs = k.procs
  queue : k'.queue = queue

namespace Requeued

variable {queue : Place → List ℕ}

theorem stateOf (h : Requeued k k' queue) : k'.stateOf = k.stateOf := by
  funext t
  rw [Kernel.stateOf, Kernel.stateOf, h.tasks]

theorem sched (h : Requeued k k' queue) : k'.sched = { k.sched with queue } := by
  have hfrozen : k'.Frozen = k.Frozen := by
    funext t
    rw [Frozen, Frozen, h.tasks]
  simp only [Kernel.sched, h.stateOf, h.ready, h.queue, hfrozen]

theorem tree (h : Requeued k k' queue) : k'.tree = k.tree := by
  funext pid
  rw [Kernel.tree, Kernel.tree, h.procs]

theorem tasksOk (h : Requeued k k' queue) (hk : k.TasksOk) : k'.TasksOk := by
  rw [TasksOk, h.tasks]
  exact hk

theorem quiet (h : Requeued k k' k.queue) : Quiet k k' :=
  ⟨h.sched, h.current, h.skipped, h.tree, h.tasksOk⟩

end Requeued

end queues

end Kernel

end RCore.Os
