import RCore.Sanity.Os.Family
import RCore.Sanity.Os.Quiet

/-! What holds of the kernel whenever a task runs, and that the functions that schedule
tasks keep it: none of their assertions fails. -/

namespace RCore.Os

open RCore.Lib

namespace Kernel

/-- `run` is the task that has the CPU. -/
structure InvAt (x : Prop) (run : Option ℕ) (k : Kernel) : Prop where
  sched : k.sched.Consistent idleTask 1 run
  skipped : k.skipped = 0
  tasks : k.TasksOk
  family : Family x k.tree

def Inv (x : Prop) (k : Kernel) : Prop := InvAt x (some k.current) k

/-- None of the panics that scheduling could end in. -/
def Harmless (e : Panic) : Prop := e.ofScheduler = false

variable {x : Prop} {k k' : Kernel} {t : ℕ} {c : Cont} {p : Place} {code : Int32}

theorem InvAt.quiet {run : Option ℕ} (h : InvAt x run k) (hq : Quiet k k') : InvAt x run k' :=
  ⟨by rw [hq.sched]; exact h.sched, by rw [hq.skipped]; exact h.skipped, hq.tasks h.tasks,
    by rw [hq.tree]; exact h.family⟩

theorem Inv.quiet (h : Inv x k) (hq : Quiet k k') : Inv x k' := by
  rw [Inv, hq.current]
  exact InvAt.quiet h hq

theorem InvAt.inv (h : InvAt x (some k.current) k') (hcurrent : k'.current = k.current) : Inv x k' := by
  rw [Inv, hcurrent]
  exact h

theorem Inv.running (h : Inv x k) : k.stateOf k.current = some .running :=
  status_eq_iff.mp ((h.sched.running k.current).mpr rfl)

theorem Inv.exists_task (h : Inv x k) : ∃ task, k.tasks[k.current]? = some task := by
  obtain ⟨task, htask, -⟩ := Option.map_eq_some_iff.mp h.running
  exact ⟨task, htask⟩

/-- The task that is picked is the first of the queue: no task is passed over. -/
theorem pickNextTask_eq {rest : List ℕ} (hq : k.readyQueue = t :: rest)
    (ht : k.stateOf t = some .ready) :
    k.pickNextTask = .ok (some t, { k with readyQueue := rest }) := by
  rw [pickNextTask, hq, pickNext, ht]
  rfl

/-- Switching to a task that is ready. -/
theorem switchTo_spec (h : InvAt x none k) {rest : List ℕ} (hq : k.readyQueue = t :: rest) :
    Ensures ({ k with readyQueue := rest }.switchTo t) (Inv x) Harmless := by
  have ht : k.stateOf t = some .ready :=
    status_eq_iff.mp ((h.sched.ready t).mp (by simp [sched, hq])).1
  have hsched : ({ k with readyQueue := rest }.setState t .running).sched =
      k.sched.dispatch t rest :=
    sched_setState (k := { k with readyQueue := rest }) (fun hn => by cases ht.symm.trans hn) .running
  have hinv : InvAt x (some t) ({ k with readyQueue := rest }.setState t .running) := by
    refine ⟨by rw [hsched]; exact h.sched.dispatch hq, h.skipped, ?_, h.family⟩
    exact TasksOk.setState (k := { k with readyQueue := rest }) h.tasks
      (.inl fun hz => by cases ht.symm.trans hz)
  rw [switchTo]
  refine .ite (fun hcur => .ok ?_) fun _ => .ite (fun _ => .error rfl) fun _ => .ok ?_
  · rw [Inv, hcur]
    exact hinv
  · exact ⟨hinv.sched, hinv.skipped, hinv.tasks, hinv.family⟩

theorem resched_spec (h : InvAt x none k) : Ensures k.resched (Inv x) Harmless := by
  obtain ⟨t, rest, hq⟩ := h.sched.exists_ready
  have ht : k.stateOf t = some .ready :=
    status_eq_iff.mp ((h.sched.ready t).mp (by simp [hq])).1
  have hcur : k.stateOf k.current ≠ some .running := fun hrun => by
    have := (h.sched.running k.current).mp (status_eq_iff.mpr hrun)
    cases this
  rw [resched, if_neg hcur, pickNextTask_eq hq ht]
  exact switchTo_spec h hq

/-- The running task is not the idle one. -/
theorem isIdle_spec (h : Inv x k) (s : TaskState) :
    Ensures ((k.setState k.current s).isIdle k.current) (· = false) Harmless := by
  obtain ⟨task, htask⟩ := h.exists_task
  have hne : task.process ≠ 0 := fun he => h.sched.ne_idle ((h.tasks _ _ htask).idle he)
  have hget : (k.setState k.current s).task k.current = .ok { task with state := s } := by
    rw [Kernel.task, setState, getElem?_modifyTask, if_pos rfl, htask]
    rfl
  rw [isIdle, hget]
  change Ensures (Kernel.process _ task.process >>= fun _ =>
    pure (task.process == IDLE_PID && task.tid == 0)) _ _
  rw [Kernel.process]
  split
  · exact .ok (by simp [hne])
  · exact .error rfl

theorem yieldCurrent_spec (h : Inv x k) : Ensures k.yieldCurrent (Inv x) Harmless := by
  have hrun := h.running
  have hsome : k.stateOf k.current ≠ none := by rw [hrun]; simp
  rw [yieldCurrent, if_neg (by rw [hrun]; simp)]
  refine .bind (isIdle_spec h .ready) fun isIdle hidle => ?_
  subst hidle
  have hsched := sched_enqueue hsome
  refine resched_spec ⟨?_, h.skipped, ?_, h.family⟩
  · exact hsched ▸ h.sched.yield
  · exact h.tasks.setState (.inl (by rw [hrun]; simp))

/-- The running task waits; `k` is what the kernel is when it has been put into a queue
or frozen. -/
theorem blockAndYield_spec (hrun : k.stateOf k.current = some .running)
    (hs : Sched.Consistent idleTask 1 none
      { k.sched with status := Function.update k.sched.status k.current (some .blocked) })
    (hskipped : k.skipped = 0) (htasks : k.TasksOk) (hfamily : Family x k.tree)
    (hroot : k.current ≠ 1) (hc : c ≠ .run) (hc' : c ≠ .exited) :
    Ensures (k.blockAndYield c) (Inv x) Harmless := by
  have hq : Quiet k (k.setCont c) := quiet_setCont (fun h => absurd h hroot) hc hc'
  have hrun' : (k.setCont c).stateOf k.current = some .running := by rw [hq.stateOf, hrun]
  rw [blockAndYield, blockCurrent, setCont_current]
  refine resched_spec
    ⟨?_, hskipped, (hq.tasks htasks).setState (.inl (by rw [hrun']; simp)), hfamily⟩
  rw [sched_setState (by rw [hrun']; simp), hq.sched]
  exact hs

/-- The running task enters a queue. -/
theorem block_spec (h : Inv x k) (hroot : k.current ≠ 1)
    (hr : Requeued k k' (Function.update k.queue p (k.queue p ++ [k.current])))
    (hc : c ≠ .run) (hc' : c ≠ .exited) : Ensures (k'.blockAndYield c) (Inv x) Harmless := by
  have hs := h.sched.block hroot p
  refine blockAndYield_spec ?_ ?_ ?_ (hr.tasksOk h.tasks) ?_ ?_ hc hc'
  · rw [hr.stateOf, hr.current, h.running]
  · rw [hr.sched, hr.current]
    exact hs
  · rw [hr.skipped, h.skipped]
  · rw [hr.tree]
    exact h.family
  · rwa [hr.current]

theorem resume_eq (h : k.stateOf t = some .blocking) :
    k.resume t = .ok ((k.setState t .ready).addReadyTask t) := by
  have hready : (k.setState t .ready).stateOf t = some .ready := by
    rw [stateOf_setState (by rw [h]; simp), Function.update_self]
  rw [resume, if_pos h, spawn, if_pos hready]

/-- A task that stands in a queue is taken out, and is ready. -/
theorem wake_inv {run : Option ℕ} (h : InvAt x run k) {l₁ l₂ : List ℕ} (hq : k.queue p = l₁ ++ t :: l₂)
    (hr : Requeued k k' (Function.update k.queue p (l₁ ++ l₂))) :
    k'.resume t = .ok ((k'.setState t .ready).addReadyTask t) ∧
      InvAt x run ((k'.setState t .ready).addReadyTask t) := by
  have ht : t ∈ k.sched.queue p := by simp [sched, hq]
  have hb : k'.stateOf t = some .blocking := by
    rw [hr.stateOf]
    exact status_eq_iff.mp (h.sched.status_of_queue ht)
  have hs := sched_enqueue (k := k') (t := t) (by rw [hb]; simp)
  have hsched : k'.sched.enqueue t = k.sched.wake t p (l₁ ++ l₂) := by
    rw [hr.sched]
    rfl
  refine ⟨resume_eq hb, ?_, ?_, ?_, ?_⟩
  · rw [hs, hsched]
    exact h.sched.wake hq
  · exact hr.skipped.trans h.skipped
  · exact (hr.tasksOk h.tasks).setState (.inl (by rw [hb]; simp))
  · rw [show ((k'.setState t .ready).addReadyTask t).tree = _ from hr.tree]
    exact h.family

theorem wake_spec (h : Inv x k) {l₁ l₂ : List ℕ} (hq : k.queue p = l₁ ++ t :: l₂)
    (hr : Requeued k k' (Function.update k.queue p (l₁ ++ l₂))) :
    Ensures (k'.resume t) (fun k'' => Inv x k'' ∧ k''.current = k.current) Harmless := by
  obtain ⟨he, hinv⟩ := wake_inv h hq hr
  rw [he]
  exact .ok ⟨hinv.inv hr.current, hr.current⟩

/-- A new task is ready. -/
theorem spawn_spec (h : Inv x k) {task : Task} (htasks : k'.tasks = k.tasks ++ [task])
    (hready : k'.readyQueue = k.readyQueue) (hcurrent : k'.current = k.current)
    (hskipped : k'.skipped = k.skipped) (hqueue : k'.queue = k.queue)
    (hfamily : Family x k'.tree) (hstate : task.state = .ready)
    (hfrozen : task.signal.frozen = false) (hok : Task.Ok k.tasks.length task) :
    Ensures (k'.spawn k.tasks.length) (fun k'' => Inv x k'' ∧ k''.current = k.current)
      Harmless := by
  have hget : ∀ u, k'.tasks[u]? = if u = k.tasks.length then some task else k.tasks[u]? := by
    intro u
    rw [htasks, getElem?_snoc]
  have hs : k'.stateOf k.tasks.length = some .ready := by
    rw [stateOf, hget, if_pos rfl, Option.map_some, hstate]
  have hsched : (k'.addReadyTask k.tasks.length).sched = k.sched.enqueue k.tasks.length := by
    simp only [sched, Sched.enqueue, Sched.mk.injEq]
    refine ⟨?_, congrArg (· ++ [k.tasks.length]) hready, hqueue, ?_⟩
    · funext u
      simp only [stateOf, addReadyTask, hget, Function.update_apply]
      split_ifs with hu
      · rw [Option.map_some, hstate]
        rfl
      · rfl
    · funext u
      simp only [Frozen, addReadyTask, hget]
      by_cases hu : u = k.tasks.length
      · simp [hu, hfrozen]
      · simp [hu]
  rw [spawn, if_pos hs]
  refine .ok ⟨⟨?_, hskipped.trans h.skipped, fun u task' hu => ?_, hfamily⟩, hcurrent⟩
  · rw [hsched, addReadyTask_current, hcurrent]
    exact h.sched.spawn (status_eq_none_iff.mpr le_rfl)
  · rw [show (k'.addReadyTask _).tasks[u]? = _ from hget u] at hu
    split_ifs at hu with he
    · rw [he, ← Option.some.inj hu]
      exact hok
    · exact h.tasks u task' hu

/-- The running task has been marked as a zombie, in `CurrentTask::exit`: no task runs. -/
theorem Inv.ended (h : Inv x k) (hroot : k.current ≠ 1) : InvAt x none (k.setState k.current .zombie) ∧
    (k.setState k.current .zombie).stateOf k.current = some .zombie := by
  have hsome : k.stateOf k.current ≠ none := by rw [h.running]; simp
  refine ⟨⟨?_, h.skipped, h.tasks.setState (.inr rfl), h.family⟩, ?_⟩
  · rw [sched_setState hsome]
    exact h.sched.finish hroot
  · rw [stateOf_setState hsome, Function.update_self]

/-- The current task ends that has been marked. -/
theorem exitCurrent_spec (h : InvAt x none k) (hroot : k.current ≠ 1)
    (hzombie : k.stateOf k.current = some .zombie) : Ensures (k.exitCurrent code) (Inv x) Harmless := by
  have hsome : k.stateOf k.current ≠ none := by rw [hzombie]; simp
  have hquiet := quiet_setExitCode (k.setState k.current .zombie) k.current code
  have hsched : (k.setState k.current .zombie).sched = k.sched := by
    have hstatus := status_eq_iff.mpr hzombie
    rw [sched_setState hsome, TaskState.status, ← show k.sched.status k.current = some .done from hstatus,
      Function.update_eq_self]
  have hzombie' : ((k.setState k.current .zombie).setExitCode k.current code).stateOf k.current =
      some .zombie := by
    rw [hquiet.stateOf, stateOf_setState hsome, Function.update_self]
  rw [exitCurrent, if_neg (by simp [hzombie])]
  refine resched_spec ⟨?_, h.skipped, ?_, h.family⟩
  · rw [sched_setCont, hquiet.sched, hsched]
    exact h.sched
  · exact TasksOk.setCont_exited (hquiet.tasks (h.tasks.setState (.inr rfl))) hroot hzombie'

end Kernel

end RCore.Os
