import RCore.Proofs.Os.Calls

/-! Every step of the kernel keeps the invariant and ends in none of the panics of the
scheduler, and so does every run from boot on. -/

namespace RCore.Os

open RCore.Lib

namespace Kernel

variable {x : Prop} {k k' : Kernel} {t pid : ℕ} {c : Cont} {code : Int32} {input : Input}

/-! Signals -/

section signals

variable {inner : SignalInner} {tf : TrapFrame}

theorem lockActions_spec (k : Kernel) (task : Task) (signal : Option SignalFlags) :
    Ensures (k.lockActions task signal) (fun _ => True) Harmless :=
  .ite (fun _ => lock_spec k _) fun _ => .pure trivial

/-- What `check_pending_signals` does to the current task. -/
abbrev setSignal (k : Kernel) (inner : SignalInner) (tf : TrapFrame) : Kernel :=
  k.modifyTask k.current fun task => { task with signal := inner, tf }

theorem TasksOk.setSignal (h : k.TasksOk) : (k.setSignal inner tf).TasksOk :=
  h.modifyTask fun _ _ hok => ⟨hok.root, hok.run, hok.exited, hok.idle⟩

/-- The running task is not frozen before, and not afterwards. -/
theorem quiet_setSignal (h : Inv x k) (hs : ¬ (inner.frozen = true ∧ inner.killed = false)) :
    Quiet k (k.setSignal inner tf) := by
  refine ⟨sched_modifyTask (fun _ _ => rfl) fun task htask => ?_, rfl, rfl, rfl,
    fun hk => hk.setSignal⟩
  have hnot := h.sched.not_stopped
  exact ⟨fun hf => absurd hf hs, fun hf => absurd ⟨task, htask, hf⟩ hnot⟩

theorem sched_setSignal (h : Inv x k) (hfrozen : inner.frozen = true)
    (hkilled : inner.killed = false) : (k.setSignal inner tf).sched =
      { k.sched with stopped := fun u => u = k.current ∨ k.sched.stopped u } := by
  obtain ⟨task, htask⟩ := h.exists_task
  have hstate : (k.setSignal inner tf).stateOf = k.stateOf := stateOf_modifyTask fun _ _ => rfl
  simp only [sched, hstate, Sched.mk.injEq]
  refine ⟨trivial, rfl, rfl, ?_⟩
  funext u
  simp only [Frozen, getElem?_modifyTask, eq_iff_iff]
  by_cases hu : u = k.current
  · simp [hu, htask, hfrozen, hkilled]
  · simp [hu]

end signals

section running

variable (h : Inv x k) (hroot : k.current ≠ 1)
include h hroot

theorem signalsHandled_spec (inner : SignalInner) :
    Ensures (k.signalsHandled inner) (Inv x) Harmless := by
  rw [signalsHandled]
  split
  · exact exit_spec h hroot _
  · exact .pure (h.quiet (quiet_setCont (fun hr => absurd hr hroot) nofun nofun))

theorem handleSignals_spec : Ensures k.handleSignals (Inv x) Harmless := by
  refine .bind (task_spec k k.current) fun task htask => .bind (process_spec k _) fun p _ => ?_
  generalize task.signal.checkPendingSignals p.signalActions task.tf = r
  obtain ⟨signal, inner, tf⟩ := r
  refine .bind (lockActions_spec k task signal) fun _ _ => ?_
  refine .ite (fun hkilled => ?_) fun hkilled => .ite (fun hfrozen => ?_) fun hfrozen => ?_
  · exact signalsHandled_spec (h.quiet (quiet_setSignal h (by simp [hkilled]))) hroot inner
  · -- the task is frozen: it waits, and stands in no queue
    rw [Bool.not_eq_true] at hkilled
    have hs := h.sched.stop hroot
    have hstate : (k.setSignal inner tf).stateOf = k.stateOf := stateOf_modifyTask fun _ _ => rfl
    refine blockAndYield_spec ?_ ?_ h.skipped h.tasks.setSignal h.family hroot nofun nofun
    · rw [hstate]
      exact h.running
    · rw [sched_setSignal h hfrozen hkilled]
      exact hs
  · exact signalsHandled_spec (h.quiet (quiet_setSignal h (by simp [hfrozen]))) hroot inner

theorem finish_spec (ret : ℤ) : Ensures (k.finish ret) (Inv x) Harmless := by
  have hq : Quiet k (k.modifyTask k.current fun task =>
      { task with tf := task.tf.setR0 (UInt64.ofInt ret) }) :=
    quiet_modifyTask fun _ => ⟨rfl, rfl, rfl, rfl, rfl⟩
  exact handleSignals_spec (h.quiet hq) hroot

omit h hroot in
theorem proceed_spec {r : Flow × Kernel} (h : Settled x r) :
    Ensures (proceed r) (Inv x) Harmless := by
  obtain ⟨flow, k₁⟩ := r
  cases flow with
  | ret value => exact finish_spec h.inv (h.user value rfl) value
  | away => exact .pure h.inv

/-! Reading and writing -/

theorem readDone_spec (file : File) (n : ℕ) :
    Ensures (k.readDone file n input) (Inv x) Harmless := by
  refine .bind (proc_spec k) ?_
  rintro ⟨pid, p⟩ -
  refine .bind (access_spec h hroot ((quiet_leakProc k pid).trans (quiet_leakFile _ file))
    fun _ => .pure (settled_ret h hroot (.refl k))) fun r hr => proceed_spec hr

theorem readStdin_spec : Ensures (k.readStdin input) (Inv x) Harmless := by
  rw [readStdin]
  split
  · exact yieldNow_spec h hroot nofun nofun
  · refine .ite (fun _ => ?_) fun _ => readDone_spec h hroot _ _
    refine readDone_spec (h.quiet (quiet_modifyTask ?_)) hroot _ _
    exact fun _ => ⟨rfl, rfl, rfl, rfl, rfl⟩

omit h hroot in
theorem quiet_setPipes (k : Kernel) (pipes : List PipeRingBuffer) : Quiet k { k with pipes } :=
  ⟨rfl, rfl, rfl, rfl, fun h => h⟩

theorem readPipe_spec (pipe : ℕ) (call : ReadCall) :
    Ensures (k.readPipe pipe call input) (Inv x) Harmless := by
  rw [readPipe]
  split
  · exact .error rfl
  · split
    · exact .error rfl
    · have hinv := h.quiet (quiet_setPipes k (k.pipes.set pipe ‹_›))
      dsimp only
      split
      · exact readDone_spec hinv hroot _ _
      · refine .ite (fun _ => yieldNow_spec hinv hroot nofun nofun) fun _ => .pure ?_
        exact hinv.quiet (quiet_setCont (fun hr => absurd hr hroot) nofun nofun)

theorem writeChunk_spec (file : File) (len count : ℕ) :
    Ensures (k.writeChunk file len count input) (Inv x) Harmless := by
  refine .ite (fun _ => .bind (proc_spec k) ?_) fun _ => finish_spec h hroot count
  rintro ⟨pid, p⟩ -
  refine .bind (access_spec h hroot ((quiet_leakProc k pid).trans (quiet_leakFile _ file))
    fun bytes => ?_) fun r hr => proceed_spec hr
  split
  · exact .ite (fun _ => .pure (settled_setCont h hroot nofun nofun)) fun _ => .error rfl
  · exact .pure (settled_setCont h hroot nofun nofun)
  · exact .ite (fun _ => .pure (settled_setCont h hroot nofun nofun)) fun _ => .error rfl
  · exact .error rfl

theorem writePipe_spec (pipe : ℕ) (call : WriteCall) (len count : ℕ) :
    Ensures (k.writePipe pipe call len count) (Inv x) Harmless := by
  rw [writePipe]
  split
  · exact .error rfl
  · generalize writeRound call _ = r
    obtain ⟨call', ring', n⟩ := r
    have hinv := h.quiet (quiet_setPipes k (k.pipes.set pipe ring'))
    have hset : ∀ c : Cont, c ≠ .run → c ≠ .exited →
        Inv x ({ k with pipes := k.pipes.set pipe ring' }.setCont c) := fun c hc hc' =>
      hinv.quiet (quiet_setCont (fun hr => absurd hr hroot) hc hc')
    dsimp only
    split
    · exact .ite (fun _ => .pure (hset _ nofun nofun)) fun _ => .error rfl
    · exact .ite (fun _ => yieldNow_spec hinv hroot nofun nofun) fun _ =>
        .pure (hset _ nofun nofun)

end running

/-! The loop of the root task -/

theorem rootReap_spec (h : Inv x k) (hx : x → k.NoZombieParent) :
    Ensures k.rootReap (Inv x) Harmless := by
  refine .bind (proc_spec k) ?_
  rintro ⟨pid, p⟩ -
  refine .bind (waitpid_spec h hx pid (-1)) ?_
  rintro ⟨ret, exitCode, k₁⟩ ⟨hinv, -⟩
  refine .pure ?_
  split_ifs
  · exact hinv
  · exact hinv.quiet (quiet_setCont (fun _ => .inr rfl) nofun nofun)

theorem rootCheck_spec (h : Inv x k) : Ensures k.rootCheck (Inv x) Harmless := by
  have hinv := h.quiet (quiet_setCont (c := .rootReap) (fun _ => .inl rfl) nofun nofun)
  refine .bind (proc_spec k) ?_
  rintro ⟨pid, p⟩ -
  exact .ite (fun _ => .pure hinv) fun _ => yieldCurrent_spec hinv

/-! Timers -/

theorem mem_of_peek {tie : List TimerCondVar → ℕ} {timers : List TimerCondVar}
    {timer : TimerCondVar} (h : peek tie timers = some timer) : timer ∈ timers :=
  (List.mem_filter.mp (List.mem_of_getElem? h)).1

/-- The task of a timer is resumed, and the timer is taken out. -/
theorem wakeTimer_spec {run : Option ℕ} {timer : TimerCondVar} (h : InvAt x run k) (ht : timer ∈ k.timers) :
    Ensures (k.resume timer.task)
      (fun k' => InvAt x run { k' with timers := k'.timers.erase timer } ∧ k'.current = k.current)
      fun _ => False := by
  obtain ⟨l₁, l₂, -, hl, herase⟩ := List.exists_erase_eq ht
  have hq : k.queue .timers =
      l₁.map TimerCondVar.task ++ timer.task :: l₂.map TimerCondVar.task := by
    rw [queue, hl, List.map_append, List.map_cons]
  have hr : Requeued k { k with timers := k.timers.erase timer } (Function.update k.queue .timers
      (l₁.map TimerCondVar.task ++ l₂.map TimerCondVar.task)) := by
    refine ⟨rfl, rfl, rfl, rfl, rfl, ?_⟩
    rw [queue_setTimers, herase, List.map_append]
  have hb : k.stateOf timer.task = some .blocking := by
    have hmem : timer.task ∈ k.sched.queue .timers := List.mem_map_of_mem ht
    exact status_eq_iff.mp (h.sched.status_of_queue hmem)
  rw [resume_eq hb]
  exact .ok ⟨(wake_inv h hq hr).2, rfl⟩

/-- `check_timer` never fails, whatever the current task is in the middle of. -/
theorem checkTimerLoop_spec {run : Option ℕ} (tie : List TimerCondVar → ℕ) (n : ℕ) (h : InvAt x run k) :
    Ensures (checkTimerLoop tie n k) (fun k' => InvAt x run k' ∧ k'.current = k.current) fun _ => False := by
  induction n generalizing k with
  | zero => exact .pure ⟨h, rfl⟩
  | succ n ih =>
    rw [checkTimerLoop]
    split
    next timer hpeek =>
      refine .ite (fun _ => .bind (wakeTimer_spec h (mem_of_peek hpeek)) fun k₁ hk => ?_) fun _ => .pure ⟨h, rfl⟩
      exact (ih hk.1).mono fun k' hk' => ⟨hk'.1, hk'.2.trans hk.2⟩
    next => exact .pure ⟨h, rfl⟩

/-- A timer interrupt while a task runs. -/
theorem timer_spec (tie : List TimerCondVar → ℕ) (h : Inv x k) : Ensures (k.step (.timer tie)) (Inv x) Harmless := by
  obtain ⟨k₁, hk₁, hinv, hcur⟩ := (checkTimerLoop_spec tie k.timers.length h).total
  rw [step, checkTimer, hk₁]
  exact yieldCurrent_spec (hinv.inv hcur)

/-! Steps and runs -/

/-- What the task that runs is about, if it is the root task. -/
theorem Inv.root_cont (h : Inv x k) {task : Task} (htask : k.tasks[k.current]? = some task)
    (h₁ : task.cont ≠ .rootReap) (h₂ : task.cont ≠ .rootCheck) : k.current ≠ 1 := by
  intro hcur
  rcases (h.tasks _ task htask).root hcur with hc | hc
  · exact h₁ hc
  · exact h₂ hc

theorem proceedWith_spec (h : Inv x k) (hx : x → k.NoZombieParent) {task : Task}
    (htask : k.tasks[k.current]? = some task) :
    Ensures (k.proceedWith input task.cont) (Inv x) Harmless := by
  have hroot := h.root_cont htask
  have hok := h.tasks _ task htask
  have hrunning := h.running
  rw [stateOf, htask] at hrunning
  cases hc : task.cont with
  | user => exact .pure h
  | finish ret => exact finish_spec h (hroot (by simp [hc]) (by simp [hc])) ret
  | lock mutex =>
    exact .bind (returnZero_spec (mutexLock_spec h (hroot (by simp [hc]) (by simp [hc])) mutex))
      fun _ hr => proceed_spec hr
  | locked mutex => exact finish_spec h (hroot (by simp [hc]) (by simp [hc])) 0
  | readStdin => exact readStdin_spec h (hroot (by simp [hc]) (by simp [hc]))
  | readInode file len => exact readDone_spec h (hroot (by simp [hc]) (by simp [hc])) _ _
  | readPipe pipe call => exact readPipe_spec h (hroot (by simp [hc]) (by simp [hc])) pipe call
  | write file len count =>
    exact writeChunk_spec h (hroot (by simp [hc]) (by simp [hc])) file len count
  | writePipe pipe call len count =>
    exact writePipe_spec h (hroot (by simp [hc]) (by simp [hc])) pipe call len count
  | signals => exact handleSignals_spec h (hroot (by simp [hc]) (by simp [hc]))
  | rootReap => exact rootReap_spec h hx
  | rootCheck => exact rootCheck_spec h
  | kernelEntry => exact exit_spec h (hroot (by simp [hc]) (by simp [hc])) 0
  | run => exact absurd (hok.run hc) h.sched.ne_idle
  | exited =>
    rw [Option.map_some, hok.exited hc] at hrunning
    cases hrunning

/-- A task in user mode is not the root task. -/
theorem user_ne_root (h : Inv x k) (he : (k.contOf k.current == some .user) = true) :
    k.current ≠ 1 := by
  obtain ⟨task, htask⟩ := h.exists_task
  have hc : task.cont = .user := by simpa [contOf, htask] using he
  exact h.root_cont htask (by simp [hc]) (by simp [hc])

theorem step_spec (h : Inv x k) (hx : x → k.NoZombieParent) {e : Event} (he : k.enabled e) :
    Ensures (k.step e) (Inv x) Harmless := by
  cases e with
  | syscall call tf =>
    have hq : Quiet k (k.modifyTask k.current fun task => { task with tf }) :=
      quiet_modifyTask fun _ => ⟨rfl, rfl, rfl, rfl, rfl⟩
    have hroot : k.current ≠ 1 := user_ne_root h he
    exact .bind (syscall_spec (h.quiet hq) hroot hx call) fun _ hr => proceed_spec hr
  | fault => exact exit_spec h (user_ne_root h he) (-1)
  | proceed input => exact .bind (task_spec k k.current) fun _ htask => proceedWith_spec h hx htask
  | timer tie => exact timer_spec tie h
  | clock ms => exact .pure (h.quiet ⟨rfl, rfl, rfl, rfl, fun hk => hk⟩)

end Kernel

end RCore.Os
