import RCore.Proofs.Os.Runs
import RCore.Spec.Os.Preempt

/-! Timer interrupts at every point where interrupts are enabled. A task that is interrupted runs,
so that `handle_irq_exception` can give way, except in one place: a kernel task that exits marks
itself as a zombie with interrupts enabled. -/

namespace RCore.Os

open RCore.Lib Kernel

namespace Kernel

variable {k k' : Kernel} {code : Int32} {point : Point}

/-! The steps of `CurrentTask::exit` -/

/-- The current task is a kernel task, and has been marked as a zombie. -/
structure Ending (k : Kernel) : Prop where
  inv : InvAt False none k
  root : k.current ≠ 1
  state : k.stateOf k.current = some .zombie
  cont : k.contOf k.current = some .kernelEntry

theorem Ending.quiet (h : Ending k) (hq : Quiet k k') (hcont : k'.contOf k.current = k.contOf k.current) :
    Ending k' := by
  have hcurrent := hq.current
  constructor
  · exact h.inv.quiet hq
  · rw [hcurrent]
    exact h.root
  · rw [hcurrent, hq.stateOf]
    exact h.state
  · rw [hcurrent, hcont]
    exact h.cont

theorem Ending.modifyProc (h : Ending k) {pid : ℕ} {g : Process → Process}
    (hg : ∀ p, (g p).children = p.children) : Ending (k.modifyProc pid g) :=
  h.quiet (quiet_modifyProc hg) rfl

theorem contOf_of_cont {t : ℕ} {f : Task → Task} (hf : ∀ task, (f task).cont = task.cont) :
    (k.modifyTask t f).contOf = k.contOf := by
  funext u
  unfold contOf
  rw [getElem?_modifyTask]
  split_ifs
  · rw [Option.map_map, show Task.cont ∘ f = Task.cont from funext hf]
  · rfl

theorem Ending.setExitCode (h : Ending k) : Ending (k.setExitCode k.current code) := by
  refine h.quiet (quiet_setExitCode k k.current code) ?_
  rw [Kernel.setExitCode, contOf_of_cont]
  exact fun _ => rfl

theorem Inv.ending (h : Inv False k) (hcont : k.contOf k.current = some .kernelEntry) :
    Ending (k.setState k.current .zombie) := by
  obtain ⟨task, htask, hc⟩ := Option.map_eq_some_iff.mp hcont
  have hroot : k.current ≠ 1 := h.root_cont htask (by simp [hc]) (by simp [hc])
  obtain ⟨hinv, hzombie⟩ := h.ended hroot
  refine ⟨hinv, hroot, hzombie, ?_⟩
  rw [setState, contOf_of_cont]
  · exact hcont
  · exact fun _ => rfl

/-- What the task `t` leaves behind that has come to a point: a task runs, or `t` is in the middle
of `exit`. -/
inductive Lands (t : ℕ) (r : Kernel × Option Point) : Prop
  | running (h : Inv False r.1) (hpoint : r.2.any Point.marked = false)
  | exiting (h : Ending r.1) (hcurrent : r.1.current = t) (hpoint : r.2.any Point.marked = true)

theorem stepAt_running (h : Inv False k) (hmarked : point.marked = false) :
    Ensures (k.stepAt code point) (Lands k.current) Harmless := by
  cases point with
  | run => exact .bind (yieldCurrent_spec h) fun _ hk => .pure (.running hk rfl)
  | rootYield =>
    have hq : Quiet k (k.setCont .rootReap) := quiet_setCont (fun _ => .inl rfl) nofun nofun
    exact .bind (yieldCurrent_spec (h.quiet hq)) fun _ hk => .pure (.running hk rfl)
  | _ => cases hmarked

theorem stepAt_ending (h : Ending k) (hmarked : point.marked = true) :
    Ensures (k.stepAt code point) (Lands k.current) Harmless := by
  cases point with
  | setExitCode => exact .pure (.exiting h.setExitCode rfl rfl)
  | taskExit =>
    refine .bind (proc_spec k) ?_
    rintro ⟨pid, p⟩ -
    refine .pure (.exiting h rfl ?_)
    split_ifs <;> rfl
  | procExitCode =>
    refine .bind (proc_spec k) ?_
    rintro ⟨pid, p⟩ -
    exact .pure (.exiting (h.modifyProc fun _ => rfl) rfl rfl)
  | procState =>
    refine .bind (proc_spec k) ?_
    rintro ⟨pid, p⟩ -
    exact .pure (.exiting (h.modifyProc fun _ => rfl) rfl rfl)
  | dropVm =>
    refine .bind (proc_spec k) ?_
    rintro ⟨pid, p⟩ -
    exact .bind (lock_spec k _) fun _ _ => .pure (.exiting (h.modifyProc fun _ => rfl) rfl rfl)
  | exitCurrent =>
    exact .bind (exitCurrent_spec h.inv h.root h.state) fun _ hk => .pure (.running hk rfl)
  | _ => cases hmarked

/-- A timer interrupt while no task runs: the timers are looked at, and then the assertion of
`yield_current` fails. -/
theorem Ending.timer (h : Ending k) (tie : List TimerCondVar → ℕ) :
    k.step (.timer tie) = .error .yieldCurrent := by
  obtain ⟨k₁, hk₁, hinv, -⟩ := (checkTimerLoop_spec tie k.timers.length h.inv).total
  have hnot : k₁.stateOf k₁.current ≠ some .running := by
    intro hrun
    have hsome := (hinv.sched.running k₁.current).mp (status_eq_iff.mpr hrun)
    cases hsome
  rw [step, checkTimer, hk₁]
  change k₁.yieldCurrent = _
  rw [yieldCurrent, if_pos hnot]

/-! Without interrupts the steps together are the ones of the kernel -/

section together

variable {n pid : ℕ} {p : Process} {g : Process → Process}

/-- From a point on, at most `n` steps. -/
def exitFrom (code : Int32) : ℕ → Kernel × Option Point → Except Panic Kernel
  | n + 1, (k, some point) => do exitFrom code n (← k.stepAt code point)
  | _, (k, _) => pure k

theorem exitFrom_step {r : Kernel × Option Point} (h : k.stepAt code point = .ok r) :
    exitFrom code (n + 1) (k, some point) = exitFrom code n r := by
  rw [exitFrom, h]
  rfl

theorem exitFrom_exitCurrent :
    exitFrom code (n + 1) (k, some .exitCurrent) = k.exitCurrent code := by
  rw [exitFrom, stepAt]
  cases k.exitCurrent code with
  | error e => rfl
  | ok k' => cases n <;> rfl

theorem exitFrom_rootYield :
    exitFrom code (n + 1) (k, some .rootYield) = k.yieldNow .rootReap := by
  rw [exitFrom, stepAt]
  cases k.yieldNow .rootReap with
  | error e => rfl
  | ok k' => cases n <;> rfl

theorem proc_eq_ok_iff : k.proc = .ok (pid, p) ↔
    (∃ task, k.tasks[k.current]? = some task ∧ task.process = pid) ∧ k.procs[pid]? = some (some p) := by
  constructor
  · intro h
    obtain ⟨hp, task, htask, hpid⟩ := (proc_spec k).post_of_ok h
    exact ⟨⟨task, htask, hpid⟩, hp⟩
  · rintro ⟨⟨task, htask, rfl⟩, hp⟩
    simp [proc, Kernel.task, process, htask, hp, bind, Except.bind, pure, Except.pure]

theorem proc_modifyProc (h : k.proc = .ok (pid, p)) : (k.modifyProc pid g).proc = .ok (pid, g p) := by
  rw [proc_eq_ok_iff] at h ⊢
  refine ⟨h.1, ?_⟩
  rw [getElem?_modifyProc, if_pos rfl, h.2]
  rfl

theorem modifyProc_modifyProc (k : Kernel) (pid : ℕ) (f g : Process → Process) :
    (k.modifyProc pid f).modifyProc pid g = k.modifyProc pid (g ∘ f) := by
  unfold modifyProc
  simp [List.modify_modify_eq]

theorem exitFrom_dropVm (h : k.proc = .ok (pid, p)) : exitFrom code (n + 2) (k, some .dropVm) =
    k.lock (.vm pid) >>= fun _ => (k.modifyProc pid fun p => { p with vm := false }).exitCurrent code := by
  rw [exitFrom, stepAt, h]
  change (k.lock (.vm pid) >>= fun _ => pure (k.modifyProc pid _, some Point.exitCurrent)) >>= _ = _
  cases k.lock (.vm pid) with
  | error e => rfl
  | ok _ => exact exitFrom_exitCurrent

/-- The last task of the process ends, and the process with it. -/
theorem exitFrom_procExitCode (h : k.proc = .ok (pid, p)) : exitFrom code 4 (k, some .procExitCode) =
    k.lock (.vm pid) >>= fun _ => (k.modifyProc pid fun p =>
      { p with
        exitCode := if p.state = .normal then code else p.exitCode
        state := .zombie
        vm := false }).exitCurrent code := by
  have hcode : k.stepAt code .procExitCode = .ok (k.modifyProc pid fun p =>
      { p with exitCode := if p.state = .normal then code else p.exitCode }, some .procState) := by
    rw [stepAt, h]
    rfl
  have hstate : ∀ {k : Kernel} {p : Process}, k.proc = .ok (pid, p) → k.stepAt code .procState =
      .ok (k.modifyProc pid fun p => { p with state := .zombie }, some .dropVm) := by
    intro k p h
    rw [stepAt, h]
    rfl
  have h₁ := proc_modifyProc (g := fun p =>
    { p with exitCode := if p.state = .normal then code else p.exitCode }) h
  rw [exitFrom_step hcode, exitFrom_step (hstate h₁), exitFrom_dropVm (proc_modifyProc h₁),
    modifyProc_modifyProc, modifyProc_modifyProc]
  rfl

theorem taskExit_eq_exitFrom {task : Task} (htask : k.tasks[k.current]? = some task) (hpid : task.process = pid) :
    (k.taskExit pid code >>= fun k => k.exitCurrent code) = exitFrom code 5 (k, some .taskExit) := by
  subst hpid
  cases hp : k.process task.process with
  | error e =>
    have hproc : k.proc = .error e := by
      rw [proc, Kernel.task, htask]
      change k.process task.process >>= _ = _
      rw [hp]
      rfl
    rw [taskExit, hp, exitFrom, stepAt, hproc]
    rfl
  | ok p =>
    have h : k.proc = .ok (task.process, p) :=
      proc_eq_ok_iff.mpr ⟨⟨task, htask, rfl⟩, (process_spec k _).post_of_ok hp⟩
    have hstep : k.stepAt code .taskExit =
        .ok (k, some (if k.taskCount p = 0 then .procExitCode else .exitCurrent)) := by
      rw [stepAt, h]
      rfl
    rw [taskExit, hp, exitFrom_step hstep]
    change (if k.taskCount p = 0 then _ else _) >>= _ = _
    split_ifs
    · rw [exitFrom_procExitCode h, bind_assoc]
      rfl
    · rw [exitFrom_exitCurrent]
      rfl

/-- The steps of a task that is marked and then not interrupted. -/
theorem exit_eq_exitFrom {task : Task} (htask : k.tasks[k.current]? = some task) :
    k.exit code = exitFrom code 6 (k.setState k.current .zombie, some .setExitCode) := by
  have hmarked : ((k.setState k.current .zombie).setExitCode k.current code).tasks[k.current]? =
      some { task with state := .zombie, exitCode := code } := by
    rw [Kernel.setExitCode, setState, getElem?_modifyTask, if_pos rfl, getElem?_modifyTask, if_pos rfl, htask]
    rfl
  rw [exit, Kernel.task, htask, exitFrom_step rfl]
  exact taskExit_eq_exitFrom hmarked rfl

end together

/-! `run` -/

/-- What `task::init` has done: the idle task runs, and the other four are ready. -/
def initial (entry ustackTop : UInt64) (ms : ℕ) : Kernel :=
  { booted entry ustackTop with
    tasks := [
      { Task.new 0 0 (.newUser 0 0) .run with state := .running },
      Task.new 0 1 (.newUser 0 0) .rootReap,
      Task.new 0 2 (.newUser 0 0) .kernelEntry,
      Task.new 0 3 (.newUser 0 0) .kernelEntry,
      Task.new 0 4 (.newUser entry ustackTop) .user]
    readyQueue := [1, 2, 3, 4]
    current := 0
    timeMs := ms }

variable {entry ustackTop : UInt64} {ms : ℕ}

theorem yieldCurrent_initial :
    (initial entry ustackTop ms).yieldCurrent = .ok { booted entry ustackTop with timeMs := ms } := rfl

/-- With no timers an interrupt only gives way, as `run` does. -/
theorem timer_initial (tie : List TimerCondVar → ℕ) : (initial entry ustackTop ms).step (.timer tie) =
    .ok { booted entry ustackTop with timeMs := ms } := rfl

theorem quiet_clock (k : Kernel) (ms : ℕ) : Quiet k { k with timeMs := ms } :=
  ⟨rfl, rfl, rfl, rfl, fun hk => hk⟩

end Kernel

namespace Cpu

variable {s s' : Cpu} {e : Event}

/-- What the current task is in the middle of. -/
inductive Phase (s : Cpu) : Prop
  | boot {entry ustackTop : UInt64} {ms : ℕ} (hkernel : s.kernel = Kernel.initial entry ustackTop ms)
      (hpoint : s.points s.kernel.current = some .run)
  | running (h : Inv False s.kernel) (hpoint : ¬ s.Exiting)
  | exiting (h : s.kernel.Ending) (hpoint : s.Exiting)

/-- No other task is in `CurrentTask::exit`. -/
def Alone (s : Cpu) : Prop := ∀ t, t ≠ s.kernel.current → (s.points t).any Point.marked = false

structure Ok (s : Cpu) : Prop where
  alone : s.Alone
  phase : s.Phase

theorem Alone.unmarked (h : s.Alone) (hs : ¬ s.Exiting) (t : ℕ) : (s.points t).any Point.marked = false := by
  by_cases ht : t = s.kernel.current
  · rw [ht]
    exact Bool.not_eq_true _ ▸ hs
  · exact h t ht

/-- No task is in `exit`, and one runs. -/
theorem ok_running (hpoints : ∀ t, (s.points t).any Point.marked = false) (h : Inv False s.kernel) : s.Ok := by
  refine ⟨fun t _ => hpoints t, .running h ?_⟩
  unfold Exiting
  simp [hpoints]

/-- A task that is not interrupted on the way makes a step of the kernel. -/
theorem proceed_uninterrupted (hpoint : s.points s.kernel.current = none) (input : Input) :
    (s.proceed input >>= exitFrom 0 6) = s.kernel.step (.proceed input) := by
  have hstep : ∀ c, s.kernel.contOf s.kernel.current = some c →
      s.kernel.step (.proceed input) = s.kernel.proceedWith input c := by
    intro c hc
    obtain ⟨task, htask, rfl⟩ := Option.map_eq_some_iff.mp hc
    rw [Kernel.step, Kernel.task, htask]
    rfl
  unfold Cpu.proceed
  rw [hpoint]
  dsimp only
  split
  next hc =>
    obtain ⟨task, htask, -⟩ := Option.map_eq_some_iff.mp hc
    rw [hstep _ hc]
    exact (exit_eq_exitFrom htask).symm
  next hc =>
    rw [hstep _ hc, proceedWith, rootCheck]
    cases s.kernel.proc with
    | error e => rfl
    | ok r =>
      change (if r.2.children.length = 0 then _ else _) >>= _ = if r.2.children.length = 0 then _ else _
      split_ifs
      · rfl
      · exact exitFrom_rootYield
  next => cases s.kernel.step (.proceed input) <;> rfl

theorem not_exiting_of_run (h : s.points s.kernel.current = some .run) : ¬ s.Exiting := by
  simp [Exiting, h, Point.marked]

/-- After a step of the current task. -/
theorem Alone.proceed (h : s.Alone) {r : Kernel × Option Point} (hr : Lands s.kernel.current r)
    (hkernel : s'.kernel = r.1) (hpoints : s'.points = Function.update s.points s.kernel.current r.2) : s'.Ok := by
  cases hr with
  | running hinv hpoint =>
    refine ok_running (fun t => ?_) (hkernel ▸ hinv)
    rw [hpoints, Function.update_apply]
    split_ifs with ht
    · exact hpoint
    · exact h t ht
  | exiting hending hcurrent hpoint =>
    refine ⟨fun t ht => ?_, .exiting (hkernel ▸ hending) ?_⟩
    · rw [hkernel, hcurrent] at ht
      rw [hpoints, Function.update_of_ne ht]
      exact h t ht
    · unfold Exiting
      rw [hkernel, hcurrent, hpoints, Function.update_self]
      exact hpoint

/-- The current task runs, and goes on in the kernel. -/
theorem proceed_running (h : Inv False s.kernel) (hpoint : ¬ s.Exiting) (input : Input)
    (he : s.kernel.enabled (.proceed input)) : Ensures (s.proceed input) (Lands s.kernel.current) Harmless := by
  unfold Cpu.proceed
  split
  next point hp =>
    refine stepAt_running h ?_
    simpa [Exiting, hp] using hpoint
  next =>
    split
    next hcont => exact .pure (.exiting (h.ending hcont) rfl rfl)
    next =>
      refine .bind (proc_spec s.kernel) ?_
      rintro ⟨pid, p⟩ -
      refine .ite (fun _ => .pure (.running ?_ rfl)) fun _ => .pure (.running h rfl)
      exact h.quiet (quiet_setCont (fun _ => .inl rfl) nofun nofun)
    next => exact .bind (step_spec h nofun he) fun _ hk => .pure (.running hk rfl)

theorem step_running (h : Inv False s.kernel) (halone : s.Alone) (hpoint : ¬ s.Exiting) (he : s.enabled e = true) :
    Ensures (s.step e) Ok Harmless := by
  have hpoints := halone.unmarked hpoint
  cases e with
  | timer tie => exact .bind (timer_spec tie h) fun k hk => .pure (ok_running hpoints hk)
  | proceed input =>
    exact .bind (proceed_running h hpoint input he) fun r hr => .pure (halone.proceed hr rfl rfl)
  | clock ms => exact .bind (step_spec h nofun he) fun k hk => .pure (ok_running hpoints hk)
  | syscall call tf => exact .bind (step_spec h nofun he) fun k hk => .pure (ok_running hpoints hk)
  | fault => exact .bind (step_spec h nofun he) fun k hk => .pure (ok_running hpoints hk)

/-- In `exit`, whatever is not a timer interrupt. -/
theorem step_exiting (h : s.kernel.Ending) (halone : s.Alone) (hpoint : s.Exiting) (he : s.enabled e = true)
    (ht : ∀ tie, e ≠ .timer tie) : Ensures (s.step e) Ok Harmless := by
  have huser : (s.kernel.contOf s.kernel.current == some .user) = false := by
    rw [h.cont]
    rfl
  cases e with
  | timer tie => exact absurd rfl (ht tie)
  | proceed input =>
    obtain ⟨point, hp, hmarked⟩ := (Option.any_eq_true ..).mp hpoint
    have hspec : Ensures (s.proceed input) (Lands s.kernel.current) Harmless := by
      unfold Cpu.proceed
      rw [hp]
      exact stepAt_ending h hmarked
    exact .bind hspec fun r hr => .pure (halone.proceed hr rfl rfl)
  | clock ms => exact .pure ⟨halone, .exiting (h.quiet (quiet_clock s.kernel ms) rfl) hpoint⟩
  | syscall call tf => exact absurd (huser.symm.trans he) nofun
  | fault => exact absurd (huser.symm.trans he) nofun

/-- In `run`. -/
theorem step_boot {entry ustackTop : UInt64} {ms : ℕ} (hkernel : s.kernel = Kernel.initial entry ustackTop ms)
    (hpoint : s.points s.kernel.current = some .run) (halone : s.Alone) (he : s.enabled e = true) :
    Ensures (s.step e) Ok Harmless := by
  have hbooted : Inv False { booted entry ustackTop with timeMs := ms } :=
    inv_booted.quiet (quiet_clock (booted entry ustackTop) ms)
  have huser : (s.kernel.contOf s.kernel.current == some .user) = false := by
    rw [hkernel]
    rfl
  cases e with
  | timer tie =>
    have hspec : Ensures (s.kernel.step (.timer tie)) (Inv False) Harmless := by
      rw [hkernel, timer_initial]
      exact .ok hbooted
    exact .bind hspec fun k hk => .pure (ok_running (halone.unmarked (not_exiting_of_run hpoint)) hk)
  | proceed input =>
    have hspec : Ensures (s.proceed input) (Lands s.kernel.current) Harmless := by
      unfold Cpu.proceed
      rw [hpoint]
      unfold Kernel.stepAt
      rw [hkernel, yieldCurrent_initial]
      exact .ok (.running hbooted rfl)
    exact .bind hspec fun r hr => .pure (halone.proceed hr rfl rfl)
  | clock ms' =>
    have hkernel' : { s.kernel with timeMs := ms' } = Kernel.initial entry ustackTop ms' := by
      rw [hkernel]
      rfl
    exact .pure ⟨halone, .boot hkernel' hpoint⟩
  | syscall call tf => exact absurd (huser.symm.trans he) nofun
  | fault => exact absurd (huser.symm.trans he) nofun

theorem step_timer_exiting (h : s.kernel.Ending) (tie : List TimerCondVar → ℕ) :
    s.step (.timer tie) = .error .yieldCurrent := by
  rw [step, h.timer tie]
  rfl

/-- The idle task, in `run`. -/
def initial (entry ustackTop : UInt64) : Cpu :=
  ⟨Kernel.initial entry ustackTop 0, true, fun _ => .entry, Function.update (fun _ => none) 0 (some .run)⟩

theorem boot_eq (entry ustackTop : UInt64) : boot entry ustackTop = .ok (initial entry ustackTop) := rfl

theorem ok_initial (entry ustackTop : UInt64) : (initial entry ustackTop).Ok := by
  refine ⟨fun t ht => ?_, .boot rfl rfl⟩
  have hne : t ≠ 0 := ht
  simp [initial, Function.update_of_ne hne]

/-- A step fails in this way exactly in one place. -/
theorem Ok.step_iff (h : s.Ok) (he : s.enabled e = true) :
    s.step e = .error .yieldCurrent ↔ (∃ tie, e = .timer tie) ∧ s.Exiting := by
  have hne : Ensures (s.step e) Ok Harmless → s.step e ≠ .error .yieldCurrent := fun hspec herr =>
    absurd (hspec.fails_of_error herr) nofun
  obtain ⟨halone, hphase⟩ := h
  cases hphase with
  | boot hkernel hpoint =>
    refine iff_of_false (hne (step_boot hkernel hpoint halone he)) ?_
    exact fun hand => not_exiting_of_run hpoint hand.2
  | running hinv hpoint =>
    exact iff_of_false (hne (step_running hinv halone hpoint he)) fun hand => hpoint hand.2
  | exiting hending hpoint =>
    constructor
    · intro herr
      by_contra hnot
      have ht : ∀ tie, e ≠ .timer tie := fun tie heq => hnot ⟨⟨tie, heq⟩, hpoint⟩
      exact hne (step_exiting hending halone hpoint he ht) herr
    · rintro ⟨⟨tie, rfl⟩, -⟩
      exact step_timer_exiting hending tie

theorem Ok.step (h : s.Ok) (he : s.enabled e = true) (hs : s.step e = .ok s') : s'.Ok := by
  obtain ⟨halone, hphase⟩ := h
  cases hphase with
  | boot hkernel hpoint => exact (step_boot hkernel hpoint halone he).post_of_ok hs
  | running hinv hpoint => exact (step_running hinv halone hpoint he).post_of_ok hs
  | exiting hending hpoint =>
    refine (step_exiting hending halone hpoint he fun tie heq => ?_).post_of_ok hs
    rw [heq, step_timer_exiting hending tie] at hs
    cases hs

end Cpu

variable {s : Cpu} {e : Event}

theorem CpuRun.ok (h : CpuRun s) : s.Ok := by
  induction h with
  | @boot s entry ustackTop h =>
    cases (Cpu.boot_eq entry ustackTop).symm.trans h
    exact Cpu.ok_initial entry ustackTop
  | step h he hs ih => exact ih.step he hs

/-- Wherever timer interrupts are placed, the assertion of `yield_current` fails exactly when one
comes while a kernel task is in `CurrentTask::exit`. -/
theorem preemption_iff (h : CpuRun s) (he : s.enabled e = true) :
    s.step e = .error .yieldCurrent ↔ (∃ tie, e = .timer tie) ∧ s.Exiting :=
  h.ok.step_iff he

/-- An interrupt in `run`, where the idle task runs. -/
theorem preemption_iff_initial : CpuRun (Cpu.initial 0 0) ∧
    ((Cpu.initial 0 0).step (.timer fun _ => 0) = .error .yieldCurrent ↔
      (∃ tie, Event.timer (fun _ => 0) = .timer tie) ∧ (Cpu.initial 0 0).Exiting) :=
  ⟨.boot (Cpu.boot_eq 0 0), preemption_iff (.boot (Cpu.boot_eq 0 0)) rfl⟩

/-- The state after some events, if they can happen and nothing panics. -/
def Cpu.run (s : Cpu) : List Event → Option Cpu
  | [] => some s
  | e :: es =>
    if s.enabled e then
      match s.step e with
      | .ok s' => s'.run es
      | .error _ => none
    else none

theorem CpuRun.run {s' : Cpu} {es : List Event} (h : CpuRun s) (hr : s.run es = some s') : CpuRun s' := by
  induction es generalizing s with
  | nil =>
    cases hr
    exact h
  | cons e es ih =>
    rw [Cpu.run] at hr
    split_ifs at hr with he
    split at hr
    next s₁ hs => exact ih (.step h he hs) hr
    next => cases hr

/-- `run` gives way to the root task, and an interrupt to the first kernel task; that one returns
from its entry function and marks itself. It is interrupted there. -/
theorem interrupted_exit_panics : ∃ s, CpuRun s ∧ s.enabled (.timer fun _ => 0) = true ∧
    s.kernel.stateOf s.kernel.current = some .zombie ∧ s.step (.timer fun _ => 0) = .error .yieldCurrent := by
  have hrun : ((Cpu.initial 0 0).run [.proceed .zero, .timer fun _ => 0, .proceed .zero]).any (fun s =>
      s.irqs && s.kernel.stateOf s.kernel.current == some .zombie &&
        error? (s.step (.timer fun _ => 0)) == some .yieldCurrent) = true := by
    decide +kernel
  obtain ⟨s, hs, htest⟩ := (Option.any_eq_true ..).mp hrun
  simp only [Bool.and_eq_true, beq_iff_eq] at htest
  obtain ⟨⟨hirqs, hzombie⟩, herror⟩ := htest
  exact ⟨s, (CpuRun.boot (Cpu.boot_eq 0 0)).run hs, hirqs, hzombie, error_of_error? herror⟩

end RCore.Os
