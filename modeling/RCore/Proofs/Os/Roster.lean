import RCore.Proofs.Os.Effects
import RCore.Sanity.Os.Roster

/-! What a step of the kernel does to its roster: the changes that go with the event, made by
the task that runs. -/

namespace RCore.Os

open RCore.Lib Roster

namespace Kernel

variable {k k' k₁ : Kernel} {t pid : ℕ} {c : Cont} {code : Int32} {f : Task → Task}
  {g : Process → Process} {cs : List Change} {whole : List Change → Prop} {input : Input}

theorem getElem?_roster_tasks (k : Kernel) (t : ℕ) :
    k.roster.tasks[t]? = k.tasks[t]?.map Task.entry := List.getElem?_map ..

theorem getElem?_roster_procs (k : Kernel) (pid : ℕ) :
    k.roster.procs[pid]? = k.procs[pid]?.map (Option.map Process.entry) := List.getElem?_map ..

theorem roster_proc {p : Process} (h : k.procs[pid]? = some (some p)) :
    k.roster.procs[pid]? = some (some p.entry) := by
  rw [getElem?_roster_procs, h]
  rfl

@[simp] theorem length_roster_procs (k : Kernel) : k.roster.procs.length = k.procs.length :=
  List.length_map ..

@[simp] theorem length_roster_tasks (k : Kernel) : k.roster.tasks.length = k.tasks.length :=
  List.length_map ..

theorem alive_iff : k.roster.Alive t ↔ ∃ task, k.tasks[t]? = some task ∧ task.state ≠ .zombie := by
  simp only [Alive, getElem?_roster_tasks, Option.map_eq_some_iff]
  constructor
  · rintro ⟨_, ⟨task, htask, rfl⟩, hz⟩
    exact ⟨task, htask, beq_eq_false_iff_ne.mp hz⟩
  · rintro ⟨task, htask, hz⟩
    exact ⟨task.entry, ⟨task, htask, rfl⟩, beq_eq_false_iff_ne.mpr hz⟩

theorem taskCount_roster (k : Kernel) (p : Process) : k.roster.taskCount p.entry = k.taskCount p := by
  refine List.countP_congr fun e _ => ?_
  rw [getElem?_roster_tasks, stateOf, Option.map_map, decide_eq_true_eq, decide_eq_true_eq]
  cases k.tasks[e.2]? with
  | none => simp
  | some task => simp [Task.entry]

theorem roster_modifyTask {e : TaskEntry → TaskEntry}
    (hf : ∀ task, k.tasks[t]? = some task → (f task).entry = e task.entry) :
    (k.modifyTask t f).roster = k.roster.modifyTask t e := by
  simp only [roster, Kernel.modifyTask, Roster.modifyTask, map_modify hf]

/-- A task that stays what it is on the roster. -/
theorem roster_modifyTask_same (hf : ∀ task, k.tasks[t]? = some task → (f task).entry = task.entry) :
    (k.modifyTask t f).roster = k.roster := by
  rw [roster_modifyTask (e := id) hf, Roster.modifyTask, List.modify_id]

theorem roster_modifyProc {e : ProcEntry → ProcEntry} (hg : ∀ p, (g p).entry = e p.entry) :
    (k.modifyProc pid g).roster = k.roster.modifyProc pid e := by
  simp only [roster, Kernel.modifyProc, Roster.modifyProc, Roster.mk.injEq, true_and, and_true]
  refine map_modify fun p _ => ?_
  cases p with
  | none => rfl
  | some p => exact congrArg some (hg p)

theorem roster_modifyProc_same (hg : ∀ p, (g p).entry = p.entry) :
    (k.modifyProc pid g).roster = k.roster := by
  rw [roster_modifyProc (e := id) hg, Roster.modifyProc, Option.map_id, List.modify_id]

theorem roster_setState {s : TaskState} (h : k.roster.Alive t) (hs : s ≠ .zombie) :
    (k.setState t s).roster = k.roster := by
  refine roster_modifyTask_same fun task htask => ?_
  obtain ⟨task', htask', hz⟩ := alive_iff.mp h
  rw [htask, Option.some.injEq] at htask'
  subst htask'
  simp [Task.entry, hz, hs]

theorem roster_setCont (k : Kernel) (c : Cont) : (k.setCont c).roster = k.roster :=
  roster_modifyTask_same fun _ _ => rfl

theorem roster_end (k : Kernel) (t : ℕ) (code : Int32) :
    ((k.setState t .zombie).setExitCode t code).roster = k.roster.endTask t code := by
  have hstate : (k.setState t .zombie).roster = k.roster.modifyTask t fun task => { task with zombie := true } :=
    roster_modifyTask fun _ _ => rfl
  have hcode : ((k.setState t .zombie).setExitCode t code).roster =
      (k.setState t .zombie).roster.modifyTask t fun task => { task with exitCode := code } :=
    roster_modifyTask fun _ _ => rfl
  rw [hcode, hstate, Roster.modifyTask, Roster.modifyTask, List.modify_modify_eq]
  rfl

/-- The current task is alive, and so is the idle task, which is another one. -/
structure Serving (k : Kernel) : Prop where
  ne : k.current ≠ idleTask
  current : k.roster.Alive k.current
  idle : k.roster.Alive idleTask

theorem Serving.of_eq (h : Serving k) (hr : k'.roster = k.roster) (hc : k'.current = k.current) :
    Serving k' := by
  obtain ⟨hne, hcur, hidle⟩ := h
  exact ⟨hc ▸ hne, by rw [hr, hc]; exact hcur, by rw [hr]; exact hidle⟩

theorem alive_of_state {s : TaskState} (h : k.stateOf t = some s) (hs : s ≠ .zombie) : k.roster.Alive t := by
  obtain ⟨task, htask, rfl⟩ := Option.map_eq_some_iff.mp h
  exact alive_iff.mpr ⟨task, htask, hs⟩

theorem Inv.serving {x : Prop} (h : Inv x k) : Serving k :=
  ⟨h.sched.ne_idle, alive_of_state h.running nofun,
    alive_of_state (status_eq_iff (s := .ready).mp h.sched.idle) nofun⟩

theorem Serving.serves (h : Serving k) {task : Task} {p : Process}
    (htask : k.tasks[k.current]? = some task) (hp : k.procs[task.process]? = some (some p)) :
    k.roster.Serves k.current task.process p.entry := by
  refine ⟨⟨task.entry, by rw [getElem?_roster_tasks, htask]; rfl, rfl, ?_⟩, roster_proc hp⟩
  obtain ⟨task', htask', hz⟩ := alive_iff.mp h.current
  rw [htask, Option.some.injEq] at htask'
  subst htask'
  exact beq_eq_false_iff_ne.mpr hz

/-! Scheduling -/

theorem switchTo_roster (h : k.roster.Alive t) : Leads (k.switchTo t) fun k' => k'.roster = k.roster := by
  have hr : (k.setState t .running).roster = k.roster := roster_setState h nofun
  exact .ite (fun _ => .ok hr) fun _ => .ite (fun _ => trivial) fun _ => .ok hr

theorem resched_roster (h : k.roster.Alive idleTask) : Leads k.resched fun k' => k'.roster = k.roster := by
  have hpick : Leads k.pickNextTask fun r => r.2.roster = k.roster ∧
      ∀ t, r.1 = some t → k.stateOf t = some .ready :=
    .bind (pickNext_ready k k.readyQueue) fun _ hr => .pure ⟨rfl, hr⟩
  refine .ite (fun _ => trivial) fun _ => .bind hpick ?_
  rintro ⟨next, k₁⟩ ⟨hk, hready⟩
  cases next with
  | none => exact (switchTo_roster (by rw [hk]; exact h)).mono fun _ h' => h'.trans hk
  | some t =>
    have ht : k₁.roster.Alive t := by
      rw [show k₁.roster = _ from hk]
      exact alive_of_state (hready t rfl) nofun
    exact (switchTo_roster ht).mono fun _ h' => h'.trans hk

theorem yieldCurrent_roster (h : k.roster.Alive idleTask) :
    Leads k.yieldCurrent fun k' => k'.roster = k.roster := by
  refine .ite (fun _ => trivial) fun hrun => .bind (Leads.any _) fun isIdle _ => ?_
  have hr : (k.setState k.current .ready).roster = k.roster :=
    roster_setState (alive_of_state (not_not.mp hrun) nofun) nofun
  have hidle : (k.setState k.current .ready).roster.Alive idleTask := by rwa [hr]
  refine .ite (fun _ => (resched_roster hidle).mono fun _ h' => h'.trans hr) fun _ => ?_
  exact (resched_roster (k := (k.setState k.current .ready).addReadyTask k.current) hidle).mono
    fun _ h' => h'.trans hr

theorem yieldNow_roster (h : Serving k) (c : Cont) : Leads (k.yieldNow c) fun k' => k'.roster = k.roster := by
  have hr := roster_setCont k c
  exact (yieldCurrent_roster (by rw [hr]; exact h.idle)).mono fun _ h' => h'.trans hr

theorem blockAndYield_roster (h : Serving k) (c : Cont) :
    Leads (k.blockAndYield c) fun k' => k'.roster = k.roster := by
  have hc := roster_setCont k c
  have hr : ((k.setCont c).setState k.current .blocking).roster = k.roster :=
    (roster_setState (s := .blocking) (by rw [hc]; exact h.current) nofun).trans hc
  exact (resched_roster (by rw [setCont_current, hr]; exact h.idle)).mono fun _ h' => h'.trans hr

/-- The current task has entered a queue. -/
theorem block_roster (h : Serving k) (hr : k₁.roster = k.roster) (hc : k₁.current = k.current) (c : Cont) :
    Leads (k₁.blockAndYield c) fun k' => k'.roster = k.roster :=
  (blockAndYield_roster (h.of_eq hr hc) c).mono fun _ h' => h'.trans hr

theorem spawn_roster (k : Kernel) (t : ℕ) :
    Leads (k.spawn t) fun k' => k'.roster = k.roster ∧ k'.current = k.current :=
  .ite (fun _ => .ok ⟨rfl, rfl⟩) fun _ => trivial

theorem resume_roster (k : Kernel) (t : ℕ) :
    Leads (k.resume t) fun k' => k'.roster = k.roster ∧ k'.current = k.current := by
  refine .ite (fun hb => ?_) fun _ => trivial
  have hr : (k.setState t .ready).roster = k.roster := roster_setState (alive_of_state hb nofun) nofun
  exact (spawn_roster _ t).mono fun _ h => ⟨h.1.trans hr, h.2⟩

/-! The end of a task -/

theorem taskExit_roster (k : Kernel) (pid : ℕ) (code : Int32) : Leads (k.taskExit pid code) fun k' =>
    k'.tasks = k.tasks ∧ k'.current = k.current ∧ ∃ p, k.procs[pid]? = some (some p) ∧
      k'.roster = if k.roster.taskCount p.entry = 0 then k.roster.endProcess pid code else k.roster := by
  refine .bind (Leads.of (process_spec k pid)) fun p hp => ?_
  rw [← taskCount_roster]
  refine .ite (fun hcount => .bind (Leads.any _) fun _ _ => .pure ⟨rfl, rfl, p, hp, ?_⟩)
    fun hcount => .pure ⟨rfl, rfl, p, hp, by rw [if_neg hcount]⟩
  rw [if_pos hcount]
  exact roster_modifyProc fun _ => rfl

theorem exit_changes (h : Serving k) (code : Int32) :
    Leads (k.exit code) fun k' => Changes k.current [.exit code] k.roster k'.roster := by
  refine .bind (Leads.of (task_spec k k.current)) fun task htask => ?_
  refine .bind (taskExit_roster _ _ _) ?_
  rintro k₁ ⟨htasks, hcur, p, hp, hr⟩
  rw [roster_end] at hr
  have hserves := h.serves htask hp
  have hexit : k₁.roster = k.roster.exit k.current task.process p.entry code := hr
  have hend : (((k₁.setState k₁.current .zombie).setExitCode k₁.current code).setCont .exited).roster =
      k₁.roster := by
    have hself : k₁.tasks[k.current]? = some { task with state := .zombie, exitCode := code } := by
      rw [show k₁.tasks = _ from htasks, setExitCode, getElem?_modifyTask, if_pos rfl, setState,
        getElem?_modifyTask, if_pos rfl, htask]
      rfl
    have hstate : (k₁.setState k.current .zombie).roster = k₁.roster :=
      roster_modifyTask_same fun task' htask' => by
        rw [← Option.some.inj (hself.symm.trans htask')]
    have hcode : ((k₁.setState k.current .zombie).setExitCode k.current code).roster =
        (k₁.setState k.current .zombie).roster := by
      refine roster_modifyTask_same fun task' htask' => ?_
      rw [setState, getElem?_modifyTask, if_pos rfl, hself] at htask'
      rw [← Option.some.inj htask']
    rw [roster_setCont, show k₁.current = k.current from hcur, hcode, hstate]
  have hidle : (((k₁.setState k₁.current .zombie).setExitCode k₁.current code).setCont
      .exited).roster.Alive idleTask := by
    rw [hend, hexit]
    exact (Makes.exit code).alive h.idle (.inl h.ne.symm)
  refine .ite (fun _ => trivial) fun _ => (resched_roster hidle).mono fun k' h' => ?_
  rw [h', hend, hexit]
  exact .one hserves (.exit code)

/-! System calls -/

/-- What the current task has changed so far, and it still runs. -/
structure Opens (cs : List Change) (k k' : Kernel) : Prop where
  changes : Changes k.current cs k.roster k'.roster
  current : k'.current = k.current
  serving : Serving k'

theorem opens_of_eq (h : Serving k) (hr : k'.roster = k.roster) (hc : k'.current = k.current) :
    Opens [] k k' :=
  ⟨by rw [hr]; exact .nil _, hc, h.of_eq hr hc⟩

theorem Opens.of_eq (h : Opens cs k k₁) (hr : k'.roster = k₁.roster) (hc : k'.current = k₁.current) :
    Opens cs k k' :=
  ⟨by rw [hr]; exact h.changes, hc.trans h.current, h.serving.of_eq hr hc⟩

/-- One change that does not end the task. -/
theorem opens_of_makes {ch : Change} {p : ProcEntry} {r : Roster} (h : Serving k)
    (hs : k.roster.Serves k.current pid p) (hm : Makes k.current pid p k.roster ch r)
    (hne : ∀ code, ch ≠ .exit code) (hr : k'.roster = r) (hc : k'.current = k.current) :
    Opens [ch] k k' := by
  subst hr
  exact ⟨.one hs hm, hc, hc ▸ h.ne, hc ▸ hm.alive h.current (.inr hne), hm.alive h.idle (.inr hne)⟩

/-- Whatever the trap ends with may follow. -/
def Before (whole : List Change → Prop) (cs : List Change) : Prop :=
  ∀ rest, Ends rest → whole (cs ++ rest)

theorem before_ends : Before Ends [] := fun _ h => h

theorem before_endsAfter (ch : Change) : Before (EndsAfter ch) [ch] := fun rest h => ⟨rest, rfl, h⟩

/-- The changes of a trap. -/
def Made (k : Kernel) (whole : List Change → Prop) (k' : Kernel) : Prop :=
  ∃ cs, whole cs ∧ Changes k.current cs k.roster k'.roster

theorem made_of_eq (hr : k'.roster = k.roster) : Made k Ends k' :=
  ⟨[], .inl rfl, by rw [hr]; exact .nil _⟩

theorem Opens.made (h : Opens cs k k₁) (hw : Before whole cs) (hm : Made k₁ Ends k') : Made k whole k' := by
  obtain ⟨rest, hrest, hc⟩ := hm
  rw [h.current] at hc
  exact ⟨cs ++ rest, hw rest hrest, h.changes.append hc⟩

/-- What a system call has changed when it returns, and when it does not. -/
inductive Called (k : Kernel) (whole : List Change → Prop) : Flow × Kernel → Prop
  | ret {cs : List Change} {v : ℤ} {k' : Kernel} (hw : Before whole cs) (h : Opens cs k k') :
      Called k whole (.ret v, k')
  | away {k' : Kernel} (h : Made k whole k') : Called k whole (.away, k')

theorem called_ret {v : ℤ} (h : Serving k) (hr : k'.roster = k.roster) (hc : k'.current = k.current) :
    Called k Ends (.ret v, k') := .ret before_ends (opens_of_eq h hr hc)

theorem called_away (hr : k'.roster = k.roster) : Called k Ends (.away, k') := .away (made_of_eq hr)

theorem exit_made (h : Serving k) (code : Int32) : Leads (k.exit code) (Made k Ends) :=
  (exit_changes h code).mono fun _ h' => ⟨_, .inr ⟨code, rfl⟩, h'⟩

theorem access_called {α : Type} {ref : UserRef α} {f : α → Except Panic (Flow × Kernel)}
    (h : Opens cs k k₁) (hw : Before whole cs) (hf : ∀ a, Leads (f a) (Called k whole)) :
    Leads (access ref k₁ f) (Called k whole) := by
  cases ref with
  | refused => trivial
  | fault => exact .bind (exit_made h.serving _) fun _ hm => .pure (.away (h.made hw hm))
  | mapped a => exact hf a

theorem roster_fork {task : Task} {p : Process} (htasks : k'.tasks = k.tasks ++ [task])
    (hprocs : k'.procs = (k.procs ++ [some p]).modify pid
      (Option.map fun p => { p with children := p.children ++ [k.procs.length] }))
    (hmap : k'.procMap = k.procMap ++ [k.procs.length])
    (htask : task.entry = ⟨0, k.procs.length, false, 0⟩) (hp : p.entry = .forked k.tasks.length) :
    k'.roster = k.roster.fork pid := by
  have hmodify : k'.procs.map (Option.map Process.entry) =
      (k.roster.procs ++ [some (ProcEntry.forked k.tasks.length)]).modify pid
        (Option.map fun p => { p with children := p.children ++ [k.procs.length] }) := by
    rw [hprocs, map_modify (e := Option.map fun p => { p with
      children := p.children ++ [k.procs.length] }) fun x _ => by cases x <;> rfl]
    rw [List.map_append, List.map_singleton, Option.map_some, hp]
    rfl
  rw [roster, hmodify, htasks, List.map_append, List.map_singleton, htask, hmap, Roster.fork,
    length_roster_procs, length_roster_tasks]
  rfl

theorem roster_threadCreate (k : Kernel) (pid : ℕ) {tid : ℕ} {task : Task} (htask : task.entry = ⟨tid, pid, false, 0⟩)
    (hk : k' = { k with tasks := k.tasks ++ [task] }.modifyProc pid fun p =>
      { p with tidAllocator := tid + 1, tasks := p.tasks ++ [(tid, k.tasks.length)] }) :
    k'.roster = k.roster.threadCreate pid tid := by
  have hnew : ({ k with tasks := k.tasks ++ [task] } : Kernel).roster =
      { k.roster with tasks := k.roster.tasks ++ [TaskEntry.mk tid pid false 0] } := by
    rw [roster, List.map_append, List.map_singleton, htask]
    rfl
  rw [hk, roster_modifyProc (e := fun p => { p with
    tidAllocator := tid + 1, tasks := p.tasks ++ [(tid, k.tasks.length)] }) fun _ => rfl, hnew,
    Roster.threadCreate, length_roster_tasks]

section calls

variable (h : Serving k)
include h

theorem sysRead_called (fd len : ℕ) : Leads (k.sysRead fd len) (Called k Ends) := by
  refine .bind (Leads.any _) ?_
  rintro ⟨pid, p⟩ -
  dsimp only
  split
  · refine .ite (fun _ => .pure (called_ret h rfl rfl)) fun _ => ?_
    split
    · exact .ite (fun _ => trivial) fun _ => .pure (called_away (roster_setCont ..))
    · exact .pure (called_away (roster_setCont ..))
    · exact .pure (called_away (roster_setCont ..))
    · trivial
  · exact .pure (called_ret h rfl rfl)

theorem sysWrite_called (fd len : ℕ) : Leads (k.sysWrite fd len) (Called k Ends) := by
  refine .bind (Leads.any _) ?_
  rintro ⟨pid, p⟩ -
  dsimp only
  split
  · exact .ite (fun _ => .pure (called_ret h rfl rfl)) fun _ => .pure (called_away (roster_setCont ..))
  · exact .pure (called_ret h rfl rfl)

/-- A call that changes what is not on the roster of one of the processes. -/
theorem called_modifyProc {v : ℤ} (hg : ∀ p, (g p).entry = p.entry) :
    Called k Ends (.ret v, k.modifyProc pid g) :=
  called_ret h (roster_modifyProc_same hg) rfl

theorem sysOpen_called (path : UserRef String) (flags : BitVec 32) (found : Bool) :
    Leads (k.sysOpen path flags found) (Called k Ends) := by
  refine .bind (Leads.any _) ?_
  rintro ⟨pid, p⟩ -
  have ho : Opens [] k (k.leakProc pid) := opens_of_eq h rfl rfl
  refine access_called ho before_ends fun _ => ?_
  dsimp only
  split
  · trivial
  · split
    · exact .pure (called_ret h (roster_modifyProc_same fun _ => rfl) rfl)
    · exact .pure (called_ret h rfl rfl)

theorem sysClose_called (fd : ℕ) : Leads (k.sysClose fd) (Called k Ends) := by
  refine .bind (Leads.any _) ?_
  rintro ⟨pid, p⟩ -
  dsimp only
  split
  · exact .pure (called_modifyProc h fun _ => rfl)
  · exact .pure (called_ret h rfl rfl)

theorem sysDup_called (fd : ℕ) : Leads (k.sysDup fd) (Called k Ends) := by
  refine .bind (Leads.any _) ?_
  rintro ⟨pid, p⟩ -
  dsimp only
  split
  · exact .pure (called_modifyProc h fun _ => rfl)
  · exact .pure (called_ret h rfl rfl)

theorem sysPipe_called (ptr : UserRef Unit) : Leads (k.sysPipe ptr) (Called k Ends) := by
  refine .bind (Leads.any _) ?_
  rintro ⟨pid, p⟩ -
  have hr : ∀ (pid : ℕ) (l : List (Option File)), (modifyProc { k with
      pipes := k.pipes ++ [PipeRingBuffer.new.setWriteEnd] } pid fun p => { p with fdTable := l }).roster =
        k.roster := fun pid l => roster_modifyProc_same fun _ => rfl
  exact access_called (opens_of_eq h (hr _ _) rfl) before_ends fun _ => .pure (called_ret h (hr _ _) rfl)

theorem sysFork_called : Leads k.sysFork (Called k (EndsAfter (.fork k.procs.length))) := by
  refine .bind (Leads.of (task_spec k _)) fun task htask => ?_
  have hfork : Leads (k.newFork task.process task.tf) fun r => r.1 = k.procs.length ∧
      Opens [.fork k.procs.length] k { r.2 with procMap := r.2.procMap ++ [r.1] } := by
    refine .bind (Leads.of (process_spec k _)) fun p hp => .ite (fun _ => trivial) fun hkernel =>
      .bind (Leads.any _) fun _ _ => .ite (fun _ => trivial) fun hvm => .pure ⟨rfl, ?_⟩
    set child : Process := { Process.new false with
      vm := true, fdTable := p.fdTable, tasks := [(0, k.tasks.length)], tidAllocator := 1 }
    have hm : Makes k.current task.process p.entry k.roster (.fork k.procs.length)
        (k.roster.fork task.process) := by
      rw [← length_roster_procs]
      exact .fork (Bool.eq_false_iff.mpr hkernel) (by simpa [Process.entry] using hvm)
    exact opens_of_makes h (h.serves htask hp) hm nofun (roster_fork (p := child) rfl rfl rfl rfl rfl) rfl
  refine .bind hfork ?_
  rintro ⟨child, k₁⟩ ⟨-, ho⟩
  refine .bind (Leads.any _) fun t _ => .bind (spawn_roster _ t) fun k₂ h₂ => .pure ?_
  exact .ret (before_endsAfter _) (ho.of_eq h₂.1 h₂.2)

theorem sysThreadCreate_called (entry arg : UInt64) : Leads (k.sysThreadCreate entry arg)
    (Called k fun cs => ∃ tid, EndsAfter (.threadCreate tid) cs) := by
  refine .bind (Leads.of (proc_spec k)) ?_
  rintro ⟨pid, p⟩ ⟨hp, task, htask, hpid⟩
  have hnew : Leads (k.newUserTask pid entry arg) fun r =>
      Opens [.threadCreate p.tidAllocator] k r.2.2 := by
    refine .bind (Leads.of (process_spec k pid)) fun p' hp' => .bind (Leads.any _) fun _ _ =>
      .ite (fun _ => trivial) fun hvm => .ite (fun _ => trivial) fun htid => .pure ?_
    obtain rfl : p' = p := by
      rw [hp, Option.some.injEq, Option.some.injEq] at hp'
      exact hp'.symm
    subst hpid
    refine opens_of_makes h (h.serves htask hp) (.threadCreate ?_ ?_) nofun ?_ rfl
    · simpa [Process.entry] using hvm
    · exact Nat.le_of_not_lt htid
    · exact roster_threadCreate k task.process rfl rfl
  refine .bind hnew ?_
  rintro ⟨tid, t, k₁⟩ ho
  refine .bind (spawn_roster _ t) fun k₂ h₂ => .pure ?_
  exact .ret (fun rest hrest => ⟨_, before_endsAfter _ rest hrest⟩) (ho.of_eq h₂.1 h₂.2)

theorem sysExec_called (path : UserRef String) (args : UserRef (List String))
    (elf : Option (UInt64 × ℕ)) (stackMapped : Bool) :
    Leads (k.sysExec path args elf stackMapped) (Called k fun cs => Ends cs ∨ EndsAfter .exec cs) := by
  have hnone : Before (fun cs => Ends cs ∨ EndsAfter .exec cs) [] := fun _ hrest => .inl hrest
  have hexec : Before (fun cs => Ends cs ∨ EndsAfter .exec cs) [.exec] := fun rest hrest =>
    .inr (before_endsAfter _ rest hrest)
  refine access_called (opens_of_eq h rfl rfl) hnone fun _ => .bind (Leads.of (proc_spec k)) ?_
  rintro ⟨pid, p⟩ ⟨hp, task, htask, rfl⟩
  have hleak : Opens [] k (k.leakProc task.process) := opens_of_eq h rfl rfl
  refine access_called hleak hnone fun args => ?_
  refine .bind (Leads.of (process_spec k _)) fun p' hp' => .ite (fun _ => trivial) fun hkernel =>
    .ite (fun _ => trivial) fun hcount => ?_
  rw [← taskCount_roster, not_not] at hcount
  have ho : Opens [.exec] k (k.modifyProc task.process fun p => { p with vm := true }) :=
    opens_of_makes h (h.serves htask hp') (.exec (Bool.eq_false_iff.mpr hkernel) hcount) nofun
      (roster_modifyProc fun _ => rfl) rfl
  split
  · refine .bind (Leads.any _) fun _ _ => access_called (ho.of_eq rfl rfl) hexec fun _ => .pure (.ret hexec ?_)
    exact ho.of_eq (roster_modifyTask_same fun _ _ => rfl) rfl
  · exact .pure (.ret hnone (opens_of_eq h rfl rfl))

end calls

theorem flatMap_children (k : Kernel) : (k.roster.procs.flatMap fun p => (p.map ProcEntry.children).getD []) =
    k.procs.flatMap fun p => (p.map Process.children).getD [] := by
  rw [roster, List.flatMap_map]
  congr 1
  funext p
  cases p <;> rfl

theorem refs_roster (h : k.procRefs pid = 0) : k.roster.refs pid = 0 := by
  rw [refs, flatMap_children]
  rw [procRefs, Nat.add_eq_zero_iff] at h
  exact h.1

/-- A child is reaped, or nothing happens. -/
theorem waitpid_makes {p : Process} (t : ℕ) (hp : k.procs[pid]? = some (some p)) (arg : ℤ) :
    Leads (k.waitpid pid arg) fun r => r.2.2.current = k.current ∧ match r.2.1 with
      | some code => ∃ child : ℕ, r.1 = child ∧ Makes t pid p.entry k.roster (.waitpid child code) r.2.2.roster
      | none => r.2.2 = k := by
  refine .bind (Leads.of (process_spec k pid)) fun p' hp' => ?_
  obtain rfl : p' = p := by
    rw [hp, Option.some.injEq, Option.some.injEq] at hp'
    exact hp'.symm
  dsimp only
  split
  next child hfind =>
    have hzombie : k.isZombie child = true := by
      have := List.find?_some hfind
      rw [Bool.and_eq_true] at this
      exact this.2
    refine .bind (Leads.of (process_spec k child)) fun c hc => .ite (fun _ => trivial) fun hrefs =>
      .pure ⟨rfl, child, rfl, ?_⟩
    set k₁ : Kernel := { k.modifyProc pid fun p => { p with children := p.children.erase child } with
      procMap := k.procMap.erase child } with hk₁
    have hdisown : k₁.roster = k.roster.disown pid child := by
      have hchildren : (k.modifyProc pid fun p => { p with children := p.children.erase child }).roster =
          k.roster.modifyProc pid fun p => { p with children := p.children.erase child } :=
        roster_modifyProc fun _ => rfl
      rw [disown, ← hchildren]
      rfl
    have hreap : ({ k₁ with procs := k₁.procs.set child none } : Kernel).roster = k.roster.reap pid child := by
      rw [reap, ← hdisown, roster, roster, List.map_set]
      rfl
    have hzero : (k.roster.disown pid child).refs child = 0 := hdisown ▸ refs_roster (not_not.mp hrefs)
    change Makes t pid p'.entry k.roster (.waitpid child c.entry.exitCode)
      ({ k₁ with procs := k₁.procs.set child none } : Kernel).roster
    rw [hreap]
    refine .waitpid (c := c.entry) (List.mem_of_find?_eq_some hfind) (roster_proc hc) ?_ hzero
    simpa [isZombie, hc, Process.entry] using hzombie
  next => exact .pure ⟨rfl, rfl⟩

/-- What has changed after `waitpid`, whatever comes then. -/
theorem waitpid_opens (h : Serving k) {parent : ℕ} {p : Process} {arg ret : ℤ} {exitCode : Option Int32}
    (hproc : k.proc = .ok (parent, p)) (hw : k.waitpid parent arg = .ok (ret, exitCode, k₁)) :
    ∃ cs, Opens cs k k₁ ∧ Before (k.Waits arg) cs := by
  obtain ⟨hp, task, htask, hparent⟩ := Ensures.post_of_ok (proc_spec k) hproc
  obtain ⟨hcur, hmakes⟩ := Ensures.post_of_ok (waitpid_makes k.current hp arg) hw
  cases exitCode with
  | none =>
    obtain rfl : k₁ = k := hmakes
    exact ⟨[], opens_of_eq h rfl rfl, fun rest hrest => ⟨parent, p, ret, none, _, hproc, hw, hrest⟩⟩
  | some code =>
    obtain ⟨child, hret, hm⟩ := hmakes
    subst hparent
    refine ⟨[.waitpid child code], opens_of_makes h (h.serves htask hp) hm nofun rfl hcur, ?_⟩
    exact fun rest hrest => ⟨_, p, ret, some code, k₁, hproc, hw, child, hret, rest, rfl, hrest⟩

section calls

variable (h : Serving k)
include h

theorem sysWaitpid_called (arg : ℤ) (exitCodePtr : UserRef Unit) :
    Leads (k.sysWaitpid arg exitCodePtr) (Called k (k.Waits arg)) := by
  refine .bind (Leads.self _) ?_
  rintro ⟨parent, p⟩ hproc
  refine .bind (Leads.self _) ?_
  rintro ⟨ret, exitCode, k₁⟩ hw
  obtain ⟨cs, ho, hbefore⟩ := waitpid_opens h hproc hw
  exact access_called ho hbefore fun _ => .pure (.ret hbefore ho)

theorem sysWaittid_called (tid : ℕ) :
    Leads (k.sysWaittid tid) (Called k fun cs => Ends cs ∨ EndsAfter (.waittid tid) cs) := by
  have hnone : Before (fun cs => Ends cs ∨ EndsAfter (.waittid tid) cs) [] := fun _ hrest => .inl hrest
  refine .bind (Leads.of (task_spec k _)) fun task htask =>
    .ite (fun _ => .pure (.ret hnone (opens_of_eq h rfl rfl))) fun _ => ?_
  have hw : Leads (k.waittid task.process tid) fun r => Called k
      (fun cs => Ends cs ∨ EndsAfter (.waittid tid) cs) (.ret r.1, r.2) := by
    refine .bind (Leads.of (process_spec k _)) fun p hp => ?_
    split
    next u hu =>
      refine .bind (Leads.of (task_spec k u)) fun task' htask' => .ite (fun hz => .pure ?_) fun _ =>
        .pure (.ret hnone (opens_of_eq h rfl rfl))
      have htask₁ : k.roster.tasks[u]? = some task'.entry := by
        rw [getElem?_roster_tasks, htask']
        rfl
      refine .ret (fun rest hrest => .inr (before_endsAfter _ rest hrest)) ?_
      exact opens_of_makes h (h.serves htask hp) (.waittid hu htask₁ (beq_iff_eq.mpr hz)) nofun
        (roster_modifyProc fun _ => rfl) rfl
    next => exact .pure (.ret hnone (opens_of_eq h rfl rfl))
  refine .bind hw ?_
  rintro ⟨ret, k₁⟩ hk
  exact .pure hk

end calls

/-! Signals -/

theorem roster_insertSignals (flag : SignalFlags) (tasks : List (ℕ × ℕ)) (k : Kernel) :
    (k.insertSignals flag tasks).2.roster = k.roster ∧
      (k.insertSignals flag tasks).2.current = k.current := by
  induction tasks generalizing k with
  | nil => exact ⟨rfl, rfl⟩
  | cons e tasks ih =>
    have hfirst : (k.insertSignal e.2 flag).2.roster = k.roster ∧
        (k.insertSignal e.2 flag).2.current = k.current := by
      rw [insertSignal]
      split
      · split_ifs
        · exact ⟨roster_modifyTask_same fun _ _ => rfl, rfl⟩
        · exact ⟨rfl, rfl⟩
      · exact ⟨rfl, rfl⟩
    have hrest := ih (k.insertSignal e.2 flag).2
    exact ⟨hrest.1.trans hfirst.1, hrest.2.trans hfirst.2⟩

section signals

variable (h : Serving k)
include h

theorem exitGroup_called (code : Int32) :
    Leads (k.syscall (.exitGroup code)) (Called k fun cs => cs = [.stop code, .exit code]) := by
  refine .bind (Leads.of (proc_spec k)) ?_
  rintro ⟨pid, p⟩ ⟨hp, task, htask, rfl⟩
  have hstop : Leads (k.stop task.process code) (Opens [.stop code] k) := by
    refine .bind (Leads.of (process_spec k _)) fun p' hp' => .ite (fun _ => trivial) fun hpid => .pure ?_
    obtain ⟨hs, hcur⟩ := roster_insertSignals SignalFlags.SIGKILL p'.tasks
      (k.reparent task.process p'.children)
    have hr : (k.reparent task.process p'.children).roster =
        k.roster.reparent task.process p'.children := by
      rw [Kernel.reparent, roster_modifyProc (e := fun p => { p with children := [] }) fun _ => rfl,
        roster_modifyProc (e := fun root => { root with children := root.children ++ p'.children })
          fun _ => rfl]
      rfl
    refine opens_of_makes h (h.serves htask hp') (.stop code hpid) (fun _ he => by cases he) ?_ hcur
    rw [Roster.stop, show p'.entry.children = p'.children from rfl, ← hr, ← hs]
    exact roster_modifyProc fun _ => rfl
  refine .bind hstop fun k₁ ho => .bind (exit_changes ho.serving code) fun k₂ hc => .pure (.away ?_)
  rw [ho.current] at hc
  exact ⟨_, rfl, ho.changes.append hc⟩

theorem kill_called (pid : ℕ) (signum : ℤ) :
    Leads (k.kill pid signum) fun r => Called k Ends (.ret r.1, r.2) := by
  refine .ite (fun _ => .bind (Leads.any _) fun p _ => ?_) fun _ => .pure (called_ret h rfl rfl)
  split
  · obtain ⟨hs, hcur⟩ := roster_insertSignals ‹_› p.tasks k
    exact .pure (called_ret h hs hcur)
  · exact .pure (called_ret h rfl rfl)

theorem sysSigaction_called (signum : ℤ) (action : Option (UserRef SignalAction))
    (oldAction : Option (UserRef Unit)) :
    Leads (k.sysSigaction signum action oldAction) (Called k Ends) := by
  rw [sysSigaction]
  split
  · split
    · refine .ite (fun _ => .pure (called_ret h rfl rfl)) fun _ => .bind (Leads.any _) ?_
      rintro ⟨pid, p⟩ -
      have ho : Opens [] k ((k.leakProc pid).leakLock (.signalActions pid)) := opens_of_eq h rfl rfl
      exact .bind (Leads.any _) fun _ _ => access_called ho before_ends fun _ =>
        access_called ho before_ends fun _ => .pure (called_modifyProc h fun _ => rfl)
    · exact .pure (called_ret h rfl rfl)
  · exact .pure (called_ret h rfl rfl)

theorem sysSigprocmask_called (mask : BitVec 32) : Leads (k.sysSigprocmask mask) (Called k Ends) := by
  refine .bind (Leads.any _) fun task _ => ?_
  split
  · exact .pure (called_ret h (roster_modifyTask_same fun _ _ => rfl) rfl)
  · exact .pure (called_ret h rfl rfl)

theorem sysSigreturn_called : Leads k.sysSigreturn (Called k Ends) := by
  refine .bind (Leads.any _) fun task _ => ?_
  split
  · exact .pure (called_ret h (roster_modifyTask_same fun _ _ => rfl) rfl)
  · trivial
  · exact .pure (called_ret h rfl rfl)

/-- The end of a trap. -/
theorem handleSignals_made : Leads k.handleSignals (Made k Ends) := by
  refine .bind (Leads.any _) fun task _ => .bind (Leads.any _) fun p _ => ?_
  generalize task.signal.checkPendingSignals p.signalActions task.tf = r
  obtain ⟨signal, inner, tf⟩ := r
  refine .bind (Leads.any _) fun _ _ => ?_
  have ho : Opens [] k (k.setSignal inner tf) :=
    opens_of_eq h (roster_modifyTask_same fun _ _ => rfl) rfl
  have hend : Leads ((k.setSignal inner tf).signalsHandled inner) (Made k Ends) := by
    rw [signalsHandled]
    split
    · exact (exit_made ho.serving _).mono fun _ hm => ho.made before_ends hm
    · exact .pure (ho.made before_ends (made_of_eq (roster_setCont ..)))
  exact .ite (fun _ => hend) fun _ => .ite (fun _ => (blockAndYield_roster ho.serving _).mono
    fun _ hr => ho.made before_ends (made_of_eq hr)) fun _ => hend

theorem finish_made (ret : ℤ) : Leads (k.finish ret) (Made k Ends) := by
  have ho : Opens [] k (k.modifyTask k.current fun task =>
      { task with tf := task.tf.setR0 (UInt64.ofInt ret) }) :=
    opens_of_eq h (roster_modifyTask_same fun _ _ => rfl) rfl
  exact (handleSignals_made ho.serving).mono fun _ hm => ho.made before_ends hm

omit h in
theorem proceed_made {r : Flow × Kernel} (h : Called k whole r) : Leads (proceed r) (Made k whole) := by
  cases h with
  | ret hw ho => exact (finish_made ho.serving _).mono fun _ hm => ho.made hw hm
  | away hm => exact .pure hm

end signals

/-! Mutexes, semaphores, condition variables and timers -/

section objects

variable (h : Serving k)
include h

/-- A call on an object has returned, or the task gives way. -/
theorem mutexLock_roster (mutex : ℕ) : Leads (k.mutexLock mutex) fun r =>
    r.2.roster = k.roster ∧ (r.1 = true → r.2.current = k.current) := by
  rw [mutexLock]
  split
  · exact .ite (fun _ => .bind (yieldNow_roster h _) fun _ hr => .pure ⟨hr, fun hret => by cases hret⟩) fun _ =>
      .pure ⟨rfl, fun _ => rfl⟩
  · refine .ite (fun _ => ?_) fun _ => .pure ⟨rfl, fun _ => rfl⟩
    exact .bind (block_roster h (by rfl) (by rfl) _) fun _ hr => .pure ⟨hr, fun hret => by cases hret⟩
  · trivial

theorem returnZero_called {r : Except Panic (Bool × Kernel)} (hr : Leads r fun r =>
    r.2.roster = k.roster ∧ (r.1 = true → r.2.current = k.current)) : Leads (returnZero r) (Called k Ends) := by
  refine .bind hr ?_
  rintro ⟨returned, k₁⟩ ⟨hk, hcur⟩
  cases returned with
  | true => exact .pure (called_ret h hk (hcur rfl))
  | false => exact .pure (called_away hk)

omit h in
theorem mutexUnlock_roster (k : Kernel) (mutex : ℕ) : Leads (k.mutexUnlock mutex) fun k' =>
    k'.roster = k.roster ∧ k'.current = k.current := by
  rw [mutexUnlock]
  split
  · exact .pure ⟨rfl, rfl⟩
  · trivial
  · exact resume_roster _ _
  · exact .pure ⟨rfl, rfl⟩
  · trivial

omit h in
theorem semaphoreUp_roster (k : Kernel) (sem : ℕ) : Leads (k.semaphoreUp sem) fun k' =>
    k'.roster = k.roster ∧ k'.current = k.current := by
  rw [semaphoreUp]
  split
  · refine .ite (fun _ => ?_) fun _ => .pure ⟨rfl, rfl⟩
    split
    · exact resume_roster _ _
    · exact .pure ⟨rfl, rfl⟩
  · trivial

theorem semaphoreDown_roster (sem : ℕ) : Leads (k.semaphoreDown sem) fun r =>
    r.2.roster = k.roster ∧ (r.1 = true → r.2.current = k.current) := by
  rw [semaphoreDown]
  split
  · refine .ite (fun _ => ?_) fun _ => .pure ⟨rfl, fun _ => rfl⟩
    exact .bind (block_roster h (by rfl) (by rfl) _) fun _ hr => .pure ⟨hr, fun hret => by cases hret⟩
  · trivial

omit h in
theorem condvarSignal_roster (k : Kernel) (condvar : ℕ) : Leads (k.condvarSignal condvar) fun k' =>
    k'.roster = k.roster ∧ k'.current = k.current := by
  rw [condvarSignal]
  split
  · exact resume_roster _ _
  · exact .pure ⟨rfl, rfl⟩
  · trivial

theorem condvarWait_roster (condvar mutex : ℕ) :
    Leads (k.condvarWait condvar mutex) fun k' => k'.roster = k.roster := by
  refine .bind (mutexUnlock_roster k mutex) fun k₁ hk => ?_
  split
  · exact block_roster h (by exact hk.1) (by exact hk.2) _
  · trivial

theorem sysSleep_called (ms : ℕ) : Leads (k.sysSleep ms) (Called k Ends) :=
  .bind (block_roster h (by rfl) (by rfl) _) fun _ hr => .pure (called_away hr)

/-- An object is made for the process. -/
theorem called_create {v : ℤ} (hr : k₁.roster = k.roster) (hc : k₁.current = k.current)
    (hg : ∀ p, (g p).entry = p.entry) : Called k Ends (.ret v, k₁.modifyProc pid g) :=
  called_ret h ((roster_modifyProc_same hg).trans hr) hc

theorem syscall_called {call : Syscall} {e : Event} {tf : TrapFrame} (he : e = .syscall call tf) :
    Leads (k.syscall call) (Called k (k.Explains e)) := by
  subst he
  cases call with
  | read fd len => exact sysRead_called h fd len
  | write fd len => exact sysWrite_called h fd len
  | exit code => exact .bind (exit_changes h code) fun _ hc => .pure (.away ⟨_, rfl, hc⟩)
  | exitGroup code => exact exitGroup_called h code
  | yield => exact .bind (yieldNow_roster h _) fun _ hr => .pure (called_away hr)
  | getTime => exact .pure (called_ret h rfl rfl)
  | getpid =>
    refine .bind (Leads.any _) ?_
    rintro ⟨pid, p⟩ -
    exact .pure (called_ret h rfl rfl)
  | fork => exact sysFork_called h
  | exec path args elf stackMapped => exact sysExec_called h path args elf stackMapped
  | waitpid pid ptr => exact sysWaitpid_called h pid ptr
  | open_ path flags found => exact sysOpen_called h path flags found
  | close fd => exact sysClose_called h fd
  | dup fd => exact sysDup_called h fd
  | pipe ptr => exact sysPipe_called h ptr
  | kill pid signum =>
    refine .bind (kill_called h pid signum) ?_
    rintro ⟨ret, k₁⟩ hk
    exact .pure hk
  | sigaction signum action oldAction => exact sysSigaction_called h signum action oldAction
  | sigprocmask mask => exact sysSigprocmask_called h mask
  | sigreturn => exact sysSigreturn_called h
  | sleep ms => exact sysSleep_called h ms
  | threadCreate entry arg => exact sysThreadCreate_called h entry arg
  | gettid => exact .bind (Leads.any _) fun _ _ => .pure (called_ret h rfl rfl)
  | waittid tid => exact sysWaittid_called h tid
  | mutexCreate blocking =>
    refine .bind (Leads.any _) ?_
    rintro ⟨pid, p⟩ -
    exact .pure (called_create h rfl rfl fun _ => rfl)
  | mutexLock mutexId =>
    refine .bind (Leads.any _) ?_
    rintro ⟨pid, p⟩ -
    exact .bind (Leads.any _) fun mutex _ => returnZero_called h (mutexLock_roster h mutex)
  | mutexUnlock mutexId =>
    refine .bind (Leads.any _) ?_
    rintro ⟨pid, p⟩ -
    exact .bind (Leads.any _) fun mutex _ => .bind (mutexUnlock_roster k mutex) fun _ hk =>
      .pure (called_ret h hk.1 hk.2)
  | semaphoreCreate resCount =>
    refine .bind (Leads.any _) ?_
    rintro ⟨pid, p⟩ -
    exact .pure (called_create h rfl rfl fun _ => rfl)
  | semaphoreUp semId =>
    refine .bind (Leads.any _) ?_
    rintro ⟨pid, p⟩ -
    exact .bind (Leads.any _) fun sem _ => .bind (semaphoreUp_roster k sem) fun _ hk =>
      .pure (called_ret h hk.1 hk.2)
  | semaphoreDown semId =>
    refine .bind (Leads.any _) ?_
    rintro ⟨pid, p⟩ -
    exact .bind (Leads.any _) fun sem _ => returnZero_called h (semaphoreDown_roster h sem)
  | condvarCreate =>
    refine .bind (Leads.any _) ?_
    rintro ⟨pid, p⟩ -
    exact .pure (called_create h rfl rfl fun _ => rfl)
  | condvarSignal condvarId =>
    refine .bind (Leads.any _) ?_
    rintro ⟨pid, p⟩ -
    exact .bind (Leads.any _) fun condvar _ => .bind (condvarSignal_roster k condvar) fun _ hk =>
      .pure (called_ret h hk.1 hk.2)
  | condvarWait condvarId mutexId =>
    refine .bind (Leads.any _) ?_
    rintro ⟨pid, p⟩ -
    exact .bind (Leads.any _) fun condvar _ => .bind (Leads.any _) fun mutex _ =>
      .bind (condvarWait_roster h condvar mutex) fun _ hr => .pure (called_away hr)
  | unsupported => exact .bind (exit_made h _) fun _ hm => .pure (.away hm)

end objects

/-! Reading, writing, and the loop of the root task -/

section proceeding

variable (h : Serving k)
include h

theorem readDone_made (file : File) (n : ℕ) : Leads (k.readDone file n input) (Made k Ends) := by
  refine .bind (Leads.any _) ?_
  rintro ⟨pid, p⟩ -
  have ho : Opens [] k ((k.leakProc pid).leakFile file) := opens_of_eq h rfl rfl
  exact .bind (access_called ho before_ends fun _ => .pure (called_ret h rfl rfl)) fun _ hr => proceed_made hr

theorem readStdin_made : Leads (k.readStdin input) (Made k Ends) := by
  rw [readStdin]
  split
  · exact (yieldNow_roster h _).mono fun _ hr => made_of_eq hr
  · refine .ite (fun _ => ?_) fun _ => readDone_made h _ _
    have ho : Opens [] k (k.modifyTask k.current fun task => { task with
        signal := { task.signal with signals := task.signal.signals.insert SignalFlags.SIGINT } }) :=
      opens_of_eq h (roster_modifyTask_same fun _ _ => rfl) rfl
    exact (readDone_made ho.serving _ _).mono fun _ hm => ho.made before_ends hm

theorem readPipe_made (pipe : ℕ) (call : ReadCall) : Leads (k.readPipe pipe call input) (Made k Ends) := by
  rw [readPipe]
  split
  · trivial
  · split
    · trivial
    next call' ring' n hround =>
      have ho : Opens [] k { k with pipes := k.pipes.set pipe ring' } := opens_of_eq h rfl rfl
      dsimp only
      split
      · exact (readDone_made ho.serving _ _).mono fun _ hm => ho.made before_ends hm
      · refine .ite (fun _ => (yieldNow_roster ho.serving _).mono fun _ hr => made_of_eq hr) fun _ => .pure ?_
        exact made_of_eq (roster_setCont ..)

theorem writeChunk_made (file : File) (len count : ℕ) :
    Leads (k.writeChunk file len count input) (Made k Ends) := by
  refine .ite (fun _ => .bind (Leads.any _) ?_) fun _ => finish_made h count
  rintro ⟨pid, p⟩ -
  have ho : Opens [] k ((k.leakProc pid).leakFile file) := opens_of_eq h rfl rfl
  refine .bind (access_called ho before_ends fun bytes => ?_) fun _ hr => proceed_made hr
  split
  · exact .ite (fun _ => .pure (called_away (roster_setCont ..))) fun _ => trivial
  · exact .pure (called_away (roster_setCont ..))
  · exact .ite (fun _ => .pure (called_away (roster_setCont ..))) fun _ => trivial
  · trivial

theorem writePipe_made (pipe : ℕ) (call : WriteCall) (len count : ℕ) :
    Leads (k.writePipe pipe call len count) (Made k Ends) := by
  rw [writePipe]
  split
  · trivial
  · generalize writeRound call _ = r
    obtain ⟨call', ring', n⟩ := r
    have ho : Opens [] k { k with pipes := k.pipes.set pipe ring' } := opens_of_eq h rfl rfl
    dsimp only
    split
    · exact .ite (fun _ => .pure (made_of_eq (roster_setCont ..))) fun _ => trivial
    · exact .ite (fun _ => (yieldNow_roster ho.serving _).mono fun _ hr => made_of_eq hr) fun _ =>
        .pure (made_of_eq (roster_setCont ..))

theorem rootReap_made : Leads k.rootReap (Made k (k.Waits (-1))) := by
  refine .bind (Leads.self _) ?_
  rintro ⟨parent, p⟩ hproc
  refine .bind (Leads.self _) ?_
  rintro ⟨ret, exitCode, k₁⟩ hw
  obtain ⟨cs, ho, hbefore⟩ := waitpid_opens h hproc hw
  refine .pure (ho.made hbefore (made_of_eq ?_))
  split_ifs
  · rfl
  · exact roster_setCont ..

theorem rootCheck_made : Leads k.rootCheck (Made k Ends) := by
  refine .bind (Leads.any _) ?_
  rintro ⟨pid, p⟩ -
  exact .ite (fun _ => .pure (made_of_eq (roster_setCont ..))) fun _ =>
    (yieldNow_roster h _).mono fun _ hr => made_of_eq hr

theorem proceedWith_made (hc : k.contOf k.current = some c) :
    Leads (k.proceedWith input c) (Made k (k.Explains (.proceed input))) := by
  have hends : c ≠ .rootReap → k.Explains (.proceed input) = Ends := fun hne => by
    funext cs
    rw [Explains, hc, if_neg fun he => hne (Option.some.inj he)]
  cases c with
  | user => rw [hends nofun]; exact .pure (made_of_eq rfl)
  | finish ret => rw [hends nofun]; exact finish_made h ret
  | lock mutex =>
    rw [hends nofun]
    exact .bind (returnZero_called h (mutexLock_roster h mutex)) fun _ hr => proceed_made hr
  | locked mutex => rw [hends nofun]; exact finish_made h 0
  | readStdin => rw [hends nofun]; exact readStdin_made h
  | readInode file len => rw [hends nofun]; exact readDone_made h _ _
  | readPipe pipe call => rw [hends nofun]; exact readPipe_made h pipe call
  | write file len count => rw [hends nofun]; exact writeChunk_made h file len count
  | writePipe pipe call len count => rw [hends nofun]; exact writePipe_made h pipe call len count
  | signals => rw [hends nofun]; exact handleSignals_made h
  | rootReap =>
    have hwaits : k.Explains (.proceed input) = k.Waits (-1) := by
      funext cs
      rw [Explains, if_pos hc]
    rw [hwaits]
    exact rootReap_made h
  | rootCheck => rw [hends nofun]; exact rootCheck_made h
  | kernelEntry => rw [hends nofun]; exact exit_made h 0
  | run => trivial
  | exited => trivial

end proceeding

theorem checkTimerLoop_roster (tie : List TimerCondVar → ℕ) (n : ℕ) (k : Kernel) :
    Leads (checkTimerLoop tie n k) fun k' => k'.roster = k.roster ∧ k'.current = k.current := by
  induction n generalizing k with
  | zero => exact .pure ⟨rfl, rfl⟩
  | succ n ih =>
    rw [checkTimerLoop]
    split
    · refine .ite (fun _ => .bind (resume_roster k _) fun k₁ h₁ => ?_) fun _ => .pure ⟨rfl, rfl⟩
      exact (ih _).mono fun _ h' => ⟨h'.1.trans h₁.1, h'.2.trans h₁.2⟩
    · exact .pure ⟨rfl, rfl⟩

/-- `waitpid` does not look at registers. -/
theorem waitpid_setTf {tf : TrapFrame} {parent : ℕ} {arg ret : ℤ} {exitCode : Option Int32}
    (h : (k.setTf tf).waitpid parent arg = .ok (ret, exitCode, k')) :
    ∃ k₁, k.waitpid parent arg = .ok (ret, exitCode, k₁) := by
  rw [waitpid] at h ⊢
  cases hp : k.process parent with
  | error e =>
    rw [show (k.setTf tf).process parent = .error e from hp] at h
    cases h
  | ok p =>
    rw [show (k.setTf tf).process parent = .ok p from hp] at h
    dsimp only [bind, Except.bind] at h ⊢
    rw [show (k.setTf tf).isZombie = k.isZombie from rfl] at h
    split at h
    next child hfind =>
      cases hc : k.process child with
      | error e =>
        rw [show (k.setTf tf).process child = .error e from hc] at h
        cases h
      | ok c =>
        rw [show (k.setTf tf).process child = .ok c from hc] at h
        dsimp only at h ⊢
        split_ifs at h with hrefs
        obtain ⟨rfl, hr⟩ := Prod.mk.inj (Except.ok.inj h)
        obtain ⟨rfl, -⟩ := Prod.mk.inj hr
        exact ⟨_, if_neg hrefs⟩
    next hfind =>
      obtain ⟨rfl, hr⟩ := Prod.mk.inj (Except.ok.inj h)
      obtain ⟨rfl, -⟩ := Prod.mk.inj hr
      exact ⟨k, rfl⟩

theorem explains_setTf {call : Syscall} {tf : TrapFrame}
    (h : (k.setTf tf).Explains (.syscall call tf) cs) : k.Explains (.syscall call tf) cs := by
  cases call with
  | waitpid arg ptr =>
    obtain ⟨parent, p, ret, exitCode, k₁, hproc, hw, hcs⟩ := h
    obtain ⟨k₂, hw₂⟩ := waitpid_setTf hw
    exact ⟨parent, p, ret, exitCode, k₂, by rwa [← proc_setTf k tf], hw₂, hcs⟩
  | _ => exact h

/-- The roster changes only as the event explains. -/
theorem step_changes (h : Serving k) (e : Event) : Leads (k.step e) (Made k (k.Explains e)) := by
  cases e with
  | syscall call tf =>
    have ho : Opens [] k (k.setTf tf) := opens_of_eq h (roster_modifyTask_same fun _ _ => rfl) rfl
    have he : Event.syscall call tf = .syscall call tf := rfl
    refine .bind (syscall_called ho.serving he) fun r hr => (proceed_made hr).mono fun k' hm => ?_
    obtain ⟨cs, hcs, hc⟩ := hm
    refine ⟨cs, explains_setTf hcs, ?_⟩
    rw [← roster_modifyTask_same (k := k) (t := k.current) (f := fun task => { task with tf }) fun _ _ => rfl]
    exact hc
  | fault => exact (exit_changes h _).mono fun _ hc => ⟨_, rfl, hc⟩
  | proceed input =>
    refine .bind (Leads.of (task_spec k _)) fun task htask => proceedWith_made h ?_
    rw [contOf, htask]
    rfl
  | timer tie =>
    refine .bind (checkTimerLoop_roster tie _ k) fun k₁ h₁ => ?_
    have hidle : k₁.roster.Alive idleTask := by
      rw [h₁.1]
      exact h.idle
    refine (yieldCurrent_roster hidle).mono fun k' hr => ⟨[], rfl, ?_⟩
    rw [hr, h₁.1]
    exact .nil _
  | clock ms => exact .pure ⟨[], rfl, .nil _⟩

end Kernel

end RCore.Os
