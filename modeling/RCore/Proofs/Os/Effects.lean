import RCore.Proofs.Os.Step
import RCore.Sanity.Os.Pipe
import RCore.Sanity.Os.Sync

/-! What a step does to mutexes, semaphores, condition variables and pipes: those that do
not act on one of these leave all of them as they are, and the others do what `Sync.apply`
says. -/

namespace RCore.Os

open RCore.Lib

/-- A postcondition, whatever the errors are. -/
abbrev Leads {α : Type} (r : Except Panic α) (post : α → Prop) : Prop := Ensures r post fun _ => True

theorem Leads.any {α : Type} (r : Except Panic α) : Leads r fun _ => True := by
  cases r <;> trivial

theorem Leads.of {α : Type} {r : Except Panic α} {post : α → Prop} {fails : Panic → Prop}
    (h : Ensures r post fails) : Leads r post := by
  cases r with
  | ok a => exact h
  | error e => trivial

theorem Leads.self {α : Type} (r : Except Panic α) : Leads r fun a => r = .ok a := by
  cases r <;> trivial

namespace Kernel

variable {k k' k'' : Kernel} {t pid : ℕ} {a : Option ℕ} {c : Cont} {f : Task → Task}
  {g : Process → Process}

/-- The write end of every pipe has been set. -/
def PipesOk (k : Kernel) : Prop := ∀ ring ∈ k.pipes, ring.writeEnd = true

/-- What is left unchanged when task `a` acts, if any: it may end what it was doing with a
lock, and be frozen no more. -/
structure Keeps (a : Option ℕ) (k k' : Kernel) : Prop where
  mutexes : k'.mutexes = k.mutexes
  semaphores : k'.semaphores = k.semaphores
  condvars : k'.condvars = k.condvars
  timers : k'.timers = k.timers
  pipes : k.PipesOk → k'.PipesOk
  phase : ∀ u, k'.phase u = k.phase u ∨ a = some u ∧ k'.phase u = none
  frozen : ∀ u, a ≠ some u → k.Frozen u → k'.Frozen u

namespace Keeps

theorem refl (k : Kernel) : Keeps a k k :=
  ⟨rfl, rfl, rfl, rfl, id, fun _ => .inl rfl, fun _ _ => id⟩

theorem trans (h : Keeps a k k') (h' : Keeps a k' k'') : Keeps a k k'' := by
  refine ⟨h'.mutexes.trans h.mutexes, h'.semaphores.trans h.semaphores,
    h'.condvars.trans h.condvars, h'.timers.trans h.timers, fun hp => h'.pipes (h.pipes hp),
    fun u => ?_, fun u hu hf => h'.frozen u hu (h.frozen u hu hf)⟩
  rcases h'.phase u with he | he
  · rw [he]
    exact h.phase u
  · exact .inr he

/-- When no task acts, nothing changes for any. -/
theorem mono (h : Keeps none k k') : Keeps a k k' := by
  refine ⟨h.mutexes, h.semaphores, h.condvars, h.timers, h.pipes, fun u => ?_, fun u _ =>
    h.frozen u nofun⟩
  exact .inl ((h.phase u).resolve_right nofun)

/-- The tasks and the objects are what they were. -/
theorem of_eq (htasks : k'.tasks = k.tasks) (hm : k'.mutexes = k.mutexes)
    (hs : k'.semaphores = k.semaphores) (hc : k'.condvars = k.condvars)
    (ht : k'.timers = k.timers) (hp : k'.pipes = k.pipes) : Keeps a k k' := by
  refine ⟨hm, hs, hc, ht, fun hok => ?_, fun u => .inl ?_, fun u _ hf => ?_⟩
  · rw [PipesOk, hp]
    exact hok
  · rw [Kernel.phase, Kernel.phase, contOf, contOf, htasks]
  · rw [Frozen, htasks]
    exact hf

end Keeps

/-- What is left unchanged even by a call on an object. -/
structure Side (k k' : Kernel) : Prop where
  pipes : k.PipesOk → k'.PipesOk
  timers : k'.timers = k.timers

theorem Side.trans (h : Side k k') (h' : Side k' k'') : Side k k'' :=
  ⟨fun hok => h'.pipes (h.pipes hok), h'.timers.trans h.timers⟩

theorem Keeps.side (h : Keeps a k k') : Side k k' := ⟨h.pipes, h.timers⟩

/-! Tasks -/

theorem contOf_modifyTask (k : Kernel) (t u : ℕ) (f : Task → Task) :
    (k.modifyTask t f).contOf u =
      if u = t then k.tasks[u]?.map fun task => (f task).cont else k.contOf u := by
  rw [contOf, contOf, getElem?_modifyTask]
  split_ifs
  · rw [Option.map_map]
    rfl
  · rfl

/-- A task that goes on where it was, and is as frozen as before. -/
theorem keeps_modifyTask (hcont : ∀ task, (f task).cont = task.cont)
    (hsignal : ∀ task, (f task).signal.frozen = task.signal.frozen ∧
      (f task).signal.killed = task.signal.killed) : Keeps a k (k.modifyTask t f) := by
  refine ⟨rfl, rfl, rfl, rfl, id, fun u => .inl ?_, fun u _ hf => ?_⟩
  · rw [phase, phase, contOf_modifyTask]
    split_ifs
    · simp only [hcont]
      rfl
    · rfl
  · rw [frozen_modifyTask fun task _ => by rw [(hsignal task).1, (hsignal task).2]]
    exact hf

/-- The signals of the task that acts. -/
theorem keeps_signal (hcont : ∀ task, (f task).cont = task.cont) :
    Keeps (some t) k (k.modifyTask t f) := by
  refine ⟨rfl, rfl, rfl, rfl, id, fun u => .inl ?_, fun u hu hf => ?_⟩
  · rw [phase, phase, contOf_modifyTask]
    split_ifs
    · simp only [hcont]
      rfl
    · rfl
  · obtain ⟨task, htask, hs⟩ := hf
    refine ⟨task, ?_, hs⟩
    rw [getElem?_modifyTask, if_neg fun he => hu (by rw [he]), htask]

theorem keeps_setState (k : Kernel) (t : ℕ) (s : TaskState) : Keeps a k (k.setState t s) :=
  keeps_modifyTask (fun _ => rfl) fun _ => ⟨rfl, rfl⟩

theorem keeps_setExitCode (k : Kernel) (t : ℕ) (code : Int32) : Keeps a k (k.setExitCode t code) :=
  keeps_modifyTask (fun _ => rfl) fun _ => ⟨rfl, rfl⟩

theorem frozen_setCont (k : Kernel) (c : Cont) : (k.setCont c).Frozen = k.Frozen :=
  frozen_modifyTask fun _ _ => Iff.rfl

/-- The current task goes on elsewhere. -/
theorem phase_setCont (k : Kernel) (c : Cont) (u : ℕ) (h : k.tasks[k.current]? ≠ none) :
    (k.setCont c).phase u = if u = k.current then c.phase else k.phase u := by
  rw [phase, setCont, contOf_modifyTask]
  split_ifs with hu
  · obtain ⟨task, htask⟩ := Option.ne_none_iff_exists'.mp h
    rw [hu, htask]
    rfl
  · rfl

theorem keeps_setCont (hc : c.phase = none) : Keeps (some k.current) k (k.setCont c) := by
  refine ⟨rfl, rfl, rfl, rfl, id, fun u => ?_, fun u _ hf => by rwa [frozen_setCont]⟩
  by_cases hu : u = k.current
  · refine .inr ⟨by rw [hu], ?_⟩
    rw [phase, setCont, contOf_modifyTask, if_pos hu]
    cases k.tasks[u]? with
    | none => rfl
    | some task => exact hc
  · refine .inl ?_
    rw [phase, setCont, contOf_modifyTask, if_neg hu]
    rfl

theorem Keeps.setCont {k₁ : Kernel} (h : Keeps (some k.current) k k₁) (hcur : k₁.current = k.current)
    (hc : c.phase = none) : Keeps (some k.current) k (k₁.setCont c) :=
  h.trans (hcur ▸ keeps_setCont hc)

theorem keeps_modifyProc (k : Kernel) (pid : ℕ) (g : Process → Process) :
    Keeps a k (k.modifyProc pid g) := .of_eq rfl rfl rfl rfl rfl rfl

theorem keeps_leakProc (k : Kernel) (pid : ℕ) : Keeps a k (k.leakProc pid) :=
  .of_eq rfl rfl rfl rfl rfl rfl

theorem keeps_leakFile (k : Kernel) (file : File) : Keeps a k (k.leakFile file) :=
  .of_eq rfl rfl rfl rfl rfl rfl

theorem keeps_leakLock (k : Kernel) (lock : ProcLock) : Keeps a k (k.leakLock lock) :=
  .of_eq rfl rfl rfl rfl rfl rfl

/-- A new task is in user mode. -/
theorem keeps_newTask {task : Task} (htasks : k'.tasks = k.tasks ++ [task])
    (hcont : task.cont.phase = none) (hm : k'.mutexes = k.mutexes)
    (hs : k'.semaphores = k.semaphores) (hc : k'.condvars = k.condvars)
    (ht : k'.timers = k.timers) (hp : k'.pipes = k.pipes) : Keeps a k k' := by
  refine ⟨hm, hs, hc, ht, fun hok => ?_, fun u => .inl ?_, fun u _ hf => ?_⟩
  · rw [PipesOk, hp]
    exact hok
  · rw [phase, phase, contOf, contOf, htasks, getElem?_snoc]
    split_ifs with hu
    · simp [hu, hcont]
    · rfl
  · obtain ⟨task', htask', hs'⟩ := hf
    refine ⟨task', ?_, hs'⟩
    rw [htasks, List.getElem?_append_left (List.getElem?_eq_some_iff.mp htask').1, htask']

/-! Scheduling -/

theorem switchTo_keeps (k : Kernel) (t : ℕ) : Leads (k.switchTo t) (Keeps a k) := by
  refine .ite (fun _ => .ok (keeps_setState k t _)) fun _ => .ite (fun _ => trivial) fun _ => .ok ?_
  exact (keeps_setState k t .running).trans (.of_eq rfl rfl rfl rfl rfl rfl)

theorem pickNext_ready (k : Kernel) (queue : List ℕ) :
    Leads (k.pickNext queue) fun r => ∀ t, r.1 = some t → k.stateOf t = some .ready := by
  induction queue with
  | nil => exact .ok nofun
  | cons t queue ih =>
    rw [pickNext]
    split
    next hready =>
      refine .ok fun u hu => ?_
      rwa [← Option.some.inj hu]
    next => trivial
    next => exact .bind ih fun r hr => .pure hr
    next => exact .bind ih fun r hr => .pure hr
    next => trivial

theorem resched_keeps (k : Kernel) : Leads k.resched (Keeps a k) := by
  have hpick : Leads k.pickNextTask fun r => Keeps a k r.2 :=
    .bind (Leads.any _) fun _ _ => .pure (.of_eq rfl rfl rfl rfl rfl rfl)
  refine .ite (fun _ => trivial) fun _ => .bind hpick ?_
  rintro ⟨next, k₁⟩ hk
  cases next with
  | none => exact (switchTo_keeps k₁ idleTask).mono fun _ h => hk.trans h
  | some t => exact (switchTo_keeps k₁ t).mono fun _ h => hk.trans h

theorem yieldCurrent_keeps (k : Kernel) : Leads k.yieldCurrent (Keeps a k) := by
  refine .ite (fun _ => trivial) fun _ => .bind (Leads.any _) fun isIdle _ => ?_
  have hk : Keeps a k (k.setState k.current .ready) := keeps_setState ..
  refine .ite (fun _ => (resched_keeps _).mono fun _ h => hk.trans h) fun _ =>
    (resched_keeps _).mono fun _ h => (hk.trans ?_).trans h
  exact .of_eq rfl rfl rfl rfl rfl rfl

/-- The current task gives way, and goes on at `c`. -/
theorem yieldNow_keeps (k : Kernel) (c : Cont) : Leads (k.yieldNow c) (Keeps none (k.setCont c)) :=
  yieldCurrent_keeps _

theorem blockAndYield_keeps (k : Kernel) (c : Cont) :
    Leads (k.blockAndYield c) (Keeps none (k.setCont c)) :=
  (resched_keeps _).mono fun _ h => (keeps_setState ..).trans h

theorem spawn_current (k : Kernel) (t : ℕ) :
    Leads (k.spawn t) (fun k' => Keeps a k k' ∧ k'.current = k.current) :=
  .ite (fun _ => .ok ⟨.of_eq rfl rfl rfl rfl rfl rfl, rfl⟩) fun _ => trivial

theorem resume_keeps (k : Kernel) (t : ℕ) :
    Leads (k.resume t) (fun k' => Keeps none k k' ∧ k'.current = k.current ∧
      k'.tasks.length = k.tasks.length) := by
  refine .ite (fun _ => .ite (fun _ => .ok ⟨?_, rfl, ?_⟩) fun _ => trivial) fun _ => trivial
  · exact (keeps_setState k t .ready).trans (.of_eq rfl rfl rfl rfl rfl rfl)
  · simp [addReadyTask, setState, modifyTask]

/-! The end of a task, and of a system call -/

/-- The current task is done with locks. -/
structure Leaves (k k' : Kernel) : Prop where
  keeps : Keeps (some k.current) k k'
  phase : k'.phase k.current = none

theorem Leaves.of_setCont {k₁ : Kernel} (hk : Keeps (some k.current) k k₁)
    (hcur : k₁.current = k.current) (hc : c.phase = none) (h : Keeps none (k₁.setCont c) k') :
    Leaves k k' := by
  refine ⟨(hk.setCont hcur hc).trans h.mono, ?_⟩
  rw [(h.phase k.current).resolve_right nofun, Kernel.phase, setCont, contOf_modifyTask,
    if_pos hcur.symm]
  cases k₁.tasks[k.current]? with
  | none => rfl
  | some task => exact hc

theorem Leaves.trans {k₁ : Kernel} (hk : Keeps (some k.current) k k₁)
    (hcur : k₁.current = k.current) (h : Leaves k₁ k') : Leaves k k' := by
  obtain ⟨hkeeps, hphase⟩ := h
  rw [hcur] at hkeeps hphase
  exact ⟨hk.trans hkeeps, hphase⟩

theorem taskExit_tasks (k : Kernel) (pid : ℕ) (code : Int32) :
    Leads (k.taskExit pid code) fun k' => k'.tasks = k.tasks ∧ k'.current = k.current :=
  .bind (Leads.any _) fun _ _ => .ite (fun _ => .bind (Leads.any _) fun _ _ => .pure ⟨rfl, rfl⟩)
    fun _ => .pure ⟨rfl, rfl⟩

theorem exit_leaves (k : Kernel) (code : Int32) : Leads (k.exit code) (Leaves k) := by
  refine .bind (Leads.any _) fun task _ => ?_
  have hk : Keeps (some k.current) k ((k.setState k.current .zombie).setExitCode k.current code) :=
    (keeps_setState ..).trans (keeps_setExitCode ..)
  have hexit : Leads (((k.setState k.current .zombie).setExitCode k.current code).taskExit
      task.process code) fun k₁ => Keeps (some k.current) k k₁ ∧ k₁.current = k.current :=
    .bind (Leads.any _) fun p _ => .ite (fun _ => .bind (Leads.any _) fun _ _ =>
      .pure ⟨hk.trans (keeps_modifyProc ..), rfl⟩) fun _ => .pure ⟨hk, rfl⟩
  refine .bind hexit ?_
  rintro k₁ ⟨hk₁, hcur⟩
  have hend : Leads (((k₁.setState k₁.current .zombie).setExitCode k₁.current code).setCont
      .exited).resched (Keeps none _) := resched_keeps _
  have hk₂ : Keeps (some k.current) k ((k₁.setState k₁.current .zombie).setExitCode
      k₁.current code) := hk₁.trans ((keeps_setState ..).trans (keeps_setExitCode ..))
  exact .ite (fun _ => trivial) fun _ => hend.mono fun k' h => .of_setCont hk₂ hcur rfl h

/-- What a system call does that does not act on objects: if it returns, it is the same
task that runs. -/
structure Acted (k : Kernel) (r : Flow × Kernel) : Prop where
  keeps : Keeps (some k.current) k r.2
  current : ∀ v, r.1 = .ret v → r.2.current = k.current

theorem acted_ret {v : ℤ} (h : Keeps (some k.current) k k') (hcur : k'.current = k.current) :
    Acted k (.ret v, k') := ⟨h, fun _ _ => hcur⟩

theorem acted_away (h : Keeps (some k.current) k k') : Acted k (.away, k') := ⟨h, nofun⟩

theorem access_acted {α : Type} {ref : UserRef α} {f : α → Except Panic (Flow × Kernel)}
    (hk : Keeps (some k.current) k k') (hcur : k'.current = k.current)
    (hf : ∀ a, Leads (f a) (Acted k)) : Leads (access ref k' f) (Acted k) := by
  cases ref with
  | refused => trivial
  | fault =>
    exact .bind (exit_leaves k' (-1)) fun _ h => .pure (acted_away (Leaves.trans hk hcur h).keeps)
  | mapped a => exact hf a

theorem acted_setCont (hc : c.phase = none) : Acted k (.away, k.setCont c) :=
  acted_away (keeps_setCont hc)

/-- Nothing but processes, and what nobody here looks at, has changed. -/
theorem acted_of_eq {v : ℤ} (htasks : k'.tasks = k.tasks) (hm : k'.mutexes = k.mutexes)
    (hs : k'.semaphores = k.semaphores) (hc : k'.condvars = k.condvars)
    (ht : k'.timers = k.timers) (hp : k'.pipes = k.pipes) (hcur : k'.current = k.current) :
    Acted k (.ret v, k') :=
  acted_ret (.of_eq htasks hm hs hc ht hp) hcur

/-! System calls -/

theorem sysRead_acted (k : Kernel) (fd len : ℕ) : Leads (k.sysRead fd len) (Acted k) := by
  refine .bind (Leads.any _) ?_
  rintro ⟨pid, p⟩ -
  dsimp only
  split
  · refine .ite (fun _ => .pure (acted_ret (.refl k) rfl)) fun _ => ?_
    split
    · exact .ite (fun _ => trivial) fun _ => .pure (acted_setCont rfl)
    · exact .pure (acted_setCont rfl)
    · exact .pure (acted_setCont rfl)
    · trivial
  · exact .pure (acted_ret (.refl k) rfl)

theorem sysWrite_acted (k : Kernel) (fd len : ℕ) : Leads (k.sysWrite fd len) (Acted k) := by
  refine .bind (Leads.any _) ?_
  rintro ⟨pid, p⟩ -
  dsimp only
  split
  · exact .ite (fun _ => .pure (acted_ret (.refl k) rfl)) fun _ => .pure (acted_setCont rfl)
  · exact .pure (acted_ret (.refl k) rfl)

theorem sysOpen_acted (k : Kernel) (path : UserRef String) (flags : BitVec 32) (found : Bool) :
    Leads (k.sysOpen path flags found) (Acted k) := by
  refine .bind (Leads.any _) ?_
  rintro ⟨pid, p⟩ -
  refine access_acted (keeps_leakProc k pid) rfl fun _ => ?_
  dsimp only
  split
  · trivial
  · split
    · exact .pure (acted_of_eq rfl rfl rfl rfl rfl rfl rfl)
    · exact .pure (acted_ret (.refl k) rfl)

theorem sysClose_acted (k : Kernel) (fd : ℕ) : Leads (k.sysClose fd) (Acted k) := by
  refine .bind (Leads.any _) ?_
  rintro ⟨pid, p⟩ -
  dsimp only
  split
  · exact .pure (acted_of_eq rfl rfl rfl rfl rfl rfl rfl)
  · exact .pure (acted_ret (.refl k) rfl)

theorem sysDup_acted (k : Kernel) (fd : ℕ) : Leads (k.sysDup fd) (Acted k) := by
  refine .bind (Leads.any _) ?_
  rintro ⟨pid, p⟩ -
  dsimp only
  split
  · exact .pure (acted_of_eq rfl rfl rfl rfl rfl rfl rfl)
  · exact .pure (acted_ret (.refl k) rfl)

/-- Pipes are replaced or added whose write end has been set. -/
theorem keeps_pipes {pipes : List PipeRingBuffer}
    (h : k.PipesOk → ∀ ring ∈ pipes, ring.writeEnd = true) : Keeps a k { k with pipes } :=
  ⟨rfl, rfl, rfl, rfl, h, fun _ => .inl rfl, fun _ _ => id⟩

theorem keeps_newPipe (k : Kernel) :
    Keeps a k { k with pipes := k.pipes ++ [PipeRingBuffer.new.setWriteEnd] } := by
  refine keeps_pipes fun hok ring hr => ?_
  rcases List.mem_append.mp hr with hr | hr
  · exact hok ring hr
  · rw [List.mem_singleton.mp hr]
    rfl

theorem keeps_setPipe {pipe : ℕ} {ring ring' : PipeRingBuffer} (h : k.pipes[pipe]? = some ring)
    (hw : ring'.writeEnd = ring.writeEnd) : Keeps a k { k with pipes := k.pipes.set pipe ring' } := by
  refine keeps_pipes fun hok r hr => ?_
  rcases List.mem_or_eq_of_mem_set hr with hr | rfl
  · exact hok r hr
  · rw [hw]
    exact hok ring (List.mem_of_getElem? h)

theorem sysPipe_acted (k : Kernel) (ptr : UserRef Unit) : Leads (k.sysPipe ptr) (Acted k) := by
  refine .bind (Leads.any _) ?_
  rintro ⟨pid, p⟩ -
  have hk : ∀ (pid : ℕ) (g : Process → Process), Keeps (some k.current) k
      (modifyProc { k with pipes := k.pipes ++ [PipeRingBuffer.new.setWriteEnd] } pid g) :=
    fun pid g => (keeps_newPipe k).trans (keeps_modifyProc ..)
  exact access_acted ((hk _ _).trans (keeps_leakProc ..)) rfl fun _ =>
    .pure (acted_ret (hk _ _) rfl)

theorem sysFork_acted (k : Kernel) : Leads k.sysFork (Acted k) := by
  refine .bind (Leads.any _) fun task _ => ?_
  have hfork : Leads (k.newFork task.process task.tf) fun r =>
      Keeps (some k.current) k r.2 ∧ r.2.current = k.current :=
    .bind (Leads.any _) fun p _ => .ite (fun _ => trivial) fun _ => .bind (Leads.any _) fun _ _ =>
      .ite (fun _ => trivial) fun _ => .pure ⟨keeps_newTask rfl rfl rfl rfl rfl rfl rfl, rfl⟩
  refine .bind hfork ?_
  rintro ⟨child, k₁⟩ ⟨hk, hcur⟩
  refine .bind (Leads.any _) fun t _ => ?_
  have hmap : Keeps (some k.current) k { k₁ with procMap := k₁.procMap ++ [child] } :=
    hk.trans (.of_eq rfl rfl rfl rfl rfl rfl)
  refine .bind (spawn_current _ _) fun k₂ h₂ => .pure (acted_ret (hmap.trans h₂.1) ?_)
  exact h₂.2.trans hcur

theorem sysThreadCreate_acted (k : Kernel) (entry arg : UInt64) :
    Leads (k.sysThreadCreate entry arg) (Acted k) := by
  refine .bind (Leads.any _) ?_
  rintro ⟨pid, p⟩ -
  have hnew : Leads (k.newUserTask pid entry arg) fun r =>
      Keeps (some k.current) k r.2.2 ∧ r.2.2.current = k.current :=
    .bind (Leads.any _) fun p _ => .bind (Leads.any _) fun _ _ => .ite (fun _ => trivial) fun _ =>
      .ite (fun _ => trivial) fun _ => .pure ⟨keeps_newTask rfl rfl rfl rfl rfl rfl rfl, rfl⟩
  refine .bind hnew ?_
  rintro ⟨tid, t, k₁⟩ ⟨hk, hcur⟩
  exact .bind (spawn_current _ _) fun k₂ h₂ =>
    .pure (acted_ret (hk.trans h₂.1) (h₂.2.trans hcur))

theorem sysExec_acted (k : Kernel) (path : UserRef String) (args : UserRef (List String))
    (elf : Option (UInt64 × ℕ)) (stackMapped : Bool) :
    Leads (k.sysExec path args elf stackMapped) (Acted k) := by
  refine access_acted (.refl k) rfl fun _ => .bind (Leads.any _) ?_
  rintro ⟨pid, p⟩ -
  refine access_acted (keeps_leakProc k pid) rfl fun args => ?_
  refine .bind (Leads.any _) fun _ _ => .ite (fun _ => trivial) fun _ =>
    .ite (fun _ => trivial) fun _ => ?_
  split
  · refine .bind (Leads.any _) fun _ _ => ?_
    have hk : Keeps (some k.current) k (k.modifyProc pid fun p => { p with vm := true }) :=
      keeps_modifyProc ..
    refine access_acted ((hk.trans (keeps_leakProc ..)).trans (keeps_leakLock ..)) rfl fun _ =>
      .pure (acted_ret (hk.trans (keeps_modifyTask ?_ ?_)) rfl)
    · exact fun _ => rfl
    · exact fun _ => ⟨rfl, rfl⟩
  · exact .pure (acted_ret (.refl k) rfl)

theorem waitpid_keeps (k : Kernel) (parent : ℕ) (pid : ℤ) : Leads (k.waitpid parent pid)
    fun r => Keeps a k r.2.2 ∧ r.2.2.current = k.current := by
  refine .bind (Leads.any _) fun p _ => ?_
  dsimp only
  split
  · exact .bind (Leads.any _) fun _ _ => .ite (fun _ => trivial) fun _ =>
      .pure ⟨.of_eq rfl rfl rfl rfl rfl rfl, rfl⟩
  · exact .pure ⟨.refl k, rfl⟩

theorem sysWaitpid_acted (k : Kernel) (pid : ℤ) (exitCodePtr : UserRef Unit) :
    Leads (k.sysWaitpid pid exitCodePtr) (Acted k) := by
  refine .bind (Leads.any _) ?_
  rintro ⟨parent, p⟩ -
  refine .bind (waitpid_keeps (a := some k.current) k parent pid) ?_
  rintro ⟨ret, exitCode, k₁⟩ ⟨hk, hcur⟩
  exact access_acted hk hcur fun _ => .pure (acted_ret hk hcur)

theorem sysWaittid_acted (k : Kernel) (tid : ℕ) : Leads (k.sysWaittid tid) (Acted k) := by
  refine .bind (Leads.any _) fun task _ =>
    .ite (fun _ => .pure (acted_ret (.refl k) rfl)) fun _ => ?_
  have hw : Leads (k.waittid task.process tid) fun r => Acted k (.ret r.1, r.2) := by
    refine .bind (Leads.any _) fun p _ => ?_
    split
    · exact .bind (Leads.any _) fun _ _ =>
        .ite (fun _ => .pure (acted_of_eq rfl rfl rfl rfl rfl rfl rfl)) fun _ =>
          .pure (acted_ret (.refl k) rfl)
    · exact .pure (acted_ret (.refl k) rfl)
  refine .bind hw ?_
  rintro ⟨ret, k₁⟩ hk
  exact .pure hk

/-! Signals -/

theorem keeps_insertSignal (k : Kernel) (t : ℕ) (flag : SignalFlags) :
    Keeps a k (k.insertSignal t flag).2 ∧ (k.insertSignal t flag).2.current = k.current := by
  rw [insertSignal]
  split
  · split_ifs
    · exact ⟨keeps_modifyTask (fun _ => rfl) fun _ => ⟨rfl, rfl⟩, rfl⟩
    · exact ⟨.refl k, rfl⟩
  · exact ⟨.refl k, rfl⟩

theorem keeps_insertSignals (flag : SignalFlags) (tasks : List (ℕ × ℕ)) (k : Kernel) :
    Keeps a k (k.insertSignals flag tasks).2 ∧
      (k.insertSignals flag tasks).2.current = k.current := by
  induction tasks generalizing k with
  | nil => exact ⟨.refl k, rfl⟩
  | cons e tasks ih =>
    have hfirst := keeps_insertSignal (a := a) k e.2 flag
    have hrest := ih (k.insertSignal e.2 flag).2
    exact ⟨hfirst.1.trans hrest.1, hrest.2.trans hfirst.2⟩

theorem exitGroup_acted (k : Kernel) (code : Int32) :
    Leads (k.syscall (.exitGroup code)) (Acted k) := by
  refine .bind (Leads.any _) ?_
  rintro ⟨pid, p⟩ -
  have hstop : Leads (k.stop pid code) fun k₁ =>
      Keeps (some k.current) k k₁ ∧ k₁.current = k.current := by
    refine .bind (Leads.any _) fun p _ => .ite (fun _ => trivial) fun _ => ?_
    have hk : Keeps (some k.current) k (k.reparent pid p.children) :=
      .of_eq rfl rfl rfl rfl rfl rfl
    obtain ⟨hs, hcur⟩ := keeps_insertSignals (a := some k.current) SignalFlags.SIGKILL p.tasks
      (k.reparent pid p.children)
    exact .pure ⟨(hk.trans hs).trans (keeps_modifyProc ..), hcur⟩
  exact .bind hstop fun k₁ h₁ => .bind (exit_leaves k₁ code) fun _ h₂ =>
    .pure (acted_away (Leaves.trans h₁.1 h₁.2 h₂).keeps)

theorem kill_acted (k : Kernel) (pid : ℕ) (signum : ℤ) :
    Leads (k.kill pid signum) fun r => Acted k (.ret r.1, r.2) := by
  refine .ite (fun _ => .bind (Leads.any _) fun p _ => ?_) fun _ => .pure (acted_ret (.refl k) rfl)
  split
  · obtain ⟨hs, hcur⟩ := keeps_insertSignals (a := some k.current) ‹_› p.tasks k
    exact .pure (acted_ret hs hcur)
  · exact .pure (acted_ret (.refl k) rfl)

theorem sysSigaction_acted (k : Kernel) (signum : ℤ) (action : Option (UserRef SignalAction))
    (oldAction : Option (UserRef Unit)) : Leads (k.sysSigaction signum action oldAction) (Acted k) := by
  rw [sysSigaction]
  split
  · split
    · refine .ite (fun _ => .pure (acted_ret (.refl k) rfl)) fun _ => .bind (Leads.any _) ?_
      rintro ⟨pid, p⟩ -
      have hk : Keeps (some k.current) k ((k.leakProc pid).leakLock (.signalActions pid)) :=
        (keeps_leakProc ..).trans (keeps_leakLock ..)
      exact .bind (Leads.any _) fun _ _ => access_acted hk rfl fun _ => access_acted hk rfl fun _ =>
        .pure (acted_of_eq rfl rfl rfl rfl rfl rfl rfl)
    · exact .pure (acted_ret (.refl k) rfl)
  · exact .pure (acted_ret (.refl k) rfl)

theorem sysSigprocmask_acted (k : Kernel) (mask : BitVec 32) :
    Leads (k.sysSigprocmask mask) (Acted k) := by
  refine .bind (Leads.any _) fun task _ => ?_
  split
  · refine .pure (acted_ret (keeps_modifyTask ?_ ?_) rfl)
    · exact fun _ => rfl
    · exact fun _ => ⟨rfl, rfl⟩
  · exact .pure (acted_ret (.refl k) rfl)

theorem sysSigreturn_acted (k : Kernel) : Leads k.sysSigreturn (Acted k) := by
  refine .bind (Leads.any _) fun task _ => ?_
  split
  · refine .pure (acted_ret (keeps_modifyTask ?_ ?_) rfl)
    · exact fun _ => rfl
    · exact fun _ => ⟨rfl, rfl⟩
  · trivial
  · exact .pure (acted_ret (.refl k) rfl)

/-- The end of a trap. -/
theorem handleSignals_leaves (k : Kernel) : Leads k.handleSignals (Leaves k) := by
  refine .bind (Leads.any _) fun task _ => .bind (Leads.any _) fun p _ => ?_
  generalize task.signal.checkPendingSignals p.signalActions task.tf = r
  obtain ⟨signal, inner, tf⟩ := r
  refine .bind (Leads.any _) fun _ _ => ?_
  have hk : Keeps (some k.current) k (k.setSignal inner tf) := keeps_signal fun _ => rfl
  have hend : Leads ((k.setSignal inner tf).signalsHandled inner) (Leaves k) := by
    rw [signalsHandled]
    split
    · exact (exit_leaves _ _).mono fun _ h => Leaves.trans hk rfl h
    · exact .pure (.of_setCont hk rfl rfl (.refl _))
  exact .ite (fun _ => hend) fun _ => .ite (fun _ => (blockAndYield_keeps _ _).mono fun _ h =>
    .of_setCont hk rfl rfl h) fun _ => hend

theorem finish_leaves (k : Kernel) (ret : ℤ) : Leads (k.finish ret) (Leaves k) := by
  have hk : Keeps (some k.current) k (k.modifyTask k.current fun task =>
      { task with tf := task.tf.setR0 (UInt64.ofInt ret) }) :=
    keeps_modifyTask (fun _ => rfl) fun _ => ⟨rfl, rfl⟩
  exact (handleSignals_leaves _).mono fun _ h => Leaves.trans hk rfl h

theorem proceed_keeps {r : Flow × Kernel} (h : Acted k r) :
    Leads (proceed r) (Keeps (some k.current) k) := by
  obtain ⟨flow, k₁⟩ := r
  cases flow with
  | ret value =>
    exact (finish_leaves k₁ value).mono fun _ hl => (Leaves.trans h.keeps (h.current value rfl) hl).keeps
  | away => exact .pure h.keeps

/-! Reading, writing, and the loop of the root task -/

variable {input : Input}

theorem readDone_keeps (k : Kernel) (file : File) (n : ℕ) :
    Leads (k.readDone file n input) (Keeps (some k.current) k) := by
  refine .bind (Leads.any _) ?_
  rintro ⟨pid, p⟩ -
  refine .bind (access_acted ((keeps_leakProc k pid).trans (keeps_leakFile _ file)) rfl fun _ =>
    .pure (acted_ret (.refl k) rfl)) fun r hr => proceed_keeps hr

/-- The current task gives way in a loop that is none of a lock. -/
theorem yield_keeps (k : Kernel) (hc : c.phase = none) :
    Leads (k.yieldNow c) (Keeps (some k.current) k) :=
  (yieldNow_keeps k c).mono fun _ h => (keeps_setCont hc).trans h.mono

theorem readStdin_keeps (k : Kernel) : Leads (k.readStdin input) (Keeps (some k.current) k) := by
  rw [readStdin]
  split
  · exact yield_keeps k rfl
  · refine .ite (fun _ => (readDone_keeps _ _ _).mono fun _ h => Keeps.trans ?_ h) fun _ =>
      readDone_keeps k _ _
    exact keeps_modifyTask (fun _ => rfl) fun _ => ⟨rfl, rfl⟩

theorem readPipe_keeps (k : Kernel) (pipe : ℕ) (call : ReadCall) :
    Leads (k.readPipe pipe call input) (Keeps (some k.current) k) := by
  rw [readPipe]
  split
  · trivial
  next ring hring =>
    split
    · trivial
    next call' ring' bytes hround =>
      have hk : Keeps (some k.current) k { k with pipes := k.pipes.set pipe ring' } :=
        keeps_setPipe hring (writeEnd_readRound hround)
      dsimp only
      split
      · exact (readDone_keeps _ _ _).mono fun _ h => hk.trans h
      · exact .ite (fun _ => (yield_keeps _ rfl).mono fun _ h => hk.trans h) fun _ =>
          .pure (hk.setCont rfl rfl)

theorem writeChunk_keeps (k : Kernel) (file : File) (len count : ℕ) :
    Leads (k.writeChunk file len count input) (Keeps (some k.current) k) := by
  refine .ite (fun _ => .bind (Leads.any _) ?_) fun _ => (finish_leaves k count).mono fun _ h => h.keeps
  rintro ⟨pid, p⟩ -
  refine .bind (access_acted ((keeps_leakProc k pid).trans (keeps_leakFile _ file)) rfl
    fun bytes => ?_) fun r hr => proceed_keeps hr
  split
  · exact .ite (fun _ => .pure (acted_setCont rfl)) fun _ => trivial
  · exact .pure (acted_setCont rfl)
  · exact .ite (fun _ => .pure (acted_setCont rfl)) fun _ => trivial
  · trivial

theorem writePipe_keeps (k : Kernel) (pipe : ℕ) (call : WriteCall) (len count : ℕ) :
    Leads (k.writePipe pipe call len count) (Keeps (some k.current) k) := by
  rw [writePipe]
  split
  · trivial
  next ring hring =>
    have hw := writeEnd_writeRound call ring
    generalize writeRound call ring = r at hw
    obtain ⟨call', ring', bytes⟩ := r
    have hk : Keeps (some k.current) k { k with pipes := k.pipes.set pipe ring' } :=
      keeps_setPipe hring hw
    dsimp only
    split
    · exact .ite (fun _ => .pure (hk.setCont rfl rfl)) fun _ => trivial
    · exact .ite (fun _ => (yield_keeps _ rfl).mono fun _ h => hk.trans h) fun _ =>
        .pure (hk.setCont rfl rfl)

theorem rootReap_keeps (k : Kernel) : Leads k.rootReap (Keeps (some k.current) k) := by
  refine .bind (Leads.any _) ?_
  rintro ⟨pid, p⟩ -
  refine .bind (waitpid_keeps (a := some k.current) k pid (-1)) ?_
  rintro ⟨ret, exitCode, k₁⟩ ⟨hk, hcur⟩
  refine .pure ?_
  split_ifs
  · exact hk
  · exact hk.setCont hcur rfl

theorem rootCheck_keeps (k : Kernel) : Leads k.rootCheck (Keeps (some k.current) k) := by
  refine .bind (Leads.any _) ?_
  rintro ⟨pid, p⟩ -
  exact .ite (fun _ => .pure (keeps_setCont rfl)) fun _ => yield_keeps k rfl

end Kernel

end RCore.Os
