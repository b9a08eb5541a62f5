import RCore.Lib.Heap
import RCore.Spec.Os.Roster

/-! What holds of every roster: a task that is alive is on the list of its process, a process
is a zombie exactly if none of its tasks is alive, and a process of a user has its memory
exactly until then. Every change keeps it. -/

namespace RCore.Os.Roster

open RCore.Lib

variable {r r' r'' : Roster} {t u pid q : ℕ} {p : ProcEntry} {c : Change} {cs cs' : List Change}
  {f : ProcEntry → ProcEntry} {code : Int32}

theorem getElem?_modifyProc (r : Roster) (pid q : ℕ) (f : ProcEntry → ProcEntry) :
    (r.modifyProc pid f).procs[q]? = if q = pid then r.procs[q]?.map (Option.map f) else r.procs[q]? := by
  rw [modifyProc, List.getElem?_modify]
  by_cases h : q = pid
  · simp [h]
  · simp [h, Ne.symm h]

theorem getElem?_modifyTask (r : Roster) (t u : ℕ) (f : TaskEntry → TaskEntry) :
    (r.modifyTask t f).tasks[u]? = if u = t then r.tasks[u]?.map f else r.tasks[u]? := by
  rw [modifyTask, List.getElem?_modify]
  by_cases h : u = t
  · simp [h]
  · simp [h, Ne.symm h]

/-- A process after a change to one of them. -/
theorem modifyProc_cases (h : (r.modifyProc pid f).procs[q]? = some (some p)) :
    q ≠ pid ∧ r.procs[q]? = some (some p) ∨
      q = pid ∧ ∃ p₀, r.procs[pid]? = some (some p₀) ∧ p = f p₀ := by
  rw [getElem?_modifyProc] at h
  split_ifs at h with hq
  · right
    subst hq
    rw [Option.map_eq_some_iff] at h
    obtain ⟨x, hx, hf⟩ := h
    obtain ⟨p₀, rfl, rfl⟩ := Option.map_eq_some_iff.mp hf
    exact ⟨rfl, p₀, hx, rfl⟩
  · exact .inl ⟨hq, h⟩

theorem modifyProc_self (h : r.procs[pid]? = some (some p)) :
    (r.modifyProc pid f).procs[pid]? = some (some (f p)) := by
  rw [getElem?_modifyProc, if_pos rfl, h]
  rfl

theorem modifyProc_of_ne (h : q ≠ pid) : (r.modifyProc pid f).procs[q]? = r.procs[q]? := by
  rw [getElem?_modifyProc, if_neg h]

/-- No task that is listed is alive. -/
theorem taskCount_eq_zero : r.taskCount p = 0 ↔
    ∀ e ∈ p.tasks, ∃ task, r.tasks[e.2]? = some task ∧ task.zombie = true := by
  simp only [taskCount, List.countP_eq_zero, decide_eq_true_eq, not_not, Option.map_eq_some_iff]

theorem Changes.one (hs : r.Serves t pid p) (hm : Makes t pid p r c r') : Changes t [c] r r' :=
  .cons hs hm (.nil r')

theorem Changes.append (h : Changes t cs r r') (h' : Changes t cs' r' r'') :
    Changes t (cs ++ cs') r r'' := by
  induction h with
  | nil r => exact h'
  | cons hs hm _ ih => exact .cons hs hm (ih h')

/-! Who is alive -/

theorem tasks_exit (r : Roster) (t pid : ℕ) (p : ProcEntry) (code : Int32) :
    (r.exit t pid p code).tasks = (r.endTask t code).tasks := by
  rw [Roster.exit]
  split_ifs <;> rfl

/-- A task is what it was, unless it is the one that has ended. -/
theorem Makes.task (h : Makes t pid p r c r') {task : TaskEntry} (hu : r.tasks[u]? = some task)
    (hne : u ≠ t ∨ ∀ code, c ≠ .exit code) : r'.tasks[u]? = some task := by
  cases h with
  | fork => exact getElem?_snoc_of_some hu
  | threadCreate => exact getElem?_snoc_of_some hu
  | exec => exact hu
  | stop => exact hu
  | exit code =>
    rw [tasks_exit, endTask, getElem?_modifyTask, if_neg (hne.resolve_right fun hc => hc code rfl), hu]
  | waitpid => exact hu
  | waittid => exact hu

theorem Makes.alive (h : Makes t pid p r c r') (hu : r.Alive u) (hne : u ≠ t ∨ ∀ code, c ≠ .exit code) :
    r'.Alive u := by
  obtain ⟨task, htask, hz⟩ := hu
  exact ⟨task, h.task htask hne, hz⟩

/-- No task leaves its process. -/
theorem Makes.process (h : Makes t pid p r c r') {task : TaskEntry} (hu : r.tasks[u]? = some task) :
    ∃ task', r'.tasks[u]? = some task' ∧ task'.process = task.process := by
  by_cases hne : u ≠ t ∨ ∀ code, c ≠ .exit code
  · exact ⟨task, h.task hu hne, rfl⟩
  · push Not at hne
    obtain ⟨rfl, code, rfl⟩ := hne
    cases h
    rw [tasks_exit, endTask, getElem?_modifyTask, if_pos rfl, hu]
    exact ⟨_, rfl, rfl⟩

/-! The invariant -/

/-- What holds of a process. -/
structure ProcOk (r : Roster) (pid : ℕ) (p : ProcEntry) : Prop where
  tasks : ∀ e ∈ p.tasks, ∃ task, r.tasks[e.2]? = some task ∧ task.process = pid ∧ task.tid = e.1
  ascending : p.tasks.Pairwise fun e e' => e.1 < e'.1
  bound : ∀ e ∈ p.tasks, e.1 < p.tidAllocator
  zombie : p.state = .zombie ↔ r.taskCount p = 0
  vm : p.isKernel = false → (p.vm = true ↔ p.state ≠ .zombie)

structure Ok (r : Roster) : Prop where
  listed : ∀ (t : ℕ) (task : TaskEntry), r.tasks[t]? = some task → task.zombie = false →
    ∃ p, r.procs[task.process]? = some (some p) ∧ (task.tid, t) ∈ p.tasks
  procs : ∀ (pid : ℕ) (p : ProcEntry), r.procs[pid]? = some (some p) → r.ProcOk pid p

theorem lookup_of_mem {l : List (ℕ × ℕ)} (h : l.Pairwise fun e e' => e.1 < e'.1) {e : ℕ × ℕ}
    (he : e ∈ l) : l.lookup e.1 = some e.2 := by
  induction l with
  | nil => cases he
  | cons x l ih =>
    rw [List.pairwise_cons] at h
    rcases List.mem_cons.mp he with rfl | he
    · exact List.lookup_cons_self
    · rw [List.lookup_cons, beq_eq_false_iff_ne.mpr (h.1 e he).ne']
      exact ih h.2 he

theorem Ok.serves_listed (h : r.Ok) (hs : r.Serves t pid p) : ∃ tid, (tid, t) ∈ p.tasks := by
  obtain ⟨task, htask, rfl, hz⟩ := hs.task
  obtain ⟨p', hp', hmem⟩ := h.listed t task htask hz
  rw [hs.proc, Option.some.injEq, Option.some.injEq] at hp'
  subst hp'
  exact ⟨task.tid, hmem⟩

theorem Ok.serves_taskCount (h : r.Ok) (hs : r.Serves t pid p) : r.taskCount p ≠ 0 := by
  intro hcount
  obtain ⟨tid, hmem⟩ := h.serves_listed hs
  obtain ⟨task, htask, -, hz⟩ := hs.task
  obtain ⟨task', htask', hz'⟩ := taskCount_eq_zero.mp hcount _ hmem
  rw [show r.tasks[t]? = _ from htask', Option.some.injEq] at htask
  rw [← htask, hz'] at hz
  cases hz

/-- The process of a task that is alive is none. -/
theorem Ok.serves_state (h : r.Ok) (hs : r.Serves t pid p) : p.state ≠ .zombie := fun hz =>
  h.serves_taskCount hs ((h.procs pid p hs.proc).zombie.mp hz)

/-- All tasks of a zombie have ended, listed or not. -/
theorem Ok.zombie_tasks (h : r.Ok) (hp : r.procs[pid]? = some (some p)) (hz : p.state = .zombie)
    {task : TaskEntry} (htask : r.tasks[t]? = some task) (hpid : task.process = pid) :
    task.zombie = true := by
  by_contra hne
  rw [Bool.not_eq_true] at hne
  exact h.serves_state ⟨⟨task, htask, hpid, hne⟩, hp⟩ hz

/-- What is known of a process depends on the tasks only. -/
theorem ProcOk.congr (h : r.ProcOk pid p) (htasks : ∀ e ∈ p.tasks, r'.tasks[e.2]? = r.tasks[e.2]?) :
    r'.ProcOk pid p := by
  refine ⟨fun e he => by rw [htasks e he]; exact h.tasks e he, h.ascending, h.bound, ?_, h.vm⟩
  rw [h.zombie, taskCount_eq_zero, taskCount_eq_zero]
  refine forall₂_congr fun e he => ?_
  rw [htasks e he]

theorem ProcOk.snoc {x : TaskEntry} (h : r.ProcOk pid p) (htasks : r'.tasks = r.tasks ++ [x]) :
    r'.ProcOk pid p := by
  refine h.congr fun e he => ?_
  obtain ⟨task, htask, -, -⟩ := h.tasks e he
  rw [htasks, getElem?_snoc_of_some htask, htask]

/-- `PROC_MAP` does not matter. -/
theorem Ok.of_eq (h : r.Ok) (htasks : r'.tasks = r.tasks) (hprocs : r'.procs = r.procs) : r'.Ok := by
  refine ⟨fun t task htask hz => ?_, fun pid p hp => ?_⟩
  · rw [htasks] at htask
    rw [hprocs]
    exact h.listed t task htask hz
  · rw [hprocs] at hp
    exact (h.procs pid p hp).congr fun _ _ => by rw [htasks]

/-- One process is changed, and no task that is alive leaves its list. -/
theorem Ok.modifyProc (h : r.Ok) (hok : ∀ p, r.procs[pid]? = some (some p) → r.ProcOk pid (f p))
    (hlist : ∀ p, r.procs[pid]? = some (some p) → ∀ e ∈ p.tasks, r.Alive e.2 → e ∈ (f p).tasks) :
    (r.modifyProc pid f).Ok := by
  refine ⟨fun t task htask hz => ?_, fun q p hq => ?_⟩
  · obtain ⟨p, hp, hmem⟩ := h.listed t task htask hz
    by_cases hpid : task.process = pid
    · rw [hpid] at hp ⊢
      exact ⟨f p, modifyProc_self hp, hlist p hp _ hmem ⟨task, htask, hz⟩⟩
    · exact ⟨p, by rw [modifyProc_of_ne hpid, hp], hmem⟩
  · rcases modifyProc_cases hq with ⟨-, hp⟩ | ⟨rfl, p₀, hp₀, rfl⟩
    · exact (h.procs q p hp).congr fun _ _ => rfl
    · exact (hok p₀ hp₀).congr fun _ _ => rfl

/-- Only the children are changed. -/
theorem Ok.modifyChildren (h : r.Ok) (hf : ∀ p, ∃ l, f p = { p with children := l }) :
    (r.modifyProc pid f).Ok := by
  refine h.modifyProc (fun p hp => ?_) fun p _ e he _ => ?_
  · obtain ⟨l, hl⟩ := hf p
    obtain ⟨htasks, hasc, hbound, hzombie, hvm⟩ := h.procs pid p hp
    rw [hl]
    exact ⟨htasks, hasc, hbound, hzombie, hvm⟩
  · obtain ⟨l, hl⟩ := hf p
    rw [hl]
    exact he

theorem forked_ok {x : TaskEntry} (htask : r.tasks[t]? = some x) (hpid : x.process = pid)
    (htid : x.tid = 0) (hz : x.zombie = false) : r.ProcOk pid (.forked t) := by
  refine ⟨?_, List.pairwise_singleton .., ?_, ?_, fun _ => ⟨fun _ => nofun, fun _ => rfl⟩⟩
  · intro e he
    rw [ProcEntry.forked, List.mem_singleton] at he
    rw [he]
    exact ⟨x, htask, hpid, htid⟩
  · intro e he
    rw [ProcEntry.forked, List.mem_singleton] at he
    rw [he]
    exact Nat.zero_lt_one
  · refine ⟨nofun, fun hcount => ?_⟩
    obtain ⟨task, htask', hz'⟩ := taskCount_eq_zero.mp hcount (0, t) (List.mem_singleton_self _)
    rw [show r.tasks[t]? = _ from htask', Option.some.injEq] at htask
    rw [← htask, hz'] at hz
    cases hz

/-- The new process, before it is anybody's child. -/
theorem Ok.newProcess (h : r.Ok) (hr : r' = { r with
      tasks := r.tasks ++ [TaskEntry.mk 0 r.procs.length false 0]
      procs := r.procs ++ [some (ProcEntry.forked r.tasks.length)] }) : r'.Ok := by
  subst hr
  refine ⟨fun t task htask hz => ?_, fun q p hq => ?_⟩
  · rcases getElem?_snoc_cases htask with htask | ⟨rfl, rfl⟩
    · obtain ⟨p, hp, hmem⟩ := h.listed t task htask hz
      exact ⟨p, getElem?_snoc_of_some hp, hmem⟩
    · refine ⟨.forked r.tasks.length, ?_, List.mem_singleton_self _⟩
      exact List.getElem?_concat_length ..
  · rcases getElem?_snoc_cases hq with hp | ⟨rfl, hp⟩
    · exact (h.procs q p hp).snoc rfl
    · rw [Option.some.inj hp]
      refine forked_ok (x := ⟨0, r.procs.length, false, 0⟩) ?_ rfl rfl rfl
      exact List.getElem?_concat_length ..

theorem Ok.fork (h : r.Ok) (pid : ℕ) : (r.fork pid).Ok := by
  have hnew := h.newProcess rfl
  exact (hnew.modifyChildren fun p => ⟨p.children ++ [r.procs.length], rfl⟩).of_eq rfl rfl

theorem Ok.threadCreate (h : r.Ok) (hp : r.procs[pid]? = some (some p)) (hz : p.state ≠ .zombie) :
    (r.threadCreate pid p.tidAllocator).Ok := by
  set r₁ : Roster := { r with tasks := r.tasks ++ [TaskEntry.mk p.tidAllocator pid false 0] } with hr₁
  set f : ProcEntry → ProcEntry := fun p' =>
    { p' with tidAllocator := p.tidAllocator + 1, tasks := p'.tasks ++ [(p.tidAllocator, r.tasks.length)] }
  have hself : (r.threadCreate pid p.tidAllocator).procs[pid]? = some (some (f p)) := modifyProc_self hp
  have hnew : r₁.tasks[r.tasks.length]? = some ⟨p.tidAllocator, pid, false, 0⟩ :=
    List.getElem?_concat_length ..
  have hok : r₁.ProcOk pid p := (h.procs pid p hp).snoc rfl
  have hfok : r₁.ProcOk pid (f p) := by
    refine ⟨fun e he => ?_, ?_, fun e he => ?_, ?_, fun hk => ?_⟩
    · rcases List.mem_append.mp he with he | he
      · exact hok.tasks e he
      · rw [List.mem_singleton.mp he]
        exact ⟨_, hnew, rfl, rfl⟩
    · refine List.pairwise_append.mpr ⟨hok.ascending, List.pairwise_singleton .., fun e he e' he' => ?_⟩
      rw [List.mem_singleton.mp he']
      exact hok.bound e he
    · rcases List.mem_append.mp he with he | he
      · exact Nat.lt_succ_of_lt (hok.bound e he)
      · rw [List.mem_singleton.mp he]
        exact Nat.lt_succ_self _
    · refine ⟨fun he => absurd he hz, fun hcount => ?_⟩
      have hmem : (p.tidAllocator, r.tasks.length) ∈ (f p).tasks :=
        List.mem_append_right _ (List.mem_singleton_self _)
      obtain ⟨task, htask, hzombie⟩ := taskCount_eq_zero.mp hcount _ hmem
      rw [show r₁.tasks[r.tasks.length]? = _ from htask, Option.some.injEq] at hnew
      rw [hnew] at hzombie
      cases hzombie
    · exact hok.vm hk
  refine ⟨fun t task htask hzombie => ?_, fun q p' hq => ?_⟩
  · rcases getElem?_snoc_cases htask with htask | ⟨rfl, rfl⟩
    · obtain ⟨p', hp', hmem⟩ := h.listed t task htask hzombie
      by_cases hpid : task.process = pid
      · rw [hpid, hp, Option.some.injEq, Option.some.injEq] at hp'
        rw [hpid]
        exact ⟨f p, hself, List.mem_append_left _ (hp' ▸ hmem)⟩
      · exact ⟨p', (modifyProc_of_ne hpid).trans hp', hmem⟩
    · exact ⟨f p, hself, List.mem_append_right _ (List.mem_singleton_self _)⟩
  · rcases modifyProc_cases hq with ⟨-, hp'⟩ | ⟨rfl, p₀, hp₀, rfl⟩
    · have hq' : r₁.ProcOk q p' := (h.procs q p' hp').snoc rfl
      exact hq'.congr fun _ _ => rfl
    · rw [show r₁.procs[q]? = some (some p) from hp, Option.some.injEq, Option.some.injEq] at hp₀
      exact (hp₀ ▸ hfok).congr fun _ _ => rfl

theorem Ok.exec (h : r.Ok) (hs : r.Serves t pid p) : (r.exec pid).Ok := by
  refine h.modifyProc (fun p' hp' => ?_) fun _ _ e he _ => he
  rw [hs.proc, Option.some.injEq, Option.some.injEq] at hp'
  subst hp'
  obtain ⟨htasks, hasc, hbound, hzombie, -⟩ := h.procs pid p hs.proc
  have hstate : p.state ≠ .zombie := h.serves_state hs
  exact ⟨htasks, hasc, hbound, hzombie, fun _ => ⟨fun _ => hstate, fun _ => rfl⟩⟩

theorem Ok.stop (h : r.Ok) (hs : r.Serves t pid p) (hroot : pid ≠ ROOT_PID) (l : List ℕ)
    (code : Int32) : (r.stop pid l code).Ok := by
  have hchildren : (r.reparent pid l).Ok :=
    (h.modifyChildren fun p => ⟨p.children ++ l, rfl⟩).modifyChildren fun _ => ⟨[], rfl⟩
  refine hchildren.modifyProc (fun p' hp' => ?_) fun _ _ e he _ => he
  have hself : (r.reparent pid l).procs[pid]? = some (some { p with children := [] }) :=
    modifyProc_self (by rw [modifyProc_of_ne hroot, hs.proc])
  rw [hself, Option.some.injEq, Option.some.injEq] at hp'
  subst hp'
  obtain ⟨htasks, hasc, hbound, -, hvm⟩ := h.procs pid p hs.proc
  have hcount : r.taskCount p ≠ 0 := h.serves_taskCount hs
  refine ⟨htasks, hasc, hbound, ⟨nofun, fun hc => absurd hc hcount⟩, fun hk => ?_⟩
  exact ⟨fun _ => nofun, fun _ => (hvm hk).mpr (h.serves_state hs)⟩

theorem endTask_of_ne (h : u ≠ t) : (r.endTask t code).tasks[u]? = r.tasks[u]? := by
  rw [endTask, getElem?_modifyTask, if_neg h]

theorem endTask_self {task : TaskEntry} (h : r.tasks[t]? = some task) :
    (r.endTask t code).tasks[t]? = some { task with zombie := true, exitCode := code } := by
  rw [endTask, getElem?_modifyTask, if_pos rfl, h]
  rfl

/-- The processes of other tasks are not concerned. -/
theorem ProcOk.endTask_of_ne (h : r.ProcOk q p) {task : TaskEntry} (htask : r.tasks[t]? = some task)
    (hne : q ≠ task.process) : (r.endTask t code).ProcOk q p := by
  refine h.congr fun e he => Roster.endTask_of_ne fun heq => ?_
  obtain ⟨task', htask', hq, -⟩ := h.tasks e he
  rw [heq, htask, Option.some.injEq] at htask'
  exact hne (by rw [htask', hq])

/-- Its own process may have ended with it. -/
theorem ProcOk.endTask (h : r.ProcOk pid p) {p' : ProcEntry} (htasks : p'.tasks = p.tasks)
    (htid : p'.tidAllocator = p.tidAllocator)
    (hzombie : p'.state = .zombie ↔ (r.endTask t code).taskCount p' = 0)
    (hvm : p'.isKernel = false → (p'.vm = true ↔ p'.state ≠ .zombie)) :
    (r.endTask t code).ProcOk pid p' := by
  refine ⟨fun e he => ?_, by rw [htasks]; exact h.ascending, fun e he => ?_, hzombie, hvm⟩
  · rw [htasks] at he
    obtain ⟨task, htask, hpid, htid⟩ := h.tasks e he
    by_cases het : e.2 = t
    · rw [het] at htask ⊢
      exact ⟨_, endTask_self htask, hpid, htid⟩
    · exact ⟨task, by rw [Roster.endTask_of_ne het, htask], hpid, htid⟩
  · rw [htasks] at he
    rw [htid]
    exact h.bound e he

theorem Ok.exit (h : r.Ok) (hs : r.Serves t pid p) (code : Int32) : (r.exit t pid p code).Ok := by
  obtain ⟨task, htask, hpid, -⟩ := hs.task
  have hproc := h.procs pid p hs.proc
  -- who is alive afterwards was alive before, and is listed where it was
  have hlisted : ∀ (u : ℕ) (task : TaskEntry), (r.endTask t code).tasks[u]? = some task → task.zombie = false →
      ∃ p', r.procs[task.process]? = some (some p') ∧ (task.tid, u) ∈ p'.tasks := by
    intro u task' hu hz
    by_cases hut : u = t
    · rw [hut, endTask_self htask, Option.some.injEq] at hu
      rw [← hu] at hz
      cases hz
    · rw [endTask_of_ne hut] at hu
      exact h.listed u task' hu hz
  have hother : ∀ (q : ℕ) (p' : ProcEntry), q ≠ pid → r.procs[q]? = some (some p') →
      (r.endTask t code).ProcOk q p' := fun q p' hq hp' =>
    (h.procs q p' hp').endTask_of_ne htask (by rw [hpid]; exact hq)
  rw [Roster.exit]
  split_ifs with hcount
  · refine ⟨fun u task' hu hz => ?_, fun q p' hq => ?_⟩
    · obtain ⟨p', hp', hmem⟩ := hlisted u task' hu hz
      by_cases hup : task'.process = pid
      · rw [hup] at hp' ⊢
        exact ⟨_, modifyProc_self hp', hmem⟩
      · exact ⟨p', (modifyProc_of_ne hup).trans hp', hmem⟩
    · rcases modifyProc_cases hq with ⟨hne, hp'⟩ | ⟨rfl, p₀, hp₀, rfl⟩
      · exact (hother q p' hne hp').congr fun _ _ => rfl
      · rw [show (r.endTask t code).procs[q]? = some (some p) from hs.proc, Option.some.injEq,
          Option.some.injEq] at hp₀
        subst hp₀
        have hended : (r.endTask t code).ProcOk q { p with
            exitCode := if p.state = .normal then code else p.exitCode, state := .zombie, vm := false } := by
          refine hproc.endTask rfl rfl ⟨fun _ => hcount, fun _ => rfl⟩ fun _ => ?_
          exact ⟨nofun, fun hne => absurd rfl hne⟩
        exact hended.congr fun _ _ => rfl
  · refine ⟨hlisted, fun q p' hq => ?_⟩
    by_cases hqp : q = pid
    · rw [hqp, show (r.endTask t code).procs[pid]? = some (some p) from hs.proc, Option.some.injEq,
        Option.some.injEq] at hq
      subst hq
      rw [hqp]
      refine hproc.endTask rfl rfl ?_ hproc.vm
      exact ⟨fun hz => absurd hz (h.serves_state hs), fun hc => absurd hc hcount⟩
    · exact hother q p' hqp hq

/-- Nobody is left who would miss a zombie. -/
theorem Ok.reap (h : r.Ok) {child : ℕ} {c : ProcEntry} (hc : r.procs[child]? = some (some c))
    (hz : c.state = .zombie) (pid : ℕ) : (r.reap pid child).Ok := by
  have hown : (r.disown pid child).Ok := by
    exact (h.modifyChildren fun p => ⟨p.children.erase child, rfl⟩).of_eq rfl rfl
  refine ⟨fun t task htask hzombie => ?_, fun q p hq => ?_⟩
  · obtain ⟨p, hp, hmem⟩ := hown.listed t task htask hzombie
    refine ⟨p, ?_, hmem⟩
    have hne : child ≠ task.process := fun he => by
      rw [h.zombie_tasks hc hz htask he.symm] at hzombie
      cases hzombie
    rw [Roster.reap, List.getElem?_set_ne hne]
    exact hp
  · rw [Roster.reap, List.getElem?_set] at hq
    split_ifs at hq
    · cases hq
    · exact (hown.procs q p hq).congr fun _ _ => rfl

theorem Ok.waittid (h : r.Ok) {tid : ℕ} {task : TaskEntry} (hp : r.procs[pid]? = some (some p))
    (htid : p.tasks.lookup tid = some u) (htask : r.tasks[u]? = some task)
    (hz : task.zombie = true) : (r.waittid pid tid).Ok := by
  have hself : ∀ p', r.procs[pid]? = some (some p') → p' = p := fun p' hp' => by
    rw [hp, Option.some.injEq, Option.some.injEq] at hp'
    exact hp'.symm
  obtain ⟨htasks, hasc, hbound, hzombie, hvm⟩ := h.procs pid p hp
  -- the entry that goes is that of `u`, which has ended
  have hgone : ∀ e ∈ p.tasks, e.1 = tid → e.2 = u := by
    intro e he heq
    have hlookup := lookup_of_mem hasc he
    rw [heq, htid, Option.some.injEq] at hlookup
    exact hlookup.symm
  refine h.modifyProc (fun p' hp' => ?_) fun p' hp' e he halive => ?_
  · rw [hself p' hp']
    refine ⟨fun e he => htasks e (List.mem_of_mem_filter he), hasc.filter _,
      fun e he => hbound e (List.mem_of_mem_filter he), ?_, hvm⟩
    rw [hzombie, taskCount_eq_zero, taskCount_eq_zero]
    refine ⟨fun hall e he => hall e (List.mem_of_mem_filter he), fun hall e he => ?_⟩
    by_cases heq : e.1 = tid
    · rw [hgone e he heq]
      exact ⟨task, htask, hz⟩
    · exact hall e (List.mem_filter.mpr ⟨he, by simpa using heq⟩)
  · refine List.mem_filter.mpr ⟨he, ?_⟩
    rw [hself p' hp'] at he
    rw [decide_eq_true_eq]
    intro heq
    obtain ⟨task', htask', hz'⟩ := halive
    rw [hgone e he heq, htask, Option.some.injEq] at htask'
    rw [← htask', hz] at hz'
    cases hz'

theorem Makes.ok (h : Makes t pid p r c r') (hok : r.Ok) (hs : r.Serves t pid p) : r'.Ok := by
  cases h with
  | fork => exact hok.fork pid
  | threadCreate => exact hok.threadCreate hs.proc (hok.serves_state hs)
  | exec => exact hok.exec hs
  | stop code hpid => exact hok.stop hs (fun hroot => hpid (.inr hroot)) _ code
  | exit code => exact hok.exit hs code
  | waitpid _ hc hz _ => exact hok.reap hc hz pid
  | waittid htid htask hz => exact hok.waittid hs.proc htid htask hz

theorem Changes.ok (h : Changes t cs r r') (hok : r.Ok) : r'.Ok := by
  induction h with
  | nil r => exact hok
  | cons hs hm _ ih => exact ih (hm.ok hok hs)

end RCore.Os.Roster
