import RCore.Sanity.Os.Roster

/-! The threads in the table of a process. A number stands for one thread, until it is waited
for, and is not given again. -/

namespace RCore.Os.Roster

open RCore.Lib

variable {r r' : Roster} {t u pid q tid : ℕ} {p : ProcEntry} {c : Change} {cs : List Change}
  {f : ProcEntry → ProcEntry} {task : TaskEntry}

/-- The threads of a process that is there, and the next number. -/
def table (r : Roster) (pid : ℕ) : Option (List (ℕ × ℕ) × ℕ) :=
  r.procs[pid]?.join.map fun p => (p.tasks, p.tidAllocator)

theorem table_of_proc (h : r.procs[pid]? = some (some p)) : r.table pid = some (p.tasks, p.tidAllocator) := by
  unfold table
  rw [h]
  rfl

theorem table_modifyProc (hf : ∀ p, (f p).tasks = p.tasks ∧ (f p).tidAllocator = p.tidAllocator) :
    (r.modifyProc q f).table pid = r.table pid := by
  unfold table
  rw [getElem?_modifyProc]
  split_ifs
  · cases r.procs[pid]? with
    | none => rfl
    | some x =>
      cases x with
      | none => rfl
      | some p => simp [hf p]
  · rfl

theorem table_of_procs (h : r'.procs[pid]? = r.procs[pid]?) : r'.table pid = r.table pid := by
  unfold table
  rw [h]

theorem table_stop (r : Roster) (q : ℕ) (l : List ℕ) (code : Int32) : (r.stop q l code).table pid = r.table pid := by
  unfold stop reparent
  rw [table_modifyProc, table_modifyProc, table_modifyProc]
  all_goals exact fun _ => ⟨rfl, rfl⟩

theorem table_exit (r : Roster) (t q : ℕ) (p : ProcEntry) (code : Int32) :
    (r.exit t q p code).table pid = r.table pid := by
  rw [Roster.exit]
  split_ifs
  · exact table_modifyProc fun _ => ⟨rfl, rfl⟩
  · rfl

/-- What a change by the process `q` does to the table of a process: nothing, or the process
goes, or it gets a thread, with the next number, or it waits for one. -/
inductive Retable (q pid : ℕ) (c : Change) : Option (List (ℕ × ℕ) × ℕ) → Option (List (ℕ × ℕ) × ℕ) → Prop
  | same (x : Option (List (ℕ × ℕ) × ℕ)) : Retable q pid c x x
  | gone (x : Option (List (ℕ × ℕ) × ℕ)) : Retable q pid c x none
  | create (tasks : List (ℕ × ℕ)) (next u : ℕ) :
      Retable q pid c (some (tasks, next)) (some (tasks ++ [(next, u)], next + 1))
  | waittid (tasks : List (ℕ × ℕ)) (next : ℕ) {tid : ℕ} (hq : q = pid) (hc : c = .waittid tid) :
      Retable q pid c (some (tasks, next)) (some (tasks.filter fun e => e.1 ≠ tid, next))

theorem Makes.length_procs (h : Makes t q p r c r') : r.procs.length ≤ r'.procs.length := by
  cases h with
  | fork => simp [Roster.fork]
  | threadCreate => simp [Roster.threadCreate, Roster.modifyProc]
  | exec => simp [Roster.exec, Roster.modifyProc]
  | stop => simp [Roster.stop, reparent, Roster.modifyProc]
  | exit =>
    rw [Roster.exit]
    split_ifs <;> simp [endProcess, endTask, Roster.modifyProc, modifyTask]
  | waitpid => simp [reap, disown, Roster.modifyProc]
  | waittid => simp [Roster.waittid, Roster.modifyProc]

theorem Makes.retable (h : Makes t q p r c r') (hs : r.Serves t q p) (hpid : pid < r.procs.length) :
    Retable q pid c (r.table pid) (r'.table pid) := by
  cases h with
  | fork =>
    set r₁ : Roster := { r with procs := r.procs ++ [some (ProcEntry.forked r.tasks.length)] } with hr₁
    have hnew : r₁.table pid = r.table pid := table_of_procs (List.getElem?_append_left hpid)
    have hfork : (r.fork q).table pid = r₁.table pid := by
      have hchildren : (r₁.modifyProc q fun p => { p with children := p.children ++ [r.procs.length] }).table pid =
          r₁.table pid := table_modifyProc fun _ => ⟨rfl, rfl⟩
      exact (table_of_procs rfl).trans hchildren
    rw [hfork, hnew]
    exact .same _
  | threadCreate =>
    by_cases hq : pid = q
    · subst hq
      have hnew : (r.threadCreate pid p.tidAllocator).table pid =
          some (p.tasks ++ [(p.tidAllocator, r.tasks.length)], p.tidAllocator + 1) :=
        table_of_proc (modifyProc_self hs.proc)
      rw [table_of_proc hs.proc, hnew]
      exact .create ..
    · rw [Roster.threadCreate, table_of_procs (modifyProc_of_ne hq)]
      exact .same _
  | exec =>
    have hexec : (r.exec q).table pid = r.table pid := table_modifyProc fun _ => ⟨rfl, rfl⟩
    rw [hexec]
    exact .same _
  | stop =>
    rw [table_stop]
    exact .same _
  | exit =>
    rw [table_exit]
    exact .same _
  | @waitpid child =>
    by_cases hchild : child = pid
    · subst hchild
      have hnone : (r.reap q child).table child = none := by
        unfold table reap
        rw [List.getElem?_set_self (by simpa [disown, Roster.modifyProc] using hpid)]
        rfl
      rw [hnone]
      exact .gone _
    · have hset : (r.reap q child).table pid = (r.disown q child).table pid :=
        table_of_procs (List.getElem?_set_ne hchild)
      rw [hset, show (r.disown q child).table pid = _ from table_modifyProc fun _ => ⟨rfl, rfl⟩]
      exact .same _
  | waittid =>
    by_cases hq : pid = q
    · subst hq
      rw [table_of_proc hs.proc, Roster.waittid, table_of_proc (modifyProc_self hs.proc)]
      exact .waittid _ _ rfl rfl
    · rw [Roster.waittid, table_of_procs (modifyProc_of_ne hq)]
      exact .same _

/-- The number stands for the thread `u`, as long as the process is there. -/
structure Listed (r : Roster) (pid tid u : ℕ) : Prop where
  made : pid < r.procs.length
  mem : ∀ tasks next, r.table pid = some (tasks, next) → (tid, u) ∈ tasks

/-- The number has been given, and stands for no thread. -/
structure Gone (r : Roster) (pid tid : ℕ) : Prop where
  made : pid < r.procs.length
  given : ∀ tasks next, r.table pid = some (tasks, next) → tid < next ∧ ∀ e ∈ tasks, e.1 ≠ tid

theorem Makes.listed (h : Makes t q p r c r') (hs : r.Serves t q p) (hl : r.Listed pid tid u)
    (hne : q ≠ pid ∨ c ≠ .waittid tid) : r'.Listed pid tid u := by
  refine ⟨hl.made.trans_le h.length_procs, fun tasks next htable => ?_⟩
  have hre := h.retable hs hl.made
  generalize hold : r.table pid = old at hre
  rw [htable] at hre
  cases hre with
  | same => exact hl.mem tasks next hold
  | create tasks next u => exact List.mem_append_left _ (hl.mem tasks next hold)
  | waittid tasks next hq hc =>
    refine List.mem_filter.mpr ⟨hl.mem tasks _ hold, ?_⟩
    rw [decide_eq_true_eq]
    rintro rfl
    exact hne.elim (fun hne => hne hq) fun hne => hne hc

theorem Makes.gone (h : Makes t q p r c r') (hs : r.Serves t q p) (hg : r.Gone pid tid) : r'.Gone pid tid := by
  refine ⟨hg.made.trans_le h.length_procs, fun tasks next htable => ?_⟩
  have hre := h.retable hs hg.made
  generalize hold : r.table pid = old at hre
  rw [htable] at hre
  cases hre with
  | same => exact hg.given tasks next hold
  | create tasks next u =>
    obtain ⟨hlt, hno⟩ := hg.given tasks next hold
    refine ⟨hlt.trans (Nat.lt_succ_self next), fun e he => ?_⟩
    rcases List.mem_append.mp he with he | he
    · exact hno e he
    · rw [List.mem_singleton.mp he]
      exact hlt.ne'
  | waittid tasks next hq hc =>
    obtain ⟨hlt, hno⟩ := hg.given tasks _ hold
    exact ⟨hlt, fun e he => hno e (List.mem_of_mem_filter he)⟩

/-- Who a task is does not change. -/
theorem Makes.ids (h : Makes t q p r c r') (hu : r.tasks[u]? = some task) :
    ∃ task', r'.tasks[u]? = some task' ∧ task'.process = task.process ∧ task'.tid = task.tid := by
  by_cases hne : u ≠ t ∨ ∀ code, c ≠ .exit code
  · exact ⟨task, h.task hu hne, rfl, rfl⟩
  · push Not at hne
    obtain ⟨rfl, code, rfl⟩ := hne
    cases h
    rw [tasks_exit, endTask, getElem?_modifyTask, if_pos rfl, hu]
    exact ⟨_, rfl, rfl, rfl⟩

/-- A task that has ended stays as it is. -/
theorem Makes.ended (h : Makes t q p r c r') (hs : r.Serves t q p) (hu : r.tasks[u]? = some task)
    (hz : task.zombie = true) : r'.tasks[u]? = some task := by
  refine h.task hu (.inl ?_)
  rintro rfl
  obtain ⟨task', htask', -, hz'⟩ := hs.task
  obtain rfl : task = task' := Option.some.inj (hu.symm.trans htask')
  rw [hz] at hz'
  cases hz'

theorem Changes.listed (h : Changes t cs r r') (hl : r.Listed pid tid u)
    (hpid : ∃ task, r.tasks[t]? = some task ∧ task.process = q) (hne : q ≠ pid ∨ .waittid tid ∉ cs) :
    r'.Listed pid tid u := by
  induction h with
  | nil r => exact hl
  | cons hs hm _ ih =>
    obtain ⟨task, htask, rfl⟩ := hpid
    obtain ⟨task', htask', rfl, -⟩ := hs.task
    obtain rfl : task = task' := Option.some.inj (htask.symm.trans htask')
    refine ih (hm.listed hs hl ?_) (hm.process htask) ?_
    · exact hne.imp_right fun hno he => hno (he ▸ List.mem_cons_self)
    · exact hne.imp_right fun hno hmem => hno (List.mem_cons_of_mem _ hmem)

theorem Changes.gone (h : Changes t cs r r') (hg : r.Gone pid tid) : r'.Gone pid tid := by
  induction h with
  | nil r => exact hg
  | cons hs hm _ ih => exact ih (hm.gone hs hg)

theorem Changes.ids (h : Changes t cs r r') (hu : r.tasks[u]? = some task) :
    ∃ task', r'.tasks[u]? = some task' ∧ task'.process = task.process ∧ task'.tid = task.tid := by
  induction h generalizing task with
  | nil r => exact ⟨task, hu, rfl, rfl⟩
  | cons _ hm _ ih =>
    obtain ⟨task₁, hu₁, hprocess, htid⟩ := hm.ids hu
    obtain ⟨task', hu', hprocess', htid'⟩ := ih hu₁
    exact ⟨task', hu', hprocess'.trans hprocess, htid'.trans htid⟩

theorem Changes.ended (h : Changes t cs r r') (hu : r.tasks[u]? = some task) (hz : task.zombie = true) :
    r'.tasks[u]? = some task := by
  induction h with
  | nil r => exact hu
  | cons hs hm _ ih => exact ih (hm.ended hs hu hz)

/-- A thread that has been waited for does not come back. -/
theorem Ok.gone (h : r.Ok) (hp : r.procs[pid]? = some (some p)) (hmem : (tid, u) ∈ p.tasks) :
    (r.waittid pid tid).Gone pid tid := by
  refine ⟨?_, fun tasks next htable => ?_⟩
  · rw [Roster.waittid, Roster.modifyProc, List.length_modify]
    exact (List.getElem?_eq_some_iff.mp hp).1
  · rw [Roster.waittid, table_of_proc (modifyProc_self hp)] at htable
    obtain ⟨rfl, rfl⟩ := Prod.mk.inj (Option.some.inj htable)
    refine ⟨(h.procs pid p hp).bound _ hmem, fun e he => ?_⟩
    simpa using (List.mem_filter.mp he).2

end RCore.Os.Roster
