import RCore.Spec.Os.Access
import RCore.Proofs.Os.Runs

/-! Faults in the kernel: what is held at each access to user memory, and what becomes of
the kernel when tasks die there. -/

namespace RCore.Os

open RCore.Lib Kernel SignalFlags

/-- A reference to the process, or a lock. -/
def Guard.poisons : Guard → Bool
  | .process => true
  | .file _ => false
  | .lock _ => true

/-- No lock is held, and no reference to the process. -/
def Clean (held : List Guard) : Prop := ∀ g ∈ held, g.poisons = false

/-- What is held at an access, whichever call makes it. -/
def Access.held : Access → List Guard
  | .write file | .read file => [.file file, .process]
  | .openPath | .pipe | .execArgs => [.process]
  | .openName => [.lock .fileSystem, .process]
  | .execStack => [.lock .vm, .process]
  | .oldAction | .action => [.lock .signalActions, .process]
  | .execPath | .exitCode => []

section accesses

variable {held : List Guard} {acts : List Act} {a : Access} {x : Access × List Guard} {p : Process}

/-- An access through a pointer, or one of those after it. -/
theorem mem_heldAt_acts {α : Type} {ref : UserRef α} {rest : α → List Act}
    (h : x ∈ heldAt held (ref.acts a rest)) : x = (a, held) ∨ ∃ v, x ∈ heldAt held (rest v) := by
  cases ref with
  | refused => simp [UserRef.acts, heldAt] at h
  | fault => exact .inl (by simpa [UserRef.acts, heldAt] using h)
  | mapped v =>
    rw [UserRef.acts, heldAt, List.mem_cons] at h
    exact h.imp_right fun hx => ⟨v, hx⟩

theorem mem_heldAt_replicate {n : ℕ} (h : x ∈ heldAt held (List.replicate n (.user a) ++ acts)) :
    x = (a, held) ∨ x ∈ heldAt held acts := by
  induction n with
  | zero => exact .inr h
  | succ n ih =>
    rw [List.replicate_succ, List.cons_append, heldAt, List.mem_cons] at h
    exact h.elim .inl ih

theorem mem_fileActs {fd : ℕ} {allowed : File → Bool} {transfer : File → List Act}
    (h : x ∈ heldAt [] (fileActs p fd allowed transfer)) : ∃ file, x ∈ heldAt [.file file, .process]
      (transfer file ++ [.drop (.file file), .drop .process]) := by
  rw [fileActs] at h
  split at h
  next file hfd =>
    split_ifs at h
    · simp [heldAt] at h
    · refine ⟨file, ?_⟩
      simpa [heldAt] using h
  next => simp [heldAt] at h

theorem sysWriteActs_held {fd len : ℕ} (h : x ∈ heldAt [] (sysWriteActs p fd len)) : x.2 = x.1.held := by
  obtain ⟨file, h⟩ := mem_fileActs h
  rcases mem_heldAt_replicate h with rfl | h
  · rfl
  · simp [heldAt] at h

theorem sysReadActs_held {fd len : ℕ} (h : x ∈ heldAt [] (sysReadActs p fd len)) : x.2 = x.1.held := by
  obtain ⟨file, h⟩ := mem_fileActs h
  split_ifs at h
  · simp [heldAt] at h
  · rw [List.singleton_append, heldAt, List.mem_cons] at h
    rcases h with rfl | h
    · rfl
    · simp [heldAt] at h

theorem sysOpenActs_held {path : UserRef String} {found : Bool}
    (h : x ∈ heldAt [] (sysOpenActs path found)) : x.2 = x.1.held := by
  rw [sysOpenActs, heldAt] at h
  rcases mem_heldAt_acts h with rfl | ⟨_, h⟩
  · rfl
  · have hx : x = (.openName, [.lock .fileSystem, .process]) := by
      cases found <;> simpa [heldAt, allocFdActs] using h
    rw [hx]
    rfl

theorem sysPipeActs_held {ptr : UserRef Unit} (h : x ∈ heldAt [] (sysPipeActs ptr)) :
    x.2 = x.1.held := by
  simp only [sysPipeActs, allocFdActs, List.cons_append, List.nil_append, heldAt, List.erase_cons_head] at h
  rcases mem_heldAt_acts h with rfl | ⟨_, h⟩
  · rfl
  · simp [heldAt] at h

theorem sysExecActs_held {path : UserRef String} {args : UserRef (List String)}
    {elf : Option (UInt64 × ℕ)} {stackMapped : Bool}
    (h : x ∈ heldAt [] (sysExecActs path args elf stackMapped)) : x.2 = x.1.held := by
  rcases mem_heldAt_acts h with rfl | ⟨_, h⟩
  · rfl
  rw [heldAt] at h
  rcases mem_heldAt_acts h with rfl | ⟨args, h⟩
  · rfl
  cases elf with
  | none => simp [heldAt] at h
  | some _ =>
    dsimp only at h
    rw [heldAt] at h
    split_ifs at h
    · simp [heldAt] at h
    all_goals
      rcases mem_heldAt_acts h with rfl | ⟨_, h⟩
      · rfl
      · simp [heldAt] at h

theorem sysWaitpidActs_held {exitCodePtr : UserRef Unit}
    (h : x ∈ heldAt [] (sysWaitpidActs exitCodePtr)) : x.2 = x.1.held := by
  simp only [sysWaitpidActs, List.cons_append, List.nil_append, heldAt, List.erase_cons_head] at h
  rcases mem_heldAt_acts h with rfl | ⟨_, h⟩
  · rfl
  · simp [heldAt] at h

theorem sysSigactionActs_held {signum : ℤ} {action : Option (UserRef SignalAction)}
    {oldAction : Option (UserRef Unit)} (h : x ∈ heldAt [] (sysSigactionActs p signum action oldAction)) :
    x.2 = x.1.held := by
  -- what comes after the old action has been written
  have hrest : ∀ {action : UserRef SignalAction}, x ∈ heldAt [.lock .signalActions, .process]
      (action.acts .action fun _ => [.drop (.lock .signalActions), .drop .process]) → x.2 = x.1.held := by
    intro action h
    rcases mem_heldAt_acts h with rfl | ⟨_, h⟩
    · rfl
    · simp [heldAt] at h
  rw [sysSigactionActs] at h
  split at h
  · split at h
    · split_ifs at h
      · simp [heldAt] at h
      · simp only [List.cons_append, List.nil_append, heldAt] at h
        rcases mem_heldAt_acts h with rfl | ⟨_, h⟩
        · rfl
        · exact hrest h
      · simp only [List.cons_append, List.nil_append, heldAt] at h
        rcases mem_heldAt_acts h with rfl | ⟨_, h⟩
        · rfl
        · rw [heldAt, List.mem_cons] at h
          rcases h with rfl | h
          · rfl
          · exact hrest h
    · simp [heldAt] at h
  · simp [heldAt] at h

/-- What is held at an access depends only on where it is. -/
theorem accesses_held {k : Kernel} {call : Syscall} (h : x ∈ k.accesses call) : x.2 = x.1.held := by
  rw [accesses] at h
  split at h
  next pid p _ =>
    cases call with
    | read fd len => exact sysReadActs_held h
    | write fd len => exact sysWriteActs_held h
    | open_ path flags found => exact sysOpenActs_held h
    | pipe ptr => exact sysPipeActs_held h
    | exec path args elf stackMapped => exact sysExecActs_held h
    | waitpid pid exitCodePtr => exact sysWaitpidActs_held h
    | sigaction signum action oldAction => exact sysSigactionActs_held h
    | _ => simp [Syscall.acts, heldAt] at h
  next => simp at h

theorem clean_held_iff (a : Access) : Clean a.held ↔ a = .execPath ∨ a = .exitCode := by
  cases a <;> simp [Clean, Access.held, Guard.poisons]

end accesses

/-! Panics that come from what dead tasks hold -/

def Panic.poisoned : Panic → Bool
  | .deadlock | .waitpid => true
  | _ => false

def Safe (e : Panic) : Prop := e.poisoned = false

namespace Kernel

/-- The keys of `PROC_MAP` are processes that there have been, each once. -/
def Registered (k : Kernel) : Prop := k.procMap.Nodup ∧ ∀ pid ∈ k.procMap, pid < k.procs.length

/-- Nobody dies with a lock or a reference to a process. -/
structure Calm (k k' : Kernel) : Prop where
  procs : k'.leakedProcs = k.leakedProcs
  locks : k'.leakedLocks = k.leakedLocks
  registered : k.Registered → k'.Registered

variable {k k' k'' : Kernel} {t pid : ℕ} {c : Cont} {input : Input}

theorem Calm.refl (k : Kernel) : Calm k k := ⟨rfl, rfl, id⟩

theorem Calm.trans (h : Calm k k') (h' : Calm k' k'') : Calm k k'' :=
  ⟨h'.procs.trans h.procs, h'.locks.trans h.locks, fun hr => h'.registered (h.registered hr)⟩

theorem Calm.of_eq (hprocs : k'.leakedProcs = k.leakedProcs) (hlocks : k'.leakedLocks = k.leakedLocks)
    (hmap : k'.procMap = k.procMap) (hlen : k.procs.length ≤ k'.procs.length) : Calm k k' := by
  refine ⟨hprocs, hlocks, fun hr => ⟨by rw [hmap]; exact hr.1, fun pid hpid => ?_⟩⟩
  rw [hmap] at hpid
  exact (hr.2 pid hpid).trans_le hlen

/-- What came before has not touched any of this. -/
theorem Calm.after {k₁ : Kernel} (h : Calm k₁ k') (hprocs : k₁.leakedProcs = k.leakedProcs)
    (hlocks : k₁.leakedLocks = k.leakedLocks) (hmap : k₁.procMap = k.procMap)
    (hlen : k₁.procs = k.procs) : Calm k k' :=
  (Calm.of_eq hprocs hlocks hmap (by rw [hlen])).trans h

theorem calm_modifyProc (k : Kernel) (pid : ℕ) (g : Process → Process) : Calm k (k.modifyProc pid g) :=
  .of_eq rfl rfl rfl (List.length_modify ..).ge

/-! Looking things up -/

theorem task_safe (k : Kernel) (t : ℕ) :
    Ensures (k.task t) (fun task => k.tasks[t]? = some task) Safe := by
  rw [Kernel.task]
  split
  next task h => exact .ok h
  next => exact .error rfl

theorem process_safe (k : Kernel) (pid : ℕ) :
    Ensures (k.process pid) (fun p => k.procs[pid]? = some (some p)) Safe := by
  rw [process]
  split
  next p h => exact .ok h
  next => exact .error rfl

theorem lock_safe (hlocks : k.leakedLocks = []) (lock : ProcLock) :
    Ensures (k.lock lock) (fun _ => True) Safe := by
  rw [Kernel.lock, hlocks, if_neg List.not_mem_nil]
  exact .ok trivial

theorem proc_safe (k : Kernel) : Ensures k.proc (fun r => k.proc = .ok r) Safe := by
  have hsafe : Ensures k.proc (fun _ => True) Safe :=
    .bind (task_safe k _) fun _ _ => .bind (process_safe k _) fun _ _ => .pure trivial
  cases h : k.proc with
  | ok r => exact .ok rfl
  | error e =>
    rw [h] at hsafe
    exact hsafe

theorem object_safe (list : List (Option ℕ)) (id : ℕ) {e : Panic} (he : Safe e) :
    Ensures (object list id e) (fun _ => True) Safe := by
  rw [object]
  split
  · exact .ok trivial
  · exact .error he

theorem onlyTask_safe (k : Kernel) (pid : ℕ) : Ensures (k.onlyTask pid) (fun _ => True) Safe := by
  refine .bind (process_safe k pid) fun p _ => .ite (fun _ => .throw rfl) fun _ => ?_
  split
  · exact .pure trivial
  · exact .throw rfl

/-! Scheduling -/

theorem pickNext_safe (readyQueue : List ℕ) :
    Ensures (k.pickNext readyQueue) (fun _ => True) Safe := by
  induction readyQueue with
  | nil => exact .ok trivial
  | cons t readyQueue ih =>
    rw [pickNext]
    split
    · exact .ok trivial
    · exact .error rfl
    · exact .bind ih fun _ _ => .pure trivial
    · exact .bind ih fun _ _ => .pure trivial
    · exact .error rfl

theorem switchTo_calm (k : Kernel) (t : ℕ) : Ensures (k.switchTo t) (Calm k) Safe :=
  .ite (fun _ => .ok (.of_eq rfl rfl rfl le_rfl)) fun _ => .ite (fun _ => .error rfl) fun _ =>
    .ok (.of_eq rfl rfl rfl le_rfl)

theorem resched_calm (k : Kernel) : Ensures k.resched (Calm k) Safe := by
  have hpick : Ensures k.pickNextTask (fun r => Calm k r.2) Safe :=
    .bind (pickNext_safe _) fun _ _ => .pure (.of_eq rfl rfl rfl le_rfl)
  refine .ite (fun _ => .error rfl) fun _ => .bind hpick ?_
  rintro ⟨next, k₁⟩ hk
  cases next with
  | none => exact (switchTo_calm k₁ idleTask).mono fun _ h => hk.trans h
  | some t => exact (switchTo_calm k₁ t).mono fun _ h => hk.trans h

theorem yieldCurrent_calm (k : Kernel) : Ensures k.yieldCurrent (Calm k) Safe := by
  have hidle : ∀ k₁ : Kernel, Ensures (k₁.isIdle k₁.current) (fun _ => True) Safe := fun k₁ =>
    .bind (task_safe _ _) fun _ _ => .bind (process_safe _ _) fun _ _ => .pure trivial
  refine .ite (fun _ => .error rfl) fun _ => .bind (hidle (k.setState k.current .ready)) fun _ _ =>
    .ite (fun _ => (resched_calm _).mono fun _ h => h.after rfl rfl rfl rfl) fun _ =>
      (resched_calm _).mono fun _ h => h.after rfl rfl rfl rfl

theorem yieldNow_calm (k : Kernel) (c : Cont) : Ensures (k.yieldNow c) (Calm k) Safe :=
  (yieldCurrent_calm _).mono fun _ h => h.after rfl rfl rfl rfl

theorem blockAndYield_calm (k : Kernel) (c : Cont) : Ensures (k.blockAndYield c) (Calm k) Safe :=
  (resched_calm _).mono fun _ h => h.after rfl rfl rfl rfl

theorem spawn_calm (k : Kernel) (t : ℕ) : Ensures (k.spawn t) (Calm k) Safe :=
  .ite (fun _ => .ok (.of_eq rfl rfl rfl le_rfl)) fun _ => .error rfl

theorem resume_calm (k : Kernel) (t : ℕ) : Ensures (k.resume t) (Calm k) Safe :=
  .ite (fun _ => (spawn_calm _ t).mono fun _ h => h.after rfl rfl rfl rfl)
    fun _ => .error rfl

/-- With no lock left behind, a task can exit. -/
theorem exit_calm (hlocks : k.leakedLocks = []) (code : Int32) : Ensures (k.exit code) (Calm k) Safe := by
  refine .bind (task_safe _ _) fun task _ => ?_
  have hexit : Ensures (((k.setState k.current .zombie).setExitCode k.current code).taskExit
      task.process code) (Calm k) Safe :=
    .bind (process_safe _ _) fun p _ => .ite (fun _ => .bind (lock_safe hlocks _) fun _ _ =>
      .pure ((calm_modifyProc ..).after rfl rfl rfl rfl))
        fun _ => .pure (.of_eq rfl rfl rfl le_rfl)
  exact .bind hexit fun k₁ h₁ => .ite (fun _ => .error rfl) fun _ =>
    (resched_calm _).mono fun _ h => h₁.trans (h.after rfl rfl rfl rfl)

/-! System calls -/

/-- A fault in an access, if what is then left behind is no lock and no reference. -/
theorem access_calm {α : Type} {ref : UserRef α} {f : α → Except Panic (Flow × Kernel)}
    (hk : ref = .fault → Calm k k') (hlocks : k.leakedLocks = [])
    (hf : ∀ a, ref = .mapped a → Ensures (f a) (fun r => Calm k r.2) Safe) :
    Ensures (access ref k' f) (fun r => Calm k r.2) Safe := by
  cases ref with
  | refused => exact .throw rfl
  | fault =>
    have h := hk rfl
    exact .bind (exit_calm (h.locks.trans hlocks) (-1)) fun _ h' => .pure (h.trans h')
  | mapped a => exact hf a rfl

theorem sysRead_calm (k : Kernel) (fd len : ℕ) :
    Ensures (k.sysRead fd len) (fun r => Calm k r.2) Safe := by
  refine .bind (proc_safe k) ?_
  rintro ⟨pid, p⟩ -
  dsimp only
  split
  · refine .ite (fun _ => .pure (.refl k)) fun _ => ?_
    split
    · exact .ite (fun _ => .throw rfl) fun _ => .pure (.of_eq rfl rfl rfl le_rfl)
    · exact .pure (.of_eq rfl rfl rfl le_rfl)
    · exact .pure (.of_eq rfl rfl rfl le_rfl)
    · exact .throw rfl
  · exact .pure (.refl k)

theorem sysWrite_calm (k : Kernel) (fd len : ℕ) :
    Ensures (k.sysWrite fd len) (fun r => Calm k r.2) Safe := by
  refine .bind (proc_safe k) ?_
  rintro ⟨pid, p⟩ -
  dsimp only
  split
  · exact .ite (fun _ => .pure (.refl k)) fun _ => .pure (.of_eq rfl rfl rfl le_rfl)
  · exact .pure (.refl k)

theorem sysClose_calm (k : Kernel) (fd : ℕ) :
    Ensures (k.sysClose fd) (fun r => Calm k r.2) Safe := by
  refine .bind (proc_safe k) ?_
  rintro ⟨pid, p⟩ -
  dsimp only
  split
  · exact .pure (calm_modifyProc ..)
  · exact .pure (.refl k)

theorem sysDup_calm (k : Kernel) (fd : ℕ) :
    Ensures (k.sysDup fd) (fun r => Calm k r.2) Safe := by
  refine .bind (proc_safe k) ?_
  rintro ⟨pid, p⟩ -
  dsimp only
  split
  · exact .pure (calm_modifyProc ..)
  · exact .pure (.refl k)

theorem registered_snoc (h : k.Registered) (hmap : k'.procMap = k.procMap ++ [k.procs.length])
    (hlen : k'.procs.length = k.procs.length + 1) : k'.Registered := by
  refine ⟨?_, fun pid hpid => ?_⟩
  · rw [hmap]
    refine h.1.append (List.nodup_singleton _) ?_
    rw [List.disjoint_singleton]
    exact fun hm => lt_irrefl _ (h.2 _ hm)
  · rw [hmap, List.mem_append, List.mem_singleton] at hpid
    rcases hpid with hpid | rfl
    · exact hlen ▸ Nat.lt_succ_of_lt (h.2 pid hpid)
    · exact hlen ▸ Nat.lt_succ_self _

theorem sysFork_calm (hlocks : k.leakedLocks = []) :
    Ensures k.sysFork (fun r => Calm k r.2) Safe := by
  refine .bind (task_safe k _) fun task _ => ?_
  have hfork : Ensures (k.newFork task.process task.tf) (fun r => r.1 = k.procs.length ∧
      r.2.leakedProcs = k.leakedProcs ∧ r.2.leakedLocks = k.leakedLocks ∧ r.2.procMap = k.procMap ∧
      r.2.procs.length = k.procs.length + 1) Safe := by
    refine .bind (process_safe k _) fun p _ => .ite (fun _ => .throw rfl) fun _ =>
      .bind (lock_safe hlocks _) fun _ _ => .ite (fun _ => .throw rfl) fun _ =>
        .pure ⟨rfl, rfl, rfl, rfl, ?_⟩
    simp [addChild, modifyProc, newProcess]
  refine .bind hfork ?_
  rintro ⟨child, k₁⟩ ⟨hchild, hprocs, hl, hmap, hlen⟩
  have hk : Calm k { k₁ with procMap := k₁.procMap ++ [child] } := by
    refine ⟨hprocs, hl, fun hr => registered_snoc hr ?_ hlen⟩
    rw [show child = _ from hchild, show k₁.procMap = _ from hmap]
  refine .bind (onlyTask_safe _ child) fun t _ => ?_
  exact .bind (spawn_calm _ t) fun _ h => .pure (hk.trans h)

theorem sysThreadCreate_calm (hlocks : k.leakedLocks = []) (entry arg : UInt64) :
    Ensures (k.sysThreadCreate entry arg) (fun r => Calm k r.2) Safe := by
  refine .bind (proc_safe k) ?_
  rintro ⟨pid, p⟩ -
  have hnew : Ensures (k.newUserTask pid entry arg) (fun r => Calm k r.2.2) Safe :=
    .bind (process_safe k _) fun p _ => .bind (lock_safe hlocks _) fun _ _ =>
      .ite (fun _ => .throw rfl) fun _ => .ite (fun _ => .throw rfl) fun _ =>
        .pure ((calm_modifyProc ..).after rfl rfl rfl rfl)
  refine .bind hnew ?_
  rintro ⟨tid, t, k₁⟩ hk
  exact .bind (spawn_calm _ t) fun _ h => .pure (hk.trans h)

theorem sysWaittid_calm (k : Kernel) (tid : ℕ) :
    Ensures (k.sysWaittid tid) (fun r => Calm k r.2) Safe := by
  refine .bind (task_safe k _) fun task _ => .ite (fun _ => .pure (.refl k)) fun _ => ?_
  have hw : Ensures (k.waittid task.process tid) (fun r => Calm k r.2) Safe := by
    refine .bind (process_safe k _) fun p _ => ?_
    split
    · exact .bind (task_safe k _) fun _ _ => .ite (fun _ => .pure (calm_modifyProc ..)) fun _ =>
        .pure (.refl k)
    · exact .pure (.refl k)
  refine .bind hw ?_
  rintro ⟨ret, k₁⟩ hk
  exact .pure hk

theorem mem_children_iff {child : ℕ} : (child ∈ k.procs.flatMap fun p => (p.map Process.children).getD []) ↔
    ∃ q, child ∈ childrenOf k.tree q := by
  rw [List.mem_flatMap]
  constructor
  · rintro ⟨p, hp, hc⟩
    obtain ⟨q, hq⟩ := List.mem_iff_getElem?.mp hp
    cases p with
    | none => simp at hc
    | some p => exact ⟨q, by rw [childrenOf_eq hq]; exact hc⟩
  · rintro ⟨q, hc⟩
    rw [childrenOf, tree] at hc
    split at hc
    next p hq => exact ⟨some p, List.mem_of_getElem? hq, hc⟩
    next => simp at hc

/-- The references to a child go with its place in the list of its parent and in `PROC_MAP`,
if no dead task has one. -/
theorem procRefs_reaped {parent child : ℕ} {p : Process} (hprocs : k.leakedProcs = []) (hreg : k.Registered)
    (hfamily : Family False k.tree) (hp : k.procs[parent]? = some (some p))
    (hc : child ∈ p.children) : ({ k.modifyProc parent (fun p => { p with children := p.children.erase child }) with
      procMap := k.procMap.erase child } : Kernel).procRefs child = 0 := by
  have hmap : (k.procMap.erase child).count child = 0 := by
    rw [List.count_eq_zero]
    exact fun hm => (List.Nodup.mem_erase_iff hreg.1).mp hm |>.1 rfl
  have hchildren : child ∉ (k.modifyProc parent fun p =>
      { p with children := p.children.erase child }).procs.flatMap fun p =>
        (p.map Process.children).getD [] := by
    rw [mem_children_iff, tree_modifyProc_eq hp, childrenOf_update_some]
    rintro ⟨q, hq⟩
    have hnodup : p.children.Nodup := childrenOf_eq hp ▸ hfamily.part.nodup parent
    rw [Function.update_apply] at hq
    split_ifs at hq with hqp
    · exact (hnodup.mem_erase_iff.mp hq).1 rfl
    · exact hqp (hfamily.part.owner_unique hq (by rwa [childrenOf_eq hp]))
  rw [procRefs]
  dsimp only
  rw [List.count_eq_zero.mpr hchildren, hmap, show (k.modifyProc parent _).leakedProcs = [] from hprocs]
  rfl

/-- A child that nobody else refers to is reaped. -/
theorem waitpid_calm (hprocs : k.leakedProcs = []) (hreg : k.Registered) (hfamily : Family False k.tree)
    (parent : ℕ) (pid : ℤ) : Ensures (k.waitpid parent pid) (fun r => Calm k r.2.2) Safe := by
  refine .bind (process_safe k parent) fun p hp => ?_
  dsimp only
  split
  next child hfind =>
    refine .bind (process_safe k child) fun c hc => .ite (fun hrefs => ?_) fun _ => .pure ?_
    · exact absurd (procRefs_reaped hprocs hreg hfamily hp (List.mem_of_find?_eq_some hfind)) hrefs
    · refine ⟨rfl, rfl, fun hr => ⟨hr.1.erase child, fun pid hpid => ?_⟩⟩
      have hlt := hr.2 pid (List.mem_of_mem_erase hpid)
      simpa [modifyProc] using hlt
  next => exact .pure (.refl k)

theorem sysWaitpid_calm (hlocks : k.leakedLocks = []) (hprocs : k.leakedProcs = []) (hreg : k.Registered)
    (hfamily : Family False k.tree) (pid : ℤ) (exitCodePtr : UserRef Unit) :
    Ensures (k.sysWaitpid pid exitCodePtr) (fun r => Calm k r.2) Safe := by
  refine .bind (proc_safe k) ?_
  rintro ⟨parent, p⟩ -
  refine .bind (waitpid_calm hprocs hreg hfamily parent pid) ?_
  rintro ⟨ret, exitCode, k₁⟩ hk
  exact access_calm (fun _ => hk) hlocks fun _ _ => .pure hk

theorem not_clean {held : List Guard} {g : Guard} (hg : g ∈ held) (hp : g.poisons = true) : ¬ Clean held :=
  fun h => by rw [h g hg] at hp; cases hp

theorem sysOpen_calm (hlocks : k.leakedLocks = []) {path : UserRef String} {found : Bool}
    (hl : ∀ r, k.proc = .ok r → Clean (leftBehind [] (sysOpenActs path found))) (flags : BitVec 32) :
    Ensures (k.sysOpen path flags found) (fun r => Calm k r.2) Safe := by
  refine .bind (proc_safe k) ?_
  rintro ⟨pid, p⟩ hproc
  have hl := hl _ hproc
  refine access_calm (fun hpath => ?_) hlocks fun _ _ => ?_
  · rw [hpath] at hl
    exact absurd hl (not_clean (g := .process) (by simp [sysOpenActs, UserRef.acts, leftBehind]) rfl)
  · dsimp only
    split
    · exact .throw rfl
    · split
      · exact .pure ((calm_modifyProc ..).after rfl rfl rfl rfl)
      · exact .pure (.refl k)

theorem sysPipe_calm (hlocks : k.leakedLocks = []) {ptr : UserRef Unit}
    (hl : ∀ r, k.proc = .ok r → Clean (leftBehind [] (sysPipeActs ptr))) :
    Ensures (k.sysPipe ptr) (fun r => Calm k r.2) Safe := by
  refine .bind (proc_safe k) ?_
  rintro ⟨pid, p⟩ hproc
  have hl := hl _ hproc
  refine access_calm (fun hptr => ?_) hlocks fun _ _ => .pure ((calm_modifyProc ..).after rfl rfl rfl rfl)
  rw [hptr] at hl
  exact absurd hl (not_clean (g := .process)
    (by simp [sysPipeActs, allocFdActs, UserRef.acts, leftBehind]) rfl)

theorem exec_calm (hlocks : k.leakedLocks = []) {args : List String} {elf : Option (UInt64 × ℕ)}
    {stackMapped : Bool} (hl : elf.isSome = true → args.isEmpty = false → stackMapped = true) (pid : ℕ) :
    Ensures (k.exec pid args elf stackMapped) (fun r => Calm k r.2) Safe := by
  refine .bind (process_safe k pid) fun p _ => .ite (fun _ => .throw rfl) fun _ =>
    .ite (fun _ => .throw rfl) fun _ => ?_
  split
  next entry ustackTop =>
    refine .bind (lock_safe hlocks _) fun _ _ => access_calm (fun hstack => ?_) hlocks fun _ _ =>
      .pure ((calm_modifyProc ..).trans (.of_eq rfl rfl rfl le_rfl))
    have hmapped : (stackMapped || args.isEmpty) = true := by
      cases hargs : args.isEmpty with
      | true => rw [Bool.or_true]
      | false => rw [hl rfl hargs, Bool.true_or]
    rw [if_pos hmapped] at hstack
    cases hstack
  next => exact .pure (.refl k)

theorem sysExec_calm (hlocks : k.leakedLocks = []) {path : UserRef String} {args : UserRef (List String)}
    {elf : Option (UInt64 × ℕ)} {stackMapped : Bool}
    (hl : ∀ r, k.proc = .ok r → Clean (leftBehind [] (sysExecActs path args elf stackMapped))) :
    Ensures (k.sysExec path args elf stackMapped) (fun r => Calm k r.2) Safe := by
  refine access_calm (fun _ => .refl k) hlocks fun _ hpath => .bind (proc_safe k) ?_
  rintro ⟨pid, p⟩ hproc
  have hl := hl _ hproc
  refine access_calm (fun hargs => ?_) hlocks fun args hargs => exec_calm hlocks (fun helf hne => ?_) pid
  · rw [hpath, hargs] at hl
    exact absurd hl (not_clean (g := .process) (by simp [sysExecActs, UserRef.acts, leftBehind]) rfl)
  · obtain ⟨program, rfl⟩ := Option.isSome_iff_exists.mp helf
    by_contra hstack
    rw [hpath, hargs] at hl
    exact absurd hl (not_clean (g := .process)
      (by simp [sysExecActs, UserRef.acts, leftBehind, hne, hstack]) rfl)

theorem sysSigaction_calm (hlocks : k.leakedLocks = []) {signum : ℤ} {action : Option (UserRef SignalAction)}
    {oldAction : Option (UserRef Unit)}
    (hl : ∀ r, k.proc = .ok r → Clean (leftBehind [] (sysSigactionActs r.2 signum action oldAction))) :
    Ensures (k.sysSigaction signum action oldAction) (fun r => Calm k r.2) Safe := by
  rw [sysSigaction]
  split
  next hs =>
    split
    next signal action oldAction hsignal =>
      refine .ite (fun _ => .pure (.refl k)) fun hne => .bind (proc_safe k) ?_
      rintro ⟨pid, p⟩ hproc
      have hl := hl _ hproc
      rw [sysSigactionActs, dif_pos hs] at hl
      simp only [hsignal, if_neg hne, List.cons_append, List.nil_append, leftBehind] at hl
      refine .bind (lock_safe hlocks _) fun _ _ => access_calm (fun hold => ?_) hlocks fun _ hold =>
        access_calm (fun haction => ?_) hlocks fun _ _ => .pure (calm_modifyProc ..)
      · rw [hold] at hl
        split_ifs at hl <;>
          exact absurd hl (not_clean (g := .process) (by simp [UserRef.acts, leftBehind]) rfl)
      · rw [hold, haction] at hl
        split_ifs at hl <;>
          exact absurd hl (not_clean (g := .process) (by simp [UserRef.acts, leftBehind]) rfl)
    next => exact .pure (.refl k)
  next => exact .pure (.refl k)

theorem calm_insertSignals (flag : SignalFlags) (tasks : List (ℕ × ℕ)) (k : Kernel) :
    Calm k (k.insertSignals flag tasks).2 := by
  induction tasks generalizing k with
  | nil => exact .refl k
  | cons e tasks ih =>
    have hfirst : Calm k (k.insertSignal e.2 flag).2 := by
      rw [insertSignal]
      split
      · split_ifs
        · exact .of_eq rfl rfl rfl le_rfl
        · exact .refl k
      · exact .refl k
    exact hfirst.trans (ih _)

theorem exitGroup_calm (hlocks : k.leakedLocks = []) (code : Int32) :
    Ensures (k.syscall (.exitGroup code)) (fun r => Calm k r.2) Safe := by
  refine .bind (proc_safe k) ?_
  rintro ⟨pid, p⟩ -
  have hstop : Ensures (k.stop pid code) (Calm k) Safe := by
    refine .bind (process_safe k _) fun p _ => .ite (fun _ => .throw rfl) fun _ => .pure ?_
    have hk : Calm k (k.reparent pid p.children) := (calm_modifyProc ..).trans (calm_modifyProc ..)
    exact (hk.trans (calm_insertSignals SIGKILL p.tasks _)).trans (calm_modifyProc ..)
  exact .bind hstop fun k₁ h₁ => .bind (exit_calm (h₁.locks.trans hlocks) code) fun _ h₂ =>
    .pure (h₁.trans h₂)

theorem kill_calm (k : Kernel) (pid : ℕ) (signum : ℤ) :
    Ensures (k.kill pid signum) (fun r => Calm k r.2) Safe := by
  refine .ite (fun _ => .bind (process_safe k _) fun p _ => ?_) fun _ => .pure (.refl k)
  split
  · exact .pure (calm_insertSignals _ _ _)
  · exact .pure (.refl k)

theorem sysSigprocmask_calm (k : Kernel) (mask : BitVec 32) :
    Ensures (k.sysSigprocmask mask) (fun r => Calm k r.2) Safe := by
  refine .bind (task_safe k _) fun task _ => ?_
  split
  · exact .pure (.of_eq rfl rfl rfl le_rfl)
  · exact .pure (.refl k)

theorem sysSigreturn_calm (k : Kernel) : Ensures k.sysSigreturn (fun r => Calm k r.2) Safe := by
  refine .bind (task_safe k _) fun task _ => ?_
  split
  · exact .pure (.of_eq rfl rfl rfl le_rfl)
  · exact .throw rfl
  · exact .pure (.refl k)

/-! Waiting and waking -/

theorem mutexLock_calm (k : Kernel) (mutex : ℕ) :
    Ensures (k.mutexLock mutex) (fun r => Calm k r.2) Safe := by
  rw [mutexLock]
  split
  · exact .ite (fun _ => .bind (yieldNow_calm _ _) fun _ h => .pure h) fun _ =>
      .pure (.of_eq rfl rfl rfl le_rfl)
  · exact .ite (fun _ => .bind (blockAndYield_calm _ _) fun _ h => .pure (h.after rfl rfl rfl rfl))
      fun _ => .pure (.of_eq rfl rfl rfl le_rfl)
  · exact .throw rfl

theorem mutexUnlock_calm (k : Kernel) (mutex : ℕ) : Ensures (k.mutexUnlock mutex) (Calm k) Safe := by
  rw [mutexUnlock]
  split
  · exact .pure (.of_eq rfl rfl rfl le_rfl)
  · exact .throw rfl
  · exact (resume_calm _ _).mono fun _ h => h.after rfl rfl rfl rfl
  · exact .pure (.of_eq rfl rfl rfl le_rfl)
  · exact .throw rfl

theorem semaphoreUp_calm (k : Kernel) (sem : ℕ) : Ensures (k.semaphoreUp sem) (Calm k) Safe := by
  rw [semaphoreUp]
  split
  · refine .ite (fun _ => ?_) fun _ => .pure (.of_eq rfl rfl rfl le_rfl)
    split
    · exact (resume_calm _ _).mono fun _ h => h.after rfl rfl rfl rfl
    · exact .pure (.of_eq rfl rfl rfl le_rfl)
  · exact .throw rfl

theorem semaphoreDown_calm (k : Kernel) (sem : ℕ) :
    Ensures (k.semaphoreDown sem) (fun r => Calm k r.2) Safe := by
  rw [semaphoreDown]
  split
  · exact .ite (fun _ => .bind (blockAndYield_calm _ _) fun _ h => .pure (h.after rfl rfl rfl rfl))
      fun _ => .pure (.of_eq rfl rfl rfl le_rfl)
  · exact .throw rfl

theorem condvarSignal_calm (k : Kernel) (condvar : ℕ) :
    Ensures (k.condvarSignal condvar) (Calm k) Safe := by
  rw [condvarSignal]
  split
  · exact (resume_calm _ _).mono fun _ h => h.after rfl rfl rfl rfl
  · exact .pure (.refl k)
  · exact .throw rfl

theorem condvarWait_calm (k : Kernel) (condvar mutex : ℕ) :
    Ensures (k.condvarWait condvar mutex) (Calm k) Safe := by
  refine .bind (mutexUnlock_calm k mutex) fun k₁ h₁ => ?_
  split
  · exact (blockAndYield_calm _ _).mono fun _ h => h₁.trans (h.after rfl rfl rfl rfl)
  · exact .throw rfl

theorem returnZero_calm {r : Except Panic (Bool × Kernel)} (h : Ensures r (fun r => Calm k r.2) Safe) :
    Ensures (returnZero r) (fun r => Calm k r.2) Safe :=
  .bind h fun _ h => .pure h

theorem away_calm {r : Except Panic Kernel} (h : Ensures r (Calm k) Safe) {flow : Flow} :
    Ensures (do pure (flow, ← r)) (fun r => Calm k r.2) Safe :=
  .bind h fun _ h => .pure h

/-- A call is calm that leaves behind no lock and no reference. -/
theorem syscall_calm (hlocks : k.leakedLocks = []) (hprocs : k.leakedProcs = []) (hreg : k.Registered)
    (hfamily : Family False k.tree) {call : Syscall}
    (hl : ∀ r, k.proc = .ok r → Clean (leftBehind [] (call.acts r.2))) :
    Ensures (k.syscall call) (fun r => Calm k r.2) Safe := by
  cases call with
  | read fd len => exact sysRead_calm k fd len
  | write fd len => exact sysWrite_calm k fd len
  | exit code => exact away_calm (exit_calm hlocks code)
  | exitGroup code => exact exitGroup_calm hlocks code
  | yield => exact away_calm (yieldNow_calm k _)
  | getTime => exact .pure (.refl k)
  | getpid => exact .bind (proc_safe k) fun _ _ => .pure (.refl k)
  | fork => exact sysFork_calm hlocks
  | exec path args elf stackMapped => exact sysExec_calm hlocks hl
  | waitpid pid exitCodePtr => exact sysWaitpid_calm hlocks hprocs hreg hfamily pid exitCodePtr
  | open_ path flags found => exact sysOpen_calm hlocks hl flags
  | close fd => exact sysClose_calm k fd
  | dup fd => exact sysDup_calm k fd
  | pipe ptr => exact sysPipe_calm hlocks hl
  | kill pid signum => exact .bind (kill_calm k pid signum) fun _ h => .pure h
  | sigaction signum action oldAction => exact sysSigaction_calm hlocks hl
  | sigprocmask mask => exact sysSigprocmask_calm k mask
  | sigreturn => exact sysSigreturn_calm k
  | sleep ms => exact .bind (blockAndYield_calm _ _) fun _ h => .pure (h.after rfl rfl rfl rfl)
  | threadCreate entry arg => exact sysThreadCreate_calm hlocks entry arg
  | gettid => exact .bind (task_safe k _) fun _ _ => .pure (.refl k)
  | waittid tid => exact sysWaittid_calm k tid
  | mutexCreate blocking =>
    exact .bind (proc_safe k) fun _ _ => .pure ((calm_modifyProc ..).after rfl rfl rfl rfl)
  | mutexLock mutexId =>
    exact .bind (proc_safe k) fun _ _ => .bind (object_safe _ _ rfl) fun _ _ =>
      returnZero_calm (mutexLock_calm k _)
  | mutexUnlock mutexId =>
    exact .bind (proc_safe k) fun _ _ => .bind (object_safe _ _ rfl) fun _ _ =>
      away_calm (mutexUnlock_calm k _)
  | semaphoreCreate resCount =>
    exact .bind (proc_safe k) fun _ _ => .pure ((calm_modifyProc ..).after rfl rfl rfl rfl)
  | semaphoreUp semId =>
    exact .bind (proc_safe k) fun _ _ => .bind (object_safe _ _ rfl) fun _ _ =>
      away_calm (semaphoreUp_calm k _)
  | semaphoreDown semId =>
    exact .bind (proc_safe k) fun _ _ => .bind (object_safe _ _ rfl) fun _ _ =>
      returnZero_calm (semaphoreDown_calm k _)
  | condvarCreate =>
    exact .bind (proc_safe k) fun _ _ => .pure ((calm_modifyProc ..).after rfl rfl rfl rfl)
  | condvarSignal condvarId =>
    exact .bind (proc_safe k) fun _ _ => .bind (object_safe _ _ rfl) fun _ _ =>
      away_calm (condvarSignal_calm k _)
  | condvarWait condvarId mutexId =>
    exact .bind (proc_safe k) fun _ _ => .bind (object_safe _ _ rfl) fun _ _ =>
      .bind (object_safe _ _ rfl) fun _ _ => away_calm (condvarWait_calm k _ _)
  | unsupported => exact away_calm (exit_calm hlocks (-1))

/-! The end of a trap, and going on in the kernel -/

theorem handleSignals_calm (hlocks : k.leakedLocks = []) : Ensures k.handleSignals (Calm k) Safe := by
  refine .bind (task_safe k _) fun task _ => .bind (process_safe k _) fun p _ => ?_
  generalize task.signal.checkPendingSignals p.signalActions task.tf = r
  obtain ⟨signal, inner, tf⟩ := r
  have hlock : Ensures (k.lockActions task signal) (fun _ => True) Safe :=
    .ite (fun _ => lock_safe hlocks _) fun _ => .pure trivial
  refine .bind hlock fun _ _ => ?_
  have hend : Ensures ((k.modifyTask k.current fun task =>
      { task with signal := inner, tf }).signalsHandled inner) (Calm k) Safe := by
    rw [signalsHandled]
    split
    · exact (exit_calm (k := k.modifyTask k.current _) hlocks _).mono fun _ h => h.after rfl rfl rfl rfl
    · exact .pure (.of_eq rfl rfl rfl le_rfl)
  exact .ite (fun _ => hend) fun _ => .ite
    (fun _ => (blockAndYield_calm _ _).mono fun _ h => h.after rfl rfl rfl rfl) fun _ => hend

theorem finish_calm (hlocks : k.leakedLocks = []) (ret : ℤ) : Ensures (k.finish ret) (Calm k) Safe :=
  (handleSignals_calm (k := k.modifyTask k.current _) hlocks).mono fun _ h => h.after rfl rfl rfl rfl

theorem proceed_calm (hlocks : k.leakedLocks = []) {r : Flow × Kernel} (h : Calm k r.2) :
    Ensures (proceed r) (Calm k) Safe := by
  obtain ⟨flow, k₁⟩ := r
  cases flow with
  | ret value => exact (finish_calm (h.locks.trans hlocks) value).mono fun _ h' => h.trans h'
  | away => exact .pure h

theorem readDone_calm (hlocks : k.leakedLocks = []) (hf : input.user ≠ .fault) (file : File) (n : ℕ) :
    Ensures (k.readDone file n input) (Calm k) Safe := by
  refine .bind (proc_safe k) ?_
  rintro ⟨pid, p⟩ -
  exact .bind (access_calm (fun he => absurd he hf) hlocks fun _ _ => .pure (.refl k)) fun _ h =>
    proceed_calm hlocks h


theorem readStdin_calm (hlocks : k.leakedLocks = [])
    (hf : ∀ file, k.fileOf input .readStdin = some file → input.user ≠ .fault) :
    Ensures (k.readStdin input) (Calm k) Safe := by
  rw [readStdin]
  split
  · exact yieldNow_calm k _
  next c hc =>
    have hf := hf .stdin (by simp [fileOf, hc])
    have hk : ∀ f, Ensures ((k.modifyTask k.current f).readDone .stdin 1 input) (Calm k) Safe := fun f =>
      (readDone_calm (k := k.modifyTask k.current f) hlocks hf .stdin 1).mono fun _ h =>
        h.after rfl rfl rfl rfl
    split
    · exact hk _
    · exact readDone_calm hlocks hf .stdin 1

theorem readPipe_calm (hlocks : k.leakedLocks = []) (pipe : ℕ) (call : ReadCall)
    (hf : ∀ file, k.fileOf input (.readPipe pipe call) = some file → input.user ≠ .fault) :
    Ensures (k.readPipe pipe call input) (Calm k) Safe := by
  rw [readPipe]
  split
  · exact .throw rfl
  next ring hring =>
    split
    · exact .throw rfl
    next call' ring' bytes hround =>
      dsimp only
      split
      next n hn =>
        have hf := hf (.pipeRead pipe) (by simp [fileOf, hring, hround, hn])
        exact (readDone_calm (k := { k with pipes := k.pipes.set pipe ring' }) hlocks hf _ n).mono
          fun _ h => h.after rfl rfl rfl rfl
      next => exact .ite (fun _ => (yieldNow_calm _ _).mono fun _ h => h.after rfl rfl rfl rfl) fun _ =>
          .pure (.of_eq rfl rfl rfl le_rfl)

theorem writeChunk_calm (hlocks : k.leakedLocks = []) (file : File) (len count : ℕ)
    (hf : ∀ file', k.fileOf input (.write file len count) = some file' → input.user ≠ .fault) :
    Ensures (k.writeChunk file len count input) (Calm k) Safe := by
  refine .ite (fun hlt => .bind (proc_safe k) ?_) fun _ => finish_calm hlocks count
  rintro ⟨pid, p⟩ -
  have hf := hf file (by simp [fileOf, hlt])
  refine .bind (access_calm (fun he => absurd he hf) hlocks fun bytes _ => ?_) fun _ h =>
    proceed_calm hlocks h
  split
  · exact .ite (fun _ => .pure (.of_eq rfl rfl rfl le_rfl)) fun _ => .throw rfl
  · exact .pure (.of_eq rfl rfl rfl le_rfl)
  · exact .ite (fun _ => .pure (.of_eq rfl rfl rfl le_rfl)) fun _ => .throw rfl
  · exact .throw rfl

theorem writePipe_calm (k : Kernel) (pipe : ℕ) (call : WriteCall) (len count : ℕ) :
    Ensures (k.writePipe pipe call len count) (Calm k) Safe := by
  rw [writePipe]
  split
  · exact .throw rfl
  next ring hring =>
    generalize writeRound call ring = r
    obtain ⟨call', ring', bytes⟩ := r
    dsimp only
    split
    · exact .ite (fun _ => .pure (.of_eq rfl rfl rfl le_rfl)) fun _ => .throw rfl
    · exact .ite (fun _ => (yieldNow_calm _ _).mono fun _ h => h.after rfl rfl rfl rfl) fun _ =>
        .pure (.of_eq rfl rfl rfl le_rfl)

theorem rootReap_calm (hprocs : k.leakedProcs = []) (hreg : k.Registered)
    (hfamily : Family False k.tree) : Ensures k.rootReap (Calm k) Safe := by
  refine .bind (proc_safe k) ?_
  rintro ⟨pid, p⟩ -
  refine .bind (waitpid_calm hprocs hreg hfamily pid (-1)) ?_
  rintro ⟨ret, exitCode, k₁⟩ hk
  refine .pure ?_
  split_ifs
  · exact hk
  · exact hk.trans (.of_eq rfl rfl rfl le_rfl)

theorem rootCheck_calm (k : Kernel) : Ensures k.rootCheck (Calm k) Safe :=
  .bind (proc_safe k) fun _ _ => .ite (fun _ => .pure (.of_eq rfl rfl rfl le_rfl)) fun _ =>
    yieldNow_calm k _

theorem checkTimerLoop_calm (tie : List TimerCondVar → ℕ) (n : ℕ) (k : Kernel) :
    Ensures (checkTimerLoop tie n k) (Calm k) Safe := by
  induction n generalizing k with
  | zero => exact .pure (.refl k)
  | succ n ih =>
    rw [checkTimerLoop]
    split
    · exact .ite (fun _ => .bind (resume_calm k _) fun k₁ h₁ => (ih _).mono fun _ h =>
        h₁.trans (h.after rfl rfl rfl rfl)) fun _ => .pure (.refl k)
    · exact .pure (.refl k)

/-- A task that goes on in the kernel and dies, leaves a reference behind. -/
theorem user_ne_fault (hl : Clean (k.leaves (.proceed input))) (hc : k.contOf k.current = some c)
    (file : File) (hfile : k.fileOf input c = some file) : input.user ≠ .fault := by
  obtain ⟨user, console, moved⟩ := input
  rintro rfl
  rw [leaves, hc, Option.bind_some, hfile] at hl
  exact not_clean (g := .process) (by simp) rfl hl

theorem proceedWith_calm (hlocks : k.leakedLocks = []) (hprocs : k.leakedProcs = []) (hreg : k.Registered)
    (hfamily : Family False k.tree) (hl : Clean (k.leaves (.proceed input)))
    (hc : k.contOf k.current = some c) : Ensures (k.proceedWith input c) (Calm k) Safe := by
  have hf := user_ne_fault hl hc
  cases c with
  | user => exact .pure (.refl k)
  | finish ret => exact finish_calm hlocks ret
  | lock mutex => exact .bind (returnZero_calm (mutexLock_calm k mutex)) fun _ h => proceed_calm hlocks h
  | locked mutex => exact finish_calm hlocks 0
  | readStdin => exact readStdin_calm hlocks hf
  | readInode file len => exact readDone_calm hlocks (hf file rfl) file _
  | readPipe pipe call => exact readPipe_calm hlocks pipe call hf
  | write file len count => exact writeChunk_calm hlocks file len count hf
  | writePipe pipe call len count => exact writePipe_calm k pipe call len count
  | signals => exact handleSignals_calm hlocks
  | rootReap => exact rootReap_calm hprocs hreg hfamily
  | rootCheck => exact rootCheck_calm k
  | kernelEntry => exact exit_calm hlocks 0
  | run => exact .throw rfl
  | exited => exact .throw rfl

/-- A step in which nobody dies with a lock or a reference to a process. -/
theorem step_calm (hlocks : k.leakedLocks = []) (hprocs : k.leakedProcs = []) (hreg : k.Registered)
    (hfamily : Family False k.tree) {e : Event} (hl : Clean (k.leaves e)) :
    Ensures (k.step e) (Calm k) Safe := by
  cases e with
  | syscall call tf =>
    have hcall : Ensures ((k.setTf tf).syscall call) (fun r => Calm (k.setTf tf) r.2) Safe := by
      refine syscall_calm (k := k.setTf tf) hlocks hprocs hreg hfamily fun r hr => ?_
      rw [proc_setTf] at hr
      rw [leaves, hr] at hl
      exact hl
    exact .bind hcall fun _ h => proceed_calm hlocks (h.after rfl rfl rfl rfl)
  | fault => exact exit_calm hlocks (-1)
  | proceed input =>
    refine .bind (task_safe k _) fun task htask =>
      proceedWith_calm hlocks hprocs hreg hfamily hl ?_
    rw [contOf, htask]
    rfl
  | timer tie => exact .bind (checkTimerLoop_calm tie _ k) fun _ h₁ =>
      (yieldCurrent_calm _).mono fun _ h => h₁.trans h
  | clock ms => exact .pure (.of_eq rfl rfl rfl le_rfl)

end Kernel

/-- The runs in which nobody dies with a lock or a reference to a process. -/
inductive CleanTrace : Kernel → List Kernel → Prop
  | boot {k : Kernel} {entry ustackTop : UInt64} (h : boot entry ustackTop = .ok k) : CleanTrace k [k]
  | step {k k' : Kernel} {states : List Kernel} {e : Event} (h : CleanTrace k states) (he : k.enabled e)
      (hs : k.step e = .ok k') (hl : Clean (k.leaves e)) : CleanTrace k' (k' :: states)

namespace CleanTrace

variable {k : Kernel} {states : List Kernel}

theorem trace (h : CleanTrace k states) : Trace k states := by
  induction h with
  | boot h => exact .boot h
  | step _ he hs _ ih => exact .step ih he hs

theorem calm (h : CleanTrace k states) : k.leakedLocks = [] ∧ k.leakedProcs = [] ∧ k.Registered := by
  induction h with
  | boot h =>
    rw [boot_eq] at h
    obtain rfl := Except.ok.inj h
    exact ⟨rfl, rfl, List.nodup_nil, fun _ hpid => by cases hpid⟩
  | step h _ hs hl ih =>
    obtain ⟨hlocks, hprocs, hreg⟩ := ih
    have hcalm := Ensures.post_of_ok (step_calm hlocks hprocs hreg (h.trace.inv False.elim).family hl) hs
    exact ⟨hcalm.locks.trans hlocks, hcalm.procs.trans hprocs, hcalm.registered hreg⟩

end CleanTrace

/-- A call holds nothing at its accesses to user memory exactly if these are the path of
`exec` and the exit code of `waitpid`. As long as tasks die only where nothing is held, no
task spins on a lock of a dead one, and the assertion of `waitpid` does not fail. -/
theorem fault_safety_iff (k₀ : Kernel) (call : Syscall) : ((∀ x ∈ k₀.accesses call, Clean x.2) ↔
      ∀ x ∈ k₀.accesses call, x.1 = .execPath ∨ x.1 = .exitCode) ∧
    ∀ k states, CleanTrace k states → ∀ e, Clean (k.leaves e) →
      k.step e ≠ .error .deadlock ∧ k.step e ≠ .error .waitpid := by
  constructor
  · refine forall₂_congr fun x hx => ?_
    rw [accesses_held hx, clean_held_iff]
  · intro k states h e hl
    obtain ⟨hlocks, hprocs, hreg⟩ := h.calm
    have hstep := step_calm hlocks hprocs hreg (h.trace.inv False.elim).family hl
    constructor
    · intro he
      cases Ensures.fails_of_error hstep he
    · intro he
      cases Ensures.fails_of_error hstep he

/-- The kernel after some events in which nobody dies with a lock or a reference. -/
def Kernel.cleanRun (k : Kernel) : List Event → Option Kernel
  | [] => some k
  | e :: es =>
    if k.enabled e && (k.leaves e).all (fun g => !g.poisons) then
      match k.step e with
      | .ok k' => k'.cleanRun es
      | .error _ => none
    else none

theorem CleanTrace.run {k k' : Kernel} {states : List Kernel} {es : List Event}
    (h : CleanTrace k states) (hr : k.cleanRun es = some k') : ∃ states', CleanTrace k' states' := by
  induction es generalizing k states with
  | nil =>
    cases hr
    exact ⟨states, h⟩
  | cons e es ih =>
    rw [Kernel.cleanRun] at hr
    split_ifs at hr with he
    rw [Bool.and_eq_true] at he
    split at hr
    next k₁ hs => exact ih (.step h he.1 hs fun g hg => by simpa using List.all_eq_true.mp he.2 g hg) hr
    next => cases hr

/-- The child of the shell dies when `waitpid` leaves an exit code at an address that is not
mapped. The shell waits for it. -/
theorem fault_safety_iff_waitpid : ∃ k states, CleanTrace k states ∧ k.stateOf 5 = some .zombie ∧
    k.step (.syscall (.waitpid 5 (.mapped ())) (.newUser 0 0)) ≠ .error .waitpid := by
  have hrun : ((booted 0 0).cleanRun (forked ++ [.syscall (.waitpid 7 .fault) (.newUser 0 0),
      .proceed .zero])).any (fun k => k.stateOf 5 == some .zombie &&
        (k.leaves (.syscall (.waitpid 5 (.mapped ())) (.newUser 0 0))).isEmpty) = true := by
    decide +kernel
  obtain ⟨k, hk, htest⟩ := (Option.any_eq_true ..).mp hrun
  obtain ⟨states, h⟩ := (CleanTrace.boot (boot_eq 0 0)).run hk
  rw [Bool.and_eq_true, beq_iff_eq, List.isEmpty_iff] at htest
  refine ⟨k, states, h, htest.1, ((fault_safety_iff k (.waitpid 5 (.mapped ()))).2 k states h _ ?_).2⟩
  rw [htest.2]
  exact fun g hg => by cases hg

/-- Whether a step ends with this panic. -/
def Kernel.panics (k : Kernel) (e : Event) (panic : Panic) : Bool :=
  match k.step e with
  | .ok _ => false
  | .error panic' => panic' == panic

theorem Kernel.step_of_panics {k : Kernel} {e : Event} {panic : Panic} (h : k.panics e panic = true) :
    k.step e = .error panic := by
  rw [panics] at h
  split at h
  next => cases h
  next panic' hs => rw [hs, beq_iff_eq.mp h]

/-- The shell forks, and the child writes from an address that is not mapped: at that access
it holds a reference to its process. When it has died the shell waits for it, and the
kernel stops at the assertion of `waitpid`. And a program with arguments for which there is
no room on its stack spins on a lock of its own when it dies. -/
theorem faults_poison : ∃ k₀ states₀ k states, Trace k₀ states₀ ∧
    (Access.write .stdout, [Guard.file .stdout, Guard.process]) ∈ k₀.accesses (.write 1 1) ∧
    k₀.step (.syscall (.exec (.mapped "") (.mapped [""]) (some (0, 0)) false) (.newUser 0 0)) =
      .error .deadlock ∧
    Trace k states ∧ k.step (.syscall (.waitpid 5 (.mapped ())) (.newUser 0 0)) = .error .waitpid := by
  have hfirst : ((booted 0 0).run forked).any (fun k =>
      (k.accesses (.write 1 1)).contains (.write .stdout, [.file .stdout, .process]) &&
        k.panics (.syscall (.exec (.mapped "") (.mapped [""]) (some (0, 0)) false) (.newUser 0 0))
          .deadlock) = true := by
    decide +kernel
  have hlast : ((booted 0 0).run (forked ++ [.syscall (.write 1 1) (.newUser 0 0),
      .proceed ⟨.fault, none, 0⟩, .proceed .zero])).any (fun k =>
        k.panics (.syscall (.waitpid 5 (.mapped ())) (.newUser 0 0)) .waitpid) = true := by
    decide +kernel
  obtain ⟨k₀, states₀, h₀, htest⟩ := exists_trace hfirst
  obtain ⟨k, states, h, hwaitpid⟩ := exists_trace hlast
  rw [Bool.and_eq_true, List.contains_iff_mem] at htest
  exact ⟨k₀, states₀, k, states, h₀, htest.1, Kernel.step_of_panics htest.2, h,
    Kernel.step_of_panics hwaitpid⟩

end RCore.Os
