import RCore.Proofs.Os.Step

/-! Runs of the kernel from boot on: the invariant holds in every state. What follows for
the scheduler, for tasks that wait, and for the tree of processes. -/

namespace RCore.Os

open RCore.Lib Kernel

namespace Kernel

variable {x : Prop} {k k' : Kernel} {entry ustackTop : UInt64} {es : List Event}

/-- What `task::init` and `task::run` have done: the root task runs, and the other three
are ready. -/
def booted (entry ustackTop : UInt64) : Kernel :=
  { idle with
    tasks := [
      Task.new 0 0 (.newUser 0 0) .run,
      { Task.new 0 1 (.newUser 0 0) .rootReap with state := .running },
      Task.new 0 2 (.newUser 0 0) .kernelEntry,
      Task.new 0 3 (.newUser 0 0) .kernelEntry,
      Task.new 0 4 (.newUser entry ustackTop) .user]
    procs := [
      some { Process.new true with tasks := [(0, 0)], tidAllocator := 1 },
      some { Process.new true with tasks := [(0, 1)], tidAllocator := 1, children := [2, 3, 4] },
      some { Process.new true with tasks := [(0, 2)], tidAllocator := 1 },
      some { Process.new true with tasks := [(0, 3)], tidAllocator := 1 },
      some { Process.new false with vm := true, tasks := [(0, 4)], tidAllocator := 1 }]
    readyQueue := [2, 3, 4]
    current := 1 }

theorem boot_eq (entry ustackTop : UInt64) :
    boot entry ustackTop = .ok (booted entry ustackTop) := rfl

theorem queue_booted (p : Place) : (booted entry ustackTop).queue p = [] := by
  cases p <;> rfl

theorem status_booted (t : ℕ) : (booted entry ustackTop).sched.status t =
    if t = 1 then some .running else if t < 5 then some .ready else none := by
  rcases t with _ | _ | _ | _ | _ | t
  iterate 5 rfl
  simp [sched, stateOf, booted]

theorem not_frozen_booted (entry ustackTop : UInt64) (t : ℕ) :
    ¬ (booted entry ustackTop).Frozen t := by
  rintro ⟨task, htask, hfrozen, -⟩
  have hmem := List.mem_of_getElem? htask
  simp only [booted, List.mem_cons, List.not_mem_nil, or_false] at hmem
  rcases hmem with rfl | rfl | rfl | rfl | rfl <;> cases hfrozen

theorem sched_booted : (booted entry ustackTop).sched.Consistent idleTask 1 (some 1) where
  running t := by
    rw [status_booted]
    grind
  ready t := by
    rw [status_booted]
    simp only [sched, booted]
    grind
  ready_nodup := by simp [sched, booted]
  blocked t := by
    rw [status_booted]
    have := not_frozen_booted entry ustackTop t
    simp only [sched, queue_booted]
    grind
  queue_nodup p := by simp [sched, queue_booted]
  queue_unique p q t ht := by simp [sched, queue_booted] at ht
  stopped t _ p := by simp [sched, queue_booted]
  idle := rfl
  root := .inl rfl

theorem tasksOk_booted : (booted entry ustackTop).TasksOk := by
  intro t task htask
  rcases t with _ | _ | _ | _ | _ | t
  iterate 5
    cases htask
    constructor <;> simp [Task.new]
  simp [booted] at htask

theorem childrenOf_booted (q : ℕ) :
    childrenOf (booted entry ustackTop).tree q = if q = 1 then [2, 3, 4] else [] := by
  rcases q with _ | _ | _ | _ | _ | q
  iterate 5 rfl
  simp [childrenOf, tree, booted]

theorem isSome_tree_booted (q : ℕ) : ((booted entry ustackTop).tree q).isSome ↔ q < 5 := by
  rcases q with _ | _ | _ | _ | _ | q
  iterate 5 simp [tree, booted]
  simp [tree, booted]

theorem family_booted : Family x (booted entry ustackTop).tree where
  part := by
    refine ⟨fun q => ?_, fun p q hpq => ?_, fun c => Iff.rfl⟩
    · rw [childrenOf_booted]
      split_ifs <;> decide
    · rw [childrenOf_booted, childrenOf_booted]
      split_ifs with hp hq
      · exact absurd (hp.trans hq.symm) hpq
      all_goals simp [List.Disjoint]
  child q c hc := by
    rw [childrenOf_booted] at hc
    rw [isSome_tree_booted]
    split_ifs at hc
    · simp only [List.mem_cons, List.not_mem_nil, or_false] at hc
      omega
    · cases hc
  parent _ c hc hle := by
    rw [isSome_tree_booted] at hc
    refine ⟨1, ?_⟩
    rw [childrenOf_booted, if_pos rfl]
    simp only [List.mem_cons, List.not_mem_nil, or_false]
    omega
  root := rfl

theorem inv_booted : Inv x (booted entry ustackTop) :=
  ⟨sched_booted, rfl, tasksOk_booted, family_booted⟩

end Kernel

variable {k : Kernel} {states : List Kernel}

theorem Trace.mem (h : Trace k states) : k ∈ states := by
  cases h <;> simp

/-- Each state of a run ends a run of its own. -/
theorem Trace.of_mem {s : Kernel} (h : Trace k states) (hs : s ∈ states) :
    ∃ states', Trace s states' ∧ states' ⊆ states := by
  induction h with
  | boot hb =>
    rw [List.mem_singleton.mp hs]
    exact ⟨_, .boot hb, List.Subset.refl _⟩
  | step h he hstep ih =>
    rcases List.mem_cons.mp hs with rfl | hs
    · exact ⟨_, .step h he hstep, List.Subset.refl _⟩
    · obtain ⟨states', hs', hsub⟩ := ih hs
      exact ⟨states', hs', List.subset_cons_of_subset _ hsub⟩

/-- The invariant holds along every run. As long as no zombie has children, so does what
it says about the parents of processes. -/
theorem Trace.inv {x : Prop} (h : Trace k states) (hx : x → ∀ s ∈ states, s.NoZombieParent) :
    Inv x k := by
  induction h with
  | @boot k entry ustackTop hb =>
    rw [boot_eq] at hb
    cases hb
    exact inv_booted
  | @step k k' states e h he hs ih =>
    have hx' : x → ∀ s ∈ states, s.NoZombieParent := fun hx' s hs =>
      hx hx' s (List.mem_cons_of_mem _ hs)
    exact (step_spec (ih hx') (fun hx'' => hx' hx'' k h.mem) he).post_of_ok hs

/-- The kernel after some events, if they can happen and nothing panics. -/
def Kernel.run (k : Kernel) : List Event → Option Kernel
  | [] => some k
  | e :: es =>
    if k.enabled e then
      match k.step e with
      | .ok k' => k'.run es
      | .error _ => none
    else none

theorem Trace.run {k' : Kernel} {es : List Event} (h : Trace k states) (hr : k.run es = some k') :
    ∃ states', Trace k' states' := by
  induction es generalizing k states with
  | nil =>
    cases hr
    exact ⟨states, h⟩
  | cons e es ih =>
    rw [Kernel.run] at hr
    split_ifs at hr with he
    split at hr
    next k₁ hs => exact ih (.step h he hs) hr
    next => cases hr

/-- A state that has been computed is one of a run. -/
theorem exists_trace {es : List Event} {test : Kernel → Bool}
    (h : ((booted 0 0).run es).any test = true) :
    ∃ k states, Trace k states ∧ test k = true := by
  obtain ⟨k, hk, htest⟩ := (Option.any_eq_true ..).mp h
  obtain ⟨states, htrace⟩ := (Trace.boot (boot_eq 0 0)).run hk
  exact ⟨k, states, htrace, htest⟩

/-! The scheduler -/

/-- The task that runs is the current one; those that are ready stand in the ready queue
once, and those in a wait queue wait and stand in no other; the root task is one of the
first two kinds. So no assertion of the scheduler fails. -/
theorem scheduler_invariant (h : Trace k states) :
    (∀ t, k.stateOf t = some .running ↔ t = k.current) ∧
    k.readyQueue.Nodup ∧ (∀ t, t ∈ k.readyQueue ↔ k.stateOf t = some .ready ∧ t ≠ idleTask) ∧
    (∀ p t, t ∈ k.queue p → k.stateOf t = some .blocking) ∧
    (∀ p, (k.queue p).Nodup) ∧ (∀ p q t, t ∈ k.queue p → t ∈ k.queue q → p = q) ∧
    (k.stateOf 1 = some .running ∨ 1 ∈ k.readyQueue) ∧
    k.skipped = 0 ∧
    ∀ e, k.enabled e → ∀ panic, k.step e = .error panic → panic.ofScheduler = false := by
  have hinv : Inv False k := h.inv nofun
  refine ⟨fun t => ?_, hinv.sched.ready_nodup, fun t => ?_, fun p t ht => ?_,
    hinv.sched.queue_nodup, hinv.sched.queue_unique, ?_, hinv.skipped, fun e he panic hp => ?_⟩
  · rw [← status_eq_iff]
    exact (hinv.sched.running t).trans (by rw [Option.some.injEq, eq_comm])
  · rw [← status_eq_iff]
    exact hinv.sched.ready t
  · rw [← status_eq_iff]
    exact hinv.sched.status_of_queue ht
  · rw [← status_eq_iff]
    exact hinv.sched.root.imp_left (hinv.sched.running 1).mpr
  · exact (step_spec hinv nofun he).fails_of_error hp

theorem scheduler_invariant_boot : Trace (booted 0 0) [booted 0 0] ∧
    ∀ t, (booted 0 0).stateOf t = some .running ↔ t = 1 :=
  ⟨.boot (boot_eq 0 0), (scheduler_invariant (.boot (boot_eq 0 0))).1⟩

/-! Tasks that wait -/

namespace Kernel

/-- A task stands in one wait queue or in the heap of timers, once. -/
def Recorded (k : Kernel) (t : ℕ) : Prop :=
  ∃ p, (k.queue p).count t = 1 ∧ ∀ q, t ∈ k.queue q → q = p

/-- Sending SIGCONT or SIGKILL to some process resumes a task. -/
def Resumable (k : Kernel) (t : ℕ) : Prop :=
  ∃ (pid : ℕ) (signum ret : ℤ) (k' : Kernel), (signum = 18 ∨ signum = 9) ∧
    k.kill pid signum = .ok (ret, k') ∧ k'.stateOf t = some .ready

variable {x : Prop} {t : ℕ}

theorem Inv.blocking_iff (h : Inv x k) :
    k.stateOf t = some .blocking ↔ (∃ p, t ∈ k.queue p) ∨ k.Frozen t := by
  rw [← status_eq_iff]
  exact h.sched.blocked t

theorem Inv.recorded (h : Inv x k) {p : Place} (ht : t ∈ k.queue p) : k.Recorded t :=
  ⟨p, List.count_eq_one_of_mem (h.sched.queue_nodup p) ht,
    fun q hq => h.sched.queue_unique q p t hq ht⟩

/-- A task that is frozen waits, and nothing wakes it: it is in no queue, and a signal
is only noted. -/
theorem Inv.stranded (h : Inv x k) (hf : k.Frozen t) :
    k.stateOf t = some .blocking ∧ ¬ k.Recorded t ∧ ¬ k.Resumable t := by
  have hb : k.stateOf t = some .blocking := h.blocking_iff.mpr (.inr hf)
  refine ⟨hb, ?_, ?_⟩
  · rintro ⟨p, hp, -⟩
    have hpos : 0 < (k.queue p).count t := by
      rw [hp]
      exact Nat.one_pos
    exact h.sched.stopped t hf p (List.count_pos_iff.mp hpos)
  · rintro ⟨pid, signum, ret, k', -, hk, hready⟩
    have hq : Quiet k k' := (quiet_kill k pid signum).post_of_ok hk
    rw [hq.stateOf, hb] at hready
    cases hready

end Kernel

/-- What a step finds where nothing is read. -/
def Input.zero : Input := ⟨.mapped fun _ => 0, none, 0⟩

/-- The shell forks and gives way, so that its child runs in user mode. -/
def forked : List Event :=
  List.replicate 4 (.proceed .zero) ++
    [.syscall .fork (.newUser 0 0), .syscall .yield (.newUser 0 0)] ++
    List.replicate 4 (.proceed .zero)

/-- Every process but the idle and the root one is among the children of one process,
once, and that one is no zombie. -/
def Kernel.ProcessTree (k : Kernel) : Prop :=
  ∀ (c : ℕ) (p : Process), k.procs[c]? = some (some p) → 2 ≤ c →
    ∃ (q : ℕ) (parent : Process), k.procs[q]? = some (some parent) ∧
      parent.children.count c = 1 ∧ parent.state ≠ .zombie ∧
      ∀ (q' : ℕ) (parent' : Process), k.procs[q']? = some (some parent') →
        c ∈ parent'.children → q' = q

namespace Kernel

variable {x : Prop}

theorem mem_childrenOf {q c : ℕ} (h : c ∈ childrenOf k.tree q) :
    ∃ parent, k.procs[q]? = some (some parent) ∧ c ∈ parent.children := by
  have hs : (k.tree q).isSome := by
    rw [childrenOf] at h
    cases htree : k.tree q with
    | none =>
      rw [htree] at h
      cases h
    | some l => rfl
  obtain ⟨parent, hq⟩ := exists_proc hs
  rw [childrenOf_eq hq] at h
  exact ⟨parent, hq, h⟩

theorem Inv.processTree (h : Inv True k) (hz : k.NoZombieParent) : k.ProcessTree := by
  intro c p hp hle
  obtain ⟨q, hq⟩ := h.family.parent trivial c (by rw [tree_eq hp]; rfl) hle
  obtain ⟨parent, hparent, hc⟩ := mem_childrenOf hq
  have hnodup : parent.children.Nodup := childrenOf_eq hparent ▸ h.family.part.nodup q
  refine ⟨q, parent, hparent, List.count_eq_one_of_mem hnodup hc, fun hzombie => ?_,
    fun q' parent' hparent' hc' => ?_⟩
  · rw [hz q parent hparent hzombie] at hc
    cases hc
  · exact h.family.part.owner_unique (by rwa [childrenOf_eq hparent']) hq

/-- A child of a zombie has no other parent. -/
theorem Inv.not_processTree (h : Inv x k) {q c : ℕ} {parent : Process}
    (hq : k.procs[q]? = some (some parent)) (hzombie : parent.state = .zombie)
    (hc : c ∈ parent.children) : ¬ k.ProcessTree := by
  intro htree
  obtain ⟨hsome, hle⟩ := h.family.child q c (by rwa [childrenOf_eq hq])
  obtain ⟨p, hp⟩ := exists_proc hsome
  obtain ⟨q', parent', hq', -, hne, hunique⟩ := htree c p hp hle
  obtain rfl := hunique q parent hq hc
  rw [hq] at hq'
  cases hq'
  exact hne hzombie

end Kernel

end RCore.Os
