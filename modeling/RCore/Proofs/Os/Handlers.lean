import RCore.Proofs.Os.Signals

/-! Handlers that interrupt handlers: how many of them return to what they have
interrupted. -/

namespace RCore.Os

open RCore.Lib Kernel SignalFlags

/-- What a handler should return to. -/
structure Saved where
  elr : UInt64
  usp : UInt64
  signalMask : SignalFlags
  handlingSig : Option (Fin (MAX_SIG + 1))
deriving DecidableEq

namespace Task

/-- What the handler of a signal that is delivered now should return to. -/
def saved (task : Task) : Saved :=
  ⟨task.tf.elr, task.tf.usp, task.signal.signalMask, task.signal.handlingSig⟩

/-- The fields that a delivery sets and `sys_sigreturn` takes back. -/
def handler (task : Task) : Option (Fin (MAX_SIG + 1)) × Option TrapFrame × Option SignalFlags :=
  (task.signal.handlingSig, task.signal.trapframeBackup, task.signal.maskBackup)

end Task

variable {t : ℕ} {k k' k₁ : Kernel} {task task' : Task} {st : List Saved} {s : Saved}

/-- The kernel has run on, and no handler of the task `t` has started or returned. -/
def Rests (t : ℕ) (k k' : Kernel) : Prop :=
  k'.tasks[t]?.map Task.handler = k.tasks[t]?.map Task.handler

instance (t : ℕ) (k k' : Kernel) : Decidable (Rests t k k') :=
  inferInstanceAs (Decidable (_ = _))

/-- The handlers of the task `t` that are active, each with what it should return to. The last
one that has started is the first of the list. -/
inductive Nested (t : ℕ) : List Saved → Kernel → Prop
  | none {k : Kernel} {task : Task} (hget : k.tasks[t]? = some task)
      (hnone : task.handler = (none, none, none)) : Nested t [] k
  | deliver {k k' : Kernel} {task : Task} {p : Process} {sig : Fin (MAX_SIG + 1)}
      {st : List Saved} (h : Nested t st k) (hcurrent : k.current = t)
      (hd : Kernel.Delivers k task p sig k') : Nested t (task.saved :: st) k'
  | rest {k k' : Kernel} {st : List Saved} (h : Nested t st k) (hrest : Rests t k k') :
      Nested t st k'

/-- The calls of `sys_sigreturn` return to what the handlers have interrupted, the last one
first, whatever runs before each call. The next call after these returns -1. -/
def Unwinds (t : ℕ) : List Saved → Kernel → Prop
  | [], k => ∀ k₁, Rests t k k₁ → k₁.current = t → ∃ k', k₁.sysSigreturn = .ok (.ret (-1), k')
  | s :: st, k => ∀ k₁, Rests t k k₁ → k₁.current = t →
    ∃ k' task', k₁.sysSigreturn = .ok (.ret 0, k') ∧ k'.tasks[t]? = some task' ∧
      task'.saved = s ∧ Unwinds t st k'

theorem Rests.get (h : Rests t k k') (hget : k.tasks[t]? = some task) :
    ∃ task', k'.tasks[t]? = some task' ∧ task'.handler = task.handler := by
  rw [Rests, hget] at h
  exact Option.map_eq_some_iff.mp h

theorem Rests.current (t : ℕ) (k : Kernel) : Rests t k { k with current := t } := rfl

theorem sysSigreturn_none (hget : k.tasks[k.current]? = some task)
    (hnone : task.handler = (none, none, none)) : k.sysSigreturn = .ok (.ret (-1), k) := by
  have hbackup : task.signal.trapframeBackup = none := congrArg (·.2.1) hnone
  simp only [sysSigreturn, Kernel.task, hget, bind, Except.bind, hbackup]
  rfl

/-- What is left of a handler, after `sys_sigreturn` has put the registers and the mask back:
no other handler is active then. -/
theorem sysSigreturn_some {sig : Fin (MAX_SIG + 1)} {tf : TrapFrame} {mask : SignalFlags}
    (hget : k.tasks[k.current]? = some task)
    (hsome : task.handler = (some sig, some tf, some mask)) :
    ∃ k' task', k.sysSigreturn = .ok (.ret 0, k') ∧ k'.tasks[k.current]? = some task' ∧
      task'.saved = ⟨tf.elr, tf.usp, mask, none⟩ ∧ task'.handler = (none, none, none) ∧
      k'.current = k.current := by
  have hbackup : task.signal.trapframeBackup = some tf := congrArg (·.2.1) hsome
  have hmask : task.signal.maskBackup = some mask := congrArg (·.2.2) hsome
  let restore (task : Task) : Task := { task with
    tf
    signal := { task.signal with
      trapframeBackup := none, handlingSig := none, signalMask := mask, maskBackup := none } }
  refine ⟨k.modifyTask k.current restore, restore task, ?_, modifyTask_self hget _, rfl, rfl, rfl⟩
  simp only [sysSigreturn, Kernel.task, hget, bind, Except.bind, hbackup, hmask]
  rfl

/-- A delivery saves what it interrupts, over what an earlier delivery has saved. -/
theorem Kernel.Delivers.handler_eq {p : Process} {sig : Fin (MAX_SIG + 1)}
    (h : Kernel.Delivers k task p sig k') : ∃ task', k'.tasks[k.current]? = some task' ∧
      task'.handler = (some sig, some task.tf, some task.signal.signalMask) := by
  have hleads := handleSignals_user h.get h.process
  rw [h.handled] at hleads
  obtain ⟨htask', -⟩ := hleads h.user
  refine ⟨_, htask', ?_⟩
  simp [Task.handler, h.found, h.ofUser, SignalInner.userSignalHandler, h.handler]

/-- What the task keeps of its active handlers: of the last one all, of the others only that
there are any. -/
def Remembers (t : ℕ) (k : Kernel) : List Saved → Prop
  | [] => ∃ task, k.tasks[t]? = some task ∧ task.handler = (none, none, none)
  | s :: st => ∃ task sig tf, k.tasks[t]? = some task ∧
    task.handler = (some sig, some tf, some s.signalMask) ∧ tf.elr = s.elr ∧ tf.usp = s.usp ∧
      (s.handlingSig = none ↔ st = [])

theorem Remembers.rest (h : Remembers t k st) (hrest : Rests t k k') : Remembers t k' st := by
  cases st with
  | nil =>
    obtain ⟨task, hget, hnone⟩ := h
    obtain ⟨task', hget', heq⟩ := hrest.get hget
    exact ⟨task', hget', heq.trans hnone⟩
  | cons s st =>
    obtain ⟨task, sig, tf, hget, hsome, hs⟩ := h
    obtain ⟨task', hget', heq⟩ := hrest.get hget
    exact ⟨task', sig, tf, hget', heq.trans hsome, hs⟩

theorem Remembers.handlingSig (h : Remembers t k st) (hget : k.tasks[t]? = some task) :
    task.signal.handlingSig = none ↔ st = [] := by
  cases st with
  | nil =>
    obtain ⟨_, hget', hnone⟩ := h
    obtain rfl := Option.some.inj (hget.symm.trans hget')
    exact iff_of_true (congrArg (·.1) hnone) rfl
  | cons s st =>
    obtain ⟨_, sig, tf, hget', hsome, -⟩ := h
    obtain rfl := Option.some.inj (hget.symm.trans hget')
    have hsig : task.signal.handlingSig = some sig := congrArg (·.1) hsome
    simp [hsig]

theorem Nested.remembers (h : Nested t st k) : Remembers t k st := by
  induction h with
  | none hget hnone => exact ⟨_, hget, hnone⟩
  | @deliver k k' task p sig st h hcurrent hd ih =>
    subst hcurrent
    obtain ⟨task', hget', hsome⟩ := hd.handler_eq
    exact ⟨task', sig, task.tf, hget', hsome, rfl, rfl, ih.handlingSig hd.get⟩
  | rest h hrest ih => exact ih.rest hrest

/-- With no handler active, `sys_sigreturn` returns -1. -/
theorem Remembers.unwinds_nil (h : Remembers t k []) : Unwinds t [] k := by
  intro k₁ hrest hcurrent
  subst hcurrent
  obtain ⟨task, hget, hnone⟩ := h.rest hrest
  exact ⟨k₁, sysSigreturn_none hget hnone⟩

/-- The last handler returns to what it has interrupted, exactly if that was no handler. -/
theorem Remembers.unwinds_cons (h : Remembers t k (s :: st)) : Unwinds t (s :: st) k ↔ st = [] := by
  constructor
  · intro hunwinds
    obtain ⟨k', task', hreturn, hget', hsaved, -⟩ := hunwinds _ (.current t k) rfl
    obtain ⟨task, sig, tf, hget, hsome, -, -, hst⟩ := h.rest (.current t k)
    obtain ⟨k'', task'', hreturn', hget'', hsaved', -⟩ := sysSigreturn_some hget hsome
    obtain rfl : k'' = k' := by
      rw [hreturn] at hreturn'
      cases hreturn'
      rfl
    obtain rfl := Option.some.inj (hget'.symm.trans hget'')
    rw [← hst, ← hsaved, hsaved']
  · rintro rfl k₁ hrest hcurrent
    subst hcurrent
    obtain ⟨task, sig, tf, hget, hsome, helr, husp, hst⟩ := h.rest hrest
    obtain ⟨k', task', hreturn, hget', hsaved, hnone, -⟩ := sysSigreturn_some hget hsome
    refine ⟨k', task', hreturn, hget', ?_, Remembers.unwinds_nil ⟨task', hget', hnone⟩⟩
    rw [hsaved, helr, husp, ← hst.mpr rfl]

/-- The handlers of a task unwind exactly if at most one of them is active. -/
theorem nested_handlers_iff (h : Nested t st k) : Unwinds t st k ↔ st.length ≤ 1 := by
  cases st with
  | nil => exact iff_of_true h.remembers.unwinds_nil (Nat.zero_le _)
  | cons s st => rw [h.remembers.unwinds_cons, List.length_cons, Nat.add_le_add_iff_right,
      Nat.le_zero, List.length_eq_zero_iff]

/-- Whether a call ends with the delivery of a signal to a handler of the task `t`. -/
def Kernel.nests (k : Kernel) (t : ℕ) (call : Syscall) (tf : TrapFrame) : Bool :=
  (k.returned call tf).any fun k₁ => k₁.current == t && decide (Rests t k k₁) && k₁.delivers

theorem Nested.step {call : Syscall} {tf : TrapFrame} (h : Nested t st k)
    (htest : k.nests t call tf = true) :
    ∃ s k', k.step (.syscall call tf) = .ok k' ∧ Nested t (s :: st) k' := by
  obtain ⟨k₁, hk₁, htest⟩ := (Option.any_eq_true ..).mp htest
  rw [Bool.and_eq_true, Bool.and_eq_true, beq_iff_eq, decide_eq_true_iff] at htest
  obtain ⟨⟨hcurrent, hrest⟩, hdelivers⟩ := htest
  obtain ⟨task, p, sig, k', _, _, hd, -⟩ := exists_delivers hdelivers
  exact ⟨task.saved, k', (step_returned hk₁).trans hd.handled, (h.rest hrest).deliver hcurrent hd⟩

/-- The child has handlers for SIGUSR1 and SIGUSR2, and lets the first of the two signals
through. The handler for it lets SIGUSR2 through. -/
def handlers : List Event :=
  forked ++
    [.syscall (.sigaction 10 (some (.mapped ⟨0x1000, ⟨1 <<< 12⟩⟩)) (some (.mapped ()))) (.newUser 0 0),
      .syscall (.sigaction 12 (some (.mapped ⟨0x2000, .empty⟩)) (some (.mapped ()))) (.newUser 0 0),
      .syscall (.sigprocmask (1 <<< 10)) (.newUser 0 0)]

/-- The child sends SIGUSR1 to itself. -/
theorem nested_handlers_iff_one : ∃ k s, Nested 5 [s] k ∧ Unwinds 5 [s] k := by
  have hrun : ((booted 0 0).run handlers).any (fun k =>
      (k.tasks[5]?.any fun task => task.handler == (none, none, none)) &&
        k.nests 5 (.kill 5 10) (.newUser 0x100 0)) = true := by
    decide +kernel
  obtain ⟨k, -, -, htest⟩ := exists_trace hrun
  rw [Bool.and_eq_true] at htest
  obtain ⟨task, hget, hnone⟩ := (Option.any_eq_true ..).mp htest.1
  obtain ⟨s, k', -, h⟩ := (Nested.none hget (beq_iff_eq.mp hnone)).step htest.2
  exact ⟨k', s, h, (nested_handlers_iff h).mpr (Nat.le_refl 1)⟩

/-- The child sends SIGUSR1 to itself, and its handler sends SIGUSR2. The handler for SIGUSR2
returns to the one for SIGUSR1, and that one cannot return. -/
theorem second_sigreturn_fails : ∃ k states s₁ s₂ k₁ k₂, Trace k states ∧ Nested 5 [s₂, s₁] k ∧
    k.current = 5 ∧ k.sysSigreturn = .ok (.ret 0, k₁) ∧ k₁.sysSigreturn = .ok (.ret (-1), k₂) ∧
    ¬ Unwinds 5 [s₂, s₁] k := by
  have hrun : ((booted 0 0).run handlers).any (fun k =>
      (k.tasks[5]?.any fun task => task.handler == (none, none, none)) &&
        k.enabled (.syscall (.kill 5 10) (.newUser 0x100 0)) &&
        k.nests 5 (.kill 5 10) (.newUser 0x100 0) &&
        (k.step (.syscall (.kill 5 10) (.newUser 0x100 0))).toOption.any fun k =>
          k.enabled (.syscall (.kill 5 12) (.newUser 0x1000 0)) &&
            k.nests 5 (.kill 5 12) (.newUser 0x1000 0) &&
            (k.step (.syscall (.kill 5 12) (.newUser 0x1000 0))).toOption.any fun k =>
              k.current == 5) = true := by
    decide +kernel
  obtain ⟨k, states, htrace, htest⟩ := exists_trace hrun
  simp only [Bool.and_eq_true] at htest
  obtain ⟨⟨⟨hidle, he⟩, hnests⟩, htest⟩ := htest
  obtain ⟨task, hget, hnone⟩ := (Option.any_eq_true ..).mp hidle
  obtain ⟨s₁, k₁, hs, h₁⟩ := (Nested.none hget (beq_iff_eq.mp hnone)).step hnests
  rw [hs, Except.toOption, Option.any_some, Bool.and_eq_true, Bool.and_eq_true] at htest
  obtain ⟨⟨he₁, hnests₁⟩, hcurrent⟩ := htest
  obtain ⟨s₂, k₂, hs₁, h₂⟩ := h₁.step hnests₁
  rw [hs₁, Except.toOption, Option.any_some, beq_iff_eq] at hcurrent
  obtain ⟨task₂, sig, tf, hget₂, hsome, -⟩ := h₂.remembers
  rw [← hcurrent] at hget₂
  obtain ⟨k₃, task₃, hreturn, hget₃, -, hnone₃, hcurrent₃⟩ := sysSigreturn_some hget₂ hsome
  refine ⟨k₂, _, s₁, s₂, k₃, k₃, (htrace.step he hs).step he₁ hs₁, h₂, hcurrent, hreturn,
    sysSigreturn_none ?_ hnone₃, ?_⟩
  · rwa [hcurrent₃]
  · rw [h₂.remembers.unwinds_cons]
    exact List.cons_ne_nil _ _

end RCore.Os
