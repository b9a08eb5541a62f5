import RCore.Proofs.Os.SyncStep
import RCore.Proofs.Os.Runs

/-! Signals: which tasks a kill reaches, which signals the masks let through, and what a
handler returns to. -/

namespace RCore.Os

open RCore.Lib Kernel SignalFlags

/-! Tasks that are to be killed -/

/-- The states after the process `pid` has executed `Process::stop`, or has been sent SIGKILL
by a call that returned 0. -/
inductive Killed (pid : ℕ) : Kernel → Prop
  | stop {k k' : Kernel} {states : List Kernel} {task : Task} {exitCode : Int32} {tf : TrapFrame}
      (h : Trace k states) (he : k.enabled (.syscall (.exitGroup exitCode) tf))
      (htask : k.tasks[k.current]? = some task) (hpid : task.process = pid)
      (hs : k.step (.syscall (.exitGroup exitCode) tf) = .ok k') : Killed pid k'
  | kill {k k₁ k' : Kernel} {states : List Kernel} {tf : TrapFrame} (h : Trace k states)
      (he : k.enabled (.syscall (.kill pid 9) tf))
      (hret : (k.modifyTask k.current fun task => { task with tf }).kill pid 9 = .ok (0, k₁))
      (hs : k.step (.syscall (.kill pid 9) tf) = .ok k') : Killed pid k'
  | step {k k' : Kernel} {e : Event} (h : Killed pid k) (he : k.enabled e)
      (hs : k.step e = .ok k') : Killed pid k'

variable {k : Kernel} {pid : ℕ}

theorem Killed.trace (h : Killed pid k) : ∃ states, Trace k states := by
  induction h with
  | stop h he _ _ hs => exact ⟨_, .step h he hs⟩
  | kill h he _ hs => exact ⟨_, .step h he hs⟩
  | step _ he hs ih =>
    obtain ⟨states, h⟩ := ih
    exact ⟨_, .step h he hs⟩

/-- A computed state is one of a run, and an event follows. -/
theorem exists_stop {es : List Event} {exitCode : Int32} {tf : TrapFrame} {test : Kernel → Bool}
    (h : ((booted 0 0).run es).any (fun k => k.enabled (.syscall (.exitGroup exitCode) tf) &&
      k.tasks[k.current]?.any (fun task => task.process == pid) &&
        match k.step (.syscall (.exitGroup exitCode) tf) with
        | .ok k' => test k'
        | .error _ => false) = true) : ∃ k', Killed pid k' ∧ test k' = true := by
  obtain ⟨k, states, htrace, htest⟩ := exists_trace h
  simp only [Bool.and_eq_true] at htest
  obtain ⟨⟨he, hpid⟩, htest⟩ := htest
  obtain ⟨task, htask, hpid⟩ := (Option.any_eq_true ..).mp hpid
  split at htest
  next k' hs => exact ⟨k', .stop htrace he htask (by simpa using hpid) hs, htest⟩
  next => cases htest

theorem contains_shift (flags : SignalFlags) (sig : Fin (MAX_SIG + 1)) :
    flags.contains ⟨shift sig⟩ = flags.bits.getLsbD sig := by
  have hlt : (sig : ℕ) < 32 := sig.isLt
  have hshift : shift sig = BitVec.twoPow 32 sig := by
    rw [shift, BitVec.twoPow_eq, Int.emod_eq_of_lt (by omega) (by omega), Int.toNat_natCast]
  rw [contains, hshift, BitVec.and_twoPow]
  cases flags.bits.getLsbD sig with
  | true => simp
  | false =>
    rw [if_neg nofun, beq_eq_false_iff_ne]
    intro hzero
    have hbit := congrArg (fun bits => BitVec.getLsbD bits sig) hzero
    simp [hlt] at hbit

namespace SignalInner

/-- A pending signal that is in neither mask. -/
def unmasked (inner : SignalInner) (actions : SignalActions) (sig : Fin (MAX_SIG + 1)) : Bool :=
  inner.signals.contains ⟨shift sig⟩ && !inner.signalMask.contains ⟨shift sig⟩ &&
    !inner.handlingSig.any fun handling => (actions.table handling).mask.contains ⟨shift sig⟩

/-- What masks are for: the lowest-numbered signal is handled that is pending and in neither
of them. -/
def checkUnmasked (inner : SignalInner) (actions : SignalActions) (tf : TrapFrame) :
    Option SignalFlags × SignalInner × TrapFrame :=
  match (List.finRange (MAX_SIG + 1)).find? (inner.unmasked actions) with
  | none => (none, inner, tf)
  | some sig =>
    let signal : SignalFlags := ⟨shift sig⟩
    if KERNEL_SIGNAL.contains signal then (some signal, inner.kernelSignalHandler signal, tf)
    else (some signal, inner.userSignalHandler (actions.table sig) sig tf)

variable {inner : SignalInner} {actions : SignalActions} {sig : Fin (MAX_SIG + 1)}

theorem eligible_eq (inner : SignalInner) (actions : SignalActions) (sig : Fin (MAX_SIG + 1)) :
    inner.eligible actions sig = (inner.signals.contains ⟨shift sig⟩ &&
      inner.signalMask.contains ⟨shift sig⟩ && inner.handlingSig.all fun handling =>
        (actions.table handling).mask.contains ⟨shift sig⟩) := by
  rw [eligible, metadata]
  simp only [contains_shift, inter, BitVec.getLsbD_and, Option.all_map]

/-- The signal that is handled is the one that has been found. -/
theorem checkPendingSignals_fst (tf : TrapFrame) : (inner.checkPendingSignals actions tf).1 =
    ((List.finRange (MAX_SIG + 1)).find? (inner.eligible actions)).map fun sig => ⟨shift sig⟩ := by
  rw [checkPendingSignals]
  split
  next h => rw [h]; rfl
  next sig h =>
    rw [h]
    dsimp only
    split_ifs <;> rfl

theorem checkUnmasked_fst (tf : TrapFrame) : (inner.checkUnmasked actions tf).1 =
    ((List.finRange (MAX_SIG + 1)).find? (inner.unmasked actions)).map fun sig => ⟨shift sig⟩ := by
  rw [checkUnmasked]
  split
  next h => rw [h]; rfl
  next sig h =>
    rw [h]
    dsimp only
    split_ifs <;> rfl

/-- No signal is both let through by the code and in neither mask. -/
theorem not_eligible_and_unmasked (h : inner.eligible actions sig = true) :
    inner.unmasked actions sig = false := by
  rw [eligible_eq] at h
  rw [unmasked]
  simp_all

/-- What is handled is what should be, only if that is nothing. -/
theorem check_eq_iff : (∀ tf, inner.checkPendingSignals actions tf = inner.checkUnmasked actions tf) ↔
    ∀ sig, inner.eligible actions sig = false ∧ inner.unmasked actions sig = false := by
  constructor
  · intro heq
    have hfst := congrArg Prod.fst (heq (.newUser 0 0))
    rw [checkPendingSignals_fst, checkUnmasked_fst] at hfst
    cases hfind : (List.finRange (MAX_SIG + 1)).find? (inner.eligible actions) with
    | none =>
      rw [hfind, eq_comm, Option.map_none, Option.map_eq_none_iff, List.find?_eq_none] at hfst
      rw [List.find?_eq_none] at hfind
      intro sig
      exact ⟨by simpa using hfind sig (List.mem_finRange sig),
        by simpa using hfst sig (List.mem_finRange sig)⟩
    | some a =>
      rw [hfind, eq_comm, Option.map_some, Option.map_eq_some_iff] at hfst
      obtain ⟨b, hb, hab⟩ := hfst
      have hunmasked : inner.unmasked actions a = true := by
        have hb := List.find?_some hb
        rw [unmasked, hab] at hb
        rw [unmasked]
        exact hb
      rw [not_eligible_and_unmasked (List.find?_some hfind)] at hunmasked
      cases hunmasked
  · intro hnone tf
    have h₁ : (List.finRange (MAX_SIG + 1)).find? (inner.eligible actions) = none := by
      rw [List.find?_eq_none]
      intro sig _
      simp [(hnone sig).1]
    have h₂ : (List.finRange (MAX_SIG + 1)).find? (inner.unmasked actions) = none := by
      rw [List.find?_eq_none]
      intro sig _
      simp [(hnone sig).2]
    rw [checkPendingSignals, checkUnmasked, h₁, h₂]

end SignalInner

/-- `check_pending_signals` does what masks are for, exactly when a handler is running and
every signal that is pending is in one of the two masks and not in the other. -/
theorem signal_mask_iff (inner : SignalInner) (actions : SignalActions) :
    (∀ tf, inner.checkPendingSignals actions tf = inner.checkUnmasked actions tf) ↔
      ∀ sig : Fin (MAX_SIG + 1), inner.signals.contains ⟨shift sig⟩ = true →
        ∃ handling, inner.handlingSig = some handling ∧
          inner.signalMask.contains ⟨shift sig⟩ ≠ (actions.table handling).mask.contains ⟨shift sig⟩ := by
  rw [SignalInner.check_eq_iff]
  refine forall_congr' fun sig => ?_
  rw [SignalInner.eligible_eq, SignalInner.unmasked]
  cases inner.handlingSig with
  | none => cases inner.signals.contains ⟨shift sig⟩ <;> cases inner.signalMask.contains ⟨shift sig⟩ <;> simp
  | some handling =>
    cases inner.signals.contains ⟨shift sig⟩ <;> cases inner.signalMask.contains ⟨shift sig⟩ <;>
      cases (actions.table handling).mask.contains ⟨shift sig⟩ <;> simp

/-- The child of the shell, with its mask still empty and no handler running, sends SIGUSR1
to itself: it is pending, and is held back. -/
theorem signal_held_back : ∃ k states task p, Trace k states ∧ k.tasks[5]? = some task ∧
    k.procs[task.process]? = some (some p) ∧ task.signal.signals = ⟨shift 10⟩ ∧
    task.signal.signalMask = .empty ∧ task.signal.handlingSig = none ∧
    ∀ tf, (task.signal.checkPendingSignals p.signalActions tf).1 = none := by
  have hrun : ((booted 0 0).run (forked ++ [.syscall (.kill 5 10) (.newUser 0 0)])).any (fun k =>
      k.tasks[5]?.any fun task => task.process == 5 && task.signal.signals == ⟨shift 10⟩ &&
        task.signal.signalMask == .empty && task.signal.handlingSig == none &&
          k.procs[5]?.join.isSome) = true := by
    decide +kernel
  obtain ⟨k, states, htrace, htest⟩ := exists_trace hrun
  obtain ⟨task, htask, hs⟩ := (Option.any_eq_true ..).mp htest
  simp only [Bool.and_eq_true, beq_iff_eq] at hs
  obtain ⟨⟨⟨⟨hpid, hsignals⟩, hmask⟩, hhandling⟩, hp⟩ := hs
  obtain ⟨p, hp⟩ := Option.isSome_iff_exists.mp hp
  refine ⟨k, states, task, p, htrace, htask, ?_, hsignals, hmask, hhandling, fun tf => ?_⟩
  · rw [hpid]
    exact Option.join_eq_some_iff.mp hp
  · rw [SignalInner.checkPendingSignals_fst, Option.map_eq_none_iff, List.find?_eq_none]
    intro sig _
    rw [SignalInner.eligible_eq, hmask, contains_shift SignalFlags.empty]
    simp [SignalFlags.empty]

/-! Handlers -/

namespace Kernel

variable {k k' : Kernel} {task : Task} {p : Process} {sig : Fin (MAX_SIG + 1)} {c : Cont}

theorem resched_cont (k : Kernel) : Leads k.resched fun k' => ∀ u, k'.contOf u = k.contOf u := by
  have hpick : Leads k.pickNextTask fun r => ∀ u, r.2.contOf u = k.contOf u :=
    .bind (Leads.any _) fun _ _ => .pure fun _ => rfl
  have hswitch : ∀ (k₁ : Kernel) (t : ℕ), Leads (k₁.switchTo t) fun k' =>
      ∀ u, k'.contOf u = k₁.contOf u := by
    intro k₁ t
    have hs : ∀ u, (k₁.setState t .running).contOf u = k₁.contOf u := by
      intro u
      rw [setState, contOf_modifyTask]
      split_ifs <;> rfl
    exact .ite (fun _ => .ok hs) fun _ => .ite (fun _ => trivial) fun _ => .ok hs
  refine .ite (fun _ => trivial) fun _ => .bind hpick ?_
  rintro ⟨next, k₁⟩ hk
  cases next with
  | none => exact (hswitch k₁ idleTask).mono fun k' h u => (h u).trans (hk u)
  | some t => exact (hswitch k₁ t).mono fun k' h u => (h u).trans (hk u)

theorem modifyTask_self {t : ℕ} (htask : k.tasks[t]? = some task) (f : Task → Task) :
    (k.modifyTask t f).tasks[t]? = some (f task) := by
  rw [getElem?_modifyTask, if_pos rfl, htask]
  rfl

theorem contOf_setCont_ne (k : Kernel) (hc : c ≠ .user) :
    (k.setCont c).contOf k.current ≠ some .user := by
  rw [setCont, contOf_modifyTask, if_pos rfl]
  cases k.tasks[k.current]? with
  | none => simp
  | some task => simpa using hc

theorem blockAndYield_cont (k : Kernel) (hc : c ≠ .user) :
    Leads (k.blockAndYield c) fun k' => k'.contOf k.current ≠ some .user := by
  refine (resched_cont _).mono fun k' h => ?_
  rw [h, setState, contOf_modifyTask]
  split_ifs
  · exact contOf_setCont_ne k hc
  · exact contOf_setCont_ne k hc

/-- A task that exits does not go on in user mode. -/
theorem exit_cont (k : Kernel) (code : Int32) :
    Leads (k.exit code) fun k' => k'.contOf k.current ≠ some .user := by
  refine .bind (Leads.any _) fun _ _ => .bind (taskExit_tasks _ _ _) ?_
  rintro k₁ ⟨-, hcur⟩
  have hcur : k₁.current = k.current := hcur
  refine .ite (fun _ => trivial) fun _ => (resched_cont _).mono fun k' h => ?_
  rw [h, ← hcur]
  exact contOf_setCont_ne _ (by decide)

/-- `handle_signals` delivers a signal to a handler of the current task, at the end of a
trap. -/
structure Delivers (k : Kernel) (task : Task) (p : Process) (sig : Fin (MAX_SIG + 1))
    (k' : Kernel) : Prop where
  get : k.tasks[k.current]? = some task
  process : k.procs[task.process]? = some (some p)
  found : (List.finRange (MAX_SIG + 1)).find? (task.signal.eligible p.signalActions) = some sig
  ofUser : KERNEL_SIGNAL.contains ⟨shift sig⟩ = false
  handler : (p.signalActions.table sig).handler ≠ 0
  handled : k.handleSignals = .ok k'
  user : k'.contOf k.current = some .user

/-- A task that goes on in user mode after `handle_signals` has what `check_pending_signals`
has left of its signals and of its registers. -/
theorem handleSignals_user (htask : k.tasks[k.current]? = some task)
    (hproc : k.procs[task.process]? = some (some p)) :
    Leads k.handleSignals fun k' => k'.contOf k.current = some .user →
      let (_, inner, tf) := task.signal.checkPendingSignals p.signalActions task.tf
      k'.tasks[k.current]? = some { task with signal := inner, tf, cont := .user } ∧
        (inner.killed = true ∨ inner.frozen = false) := by
  rw [handleSignals, Kernel.task, htask]
  refine .bind (.ok rfl) ?_
  rintro _ rfl
  rw [process, hproc]
  refine .bind (.ok rfl) ?_
  rintro _ rfl
  obtain ⟨signal, inner, tf⟩ := task.signal.checkPendingSignals p.signalActions task.tf
  refine .bind (Leads.any _) fun _ _ => ?_
  have hend : Leads ((k.modifyTask k.current fun task =>
      { task with signal := inner, tf }).signalsHandled inner) fun k' =>
        k'.contOf k.current = some .user →
          k'.tasks[k.current]? = some { task with signal := inner, tf, cont := .user } := by
    rw [signalsHandled]
    split
    · exact (exit_cont _ _).mono fun k' h hu => absurd hu h
    · exact .pure fun _ => modifyTask_self (modifyTask_self htask _) _
  refine .ite (fun hkilled => hend.mono fun k' h hu => ⟨h hu, .inl hkilled⟩) fun _ => .ite
    (fun _ => (blockAndYield_cont _ (by decide)).mono fun k' h hu => absurd hu h) fun hfrozen =>
      hend.mono fun k' h hu => ⟨h hu, .inr (by simpa using hfrozen)⟩

/-- What is saved of the task when a signal is delivered to its handler. -/
theorem Delivers.saved (h : Delivers k task p sig k') : ∃ task', k'.tasks[k.current]? = some task' ∧
    task'.signal.trapframeBackup = some task.tf ∧
    task'.signal.maskBackup = some task.signal.signalMask ∧
    (task'.signal.killed = true ∨ task'.signal.frozen = false) := by
  have hleads := handleSignals_user h.get h.process
  rw [h.handled] at hleads
  obtain ⟨htask', hawake⟩ := hleads h.user
  refine ⟨_, htask', ?_, ?_, hawake⟩
  · simp [h.found, h.ofUser, SignalInner.userSignalHandler, h.handler]
  · simp [h.found, h.ofUser, SignalInner.userSignalHandler, h.handler]

theorem checkPendingSignals_empty (inner : SignalInner) (actions : SignalActions) (tf : TrapFrame)
    (hsignals : inner.signals = .empty) :
    inner.checkPendingSignals actions tf = (none, inner, tf) := by
  have hnone : (List.finRange (MAX_SIG + 1)).find? (inner.eligible actions) = none := by
    rw [List.find?_eq_none]
    intro sig _
    rw [SignalInner.eligible_eq, hsignals, contains_shift SignalFlags.empty]
    simp [SignalFlags.empty]
  rw [SignalInner.checkPendingSignals, hnone]

/-- With nothing pending and no handler running, `handle_signals` returns to the user. -/
theorem handleSignals_idle (htask : k.tasks[k.current]? = some task)
    (hproc : k.procs[task.process]? = some (some p)) (hsignals : task.signal.signals = .empty)
    (hhandling : task.signal.handlingSig = none)
    (hawake : task.signal.killed = true ∨ task.signal.frozen = false) :
    ∃ k', k.handleSignals = .ok k' ∧ k'.tasks[k.current]? = some { task with cont := .user } := by
  have hend : ∀ k₁ : Kernel, k₁.signalsHandled task.signal = .ok (k₁.setCont .user) := by
    intro k₁
    rw [signalsHandled, hsignals]
    rfl
  have hlock : k.lockActions task none = .ok () := by
    rw [lockActions, hhandling]
    rfl
  let k₁ := k.modifyTask k.current fun task' => { task' with signal := task.signal, tf := task.tf }
  refine ⟨k₁.setCont .user, ?_, ?_⟩
  · have hrun : k.handleSignals = if task.signal.killed then k₁.signalsHandled task.signal
        else if task.signal.frozen then k₁.blockAndYield .signals
        else k₁.signalsHandled task.signal := by
      simp only [handleSignals, Kernel.task, htask, process, hproc, bind, Except.bind,
        checkPendingSignals_empty _ _ _ hsignals, hlock, k₁]
    rw [hrun, hend]
    rcases hawake with hkilled | hfrozen
    · rw [if_pos hkilled]
    · simp [hfrozen]
  · exact modifyTask_self (modifyTask_self htask _) _

/-- `sys_sigreturn` puts back the registers that were saved, and then its own result goes to
the first of them. -/
theorem sigreturn_step {backup : TrapFrame} {mask : SignalFlags}
    (htask : k.tasks[k.current]? = some task) (hproc : k.procs[task.process]? = some (some p))
    (hbackup : task.signal.trapframeBackup = some backup) (hmask : task.signal.maskBackup = some mask)
    (hsignals : task.signal.signals = .empty)
    (hawake : task.signal.killed = true ∨ task.signal.frozen = false) (tf : TrapFrame) :
    ∃ k', k.step (.syscall .sigreturn tf) = .ok k' ∧ k'.tasks[k.current]? = some { task with
      tf := backup.setR0 0
      signal := { task.signal with
        trapframeBackup := none, handlingSig := none, signalMask := mask, maskBackup := none }
      cont := .user } := by
  let k₁ := k.modifyTask k.current fun task => { task with tf }
  let k₂ := k₁.modifyTask k.current fun task => { task with
    tf := backup
    signal := { task.signal with
      trapframeBackup := none, handlingSig := none, signalMask := mask, maskBackup := none } }
  let k₃ := k₂.modifyTask k.current fun task =>
    { task with tf := task.tf.setR0 (UInt64.ofInt 0) }
  have htask₁ : k₁.tasks[k.current]? = some { task with tf } := modifyTask_self htask _
  have htask₃ : k₃.tasks[k₃.current]? = some { task with
      tf := backup.setR0 0
      signal := { task.signal with
        trapframeBackup := none, handlingSig := none, signalMask := mask, maskBackup := none } } :=
    modifyTask_self (modifyTask_self htask₁ _) _
  obtain ⟨k', hk', htask'⟩ := handleSignals_idle htask₃ hproc hsignals rfl hawake
  refine ⟨k', ?_, htask'⟩
  have hsys : k₁.sysSigreturn = .ok (.ret 0, k₂) := by
    have hget : k₁.task k₁.current = .ok { task with tf } := by
      rw [Kernel.task, show k₁.tasks[k₁.current]? = _ from htask₁]
    simp only [sysSigreturn, hget, bind, Except.bind, hbackup, hmask]
    rfl
  rw [Kernel.step, Kernel.syscall, show k.modifyTask k.current _ = k₁ from rfl, hsys]
  exact hk'

/-- The kernel at the end of a trap: the system call has returned, and signals have still to
be looked at. -/
def returned (k : Kernel) (call : Syscall) (tf : TrapFrame) : Option Kernel :=
  match (k.modifyTask k.current fun task => { task with tf }).syscall call with
  | .ok (.ret value, k) => some (k.modifyTask k.current fun task =>
      { task with tf := task.tf.setR0 (UInt64.ofInt value) })
  | _ => none

theorem step_returned {call : Syscall} {tf : TrapFrame} (h : k.returned call tf = some k') :
    k.step (.syscall call tf) = k'.handleSignals := by
  rw [returned] at h
  split at h
  next value k₁ hcall =>
    rw [Kernel.step, hcall, ← Option.some.inj h]
    rfl
  next => cases h

end Kernel

theorem TrapFrame.setR0_eq_iff (tf : TrapFrame) (value : UInt64) :
    tf.setR0 value = tf ↔ tf.r0 = value := by
  constructor
  · intro h
    rw [← h]
    exact Vector.getElem_set_self _
  · intro h
    rw [← h, setR0, r0, Vector.set_getElem_self]

/-- A handler's return is transparent exactly if the first register held 0 and no other
handler was running. -/
theorem handler_return_iff {k k' k₁ : Kernel} {task task' task₁ : Task} {p p₁ : Process}
    {sig : Fin (MAX_SIG + 1)} (h : Kernel.Delivers k task p sig k')
    (htask' : k'.tasks[k.current]? = some task') (htask₁ : k₁.tasks[k₁.current]? = some task₁)
    (hsignal : task₁.signal = { task'.signal with signals := .empty })
    (hproc : k₁.procs[task₁.process]? = some (some p₁)) (tf : TrapFrame) :
    ∃ k₂ task₂, k₁.step (.syscall .sigreturn tf) = .ok k₂ ∧
      k₂.tasks[k₁.current]? = some task₂ ∧ task₂.cont = .user ∧
      (task₂.tf = task.tf ∧ task₂.signal.signalMask = task.signal.signalMask ∧
          task₂.signal.handlingSig = task.signal.handlingSig ↔
        task.tf.r0 = 0 ∧ task.signal.handlingSig = none) := by
  obtain ⟨_, hget, hbackup, hmask, hawake⟩ := h.saved
  obtain rfl : task' = _ := Option.some.inj (htask'.symm.trans hget)
  obtain ⟨k₂, hstep, htask₂⟩ := Kernel.sigreturn_step htask₁ hproc (by rw [hsignal]; exact hbackup)
    (by rw [hsignal]; exact hmask) (by rw [hsignal]) (by rw [hsignal]; exact hawake) tf
  refine ⟨k₂, _, hstep, htask₂, rfl, ?_⟩
  rw [TrapFrame.setR0_eq_iff]
  constructor
  · rintro ⟨hr, -, hhandling⟩
    exact ⟨hr, hhandling.symm⟩
  · rintro ⟨hr, hhandling⟩
    exact ⟨hr, rfl, hhandling.symm⟩

/-- Whether a signal is delivered to a handler, and no other one is pending then. -/
def Kernel.delivers (k : Kernel) : Bool :=
  k.tasks[k.current]?.any fun task => k.procs[task.process]?.join.any fun p =>
    ((List.finRange (MAX_SIG + 1)).find? (task.signal.eligible p.signalActions)).any
      fun (sig : Fin (MAX_SIG + 1)) =>
        !KERNEL_SIGNAL.contains ⟨shift sig⟩ && decide ((p.signalActions.table sig).handler ≠ (0 : UInt64)) &&
          match k.handleSignals with
          | .ok k' => k'.contOf k.current == some .user && k'.current == k.current &&
            k'.tasks[k.current]?.any fun task' => task'.signal.signals == .empty &&
              k'.procs[task'.process]?.join.isSome
          | .error _ => false

theorem exists_delivers {k : Kernel} (h : k.delivers = true) : ∃ task p sig k' task' p',
    Kernel.Delivers k task p sig k' ∧ k'.current = k.current ∧ k'.tasks[k.current]? = some task' ∧
      task'.signal = { task'.signal with signals := .empty } ∧
      k'.procs[task'.process]? = some (some p') := by
  obtain ⟨task, htask, htest⟩ := (Option.any_eq_true ..).mp h
  obtain ⟨p, hp, htest⟩ := (Option.any_eq_true ..).mp htest
  obtain ⟨sig, hsig, htest⟩ := (Option.any_eq_true ..).mp htest
  rw [Bool.and_eq_true, Bool.and_eq_true, Bool.not_eq_true', decide_eq_true_iff] at htest
  obtain ⟨⟨huser, hhandler⟩, htest⟩ := htest
  split at htest
  next k' hk' =>
    rw [Bool.and_eq_true, Bool.and_eq_true, beq_iff_eq, beq_iff_eq] at htest
    obtain ⟨⟨hcont, hcur⟩, htest⟩ := htest
    obtain ⟨task', htask', htest⟩ := (Option.any_eq_true ..).mp htest
    rw [Bool.and_eq_true, beq_iff_eq] at htest
    obtain ⟨hsignals, hp'⟩ := htest
    obtain ⟨p', hp'⟩ := Option.isSome_iff_exists.mp hp'
    exact ⟨task, p, sig, k', task', p', ⟨htask, Option.join_eq_some_iff.mp hp, hsig, huser, hhandler,
      hk', hcont⟩, hcur, htask', by rw [← hsignals], Option.join_eq_some_iff.mp hp'⟩
  next => cases htest

/-- The child has a handler for SIGUSR1, lets the signal through and sends it to itself: its
call of `kill` returns 0, so that the handler's return is transparent. -/
theorem handler_return_iff_kill : ∃ k task p sig k', Kernel.Delivers k task p sig k' ∧
    ∃ k₂ task₂, k'.step (.syscall .sigreturn (.newUser 0 0)) = .ok k₂ ∧
      k₂.tasks[k'.current]? = some task₂ ∧ task₂.cont = .user ∧ task₂.tf = task.tf ∧
      task₂.signal.signalMask = task.signal.signalMask ∧
      task₂.signal.handlingSig = task.signal.handlingSig := by
  have hrun : ((booted 0 0).run (forked ++
      [.syscall (.sigaction 10 (some (.mapped ⟨0x1000, .empty⟩)) (some (.mapped ()))) (.newUser 0 0),
        .syscall (.sigprocmask (1 <<< 10)) (.newUser 0 0)])).any (fun k =>
      (k.returned (.kill 5 10) (.newUser 0 0)).any fun k => k.delivers &&
        k.tasks[k.current]?.any fun task => task.tf.r0 == 0 && task.signal.handlingSig == none) = true := by
    decide +kernel
  obtain ⟨_, _, _, htest⟩ := exists_trace hrun
  obtain ⟨k, _, htest⟩ := (Option.any_eq_true ..).mp htest
  rw [Bool.and_eq_true] at htest
  obtain ⟨task, p, sig, k', task', p', h, hcur, htask', hsignal, hp'⟩ := exists_delivers htest.1
  have hr : task.tf.r0 = 0 ∧ task.signal.handlingSig = none := by
    simpa [h.get] using htest.2
  obtain ⟨k₂, task₂, hstep, htask₂, hcont, hiff⟩ :=
    handler_return_iff h htask' (hcur ▸ htask') hsignal hp' (.newUser 0 0)
  exact ⟨k, task, p, sig, k', h, k₂, task₂, hstep, htask₂, hcont, hiff.mpr hr⟩

/-- The child has a handler for SIGUSR1, and the signal is pending. A call of `sigprocmask`
returns the old mask, 2, and lets the signal through. When the handler has returned, the
register in which the child looks for the old mask is 0. -/
theorem sigreturn_clobbers_r0 : ∃ k₀ states k task p sig k' k₂ task₂, Trace k₀ states ∧
    k₀.enabled (.syscall (.sigprocmask (1 <<< 10)) (.newUser 0 0)) = true ∧
    k₀.returned (.sigprocmask (1 <<< 10)) (.newUser 0 0) = some k ∧
    Kernel.Delivers k task p sig k' ∧ k'.step (.syscall .sigreturn (.newUser 0 0)) = .ok k₂ ∧
    k₂.tasks[k'.current]? = some task₂ ∧ task.tf.r0 = 2 ∧ task₂.tf.r0 = 0 := by
  have hrun : ((booted 0 0).run (forked ++
      [.syscall (.sigaction 10 (some (.mapped ⟨0x1000, .empty⟩)) (some (.mapped ()))) (.newUser 0 0),
        .syscall (.sigprocmask 2) (.newUser 0 0), .syscall (.kill 5 10) (.newUser 0 0)])).any (fun k =>
      k.enabled (.syscall (.sigprocmask (1 <<< 10)) (.newUser 0 0)) &&
        (k.returned (.sigprocmask (1 <<< 10)) (.newUser 0 0)).any fun k => k.delivers &&
          k.tasks[k.current]?.any fun task => task.tf.r0 == 2) = true := by
    decide +kernel
  obtain ⟨k₀, states, htrace, htest⟩ := exists_trace hrun
  rw [Bool.and_eq_true] at htest
  obtain ⟨k, hk, htest'⟩ := (Option.any_eq_true ..).mp htest.2
  rw [Bool.and_eq_true] at htest'
  obtain ⟨task, p, sig, k', task', p', h, hcur, htask', hsignal, hp'⟩ := exists_delivers htest'.1
  have hr : task.tf.r0 = 2 := by simpa [h.get] using htest'.2
  obtain ⟨_, hget, hbackup, hmask, hawake⟩ := h.saved
  obtain rfl : task' = _ := Option.some.inj (htask'.symm.trans hget)
  obtain ⟨k₂, hstep, htask₂⟩ := Kernel.sigreturn_step (hcur ▸ htask') hp' hbackup hmask
    (by rw [hsignal]) hawake (.newUser 0 0)
  exact ⟨k₀, states, k, task, p, sig, k', k₂, _, htrace, htest.1, hk, h, hstep, htask₂, hr,
    Vector.getElem_set_self _⟩

end RCore.Os
