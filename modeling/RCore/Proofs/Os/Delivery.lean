import RCore.Proofs.Os.Moves
import RCore.Proofs.Os.Signals

/-! What becomes of signals that are pending: which of them a check acts on, and whether a
task that has been killed ends. -/

namespace RCore.Os

open RCore.Lib Kernel SignalFlags

namespace SignalInner

variable {inner : SignalInner} {actions : SignalActions} {sig : Fin (MAX_SIG + 1)} {tf : TrapFrame}

/-! The signal that is acted on -/

/-- There is something to do for a signal: it is the kernel's, or it has a handler. -/
def actionable (actions : SignalActions) (sig : Fin (MAX_SIG + 1)) : Bool :=
  KERNEL_SIGNAL.contains ⟨shift sig⟩ || (actions.table sig).handler != 0

/-- The check has called the handler of the kernel, or has redirected the task to its own
handler. -/
def ActsOn (inner : SignalInner) (actions : SignalActions) (tf : TrapFrame)
    (sig : Fin (MAX_SIG + 1)) : Prop :=
  if KERNEL_SIGNAL.contains ⟨shift sig⟩ then
    inner.checkPendingSignals actions tf =
      (some ⟨shift sig⟩, inner.kernelSignalHandler ⟨shift sig⟩, tf)
  else
    (inner.checkPendingSignals actions tf).1 = some ⟨shift sig⟩ ∧
      (inner.checkPendingSignals actions tf).2.1.handlingSig = some sig ∧
      (inner.checkPendingSignals actions tf).2.1.trapframeBackup = some tf ∧
      (inner.checkPendingSignals actions tf).2.2.elr = (actions.table sig).handler

theorem shift_injective {sig sig' : Fin (MAX_SIG + 1)} (h : shift sig = shift sig') : sig = sig' := by
  revert sig sig'
  decide +kernel

/-- The lowest of the signals that are eligible. -/
def Lowest (inner : SignalInner) (actions : SignalActions) (sig : Fin (MAX_SIG + 1)) : Prop :=
  inner.eligible actions sig = true ∧ ∀ sig' < sig, inner.eligible actions sig' = false

theorem find_iff : (List.finRange (MAX_SIG + 1)).find? (inner.eligible actions) = some sig ↔
    inner.Lowest actions sig := by
  rw [List.find?_eq_some_iff_getElem]
  constructor
  · rintro ⟨hsig, i, hi, rfl, hbelow⟩
    refine ⟨hsig, fun sig' hlt => ?_⟩
    have hj : (sig' : ℕ) < i := by simpa [Fin.lt_def] using hlt
    simpa using hbelow sig' hj
  · rintro ⟨hsig, hbelow⟩
    refine ⟨hsig, sig, by rw [List.length_finRange]; exact sig.isLt, by simp, fun j hj => ?_⟩
    have hlt : j < MAX_SIG + 1 := hj.trans sig.isLt
    simpa using hbelow ⟨j, hlt⟩ hj

/-- Only the lowest signal that is eligible is looked at. -/
theorem checkPendingSignals_lowest (h : inner.Lowest actions sig) (tf : TrapFrame) :
    inner.checkPendingSignals actions tf =
      if KERNEL_SIGNAL.contains ⟨shift sig⟩ then
        (some ⟨shift sig⟩, inner.kernelSignalHandler ⟨shift sig⟩, tf)
      else (some ⟨shift sig⟩, inner.userSignalHandler (actions.table sig) sig tf) := by
  rw [checkPendingSignals, find_iff.mpr h]

theorem exists_lowest (h : inner.eligible actions sig = true) : ∃ low, inner.Lowest actions low := by
  cases hfind : (List.finRange (MAX_SIG + 1)).find? (inner.eligible actions) with
  | some low => exact ⟨low, find_iff.mp hfind⟩
  | none =>
    rw [List.find?_eq_none] at hfind
    exact absurd h (hfind sig (List.mem_finRange sig))

/-- The check acts on the lowest signal, if there is something to do for it. -/
theorem Lowest.actsOn (h : inner.Lowest actions sig) (hact : actionable actions sig = true)
    (tf : TrapFrame) : inner.ActsOn actions tf sig := by
  rw [ActsOn, checkPendingSignals_lowest h]
  split_ifs with hkernel
  · rfl
  · have hhandler : (actions.table sig).handler ≠ 0 := by
      rw [actionable, Bool.or_eq_true, bne_iff_ne] at hact
      exact hact.resolve_left hkernel
    rw [userSignalHandler, if_pos hhandler]
    exact ⟨rfl, rfl, rfl, rfl⟩

/-- It acts on no other one. -/
theorem Lowest.eq_of_actsOn {sig' : Fin (MAX_SIG + 1)} (h : inner.Lowest actions sig)
    (hacts : inner.ActsOn actions tf sig') : sig' = sig := by
  have hfst : (inner.checkPendingSignals actions tf).1 = some ⟨shift sig'⟩ := by
    rw [ActsOn] at hacts
    split_ifs at hacts
    · rw [hacts]
    · exact hacts.1
  rw [checkPendingSignals_fst, find_iff.mpr h, Option.map_some] at hfst
  exact (shift_injective (SignalFlags.mk.inj (Option.some.inj hfst))).symm

/-- For a signal without a handler the check does nothing. -/
theorem Lowest.check_eq (h : inner.Lowest actions sig) (hact : actionable actions sig = false)
    (tf : TrapFrame) : inner.checkPendingSignals actions tf = (some ⟨shift sig⟩, inner, tf) := by
  rw [actionable, Bool.or_eq_false_iff, bne_eq_false_iff_eq] at hact
  rw [checkPendingSignals_lowest h, hact.1, if_neg Bool.false_ne_true, userSignalHandler,
    if_neg (not_not.mpr hact.2)]

end SignalInner

open SignalInner

/-- With a signal pending for which there is something to do, the check acts on such a signal
exactly if the lowest signal that is eligible is one; otherwise it does nothing at all. -/
theorem pending_signal_served_iff (inner : SignalInner) (actions : SignalActions) (tf : TrapFrame)
    (hsome : ∃ sig, inner.eligible actions sig = true ∧ actionable actions sig = true) :
    ((∃ sig, inner.eligible actions sig = true ∧ actionable actions sig = true ∧
        inner.ActsOn actions tf sig) ↔
      ∀ sig, inner.Lowest actions sig → actionable actions sig = true) ∧
    ((∃ sig, inner.Lowest actions sig ∧ actionable actions sig = false) →
      (inner.checkPendingSignals actions tf).2 = (inner, tf)) := by
  refine ⟨⟨?_, fun hall => ?_⟩, ?_⟩
  · rintro ⟨sig, -, hact, hacts⟩ low hlow
    rwa [← hlow.eq_of_actsOn hacts]
  · obtain ⟨sig, helig, -⟩ := hsome
    obtain ⟨low, hlow⟩ := exists_lowest helig
    exact ⟨low, hlow.1, hall low hlow, hlow.actsOn (hall low hlow) tf⟩
  · rintro ⟨low, hlow, hact⟩
    rw [hlow.check_eq hact]

/-- SIGKILL and SIGUSR2 are pending, and there are no handlers. -/
theorem pending_signal_served_iff_kill : ∃ sig, actionable .default sig = true ∧
    ActsOn { SignalInner.new with signals := ⟨0x1200⟩, signalMask := ⟨0x1200⟩ } .default (.newUser 0 0) sig := by
  set inner : SignalInner := { SignalInner.new with signals := ⟨0x1200⟩, signalMask := ⟨0x1200⟩ }
  have hlow : inner.Lowest .default 9 := ⟨by decide +kernel, by decide +kernel⟩
  have hact : actionable .default 9 = true := by decide +kernel
  have hserved := (pending_signal_served_iff inner .default (.newUser 0 0) ⟨9, hlow.1, hact⟩).1
  obtain ⟨sig, -, hsig, hacts⟩ := hserved.mpr fun sig hsig => by
    have heq := find_iff.mpr hsig
    rw [find_iff.mpr hlow] at heq
    rw [← Option.some.inj heq]
    exact hact
  exact ⟨sig, hsig, hacts⟩

/-- The child has a handler for SIGUSR2 and lets SIGUSR1 and SIGUSR2 through, and sends both to
itself. SIGUSR2 stays pending: whenever signals are checked, SIGUSR1 is found and nothing is done. -/
theorem pending_signal_starved : ∃ k states task p, Trace k states ∧ k.tasks[5]? = some task ∧
    k.procs[task.process]? = some (some p) ∧ task.signal.eligible p.signalActions 12 = true ∧
    (p.signalActions.table 12).handler ≠ 0 ∧
    ∀ tf, (task.signal.checkPendingSignals p.signalActions tf).2 = (task.signal, tf) := by
  have hrun : ((booted 0 0).run (forked ++
      [.syscall (.sigaction 12 (some (.mapped ⟨0x2000, .empty⟩)) (some (.mapped ()))) (.newUser 0 0),
        .syscall (.sigprocmask 0x1400) (.newUser 0 0), .syscall (.kill 5 10) (.newUser 0 0),
        .syscall (.kill 5 12) (.newUser 0 0)])).any (fun k =>
      k.tasks[5]?.any fun task => k.procs[task.process]?.join.any fun p =>
        task.signal.eligible p.signalActions 12 && (p.signalActions.table 12).handler != 0 &&
          (List.finRange (MAX_SIG + 1)).find? (task.signal.eligible p.signalActions) == some 10 &&
          actionable p.signalActions 10 == false) = true := by
    decide +kernel
  obtain ⟨k, states, htrace, htest⟩ := exists_trace hrun
  obtain ⟨task, htask, htest⟩ := (Option.any_eq_true ..).mp htest
  obtain ⟨p, hp, htest⟩ := (Option.any_eq_true ..).mp htest
  simp only [Bool.and_eq_true, beq_iff_eq, bne_iff_ne] at htest
  obtain ⟨⟨⟨helig, hhandler⟩, hfind⟩, hact⟩ := htest
  refine ⟨k, states, task, p, htrace, htask, Option.join_eq_some_iff.mp hp, helig, hhandler, fun tf => ?_⟩
  rw [(find_iff.mp hfind).check_eq hact]

/-! Tasks that have been killed -/

/-- Signals that do not contain SIGDEF. -/
def DefFree (flag : SignalFlags) : Prop := flag.contains SIGDEF = false

namespace SignalInner

variable {inner : SignalInner} {actions : SignalActions} {sig : Fin (MAX_SIG + 1)} {tf : TrapFrame}

/-- SIGDEF is not pending, and SIGKILL is with a task that has been killed. -/
structure KilledBySigkill (inner : SignalInner) : Prop where
  sigdef : inner.signals.bits.getLsbD 0 = false
  sigkill : inner.killed = true → inner.signals.bits.getLsbD 9 = true

theorem contains_sigdef (flags : SignalFlags) : flags.contains SIGDEF = flags.bits.getLsbD 0 :=
  contains_shift flags 0

theorem contains_sigkill (flags : SignalFlags) : flags.contains SIGKILL = flags.bits.getLsbD 9 :=
  contains_shift flags 9

/-- A signal that has been handled is not pending any more, and the others still are. -/
theorem getLsbD_toggle (flags : SignalFlags) (sig other : Fin (MAX_SIG + 1)) (h : other ≠ sig) :
    (flags.toggle ⟨shift sig⟩).bits.getLsbD other = flags.bits.getLsbD other := by
  rw [toggle, BitVec.getLsbD_xor]
  have hbit : (shift sig).getLsbD other = false := by
    revert sig other
    decide +kernel
  rw [hbit, Bool.xor_false]

theorem KilledBySigkill.toggle {inner' : SignalInner} (h : inner.KilledBySigkill)
    (sig : Fin (MAX_SIG + 1)) (h0 : sig ≠ 0) (h9 : sig ≠ 9) (hsignals : inner'.signals = inner.signals.toggle ⟨shift sig⟩)
    (hkilled : inner'.killed = inner.killed) : inner'.KilledBySigkill := by
  have hdef := getLsbD_toggle inner.signals sig 0 h0.symm
  have hkill := getLsbD_toggle inner.signals sig 9 h9.symm
  refine ⟨?_, fun hk => ?_⟩
  · rw [hsignals]
    exact hdef.trans h.sigdef
  · rw [hsignals]
    exact hkill.trans (h.sigkill (hkilled ▸ hk))

theorem pending_of_eligible (h : inner.eligible actions sig = true) :
    inner.signals.bits.getLsbD sig = true := by
  rw [eligible_eq, Bool.and_eq_true, Bool.and_eq_true, contains_shift] at h
  exact h.1.1

theorem kernel_signal_cases (h : KERNEL_SIGNAL.contains ⟨shift sig⟩ = true) :
    sig = 0 ∨ sig = 9 ∨ sig = 18 ∨ sig = 19 := by
  revert sig
  decide +kernel

theorem KilledBySigkill.kernel (h : inner.KilledBySigkill) (hpending : inner.signals.bits.getLsbD sig = true)
    (hkernel : KERNEL_SIGNAL.contains ⟨shift sig⟩ = true) :
    (inner.kernelSignalHandler ⟨shift sig⟩).KilledBySigkill := by
  rw [kernelSignalHandler]
  split_ifs with hstop hcont hsent
  · exact h.toggle 19 (by decide) (by decide) rfl rfl
  · exact h.toggle 18 (by decide) (by decide) rfl rfl
  · exact h
  · refine ⟨h.sigdef, fun _ => ?_⟩
    rcases kernel_signal_cases hkernel with rfl | rfl | rfl | rfl
    · rw [show ((0 : Fin (MAX_SIG + 1)) : ℕ) = 0 from rfl, h.sigdef] at hpending
      cases hpending
    · exact hpending
    · exact absurd rfl hcont
    · exact absurd rfl hstop

theorem KilledBySigkill.check (h : inner.KilledBySigkill) (actions : SignalActions) (tf : TrapFrame) :
    (inner.checkPendingSignals actions tf).2.1.KilledBySigkill := by
  cases hfind : (List.finRange (MAX_SIG + 1)).find? (inner.eligible actions) with
  | none =>
    rw [checkPendingSignals, hfind]
    exact h
  | some sig =>
    have hlow := find_iff.mp hfind
    have hpending := pending_of_eligible hlow.1
    rw [checkPendingSignals_lowest hlow]
    split_ifs with hkernel
    · exact h.kernel hpending hkernel
    · rw [userSignalHandler]
      split_ifs
      · -- the signals of the kernel are not the user's
        have h0 : sig ≠ 0 := by
          rintro rfl
          exact hkernel (by decide +kernel)
        have h9 : sig ≠ 9 := by
          rintro rfl
          exact hkernel (by decide +kernel)
        exact h.toggle sig h0 h9 rfl rfl
      · exact h

end SignalInner

/-- Without SIGDEF, only SIGKILL kills. -/
theorem SignalRun.killedBySigkill {inner : SignalInner} (h : SignalRun DefFree inner) :
    inner.KilledBySigkill := by
  induction h with
  | new => exact ⟨by decide, fun hk => by cases hk⟩
  | @send inner flag _ hflag ih =>
    rw [DefFree, contains_sigdef] at hflag
    refine ⟨?_, fun hk => ?_⟩
    · rw [SignalFlags.insert, BitVec.getLsbD_or, ih.sigdef, hflag, Bool.or_false]
    · rw [SignalFlags.insert, BitVec.getLsbD_or, ih.sigkill hk, Bool.true_or]
  | sigprocmask _ _ ih => exact ⟨ih.sigdef, ih.sigkill⟩
  | sigreturn _ _ ih => exact ⟨ih.sigdef, ih.sigkill⟩
  | check _ actions tf ih => exact ih.check actions tf

theorem checkError_of_sigkill {flags : SignalFlags} (h : flags.contains SIGKILL = true) :
    ∃ errno message, flags.checkError = some (errno, message) := by
  cases herror : flags.checkError with
  | some error => exact ⟨error.1, error.2, rfl⟩
  | none =>
    rw [checkError, if_pos h] at herror
    split_ifs at herror

/-- The runs of the kernel in which `sys_kill` sends signals of `S` only. -/
inductive SignalTrace (S : SignalFlags → Prop) : Kernel → Prop
  | boot {k : Kernel} {entry ustackTop : UInt64} (h : boot entry ustackTop = .ok k) : SignalTrace S k
  | step {k k' : Kernel} {e : Event} (h : SignalTrace S k) (he : k.enabled e)
      (hkill : ∀ pid signum tf, e = .syscall (.kill pid signum) tf → S ⟨shift signum⟩)
      (hs : k.step e = .ok k') : SignalTrace S k'

theorem SignalTrace.sent {S : SignalFlags → Prop} {k : Kernel} (hS : SentByKernel S)
    (h : SignalTrace S k) : k.Sent S := by
  induction h with
  | @boot k entry ustackTop h =>
    cases (boot_eq entry ustackTop).symm.trans h
    intro task htask
    simp only [booted, List.mem_cons, List.not_mem_nil, or_false] at htask
    rcases htask with rfl | rfl | rfl | rfl | rfl <;> exact .new
  | step _ _ hkill hs ih => exact ((step_turns hS hkill _).post_of_ok hs).signals ih

theorem sentByKernel_defFree : SentByKernel DefFree :=
  ⟨show SIGKILL.contains SIGDEF = false by decide +kernel,
    show SIGINT.contains SIGDEF = false by decide +kernel⟩

/-- While no task has been sent SIGDEF, `handle_signals` returns an error with the flag set, and
the task exits. -/
theorem killed_task_exits {k : Kernel} {task : Task} {p : Process} (h : k.Sent DefFree)
    (htask : k.tasks[k.current]? = some task) (hp : k.procs[task.process]? = some (some p))
    (hkilled : (task.signal.checkPendingSignals p.signalActions task.tf).2.1.killed = true) :
    ∃ errno message,
      (task.signal.checkPendingSignals p.signalActions task.tf).2.1.signals.checkError =
        some (errno, message) ∧
      k.handleSignals = (do
        k.lockActions task (task.signal.checkPendingSignals p.signalActions task.tf).1
        (k.setSignal (task.signal.checkPendingSignals p.signalActions task.tf).2.1
          (task.signal.checkPendingSignals p.signalActions task.tf).2.2).exit errno) := by
  have hrun := (h task (List.mem_of_getElem? htask)).check p.signalActions task.tf
  have hkill := hrun.killedBySigkill.sigkill hkilled
  rw [← contains_sigkill] at hkill
  obtain ⟨errno, message, herror⟩ := checkError_of_sigkill hkill
  refine ⟨errno, message, herror, ?_⟩
  have htask' : k.task k.current = .ok task := by rw [Kernel.task, htask]
  have hp' : k.process task.process = .ok p := by rw [Kernel.process, hp]
  simp only [handleSignals, htask', hp', bind, Except.bind]
  rw [if_pos hkilled, signalsHandled, herror]

/-- A task with SIGKILL pending, which its mask lets through. -/
theorem killed_task_exits_sigkill : ∃ (k : Kernel) (task : Task) (p : Process),
    k.Sent DefFree ∧ k.tasks[k.current]? = some task ∧ k.procs[task.process]? = some (some p) ∧
    ∃ errno message, (task.signal.checkPendingSignals p.signalActions task.tf).2.1.signals.checkError =
      some (errno, message) := by
  have hboot : (booted 0 0).Sent DefFree := (SignalTrace.boot (boot_eq 0 0)).sent sentByKernel_defFree
  have hrun : SignalRun DefFree { SignalInner.new with
      signals := SignalFlags.empty.insert SIGKILL, signalMask := SIGKILL } :=
    (SignalRun.new.send sentByKernel_defFree.sigkill).sigprocmask SIGKILL
  have hmoves : Moves DefFree (booted 0 0) ((booted 0 0).modifyTask 4 fun task => { task with
      signal := { SignalInner.new with
        signals := SignalFlags.empty.insert SIGKILL, signalMask := SIGKILL } }) :=
    moves_modifyTask fun _ _ _ => hrun
  let k : Kernel := { (booted 0 0).modifyTask 4 fun task => { task with
    signal := { SignalInner.new with
      signals := SignalFlags.empty.insert SIGKILL, signalMask := SIGKILL } } with current := 4 }
  have hsent : k.Sent DefFree := hmoves.signals hboot
  obtain ⟨errno, message, herror, -⟩ := killed_task_exits hsent rfl rfl (by decide +kernel)
  exact ⟨k, _, _, hsent, rfl, rfl, errno, message, herror⟩

/-- The child lets SIGDEF through and sends it to itself: it has been killed, and is in user mode. -/
theorem killed_task_returns : ∃ k states task, Trace k states ∧ k.tasks[k.current]? = some task ∧
    task.signal.killed = true ∧ task.cont = .user := by
  have hrun : ((booted 0 0).run (forked ++ [.syscall (.sigprocmask 1) (.newUser 0 0),
      .syscall (.kill 5 0) (.newUser 0 0)])).any (fun k => k.tasks[k.current]?.any fun task =>
        task.signal.killed && task.cont == .user) = true := by
    decide +kernel
  obtain ⟨k, states, htrace, htest⟩ := exists_trace hrun
  obtain ⟨task, htask, htest⟩ := (Option.any_eq_true ..).mp htest
  rw [Bool.and_eq_true, beq_iff_eq] at htest
  exact ⟨k, states, task, htrace, htask, htest.1, htest.2⟩

end RCore.Os
