import RCore.Proofs.Os.Signals

/-! `sys_kill`: which tasks get which signal. -/

namespace RCore.Os

open RCore.Lib Kernel SignalFlags

/-- To send a signal that is pending changes nothing. -/
theorem insert_of_contains {flags flag : SignalFlags} (h : flags.contains flag = true) :
    flags.insert flag = flags := by
  rw [contains, beq_iff_eq] at h
  refine congrArg SignalFlags.mk (BitVec.eq_of_getLsbD_eq fun i _ => ?_)
  have hbit := congrArg (fun bits => bits.getLsbD i) h
  simp only [BitVec.getLsbD_and] at hbit
  rw [BitVec.getLsbD_or]
  cases hi : flags.bits.getLsbD i with
  | true => rw [Bool.true_or]
  | false => rw [← hbit, hi, Bool.false_and, Bool.or_false]

/-- What has been sent is pending. -/
theorem contains_insert (flags flag : SignalFlags) : (flags.insert flag).contains flag = true := by
  rw [contains, beq_iff_eq]
  refine BitVec.eq_of_getLsbD_eq fun i _ => ?_
  rw [SignalFlags.insert, BitVec.getLsbD_and, BitVec.getLsbD_or]
  cases flag.bits.getLsbD i <;> simp

namespace Task

variable (task : Task) (flag : SignalFlags)

/-- A signal is sent to the task, unless it is a zombie. -/
def send : Task :=
  if task.state = .zombie then task
  else { task with signal := { task.signal with signals := task.signal.signals.insert flag } }

/-- The signal is new to the task. -/
def lacks : Bool := task.state ≠ .zombie ∧ !task.signal.signals.contains flag

variable {task flag}

theorem send_eq_self (h : task.lacks flag = false) : task.send flag = task := by
  rw [lacks, decide_eq_false_iff_not, not_and, Bool.not_eq_true', Bool.not_eq_false] at h
  rw [send]
  split_ifs with hz
  · rfl
  · rw [insert_of_contains (h hz)]

theorem lacks_send (task : Task) (flag : SignalFlags) : (task.send flag).lacks flag = false := by
  rw [lacks, decide_eq_false_iff_not, send]
  split_ifs with hz
  · exact fun h => h.1 hz
  · rw [contains_insert]
    exact fun h => by cases h.2

theorem send_send (task : Task) (flag : SignalFlags) : (task.send flag).send flag = task.send flag :=
  send_eq_self (lacks_send task flag)

theorem signals_send_ne (h : task.lacks flag = true) :
    (task.send flag).signal.signals ≠ task.signal.signals := by
  rw [lacks, decide_eq_true_iff] at h
  rw [send, if_neg h.1]
  intro heq
  replace heq : task.signal.signals.insert flag = task.signal.signals := heq
  have hcontains := contains_insert task.signal.signals flag
  rw [heq] at hcontains
  rw [hcontains] at h
  cases h.2

end Task

namespace Kernel

variable {k : Kernel} {t u pid : ℕ} {flag : SignalFlags} {task : Task} {p : Process}

theorem insertSignal_eq (k : Kernel) (t : ℕ) (flag : SignalFlags) :
    k.insertSignal t flag = (k.tasks[t]?.any (·.lacks flag), k.modifyTask t (·.send flag)) := by
  have hsame : k.tasks[t]?.any (·.lacks flag) = false → k.modifyTask t (·.send flag) = k := by
    intro hlacks
    have htasks : k.tasks.modify t (·.send flag) = k.tasks := by
      refine List.ext_getElem? fun u => ?_
      rw [List.getElem?_modify]
      split_ifs with h
      · subst h
        cases htask : k.tasks[t]? with
        | none => rfl
        | some task =>
          rw [htask, Option.any_some] at hlacks
          exact congrArg some (Task.send_eq_self hlacks)
      · exact id_map _
    rw [modifyTask, htasks]
  rw [insertSignal]
  split
  next task htask =>
    rw [htask, Option.any_some] at hsame ⊢
    split_ifs with hnew
    · have hlacks : task.lacks flag = true := decide_eq_true hnew
      refine Prod.ext hlacks.symm (congrArg (fun tasks => { k with tasks }) ?_)
      refine List.ext_getElem? fun u => ?_
      rw [List.getElem?_modify, List.getElem?_modify]
      split_ifs with h
      · rw [← h, htask]
        exact congrArg some (if_neg hnew.1).symm
      · rfl
    · have hlacks : task.lacks flag = false := decide_eq_false hnew
      rw [hsame hlacks, hlacks]
  next hnone =>
    rw [hnone] at hsame ⊢
    rw [hsame rfl]
    rfl

/-- Every task that is listed is sent the signal, and how many it was new to is more than zero if
there was one. -/
theorem insertSignals_spec (flag : SignalFlags) (tasks : List (ℕ × ℕ)) (k : Kernel) :
    (∀ u, (k.insertSignals flag tasks).2.tasks[u]? =
      if u ∈ tasks.map Prod.snd then k.tasks[u]?.map (·.send flag) else k.tasks[u]?) ∧
    (0 < (k.insertSignals flag tasks).1 ↔
      ∃ u ∈ tasks.map Prod.snd, k.tasks[u]?.any (·.lacks flag) = true) := by
  induction tasks generalizing k with
  | nil =>
    refine ⟨fun u => (if_neg List.not_mem_nil).symm, iff_of_false (Nat.lt_irrefl 0) ?_⟩
    rintro ⟨u, hu, -⟩
    exact List.not_mem_nil hu
  | cons e tasks ih =>
    obtain ⟨htasks, hcount⟩ := ih (k.modifyTask e.2 (·.send flag))
    have heq : k.insertSignals flag (e :: tasks) =
        ((insertSignals (k.modifyTask e.2 (·.send flag)) flag tasks).1 +
            (k.tasks[e.2]?.any (·.lacks flag)).toNat,
          (insertSignals (k.modifyTask e.2 (·.send flag)) flag tasks).2) := by
      rw [insertSignals, insertSignal_eq]
    rw [heq]
    refine ⟨fun u => ?_, ?_⟩
    · dsimp only
      rw [htasks u, getElem?_modifyTask, List.map_cons]
      by_cases hu : u = e.2 <;> by_cases hmem : u ∈ tasks.map Prod.snd
      · rw [if_pos hmem, if_pos hu, if_pos (List.mem_cons_of_mem _ hmem), Option.map_map]
        exact congrArg (Option.map · _) (funext fun task => Task.send_send task flag)
      · rw [if_neg hmem, if_pos hu, if_pos (hu ▸ List.mem_cons_self)]
      · rw [if_pos hmem, if_neg hu, if_pos (List.mem_cons_of_mem _ hmem)]
      · rw [if_neg hmem, if_neg hu, if_neg (List.not_mem_cons_of_ne_of_not_mem hu hmem)]
    · have hpos : ∀ b : Bool, 0 < b.toNat ↔ b = true := by decide
      rw [Nat.add_pos_iff_pos_or_pos, hcount, hpos, List.map_cons]
      constructor
      · rintro (⟨u, hu, hlacks⟩ | hlacks)
        · rw [getElem?_modifyTask] at hlacks
          split_ifs at hlacks with hue
          · -- the first task does not lack what it has just been sent
            obtain ⟨task, htask, hlacks⟩ := (Option.any_eq_true ..).mp hlacks
            obtain ⟨task₀, -, rfl⟩ := Option.map_eq_some_iff.mp htask
            rw [Task.lacks_send] at hlacks
            cases hlacks
          · exact ⟨u, List.mem_cons_of_mem _ hu, hlacks⟩
        · exact ⟨e.2, List.mem_cons_self, hlacks⟩
      · rintro ⟨u, hu, hlacks⟩
        by_cases hue : u = e.2
        · exact .inr (hue ▸ hlacks)
        · refine .inl ⟨u, (List.mem_cons.mp hu).resolve_left hue, ?_⟩
          rw [getElem?_modifyTask, if_neg hue]
          exact hlacks

/-- The signals that are pending with a task. -/
def pendingOf (k : Kernel) (t : ℕ) : Option SignalFlags := k.tasks[t]?.map (·.signal.signals)

/-- A task of the process that is not a zombie. -/
def Targets (k : Kernel) (pid t : ℕ) : Prop :=
  ∃ p, k.procs[pid]? = some (some p) ∧ t ∈ p.tasks.map Prod.snd ∧ k.stateOf t ≠ some .zombie

/-- What `sys_kill` is for: an unknown process and a number that is no signal are refused;
otherwise every task of the process gets the signal, and no other one. -/
def KillSpec (k : Kernel) (pid : ℕ) (signum : ℤ) : Prop :=
  ∃ ret k', k.kill pid signum = .ok (ret, k') ∧
    if pid ∈ k.procMap ∧ 0 ≤ signum ∧ signum ≤ MAX_SIG then
      (∀ t, k.Targets pid t → k'.pendingOf t =
        (k.pendingOf t).map fun signals => ⟨signals.bits ||| BitVec.twoPow 32 signum.toNat⟩) ∧
      (∀ t, ¬ k.Targets pid t → k'.pendingOf t = k.pendingOf t) ∧
      (ret = 0 ∨ ret = -1) ∧ (ret = 0 ↔ ∃ t, k'.pendingOf t ≠ k.pendingOf t)
    else ret = -1 ∧ ∀ t, k'.pendingOf t = k.pendingOf t

/-- What the code does: the signal that is sent is the number modulo 32. -/
theorem kill_eq (hp : k.procs[pid]? = some (some p)) (hmap : pid ∈ k.procMap) (signum : ℤ) :
    k.kill pid signum =
      .ok (if 0 < (k.insertSignals ⟨shift signum⟩ p.tasks).1 then 0 else -1,
        (k.insertSignals ⟨shift signum⟩ p.tasks).2) := by
  have hprocess : k.process pid = .ok p := by rw [Kernel.process, hp]
  rw [kill, if_pos hmap, hprocess]
  rfl

/-- What is pending after it. -/
theorem pendingOf_kill (hp : k.procs[pid]? = some (some p)) (flag : SignalFlags) (t : ℕ) :
    (k.Targets pid t → (k.insertSignals flag p.tasks).2.pendingOf t =
      (k.pendingOf t).map (·.insert flag)) ∧
    (¬ k.Targets pid t → (k.insertSignals flag p.tasks).2.pendingOf t = k.pendingOf t) := by
  have htasks := (insertSignals_spec flag p.tasks k).1 t
  rw [pendingOf, htasks, pendingOf]
  constructor
  · rintro ⟨p', hp', hmem, hz⟩
    cases hp.symm.trans hp'
    rw [if_pos hmem]
    cases htask : k.tasks[t]? with
    | none => rfl
    | some task =>
      have hstate : task.state ≠ .zombie := by
        rintro hstate
        rw [stateOf, htask, Option.map_some, hstate] at hz
        exact hz rfl
      simp only [Option.map_some, Task.send, if_neg hstate]
  · intro htargets
    split_ifs with hmem
    · cases htask : k.tasks[t]? with
      | none => rfl
      | some task =>
        have hstate : task.state = .zombie := by
          by_contra hstate
          refine htargets ⟨p, hp, hmem, ?_⟩
          rw [stateOf, htask, Option.map_some]
          exact fun heq => hstate (Option.some.inj heq)
        simp only [Option.map_some, Task.send, if_pos hstate]
    · rfl

/-- A task that the signal is new to is one of the process, and has more signals pending then. -/
theorem pendingOf_kill_ne_iff (flag : SignalFlags) :
    (∃ u ∈ p.tasks.map Prod.snd, k.tasks[u]?.any (·.lacks flag) = true) ↔
      ∃ t, (k.insertSignals flag p.tasks).2.pendingOf t ≠ k.pendingOf t := by
  have htasks := (insertSignals_spec flag p.tasks k).1
  constructor
  · rintro ⟨u, hu, hlacks⟩
    obtain ⟨task, htask, hlacks⟩ := (Option.any_eq_true ..).mp hlacks
    refine ⟨u, ?_⟩
    rw [pendingOf, htasks u, if_pos hu, pendingOf, htask]
    exact fun heq => Task.signals_send_ne hlacks (Option.some.inj heq)
  · rintro ⟨u, hne⟩
    rw [pendingOf, htasks u, pendingOf] at hne
    split_ifs at hne with hu
    · refine ⟨u, hu, ?_⟩
      cases htask : k.tasks[u]? with
      | none =>
        rw [htask] at hne
        exact absurd rfl hne
      | some task =>
        rw [htask] at hne
        rw [Option.any_some]
        by_contra hlacks
        rw [Option.map_some, Task.send_eq_self (Bool.not_eq_true _ ▸ hlacks)] at hne
        exact hne rfl
    · exact absurd rfl hne

/-- All tasks of the process have the signal, exactly if it is new to none. -/
theorem targets_contain_iff (hp : k.procs[pid]? = some (some p)) (flag : SignalFlags) :
    (∀ t, k.Targets pid t → (k.pendingOf t).all (·.contains flag) = true) ↔
      ¬ ∃ u ∈ p.tasks.map Prod.snd, k.tasks[u]?.any (·.lacks flag) = true := by
  constructor
  · rintro hall ⟨u, hu, hlacks⟩
    obtain ⟨task, htask, hlacks⟩ := (Option.any_eq_true ..).mp hlacks
    rw [Task.lacks, decide_eq_true_iff] at hlacks
    have htarget : k.Targets pid u := by
      refine ⟨p, hp, hu, ?_⟩
      rw [stateOf, htask, Option.map_some]
      exact fun heq => hlacks.1 (Option.some.inj heq)
    have hcontains := hall u htarget
    rw [pendingOf, htask, Option.map_some, Option.all_some] at hcontains
    rw [hcontains] at hlacks
    cases hlacks.2
  · rintro hnone t ⟨p', hp', hmem, hz⟩
    cases hp.symm.trans hp'
    rw [pendingOf]
    cases htask : k.tasks[t]? with
    | none => rfl
    | some task =>
      rw [Option.map_some, Option.all_some]
      by_contra hlacks
      refine hnone ⟨t, hmem, ?_⟩
      rw [htask, Option.any_some, Task.lacks, decide_eq_true_iff]
      refine ⟨fun hstate => hz ?_, by rw [Bool.eq_false_iff.mpr hlacks]; rfl⟩
      rw [stateOf, htask, Option.map_some, hstate]

end Kernel

theorem shift_of_range {signum : ℤ} (h : 0 ≤ signum ∧ signum ≤ MAX_SIG) :
    shift signum = BitVec.twoPow 32 signum.toNat := by
  have hlt : signum < 32 := lt_of_le_of_lt h.2 (by decide)
  rw [shift, BitVec.twoPow_eq, Int.emod_eq_of_lt h.1 hlt]

variable {k : Kernel} {pid : ℕ} {signum : ℤ}

/-- `PROC_MAP` holds references: the processes it has are there. -/
def Kernel.MapHolds (k : Kernel) : Prop := ∀ pid ∈ k.procMap, ∃ p, k.procs[pid]? = some (some p)

/-- `sys_kill` does what it is for, exactly if the process is unknown or the number is that of a
signal; or if all tasks of the process already have the signal that the number is modulo 32. -/
theorem kill_spec_iff (h : k.MapHolds) (pid : ℕ) (signum : ℤ) :
    k.KillSpec pid signum ↔ pid ∉ k.procMap ∨ (0 ≤ signum ∧ signum ≤ MAX_SIG) ∨
      ∀ t, (k.Targets pid t → (k.pendingOf t).all (·.contains ⟨shift signum⟩) = true) := by
  by_cases hmap : pid ∈ k.procMap
  · obtain ⟨p, hp⟩ := h pid hmap
    have hkill := kill_eq hp hmap signum
    have hpending := pendingOf_kill hp ⟨shift signum⟩
    have hcount := (insertSignals_spec ⟨shift signum⟩ p.tasks k).2
    have hchanged := pendingOf_kill_ne_iff (k := k) (p := p) ⟨shift signum⟩
    have hall := targets_contain_iff hp ⟨shift signum⟩
    generalize k.insertSignals ⟨shift signum⟩ p.tasks = r at hkill hpending hcount hchanged
    obtain ⟨count, k'⟩ := r
    dsimp only at hkill hpending hcount hchanged
    by_cases hrange : 0 ≤ signum ∧ signum ≤ MAX_SIG
    · -- the number is that of a signal
      refine iff_of_true ⟨_, k', hkill, ?_⟩ (.inr (.inl hrange))
      rw [if_pos ⟨hmap, hrange⟩, ← shift_of_range hrange, ← hchanged, ← hcount]
      refine ⟨fun t => (hpending t).1, fun t => (hpending t).2, ?_, ?_⟩
      · split_ifs
        · exact .inl rfl
        · exact .inr rfl
      · split_ifs with hpos
        · exact iff_of_true rfl hpos
        · exact iff_of_false (by decide) hpos
    · -- it is not, and the signal modulo 32 must not be new to any task
      rw [hall, ← hcount]
      constructor
      · rintro ⟨ret, k'', hkill', hbody⟩
        cases hkill.symm.trans hkill'
        rw [if_neg fun hc => hrange hc.2] at hbody
        refine .inr (.inr fun hpos => ?_)
        rw [if_pos hpos] at hbody
        cases hbody.1
      · rintro (hunknown | hsignal | hnone)
        · exact absurd hmap hunknown
        · exact absurd hsignal hrange
        · rw [if_neg hnone] at hkill
          refine ⟨-1, k', hkill, ?_⟩
          rw [if_neg fun hc => hrange hc.2]
          refine ⟨rfl, fun t => ?_⟩
          by_contra hne
          exact hnone (hcount.mpr (hchanged.mpr ⟨t, hne⟩))
  · refine iff_of_true ⟨-1, k, ?_, ?_⟩ (.inl hmap)
    · rw [kill, if_neg hmap]
      rfl
    · rw [if_neg fun hc => hmap hc.1]
      exact ⟨rfl, fun _ => rfl⟩

/-- Signal 10 to the child of the shell. -/
theorem kill_spec_iff_child : ∃ k : Kernel, k.MapHolds ∧ 5 ∈ k.procMap ∧ k.KillSpec 5 10 := by
  have hrun : ((booted 0 0).run forked).any (fun k => decide (5 ∈ k.procMap) &&
      k.procMap.all fun pid => k.procs[pid]?.join.isSome) = true := by
    decide +kernel
  obtain ⟨k, -, htest⟩ := (Option.any_eq_true ..).mp hrun
  rw [Bool.and_eq_true, decide_eq_true_iff, List.all_eq_true] at htest
  have hmap : k.MapHolds := fun pid hpid => by
    obtain ⟨p, hp⟩ := Option.isSome_iff_exists.mp (htest.2 pid hpid)
    exact ⟨p, Option.join_eq_some_iff.mp hp⟩
  exact ⟨k, hmap, htest.1, (kill_spec_iff hmap 5 10).mpr (.inr (.inl (by decide)))⟩

/-- The child of the shell sends signal 42 to itself, which is no signal: the call returns 0, and
signal 10 is pending then. -/
theorem kill_wraps : ∃ k states k', Trace k states ∧ k.kill 5 42 = .ok (0, k') ∧
    k.pendingOf 5 = some .empty ∧ k'.pendingOf 5 = some ⟨1 <<< 10⟩ ∧ ¬ k.KillSpec 5 42 := by
  have hrun : ((booted 0 0).run forked).any (fun k => k.pendingOf 5 == some .empty &&
      (k.kill 5 42).toOption.any fun r => r.1 == 0 && r.2.pendingOf 5 == some ⟨1 <<< 10⟩) = true := by
    decide +kernel
  obtain ⟨k, states, htrace, htest⟩ := exists_trace hrun
  rw [Bool.and_eq_true, beq_iff_eq] at htest
  obtain ⟨hempty, htest⟩ := htest
  obtain ⟨⟨ret, k'⟩, hkill, htest⟩ := (Option.any_eq_true ..).mp htest
  rw [Bool.and_eq_true, beq_iff_eq, beq_iff_eq] at htest
  obtain ⟨rfl, hpending⟩ := htest
  have hkill := ok_of_toOption hkill
  refine ⟨k, states, k', htrace, hkill, hempty, hpending, ?_⟩
  rintro ⟨ret, k'', hkill', hbody⟩
  cases hkill.symm.trans hkill'
  rw [if_neg fun hc => absurd hc.2.2 (by decide)] at hbody
  cases hbody.1

end RCore.Os
