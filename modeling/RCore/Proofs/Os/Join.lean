import RCore.Proofs.Os.Reaping
import RCore.Sanity.Os.Threads
import RCore.Spec.Os.Join

/-! What the user-level `waittid` returns. The kernel reports the exit code of the thread, and
takes it off the table, in one call. The loop takes -2 for "not yet", whoever has chosen it. -/

namespace RCore.Os

open RCore.Lib Kernel Roster

variable {k k₁ k' : Kernel} {r r' : Roster} {pid w tid u : ℕ} {p : ProcEntry} {polls : List Poll} {phase : JoinPhase}
  {value : ℤ} {tf : TrapFrame}

/-- All exit codes get through the conversions. -/
theorem userValue_toInt (code : Int32) : userValue code.toInt = code.toInt := by
  have hle := code.le_toInt
  have hlt := code.toInt_lt
  have hword : code.toInt.bmod (2 ^ 32) = code.toInt := by
    rw [Int.bmod_eq_iff] <;> omega
  unfold userValue wrap
  rw [hword, Int.bmod_eq_iff] <;> omega

theorem toInt_eq_neg_two {code : Int32} : code.toInt = -2 ↔ code = -2 := by
  rw [← Int32.toInt_inj]
  rfl

/-- What `Process::waittid` answers, and the roster then. -/
inductive Answers (r : Roster) (pid tid : ℕ) (p : ProcEntry) : ℤ → Roster → Prop
  | ended {u : ℕ} {task : TaskEntry} (hu : p.tasks.lookup tid = some u) (htask : r.tasks[u]? = some task)
      (hz : task.zombie = true) : Answers r pid tid p task.exitCode.toInt (r.waittid pid tid)
  | running {u : ℕ} {task : TaskEntry} (hu : p.tasks.lookup tid = some u) (htask : r.tasks[u]? = some task)
      (hz : task.zombie = false) : Answers r pid tid p (-2) r
  | unknown (hu : p.tasks.lookup tid = none) : Answers r pid tid p (-1) r

theorem mem_of_lookup {l : List (ℕ × ℕ)} {a b : ℕ} (h : l.lookup a = some b) : (a, b) ∈ l := by
  obtain ⟨l₁, l₂, rfl, -⟩ := List.lookup_eq_some_iff.mp h
  exact List.mem_append_right _ List.mem_cons_self

namespace Kernel

theorem roster_task {t : ℕ} {task : Task} (h : k.tasks[t]? = some task) :
    k.roster.tasks[t]? = some task.entry := by
  rw [getElem?_roster_tasks, h]
  rfl

theorem exists_task {t : ℕ} {entry : TaskEntry} (h : k.roster.tasks[t]? = some entry) :
    ∃ task, k.tasks[t]? = some task ∧ task.entry = entry := by
  rw [getElem?_roster_tasks, Option.map_eq_some_iff] at h
  exact h

theorem waittid_answers {p : Process} (hok : k.roster.Ok) (hp : k.procs[pid]? = some (some p)) (tid : ℕ) :
    ∃ value k₁, k.waittid pid tid = .ok (value, k₁) ∧ k₁.current = k.current ∧
      Answers k.roster pid tid p.entry value k₁.roster := by
  have hproc : k.process pid = .ok p := by rw [Kernel.process, hp]
  unfold Kernel.waittid
  rw [hproc]
  dsimp only [bind, Except.bind]
  cases hu : p.tasks.lookup tid with
  | none => exact ⟨-1, k, rfl, rfl, .unknown hu⟩
  | some u =>
    obtain ⟨entry, hentry, -⟩ := (hok.procs pid _ (roster_proc hp)).tasks _ (mem_of_lookup hu)
    obtain ⟨task, htask, rfl⟩ := exists_task hentry
    have hthread : k.task u = .ok task := by rw [Kernel.task, htask]
    dsimp only
    rw [hthread]
    dsimp only
    split_ifs with hz
    · refine ⟨_, _, rfl, rfl, ?_⟩
      have hr : (k.modifyProc pid fun p => { p with tasks := p.tasks.filter fun e => e.1 ≠ tid }).roster =
          k.roster.waittid pid tid := roster_modifyProc fun _ => rfl
      rw [hr]
      exact .ended hu hentry (beq_iff_eq.mpr hz)
    · exact ⟨-2, k, rfl, rfl, .running hu hentry (beq_eq_false_iff_ne.mpr hz)⟩

/-- The task `w` is one of the process, and not the thread itself. -/
def Waiter (k : Kernel) (pid w tid : ℕ) : Prop :=
  ∃ me, k.roster.tasks[w]? = some me ∧ me.process = pid ∧ me.tid ≠ tid

/-- The call of the waiting task returns. -/
theorem reply_answers {states : List Kernel} (h : Trace k states) (hw : k.Waiter pid k.current tid) (tf : TrapFrame) :
    ∃ value k₁ p, k.reply (.waittid tid) tf = some (value, k₁) ∧ k₁.current = k.current ∧
      k.roster.procs[pid]? = some (some p) ∧ Answers k.roster pid tid p value k₁.roster := by
  obtain ⟨me, hme, rfl, htid⟩ := hw
  have hsame : (k.setTf tf).roster = k.roster := roster_modifyTask_same fun _ _ => rfl
  -- the process is there, since the task is alive
  obtain ⟨me', hme', hz⟩ := h.serving.current
  obtain rfl : me = me' := Option.some.inj (hme.symm.trans hme')
  obtain ⟨p, hp, -⟩ := h.rosterOk.listed _ me hme hz
  have hproc := hp
  rw [← hsame, getElem?_roster_procs, Option.map_eq_some_iff] at hproc
  obtain ⟨x, hx, hmap⟩ := hproc
  obtain ⟨p, rfl, rfl⟩ := Option.map_eq_some_iff.mp hmap
  have hentry : (k.setTf tf).roster.tasks[k.current]? = some me := hsame ▸ hme
  obtain ⟨task, htask, rfl⟩ := exists_task hentry
  have hok : (k.setTf tf).roster.Ok := by
    rw [hsame]
    exact h.rosterOk
  obtain ⟨value, k₁, hcall, hcur, hanswer⟩ := waittid_answers hok hx tid
  have hget : (k.setTf tf).task (k.setTf tf).current = .ok task := by
    rw [Kernel.task, show (k.setTf tf).tasks[(k.setTf tf).current]? = some task from htask]
  have hsys : (k.setTf tf).syscall (.waittid tid) = .ok (.ret value, k₁) := by
    change (k.setTf tf).sysWaittid tid = _
    unfold sysWaittid
    rw [hget]
    dsimp only [bind, Except.bind]
    rw [if_neg (show task.tid ≠ tid from htid), show (k.setTf tf).waittid task.process tid = _ from hcall]
    rfl
  rw [hsame] at hanswer
  refine ⟨value, k₁, p.entry, ?_, hcur, hp, hanswer⟩
  unfold reply
  rw [show (k.modifyTask k.current fun task => { task with tf }).syscall (.waittid tid) = _ from hsys]

/-- What is left of the trap then. -/
theorem step_of_reply {call : Syscall} (h : k.reply call tf = some (value, k₁)) :
    k.step (.syscall call tf) = k₁.finish value := by
  unfold reply at h
  split at h
  next value' k₁' hsys =>
    obtain ⟨rfl, rfl⟩ := Prod.mk.inj (Option.some.inj h)
    change ((k.modifyTask k.current fun task => { task with tf }).syscall call >>= proceed) = _
    rw [hsys]
    rfl
  next => cases h

end Kernel

namespace Roster

theorem Listed.lookup (h : r.Listed pid tid u) (hok : r.Ok) (hp : r.procs[pid]? = some (some p)) :
    p.tasks.lookup tid = some u :=
  lookup_of_mem (hok.procs pid p hp).ascending (h.mem _ _ (table_of_proc hp))

theorem Gone.lookup (h : r.Gone pid tid) {tasks : List (ℕ × ℕ)} {next : ℕ} (ht : r.table pid = some (tasks, next)) :
    tasks.lookup tid = none := by
  refine List.lookup_eq_none_iff.mpr fun e he => ?_
  simpa using ((h.given tasks next ht).2 e he).symm

/-- Whether there is a thread of this number in the table of the process. -/
def hasThread (r : Roster) (pid tid : ℕ) : Bool := (r.table pid).any fun x => (x.1.lookup tid).isSome

theorem Gone.hasThread (h : r.Gone pid tid) : r.hasThread pid tid = false := by
  unfold Roster.hasThread
  cases ht : r.table pid with
  | none => rfl
  | some x =>
    obtain ⟨tasks, next⟩ := x
    simp [h.lookup ht]

theorem hasThread_of_lookup (hp : r.procs[pid]? = some (some p)) (hu : p.tasks.lookup tid = some u) :
    r.hasThread pid tid = true := by
  unfold Roster.hasThread
  rw [table_of_proc hp]
  simp [hu]

end Roster

theorem Kernel.hasThread_eq (k : Kernel) (pid tid : ℕ) :
    k.hasThread pid tid = k.roster.hasThread pid tid := by
  unfold Kernel.hasThread Roster.hasThread table
  rw [getElem?_roster_procs]
  cases k.procs[pid]? with
  | none => rfl
  | some x =>
    cases x with
    | none => rfl
    | some p => rfl

/-- How the loop stands. The thread is on the table and has not been reported; or it has been
reported, with a code that the loop has returned; or with -2, which the loop has not
understood. -/
inductive Status (r : Roster) (pid tid u : ℕ) : JoinPhase → List Poll → Prop
  | waiting {phase : JoinPhase} {polls : List Poll} (hl : r.Listed pid tid u) (hphase : ∀ ret, phase ≠ .done ret)
      (hpolls : ∀ x ∈ polls, x = ⟨-2, false⟩) : Status r pid tid u phase polls
  | joined {task : TaskEntry} {polls : List Poll} (hg : r.Gone pid tid) (htask : r.tasks[u]? = some task)
      (hz : task.zombie = true) (hcode : task.exitCode ≠ -2) (hpolls : ∀ x ∈ polls, x = ⟨-2, false⟩) :
      Status r pid tid u (.done task.exitCode.toInt) (⟨task.exitCode.toInt, true⟩ :: polls)
  | lost {task : TaskEntry} {phase : JoinPhase} {polls : List Poll} (hg : r.Gone pid tid)
      (htask : r.tasks[u]? = some task) (hz : task.zombie = true) (hcode : task.exitCode = -2)
      (hphase : ∀ ret, phase = .done ret → ret = -1) : Status r pid tid u phase polls

namespace Status

theorem changes {t q : ℕ} {cs : List Change} (h : Status r pid tid u phase polls) (hc : Changes t cs r r')
    (hq : ∃ task, r.tasks[t]? = some task ∧ task.process = q) (hne : q ≠ pid ∨ .waittid tid ∉ cs) :
    Status r' pid tid u phase polls := by
  cases h with
  | waiting hl hphase hpolls => exact .waiting (hc.listed hl hq hne) hphase hpolls
  | joined hg htask hz hcode hpolls => exact .joined (hc.gone hg) (hc.ended htask hz) hz hcode hpolls
  | lost hg htask hz hcode hphase => exact .lost (hc.gone hg) (hc.ended htask hz) hz hcode hphase

/-- `sched_yield` between two calls. -/
theorem yielded (h : Status r pid tid u .yield polls) : Status r pid tid u .poll polls := by
  cases h with
  | waiting hl _ hpolls => exact .waiting hl nofun hpolls
  | lost hg htask hz hcode _ => exact .lost hg htask hz hcode nofun

/-- `sys_waittid`. If the thread has ended it is reported and taken off the table. -/
theorem polled (h : Status r pid tid u .poll polls) (hok : r.Ok) (hp : r.procs[pid]? = some (some p))
    (ha : Answers r pid tid p value r') :
    Status r' pid tid u (.after (userValue value))
      (⟨userValue value, r.hasThread pid tid && !r'.hasThread pid tid⟩ :: polls) := by
  cases h with
  | waiting hl _ hpolls =>
    have hlookup := hl.lookup hok hp
    cases ha with
    | ended hu htask hz =>
      obtain rfl := Option.some.inj (hlookup.symm.trans hu)
      have hg : (r.waittid pid tid).Gone pid tid := hok.gone hp (mem_of_lookup hu)
      rw [userValue_toInt, hasThread_of_lookup hp hu, hg.hasThread]
      unfold JoinPhase.after
      split_ifs with hcode
      · exact .lost hg htask hz (toInt_eq_neg_two.mp hcode) nofun
      · exact .joined hg htask hz (fun he => hcode (toInt_eq_neg_two.mpr he)) hpolls
    | running hu htask hz =>
      refine .waiting hl (fun ret => JoinPhase.noConfusion) fun x hx => ?_
      rcases List.mem_cons.mp hx with rfl | hx
      · rw [Bool.and_not_self]
        rfl
      · exact hpolls x hx
    | unknown hu =>
      rw [hlookup] at hu
      cases hu
  | lost hg htask hz hcode _ =>
    -- the thread is gone already
    have hlookup := hg.lookup (table_of_proc hp)
    cases ha with
    | ended hu _ _ =>
      rw [hlookup] at hu
      cases hu
    | running hu _ _ =>
      rw [hlookup] at hu
      cases hu
    | unknown hu =>
      refine .lost hg htask hz hcode fun ret hret => ?_
      cases hret
      rfl

end Status

theorem Answers.tasks (h : Answers r pid tid p value r') : r'.tasks = r.tasks := by
  cases h <;> rfl

/-- What holds all the time that the loop runs. -/
structure Join.Ok (pid w tid u : ℕ) (s : Join) : Prop where
  trace : ∃ states, Trace s.kernel states
  waiter : s.kernel.Waiter pid w tid
  status : Status s.kernel.roster pid tid u s.phase s.polls

namespace Kernel

theorem Waiter.changes {t : ℕ} {cs : List Change} (h : k.Waiter pid w tid)
    (hc : Changes t cs k.roster k'.roster) : k'.Waiter pid w tid := by
  obtain ⟨me, hme, rfl, htid⟩ := h
  obtain ⟨me', hme', hprocess, htid'⟩ := hc.ids hme
  exact ⟨me', hme', hprocess, fun he => htid (htid'.symm.trans he)⟩

/-- Who does not interfere does not wait for the thread. -/
theorem not_waits_of_interferes {e : Event} {entry : TaskEntry} (h : k.interferes pid w tid e = false)
    (hentry : k.roster.tasks[k.current]? = some entry) :
    entry.process ≠ pid ∨ ∀ tf, e ≠ .syscall (.waittid tid) tf := by
  by_cases hpid : entry.process = pid
  · refine .inr fun tf he => ?_
    subst he
    obtain ⟨task, htask, rfl⟩ := exists_task hentry
    have hprocess : task.process = pid := hpid
    simp [interferes, htask, hprocess] at h
  · exact .inl hpid

theorem Serving.answered (h : Serving k) (hcur : k₁.current = k.current)
    (ha : Answers k.roster pid tid p value k₁.roster) : Serving k₁ := by
  obtain ⟨hne, hcurrent, hidle⟩ := h
  unfold Alive at hcurrent hidle
  rw [← ha.tasks] at hcurrent hidle
  exact ⟨hcur ▸ hne, hcur ▸ hcurrent, hidle⟩

end Kernel

namespace Join.Ok

variable {s s' : Join} {e : Event}

/-- A step of the kernel that is none of the loop. -/
theorem advance (h : Ok pid w tid u s) (he : s.kernel.enabled e) (hs : s.kernel.step e = .ok k')
    (hno : ∀ task, s.kernel.roster.tasks[s.kernel.current]? = some task →
      task.process ≠ pid ∨ ∀ tf, e ≠ .syscall (.waittid tid) tf) :
    Ok pid w tid u { s with kernel := k' } := by
  obtain ⟨states, htrace⟩ := h.trace
  obtain ⟨cs, hx, hc⟩ := htrace.exists_changes hs
  obtain ⟨task, htask, -⟩ := htrace.serving.current
  refine ⟨⟨_, .step htrace he hs⟩, h.waiter.changes hc, h.status.changes hc ⟨task, htask, rfl⟩ ?_⟩
  exact (hno task htask).imp_right hx.no_waittid

theorem polled (h : Ok pid w tid u s) (hphase : s.phase = .poll) (hcur : s.kernel.current = w)
    (he : s.kernel.enabled (.syscall (.waittid tid) tf)) (hr : s.kernel.reply (.waittid tid) tf = some (value, k₁))
    (hs : s.kernel.step (.syscall (.waittid tid) tf) = .ok k') :
    Ok pid w tid u ⟨k', .after (userValue value),
      ⟨userValue value, s.kernel.hasThread pid tid && !k₁.hasThread pid tid⟩ :: s.polls⟩ := by
  obtain ⟨states, htrace⟩ := h.trace
  obtain ⟨cs, -, hc⟩ := htrace.exists_changes hs
  refine ⟨⟨_, .step htrace he hs⟩, h.waiter.changes hc, ?_⟩
  obtain ⟨value', k₁', p, hr', hcur₁, hp, ha⟩ := reply_answers htrace (hcur ▸ h.waiter) tf
  obtain ⟨rfl, rfl⟩ := Prod.mk.inj (Option.some.inj (hr.symm.trans hr'))
  have hstatus := h.status
  rw [hphase] at hstatus
  rw [hasThread_eq, hasThread_eq]
  -- the call itself, and then the end of the trap
  have hcalled := hstatus.polled htrace.rosterOk hp ha
  have hserving := htrace.serving.answered hcur₁ ha
  rw [step_of_reply hr] at hs
  obtain ⟨cs', hends, hc'⟩ := Ensures.post_of_ok (finish_made hserving value) hs
  obtain ⟨task, htask, -⟩ := hserving.current
  exact hcalled.changes hc' ⟨task, htask, rfl⟩ (.inr (hends.not_mem nofun))

theorem step {e : JoinEvent} (h : Ok pid w tid u s) (hs : s.step pid w tid e = some s') : Ok pid w tid u s' := by
  cases e with
  | poll tf =>
    rw [Join.step] at hs
    split_ifs at hs with hguard
    obtain ⟨hphase, hcur, he⟩ := hguard
    obtain ⟨⟨value, k₁⟩, hr, hs⟩ := Option.bind_eq_some_iff.mp hs
    obtain ⟨k', hk', hs⟩ := Option.bind_eq_some_iff.mp hs
    obtain rfl := Option.some.inj hs
    exact h.polled hphase hcur he hr (ok_of_toOption hk')
  | yield tf =>
    rw [Join.step] at hs
    split_ifs at hs with hguard
    obtain ⟨hphase, -, he⟩ := hguard
    obtain ⟨k', hk', hs⟩ := Option.bind_eq_some_iff.mp hs
    obtain rfl := Option.some.inj hs
    obtain ⟨htrace, hwaiter, hstatus⟩ := h.advance he (ok_of_toOption hk') fun _ _ => .inr nofun
    rw [hphase] at hstatus
    exact ⟨htrace, hwaiter, hstatus.yielded⟩
  | other e =>
    rw [Join.step] at hs
    split_ifs at hs with hguard
    obtain ⟨he, hno⟩ := hguard
    obtain ⟨k', hk', hs⟩ := Option.bind_eq_some_iff.mp hs
    obtain rfl := Option.some.inj hs
    rw [Bool.not_eq_true'] at hno
    exact h.advance he (ok_of_toOption hk') fun _ htask => not_waits_of_interferes hno htask

theorem run {es : List JoinEvent} (h : Ok pid w tid u s) (hs : s.run pid w tid es = some s') :
    Ok pid w tid u s' := by
  induction es generalizing s with
  | nil =>
    cases hs
    exact h
  | cons e es ih =>
    obtain ⟨s₁, hs₁, hs⟩ := Option.bind_eq_some_iff.mp hs
    exact ih (h.step hs₁) hs

end Join.Ok

/-- The task `w` and the thread `u`, of the number `tid`, are two tasks of the process. -/
structure Kernel.Joinable (k : Kernel) (pid w tid u : ℕ) : Prop where
  waiter : ∃ me, k.tasks[w]? = some me ∧ me.process = pid ∧ me.tid ≠ tid
  thread : ∃ p, k.procs[pid]? = some (some p) ∧ p.tasks.lookup tid = some u

/-- The loop has returned the code, and the kernel has taken the thread off the table in the
call that has reported it, the last one. -/
def Joined (code : Int32) (ret : ℤ) (polls : List Poll) : Prop :=
  ret = code.toInt ∧ ∃ rest, polls = ⟨code.toInt, true⟩ :: rest ∧ ∀ x ∈ rest, x = ⟨-2, false⟩

theorem Join.ok_start {states : List Kernel} (h : Trace k states) (hj : k.Joinable pid w tid u) :
    Ok pid w tid u (start k) := by
  obtain ⟨me, hme, hprocess, htid⟩ := hj.waiter
  obtain ⟨p, hp, hu⟩ := hj.thread
  refine ⟨⟨states, h⟩, ⟨me.entry, ?_, hprocess, htid⟩, .waiting ⟨?_, fun tasks next htable => ?_⟩ nofun nofun⟩
  · exact roster_task hme
  · rw [show (start k).kernel = k from rfl, length_roster_procs]
    exact (List.getElem?_eq_some_iff.mp hp).1
  · rw [show (start k).kernel = k from rfl, table_of_proc (roster_proc hp)] at htable
    obtain ⟨rfl, -⟩ := Prod.mk.inj (Option.some.inj htable)
    exact mem_of_lookup hu

/-- When the loop has returned, in whatever way the kernel has gone on in between, the thread
has ended, and what the loop has returned is the exit code, with the thread off the table
since the call that reported it, exactly if the code is not -2. Every call of the loop
returns, and once the thread has ended, with such a code, it returns the code. -/
theorem join_iff {k : Kernel} {states : List Kernel} {pid w tid u : ℕ} {es : List JoinEvent} {s : Join}
    (h : Trace k states) (hj : k.Joinable pid w tid u) (hs : (Join.start k).run pid w tid es = some s) :
    (∀ ret, s.phase = .done ret → ∃ task, s.kernel.tasks[u]? = some task ∧ task.state = .zombie ∧
      (Joined task.exitCode ret s.polls ↔ task.exitCode ≠ -2)) ∧
    ∀ tf, s.phase = .poll → s.kernel.current = w →
      ∃ value k', s.kernel.reply (.waittid tid) tf = some (value, k') ∧
        ∀ task, s.kernel.tasks[u]? = some task → task.state = .zombie → task.exitCode ≠ -2 →
          userValue value = task.exitCode.toInt := by
  have hok := (Join.ok_start h hj).run hs
  have hstatus := hok.status
  constructor
  · intro ret hphase
    rw [hphase] at hstatus
    generalize s.polls = polls at hstatus
    cases hstatus with
    | waiting _ hphase _ => exact absurd rfl (hphase ret)
    | @joined entry polls _ hentry hz hcode hpolls =>
      obtain ⟨task, htask, rfl⟩ := exists_task hentry
      refine ⟨task, htask, beq_iff_eq.mp hz, iff_of_true ⟨rfl, polls, rfl, hpolls⟩ hcode⟩
    | lost _ hentry hz hcode hret =>
      obtain ⟨task, htask, rfl⟩ := exists_task hentry
      refine ⟨task, htask, beq_iff_eq.mp hz, iff_of_false (fun hjoined => ?_) (not_not.mpr hcode)⟩
      -- the loop has returned -1
      have hcode' : (-2 : Int32) = task.exitCode := hcode.symm
      rw [hret ret rfl, ← hcode'] at hjoined
      exact absurd hjoined.1 (by decide)
  · intro tf hphase hcur
    obtain ⟨states', htrace⟩ := hok.trace
    obtain ⟨value, k', p, hr, -, hp, ha⟩ := reply_answers htrace (hcur ▸ hok.waiter) tf
    refine ⟨value, k', hr, fun task htask hz hcode => ?_⟩
    have hentry := roster_task htask
    rw [hphase] at hstatus
    generalize k'.roster = r' at ha
    cases hstatus with
    | waiting hl _ _ =>
      have hlookup := hl.lookup htrace.rosterOk hp
      cases ha with
      | ended hu hentry' _ =>
        obtain rfl := Option.some.inj (hlookup.symm.trans hu)
        obtain rfl := Option.some.inj (hentry.symm.trans hentry')
        exact userValue_toInt _
      | running hu hentry' hz' =>
        obtain rfl := Option.some.inj (hlookup.symm.trans hu)
        obtain rfl := Option.some.inj (hentry.symm.trans hentry')
        exact absurd hz (beq_eq_false_iff_ne.mp hz')
      | unknown hu =>
        rw [hlookup] at hu
        cases hu
    | lost _ hentry' _ hcode' _ =>
      obtain rfl := Option.some.inj (hentry.symm.trans hentry')
      exact absurd hcode' hcode

/-- The first task of the shell's child, which has made a thread, asks for it and gives way to
the shell, the root task, and the thread, if it is there. -/
def joinRound : List JoinEvent :=
  [.poll (.newUser 0 0), .yield (.newUser 0 0), .other (.proceed .zero), .other (.syscall .yield (.newUser 0 0)),
    .other (.proceed .zero), .other (.proceed .zero)]

/-- The thread ends, and the task asks for it once more. -/
def joinAfterExit (code : Int32) : List JoinEvent :=
  joinRound ++ [.other (.syscall (.exit code) (.newUser 0 0)), .other (.proceed .zero), .poll (.newUser 0 0)]

/-- Whether the tasks 5 and 6 are the first and the second of the process 5. -/
def Kernel.isThreaded (k : Kernel) : Bool :=
  k.tasks[5]?.any (fun me => me.process == 5 && me.tid == 0) &&
    (k.procs[5]?.join.any fun p => p.tasks.lookup 1 == some 6)

theorem Kernel.joinable_of_isThreaded (h : k.isThreaded = true) : k.Joinable 5 5 1 6 := by
  rw [isThreaded, Bool.and_eq_true, Option.any_eq_true, Option.any_eq_true] at h
  obtain ⟨⟨me, hme, hids⟩, p, hp, hu⟩ := h
  rw [Bool.and_eq_true, beq_iff_eq, beq_iff_eq] at hids
  refine ⟨⟨me, hme, hids.1, ?_⟩, p, Option.join_eq_some_iff.mp hp, beq_iff_eq.mp hu⟩
  rw [hids.2]
  exact Nat.zero_ne_one

/-- The loop in the shell's child, from where the thread has been made. -/
def joinThread (es : List JoinEvent) : Option (Kernel × Join) := do
  let k ← (booted 0 0).run (forked ++ [.syscall (.threadCreate 0 0) (.newUser 0 0)])
  let s ← (Join.start k).run 5 5 1 es
  if k.isThreaded then some (k, s) else none

theorem exists_join {es : List JoinEvent} (test : Join → Bool)
    (h : (joinThread es).any (fun x => test x.2) = true) :
    ∃ k states s, Trace k states ∧ k.Joinable 5 5 1 6 ∧ (Join.start k).run 5 5 1 es = some s ∧ test s = true := by
  obtain ⟨⟨k, s⟩, hrun, htest⟩ := (Option.any_eq_true ..).mp h
  simp only [joinThread, Option.bind_eq_bind, Option.bind_eq_some_iff] at hrun
  obtain ⟨k', hk, s', hs, hrun⟩ := hrun
  split_ifs at hrun with hthreaded
  obtain ⟨rfl, rfl⟩ := Prod.mk.inj (Option.some.inj hrun)
  obtain ⟨states, htrace⟩ := (Trace.boot (boot_eq 0 0)).run hk
  exact ⟨k', states, s', htrace, joinable_of_isThreaded hthreaded, hs, htest⟩

/-- The thread ends with 7 while the other task is between two calls. -/
theorem join_iff_seven : ∃ k states s, Trace k states ∧ k.Joinable 5 5 1 6 ∧
    (Join.start k).run 5 5 1 (joinAfterExit 7) = some s ∧
    ∃ task : Task, s.kernel.tasks[6]? = some task ∧ (Joined task.exitCode 7 s.polls ↔ task.exitCode ≠ -2) := by
  let test (s : Join) : Bool := s.phase == .done 7
  have hrun : (joinThread (joinAfterExit 7)).any (fun x => test x.2) = true := by
    decide +kernel
  obtain ⟨k, states, s, htrace, hj, hs, htest⟩ := exists_join test hrun
  obtain ⟨task, htask, -, hiff⟩ := (join_iff htrace hj hs).1 7 (beq_iff_eq.mp htest)
  exact ⟨k, states, s, htrace, hj, hs, task, htask, hiff⟩

/-- The task asks for the thread that has ended, gives way, and asks once more. -/
def joinTwice (code : Int32) : List JoinEvent :=
  joinAfterExit code ++ joinRound.tail ++ [.other (.proceed .zero), .poll (.newUser 0 0)]

/-- The thread ends with -2. The kernel reports it, and forgets the thread; the loop asks once
more, and returns -1. -/
theorem join_loses_neg_two : ∃ k states s, Trace k states ∧ k.Joinable 5 5 1 6 ∧
    (Join.start k).run 5 5 1 (joinTwice (-2)) = some s ∧
    s.phase = .done (-1) ∧ s.polls = [⟨-1, false⟩, ⟨-2, true⟩, ⟨-2, false⟩] ∧
    s.kernel.stateOf 6 = some .zombie ∧ s.kernel.tasks[6]?.map Task.exitCode = some (-2) := by
  let test (s : Join) : Bool := s.phase == .done (-1) && s.polls == [⟨-1, false⟩, ⟨-2, true⟩, ⟨-2, false⟩] &&
    s.kernel.stateOf 6 == some .zombie && s.kernel.tasks[6]?.map Task.exitCode == some (-2)
  have hrun : (joinThread (joinTwice (-2))).any (fun x => test x.2) = true := by
    decide +kernel
  obtain ⟨k, states, s, htrace, hj, hs, htest⟩ := exists_join test hrun
  simp only [test, Bool.and_eq_true, beq_iff_eq] at htest
  obtain ⟨⟨⟨hphase, hpolls⟩, hstate⟩, hcode⟩ := htest
  exact ⟨k, states, s, htrace, hj, hs, hphase, hpolls, hstate, hcode⟩

end RCore.Os
