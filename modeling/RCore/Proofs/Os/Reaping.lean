import RCore.Proofs.Os.Faults
import RCore.Proofs.Os.Roster
import RCore.Sanity.Os.Life

/-! How processes end, and what `waitpid` reports of it: without `exit_group`, the code of the
last task of a process to end; with it, that of the last call of `exit_group`. -/

namespace RCore.Os

open RCore.Lib Kernel Roster

namespace Kernel

variable {entry ustackTop : UInt64} {k k' : Kernel}

/-- The program of the shell is not on the roster. -/
theorem roster_booted : (booted entry ustackTop).roster = (booted 0 0).roster := rfl

theorem rosterOk_booted : (booted entry ustackTop).roster.Ok := by
  rw [roster_booted]
  refine ⟨fun t task htask _ => ?_, fun pid p hp => ?_⟩
  · rcases t with _ | _ | _ | _ | _ | t
    iterate 5
      cases htask
      exact ⟨_, rfl, List.mem_singleton_self _⟩
    simp [roster, booted] at htask
  · rcases pid with _ | _ | _ | _ | _ | pid
    iterate 5
      cases hp
      refine ⟨?_, List.pairwise_singleton .., ?_, ?_, ?_⟩
      · rintro e he
        rw [List.mem_singleton.mp he]
        exact ⟨_, rfl, rfl, rfl⟩
      · rintro e he
        rw [List.mem_singleton.mp he]
        exact Nat.zero_lt_one
      · decide
      · decide
    simp [roster, booted] at hp

theorem child_nil {q c : ℕ} : Log.Child [] q c ↔ q = 1 ∧ c ∈ [2, 3, 4] := by
  rw [Log.Child, or_iff_left List.not_mem_nil]

theorem kin_booted : (booted entry ustackTop).roster.Kin [] := by
  rw [roster_booted]
  refine ⟨fun q p hp c => ?_, fun q p hp => ?_, fun q c hc => ?_, fun q q' c hq hq' => ?_, nofun,
    List.nodup_nil, nofun⟩
  · rw [child_nil, and_iff_left (show c ∉ Log.reaped [] from List.not_mem_nil)]
    rcases q with _ | _ | _ | _ | _ | q
    iterate 5
      cases hp
      simp [Process.entry, Process.new]
    simp [roster, booted] at hp
  · rcases q with _ | _ | _ | _ | _ | q
    iterate 5
      cases hp
      decide
    simp [roster, booted] at hp
  · obtain ⟨rfl, hmem⟩ := child_nil.mp hc
    have hall : ∀ c ∈ [2, 3, 4], c < (booted 0 0).roster.procs.length := by decide
    exact ⟨by decide, hall c hmem⟩
  · rw [(child_nil.mp hq).1, (child_nil.mp hq').1]

theorem codes_booted : (booted entry ustackTop).roster.Codes [] := by
  have hnormal : ∀ (q : ℕ) (p : ProcEntry), (booted entry ustackTop).roster.procs[q]? = some (some p) →
      p.state = .normal := by
    intro q p hp
    rcases q with _ | _ | _ | _ | _ | q
    iterate 5
      cases hp
      rfl
    simp [roster, booted] at hp
  refine ⟨fun _ _ _ hmem => absurd hmem List.not_mem_nil, fun q p hp => ?_, fun q p hp hz => ?_⟩
  · rw [hnormal q p hp]
    exact ProcState.noConfusion
  · rw [hnormal q p hp] at hz
    cases hz

/-- The process of the current task. -/
def pid (k : Kernel) : Option ℕ := k.tasks[k.current]?.map Task.process

theorem exists_entry {pid : ℕ} (h : k.pid = some pid) :
    ∃ task, k.roster.tasks[k.current]? = some task ∧ task.process = pid := by
  obtain ⟨task, htask, rfl⟩ := Option.map_eq_some_iff.mp h
  exact ⟨task.entry, by rw [getElem?_roster_tasks, htask]; rfl, rfl⟩

end Kernel

section runs

variable {k k' : Kernel} {states : List Kernel} {e : Event}

theorem Trace.serving (h : Trace k states) : Serving k := (h.inv (x := False) nofun).serving

theorem Trace.exists_changes (h : Trace k states) (hs : k.step e = .ok k') :
    ∃ cs, k.Explains e cs ∧ Changes k.current cs k.roster k'.roster := by
  have hmade := Ensures.post_of_ok (step_changes h.serving e) hs
  exact hmade

theorem Trace.rosterOk (h : Trace k states) : k.roster.Ok := by
  induction h with
  | boot h =>
    rw [boot_eq] at h
    rw [← Except.ok.inj h]
    exact rosterOk_booted
  | step h _ hs ih =>
    obtain ⟨cs, -, hc⟩ := h.exists_changes hs
    exact hc.ok ih

end runs

/-! The exit code after `exit_group` -/

/-- The arguments of `exit_group`. -/
def Kernel.Event.exitGroups : Event → List Int32
  | .syscall (.exitGroup exitCode) _ => [exitCode]
  | _ => []

/-- Those of the calls by the tasks of a process. -/
def Kernel.groupCodes (k : Kernel) (pid : ℕ) (e : Event) : List Int32 :=
  if k.pid = some pid then e.exitGroups else []

/-- The runs, with the arguments of the calls of `exit_group` that the tasks of a process
have made. -/
inductive GroupTrace (pid : ℕ) : Kernel → List Int32 → Prop
  | boot {k : Kernel} {entry ustackTop : UInt64} (h : boot entry ustackTop = .ok k) : GroupTrace pid k []
  | step {k k' : Kernel} {codes : List Int32} {e : Event} (h : GroupTrace pid k codes)
      (he : k.enabled e) (hs : k.step e = .ok k') :
      GroupTrace pid k' (codes ++ k.groupCodes pid e)

namespace Roster

variable {r r' : Roster} {t pid q : ℕ} {p : ProcEntry} {c : Change} {cs : List Change}
  {code : Int32} {f : ProcEntry → ProcEntry}

/-- The process has been stopped, or has ended, and if it is still there it has this code. -/
structure Marked (r : Roster) (pid : ℕ) (code : Int32) : Prop where
  made : pid < r.procs.length
  code : ∀ p, r.procs[pid]? = some (some p) → p.state ≠ .normal ∧ p.exitCode = code

theorem Marked.congr (h : r.Marked pid code) (hlen : r.procs.length ≤ r'.procs.length)
    (hprocs : ∀ p', r'.procs[pid]? = some (some p') → ∃ p, r.procs[pid]? = some (some p) ∧
      (p.state ≠ .normal → p'.state ≠ .normal ∧ p'.exitCode = p.exitCode)) : r'.Marked pid code := by
  refine ⟨h.made.trans_le hlen, fun p' hp' => ?_⟩
  obtain ⟨p, hp, hkeep⟩ := hprocs p' hp'
  obtain ⟨hstate, hcode⟩ := h.code p hp
  obtain ⟨hstate', hcode'⟩ := hkeep hstate
  exact ⟨hstate', hcode'.trans hcode⟩

theorem Marked.modifyProc (h : r.Marked pid code)
    (hf : ∀ p, q = pid → p.state ≠ .normal → (f p).state ≠ .normal ∧ (f p).exitCode = p.exitCode) :
    (r.modifyProc q f).Marked pid code := by
  refine h.congr (List.length_modify ..).ge fun p' hp' => ?_
  rcases modifyProc_cases hp' with ⟨-, hp⟩ | ⟨rfl, p, hp, rfl⟩
  · exact ⟨p', hp, fun hs => ⟨hs, rfl⟩⟩
  · exact ⟨p, hp, hf p rfl⟩

theorem Marked.of_eq (h : r.Marked pid code) (hprocs : r'.procs = r.procs) : r'.Marked pid code := by
  obtain ⟨hmade, hcode⟩ := h
  exact ⟨by rwa [hprocs], by rwa [hprocs]⟩

/-- Once a process has been stopped, only its own tasks change its code, by stopping it
again. -/
theorem Makes.marked (h : Makes t q p r c r') (hm : r.Marked pid code)
    (hne : q ≠ pid ∨ ∀ code, c ≠ .stop code) : r'.Marked pid code := by
  cases h with
  | fork =>
    set r₁ : Roster := { r with procs := r.procs ++ [some (ProcEntry.forked r.tasks.length)] } with hr₁
    have hm₁ : r₁.Marked pid code := by
      refine hm.congr (by simp [hr₁]) fun p' hp' => ?_
      rcases getElem?_snoc_cases hp' with hp | ⟨he, -⟩
      · exact ⟨p', hp, fun hs => ⟨hs, rfl⟩⟩
      · exact absurd he hm.made.ne
    have hchildren := hm₁.modifyProc (q := q)
      (f := fun p => { p with children := p.children ++ [r.procs.length] }) fun _ _ hs => ⟨hs, rfl⟩
    exact hchildren.of_eq rfl
  | threadCreate =>
    have hm₁ : Marked { r with tasks := r.tasks ++ [TaskEntry.mk p.tidAllocator q false 0] } pid code :=
      hm.of_eq rfl
    exact hm₁.modifyProc fun _ _ hs => ⟨hs, rfl⟩
  | exec => exact hm.modifyProc fun _ _ hs => ⟨hs, rfl⟩
  | stop code' =>
    have hqp := hne.resolve_right fun hc => hc code' rfl
    have hroot := hm.modifyProc (q := ROOT_PID)
      (f := fun root => { root with children := root.children ++ p.children }) fun _ _ hs => ⟨hs, rfl⟩
    have hown := hroot.modifyProc (q := q) (f := fun p => { p with children := [] }) fun _ _ hs => ⟨hs, rfl⟩
    exact hown.modifyProc fun _ he => absurd he hqp
  | exit code' =>
    rw [Roster.exit]
    have hend : (r.endTask t code').Marked pid code := hm.of_eq rfl
    split_ifs
    · exact hend.modifyProc fun _ _ hs => ⟨ProcState.noConfusion, if_neg hs⟩
    · exact hend
  | @waitpid child x =>
    have hchildren := hm.modifyProc (q := q)
      (f := fun p => { p with children := p.children.erase child }) fun _ _ hs => ⟨hs, rfl⟩
    refine hchildren.congr (List.length_set ..).ge fun p' hp' => ?_
    rw [Roster.reap, List.getElem?_set] at hp'
    split_ifs at hp'
    · cases hp'
    · exact ⟨p', hp', fun hs => ⟨hs, rfl⟩⟩
  | waittid => exact hm.modifyProc fun _ _ hs => ⟨hs, rfl⟩

theorem Makes.stop_marked (h : Makes t pid p r (.stop code) r') (hs : r.Serves t pid p) :
    r'.Marked pid code := by
  cases h with
  | stop _ hpid =>
    refine ⟨?_, fun p' hp' => ?_⟩
    · simp only [Roster.stop, reparent, Roster.modifyProc, List.length_modify]
      exact (List.getElem?_eq_some_iff.mp hs.proc).1
    · rcases modifyProc_cases hp' with ⟨hne, -⟩ | ⟨-, p₀, -, rfl⟩
      · exact absurd rfl hne
      · exact ⟨ProcState.noConfusion, rfl⟩

theorem Makes.exists_child {child : ℕ} (h : Makes t pid p r (.waitpid child code) r') :
    ∃ c, r.procs[child]? = some (some c) ∧ c.exitCode = code := by
  cases h with
  | waitpid _ hc _ _ => exact ⟨_, hc, rfl⟩

theorem Changes.marked (h : Changes t cs r r') (hm : r.Marked pid code)
    (hpid : ∃ task, r.tasks[t]? = some task ∧ task.process = q)
    (hne : q ≠ pid ∨ ∀ code, .stop code ∉ cs) : r'.Marked pid code := by
  induction h with
  | nil r => exact hm
  | cons hs hmakes _ ih =>
    obtain ⟨task, htask, rfl⟩ := hpid
    obtain ⟨task', htask', rfl, -⟩ := hs.task
    obtain rfl : task = task' := Option.some.inj (htask.symm.trans htask')
    refine ih (hmakes.marked hm ?_) (hmakes.process htask) ?_
    · exact hne.imp_right fun hno code he => hno code (he ▸ List.mem_cons_self)
    · exact hne.imp_right fun hno code hmem => hno code (List.mem_cons_of_mem _ hmem)

end Roster

theorem Ends.not_mem {c : Change} {cs : List Change} (h : Ends cs) (hc : ∀ code, c ≠ .exit code) : c ∉ cs := by
  rcases h with rfl | ⟨code, rfl⟩
  · exact List.not_mem_nil
  · exact fun hmem => hc code (List.mem_singleton.mp hmem)

theorem EndsAfter.not_mem {c c' : Change} {cs : List Change} (h : EndsAfter c' cs) (hc : ∀ code, c ≠ .exit code)
    (hne : c ≠ c') : c ∉ cs := by
  obtain ⟨rest, rfl, hrest⟩ := h
  rw [List.mem_cons, not_or]
  exact ⟨hne, hrest.not_mem hc⟩

theorem Kernel.Waits.not_mem {k : Kernel} {arg : ℤ} {c : Change} {cs : List Change} (h : k.Waits arg cs)
    (hc : ∀ code, c ≠ .exit code) (hne : ∀ child code, c ≠ .waitpid child code) : c ∉ cs := by
  obtain ⟨_, _, _, exitCode, _, -, -, hcs⟩ := h
  cases exitCode with
  | none => exact Ends.not_mem hcs hc
  | some code =>
    obtain ⟨child, -, hcs⟩ := hcs
    exact hcs.not_mem hc (hne child code)

/-- Nothing but `exit_group` stops a process. -/
theorem Kernel.Explains.no_stop {k : Kernel} {e : Event} {cs : List Change} (h : k.Explains e cs)
    (he : e.exitGroups = []) (code : Int32) : .stop code ∉ cs := by
  have hexit : ∀ code', Change.stop code ≠ .exit code' := nofun
  cases e with
  | syscall call tf =>
    cases call with
    | exit code' =>
      rw [show cs = _ from h]
      simp
    | exitGroup code' => cases he
    | fork => exact EndsAfter.not_mem h hexit nofun
    | threadCreate =>
      obtain ⟨tid, hcs⟩ := h
      exact hcs.not_mem hexit nofun
    | exec => exact h.elim (fun hcs => hcs.not_mem hexit) fun hcs => hcs.not_mem hexit nofun
    | waitpid => exact Waits.not_mem h hexit nofun
    | waittid => exact h.elim (fun hcs => hcs.not_mem hexit) fun hcs => hcs.not_mem hexit nofun
    | _ => exact Ends.not_mem h hexit
  | fault =>
    rw [show cs = _ from h]
    simp
  | proceed input =>
    rw [Explains] at h
    split_ifs at h
    · exact h.not_mem hexit nofun
    · exact h.not_mem hexit
  | timer tie =>
    rw [show cs = _ from h]
    exact List.not_mem_nil
  | clock ms =>
    rw [show cs = _ from h]
    exact List.not_mem_nil

/-- Nor does anything but `waittid` take a thread off a table. -/
theorem Kernel.Explains.no_waittid {k : Kernel} {e : Event} {cs : List Change} {tid : ℕ} (h : k.Explains e cs)
    (he : ∀ tf, e ≠ .syscall (.waittid tid) tf) : .waittid tid ∉ cs := by
  have hexit : ∀ code, Change.waittid tid ≠ .exit code := nofun
  cases e with
  | syscall call tf =>
    cases call with
    | exit code =>
      rw [show cs = _ from h]
      simp
    | exitGroup code =>
      rw [show cs = _ from h]
      simp
    | fork => exact EndsAfter.not_mem h hexit nofun
    | threadCreate =>
      obtain ⟨tid, hcs⟩ := h
      exact hcs.not_mem hexit nofun
    | exec => exact h.elim (fun hcs => hcs.not_mem hexit) fun hcs => hcs.not_mem hexit nofun
    | waitpid => exact Waits.not_mem h hexit nofun
    | waittid tid' =>
      have hne : Change.waittid tid ≠ .waittid tid' := by
        intro heq
        cases heq
        exact he tf rfl
      exact h.elim (fun hcs => hcs.not_mem hexit) fun hcs => hcs.not_mem hexit hne
    | _ => exact Ends.not_mem h hexit
  | fault =>
    rw [show cs = _ from h]
    simp
  | proceed input =>
    rw [Explains] at h
    split_ifs at h
    · exact h.not_mem hexit nofun
    · exact h.not_mem hexit
  | timer tie =>
    rw [show cs = _ from h]
    exact List.not_mem_nil
  | clock ms =>
    rw [show cs = _ from h]
    exact List.not_mem_nil

theorem Kernel.exitGroups_cons {e : Event} {code : Int32} {rest : List Int32} (h : e.exitGroups = code :: rest) :
    rest = [] ∧ ∃ tf, e = .syscall (.exitGroup code) tf := by
  cases e with
  | syscall call tf =>
    cases call with
    | exitGroup code' =>
      cases h
      exact ⟨rfl, tf, rfl⟩
    | _ => cases h
  | _ => cases h

namespace GroupTrace

variable {pid : ℕ} {k k' : Kernel} {codes : List Int32}

theorem exists_trace (h : GroupTrace pid k codes) : ∃ states, Trace k states := by
  induction h with
  | boot h => exact ⟨_, .boot h⟩
  | step _ he hs ih =>
    obtain ⟨states, htrace⟩ := ih
    exact ⟨_, .step htrace he hs⟩

/-- The process has the code of the last call. -/
theorem marked (h : GroupTrace pid k codes) : ∀ code, codes.getLast? = some code → k.roster.Marked pid code := by
  induction h with
  | boot h => exact nofun
  | @step k k' codes e h _ hs ih =>
    obtain ⟨states, htrace⟩ := h.exists_trace
    obtain ⟨cs, hx, hc⟩ := htrace.exists_changes hs
    intro code hlast
    rw [groupCodes] at hlast
    split_ifs at hlast with hpid
    · obtain ⟨task, htask, hq⟩ := exists_entry hpid
      cases hcodes : e.exitGroups with
      | nil =>
        rw [hcodes, List.append_nil] at hlast
        exact hc.marked (ih code hlast) ⟨task, htask, hq⟩ (.inr (hx.no_stop hcodes))
      | cons code' rest =>
        -- the process is stopped, and then the task ends
        obtain ⟨rfl, tf, rfl⟩ := exitGroups_cons hcodes
        rw [hcodes, List.getLast?_concat, Option.some.injEq] at hlast
        obtain rfl := hlast
        rw [show cs = [.stop code', .exit code'] from hx] at hc
        cases hc with
        | cons hserves hstop hexit =>
          obtain ⟨task', htask', hq', -⟩ := hserves.task
          obtain rfl : task = task' := Option.some.inj (htask.symm.trans htask')
          rw [hq] at hq'
          subst hq'
          refine hexit.marked (hstop.stop_marked hserves) (hstop.process htask) (.inr ?_)
          simp
    · rw [List.append_nil] at hlast
      obtain ⟨task, htask, hz⟩ := htrace.serving.current
      refine hc.marked (ih code hlast) ⟨task, htask, rfl⟩ (.inl fun hq => hpid ?_)
      rw [getElem?_roster_tasks, Option.map_eq_some_iff] at htask
      obtain ⟨task', htask', rfl⟩ := htask
      rw [Kernel.pid, htask', ← hq]
      rfl

end GroupTrace

/-- What `waitpid` reports of a process whose tasks have called `exit_group` is the argument
of the last call. It is that of the first exactly if the two are equal. -/
theorem group_exit_iff {pid parent : ℕ} {k k' : Kernel} {first code : Int32} {rest : List Int32} {arg : ℤ}
    (h : GroupTrace pid k (first :: rest)) (hw : k.waitpid parent arg = .ok (pid, some code, k')) :
    code = first ↔ rest.getLastD first = first := by
  have hmarked := h.marked (rest.getLastD first) (by rw [List.getLast?_cons, List.getLastD_eq_getLast?])
  suffices hcode : code = rest.getLastD first by rw [hcode]
  cases hproc : k.process parent with
  | error e =>
    rw [waitpid, hproc] at hw
    cases hw
  | ok p =>
    have hp := Ensures.post_of_ok (process_spec k parent) hproc
    obtain ⟨-, child, hchild, hm⟩ := Ensures.post_of_ok (waitpid_makes 0 hp arg) hw
    obtain rfl : pid = child := Int.ofNat.inj hchild
    obtain ⟨c, hc, rfl⟩ := hm.exists_child
    exact (hmarked.code c hc).2

/-- The kernel after some events, and the calls of `exit_group` by the tasks of a process. -/
def Kernel.groupRun (pid : ℕ) (k : Kernel) (codes : List Int32) : List Event → Option (Kernel × List Int32)
  | [] => some (k, codes)
  | e :: es =>
    if k.enabled e then
      match k.step e with
      | .ok k' => k'.groupRun pid (codes ++ k.groupCodes pid e) es
      | .error _ => none
    else none

theorem GroupTrace.run {pid : ℕ} {k k' : Kernel} {codes codes' : List Int32} {es : List Event}
    (h : GroupTrace pid k codes) (hr : k.groupRun pid codes es = some (k', codes')) :
    GroupTrace pid k' codes' := by
  induction es generalizing k codes with
  | nil =>
    cases hr
    exact h
  | cons e es ih =>
    rw [Kernel.groupRun] at hr
    split_ifs at hr with he
    split at hr
    next k₁ hs => exact ih (.step h he hs) hr
    next => cases hr

/-- The shell's child makes a thread and calls `exit_group` with 1. The thread does not know
of it yet, and calls `exit_group` with 2. -/
def groupExits : List Event :=
  forked ++ [.syscall (.threadCreate 0 0) (.newUser 0 0), .syscall (.exitGroup 1) (.newUser 0 0),
    .proceed .zero, .syscall .yield (.newUser 0 0), .proceed .zero, .proceed .zero]

/-- What `waitpid` reports, if it finds a child. -/
def Kernel.reports (k : Kernel) (parent : ℕ) (pid : ℤ) : Option (ℤ × Int32) :=
  match k.waitpid parent pid with
  | .ok (ret, some code, _) => some (ret, code)
  | _ => none

theorem Kernel.waitpid_of_reports {k : Kernel} {parent : ℕ} {pid ret : ℤ} {code : Int32}
    (h : k.reports parent pid = some (ret, code)) : ∃ k', k.waitpid parent pid = .ok (ret, some code, k') := by
  rw [reports] at h
  split at h
  next ret' code' k' hw =>
    obtain ⟨rfl, rfl⟩ := Prod.mk.inj (Option.some.inj h)
    exact ⟨k', hw⟩
  next => cases h

/-- The shell's child calls `exit_group` once, and its other thread ends otherwise. -/
theorem group_exit_iff_exit : ∃ k k', GroupTrace 5 k [1] ∧ k.waitpid 4 5 = .ok (5, some 1, k') ∧
    ((1 : Int32) = 1 ↔ List.getLastD [] (1 : Int32) = 1) := by
  have hrun : ((booted 0 0).groupRun 5 [] (groupExits ++ [.syscall (.exit 2) (.newUser 0 0)])).any
      (fun r => r.2 == [1] && r.1.reports 4 5 == some (5, 1)) = true := by
    decide +kernel
  obtain ⟨⟨k, codes⟩, hk, htest⟩ := (Option.any_eq_true ..).mp hrun
  rw [Bool.and_eq_true, beq_iff_eq, beq_iff_eq] at htest
  obtain ⟨rfl, hreports⟩ := htest
  obtain ⟨k', hw⟩ := waitpid_of_reports hreports
  have h : GroupTrace 5 k [1] := (GroupTrace.boot (boot_eq 0 0)).run hk
  exact ⟨k, k', h, hw, group_exit_iff h hw⟩

/-- The first call was with 1, and `waitpid` reports 2. -/
theorem second_group_exit_wins : ∃ k k', GroupTrace 5 k [1, 2] ∧ k.waitpid 4 5 = .ok (5, some 2, k') := by
  have hrun : ((booted 0 0).groupRun 5 [] (groupExits ++ [.syscall (.exitGroup 2) (.newUser 0 0)])).any
      (fun r => r.2 == [1, 2] && r.1.reports 4 5 == some (5, 2)) = true := by
    decide +kernel
  obtain ⟨⟨k, codes⟩, hk, htest⟩ := (Option.any_eq_true ..).mp hrun
  rw [Bool.and_eq_true, beq_iff_eq, beq_iff_eq] at htest
  obtain ⟨rfl, hreports⟩ := htest
  obtain ⟨k', hw⟩ := waitpid_of_reports hreports
  have h : GroupTrace 5 k [1, 2] := (GroupTrace.boot (boot_eq 0 0)).run hk
  exact ⟨k, k', h, hw⟩

/-! Runs without `exit_group` -/

/-- The runs without `exit_group` in which nobody dies with a lock or a reference to a
process, with the changes that their steps have made. -/
inductive LifeTrace : Kernel → Log → Prop
  | boot {k : Kernel} {entry ustackTop : UInt64} (h : boot entry ustackTop = .ok k) : LifeTrace k []
  | step {k k' : Kernel} {log : Log} {e : Event} {cs : List Change} {pid : ℕ} (h : LifeTrace k log)
      (he : k.enabled e) (hg : e.exitGroups = []) (hl : Clean (k.leaves e)) (hs : k.step e = .ok k')
      (hpid : k.pid = some pid) (hx : k.Explains e cs) (hc : Changes k.current cs k.roster k'.roster) :
      LifeTrace k' (cs.reverse.map (pid, ·) ++ log)

/-- The calls that make, end and wait for tasks and processes, apart from `exec` and `exit_group`. -/
def Syscall.lifecycle : Syscall → Bool
  | .fork | .threadCreate _ _ | .exit _ | .waitpid _ _ | .waittid _ => true
  | _ => false

/-- They leave nothing behind when the task dies. -/
theorem lifecycle_leaves {call : Syscall} (h : call.lifecycle = true) (k : Kernel) (tf : TrapFrame) :
    k.leaves (.syscall call tf) = [] ∧ (Event.syscall call tf).exitGroups = [] := by
  rw [leaves]
  cases call with
  | fork => split <;> exact ⟨rfl, rfl⟩
  | threadCreate => split <;> exact ⟨rfl, rfl⟩
  | exit => split <;> exact ⟨rfl, rfl⟩
  | waittid => split <;> exact ⟨rfl, rfl⟩
  | waitpid arg ptr =>
    refine ⟨?_, rfl⟩
    split
    · cases ptr <;> rfl
    · rfl
  | _ => cases h

namespace LifeTrace

variable {k k' : Kernel} {log : Log} {e : Event}

theorem exists_clean (h : LifeTrace k log) : ∃ states, CleanTrace k states := by
  induction h with
  | boot h => exact ⟨_, .boot h⟩
  | step _ he _ hl hs _ _ _ ih =>
    obtain ⟨states, hclean⟩ := ih
    exact ⟨_, .step hclean he hs hl⟩

/-- Every step has its place in such a run. -/
theorem extend (h : LifeTrace k log) (he : k.enabled e) (hg : e.exitGroups = [])
    (hl : Clean (k.leaves e)) (hs : k.step e = .ok k') : ∃ changes, LifeTrace k' (changes ++ log) := by
  obtain ⟨states, hclean⟩ := h.exists_clean
  obtain ⟨cs, hx, hc⟩ := hclean.trace.exists_changes hs
  obtain ⟨task, htask, -⟩ := alive_iff.mp hclean.trace.serving.current
  have hpid : k.pid = some task.process := by rw [Kernel.pid, htask]; rfl
  exact ⟨_, .step h he hg hl hs hpid hx hc⟩

theorem life (h : LifeTrace k log) : k.roster.Kin log ∧ k.roster.Codes log := by
  induction h with
  | boot h =>
    rw [boot_eq] at h
    rw [← Except.ok.inj h]
    exact ⟨kin_booted, codes_booted⟩
  | step h _ hg _ _ hpid hx hc ih =>
    obtain ⟨states, hclean⟩ := h.exists_clean
    exact hc.life hclean.trace.rosterOk (exists_entry hpid) ih.1 ih.2 (hx.no_stop hg)

end LifeTrace

/-- What `waitpid` looks for. -/
def Matches (arg : ℤ) (child : ℕ) : Prop := arg = -1 ∨ (child : ℤ) = arg

theorem Kernel.isZombie_iff {k : Kernel} {pid : ℕ} :
    k.isZombie pid = true ↔ ∃ c, k.procs[pid]? = some (some c) ∧ c.state = .zombie := by
  rw [isZombie]
  split
  next c hc => simp [hc]
  next hne =>
    refine iff_of_false Bool.false_ne_true ?_
    rintro ⟨c, hc, -⟩
    exact hne c hc

/-- `waitpid` finds a zombie among the children that it looks for, or says whether there are
any. -/
theorem CleanTrace.waitpid {k : Kernel} {states : List Kernel} (h : CleanTrace k states) {parent : ℕ} {p : Process}
    (hp : k.procs[parent]? = some (some p)) (arg : ℤ) :
    ∃ ret exitCode k', k.waitpid parent arg = .ok (ret, exitCode, k') ∧
      ((∃ c ∈ p.children, ret = c ∧ Matches arg c ∧ k.isZombie c = true) ∨
        (∀ c ∈ p.children, Matches arg c → k.isZombie c = false) ∧
          (ret = -1 ∧ (∀ c ∈ p.children, ¬ Matches arg c) ∨ ret = -2 ∧ ∃ c ∈ p.children, Matches arg c)) := by
  obtain ⟨-, hprocs, hreg⟩ := h.calm
  have hproc : k.process parent = .ok p := by rw [Kernel.process, hp]
  have hmatches : ∀ c : ℕ, (arg == -1 || (c : ℤ) == arg) = true ↔ Matches arg c := fun c => by
    rw [Bool.or_eq_true, beq_iff_eq, beq_iff_eq, Matches]
  rw [Kernel.waitpid, hproc]
  dsimp only [bind, Except.bind]
  cases hfind : p.children.find? fun c : ℕ => (arg == -1 || (c : ℤ) == arg) && k.isZombie c with
  | some child =>
    have hmem := List.mem_of_find?_eq_some hfind
    have hfound := List.find?_some hfind
    rw [Bool.and_eq_true, hmatches] at hfound
    obtain ⟨c, hc, -⟩ := isZombie_iff.mp hfound.2
    have hrefs := procRefs_reaped hprocs hreg (h.trace.inv False.elim).family hp hmem
    have hchild : k.process child = .ok c := by rw [Kernel.process, hc]
    dsimp only
    rw [hchild]
    exact ⟨child, some c.exitCode, _, if_neg (not_not.mpr hrefs), .inl ⟨child, hmem, rfl, hfound⟩⟩
  | none =>
    refine ⟨_, none, k, rfl, .inr ⟨fun c hc hm => ?_, ?_⟩⟩
    · have hnot := List.find?_eq_none.mp hfind c hc
      rw [Bool.and_eq_true, hmatches, not_and, Bool.not_eq_true] at hnot
      exact hnot hm
    · split_ifs with hany
      · obtain ⟨c, hc, hm⟩ := List.any_eq_true.mp hany
        exact .inr ⟨rfl, c, hc, (hmatches c).mp hm⟩
      · refine .inl ⟨rfl, fun c hc hm => hany ?_⟩
        exact List.any_eq_true.mpr ⟨c, hc, (hmatches c).mpr hm⟩

/-- Without `exit_group`: `waitpid` returns every child once at most, only to the process that
has forked it, with the code of the last of its tasks to end; the child is gone then. It
says -1 if there is no child that it looks for, and -2 if there is, but no zombie. A
process is a zombie exactly if all its tasks have ended, and until then it has its memory. -/
theorem reaping {k : Kernel} {log : Log} (h : LifeTrace k log) :
    log.reaped.Nodup ∧
    (∀ parent child code, (parent, .waitpid child code) ∈ log →
      log.Child parent child ∧ log.lastExit child = some code) ∧
    (∀ child ∈ log.reaped, k.procs[child]? = some none ∧ child ∉ k.procMap ∧
      ∀ (q : ℕ) (p : Process), k.procs[q]? = some (some p) → child ∉ p.children) ∧
    (∀ (parent : ℕ) (p : Process) (arg : ℤ), k.procs[parent]? = some (some p) →
      ∃ ret exitCode k', k.waitpid parent arg = .ok (ret, exitCode, k') ∧
        (ret = -1 ↔ ∀ c, log.Child parent c → c ∉ log.reaped → ¬ Matches arg c) ∧
        (ret = -2 ↔ (∃ c, log.Child parent c ∧ c ∉ log.reaped ∧ Matches arg c) ∧
          ∀ c, log.Child parent c → c ∉ log.reaped → Matches arg c → k.isZombie c = false)) ∧
    ∀ (pid : ℕ) (p : Process), k.procs[pid]? = some (some p) →
      (p.state = .zombie ↔ ∀ (t : ℕ) (task : Task), k.tasks[t]? = some task → task.process = pid →
        task.state = .zombie) ∧
      (p.isKernel = false → (p.vm = true ↔ p.state ≠ .zombie)) := by
  obtain ⟨states, hclean⟩ := h.exists_clean
  obtain ⟨hkin, hcodes⟩ := h.life
  have hchildren : ∀ (q : ℕ) (p : Process), k.procs[q]? = some (some p) →
      ∀ c, c ∈ p.children ↔ log.Child q c ∧ c ∉ log.reaped := fun q p hp c =>
    hkin.children q p.entry (roster_proc hp) c
  refine ⟨hkin.once, fun parent child code hmem => ?_, fun child hmem => ⟨?_, (hkin.gone child hmem).2, ?_⟩,
    fun parent p arg hp => ?_, fun pid p hp => ?_⟩
  · exact ⟨hkin.own parent child code hmem, hcodes.delivered parent child code hmem⟩
  · have hnone := (hkin.gone child hmem).1
    rw [getElem?_roster_procs, Option.map_eq_some_iff] at hnone
    obtain ⟨x, hx, hmap⟩ := hnone
    rw [hx, Option.map_eq_none_iff.mp hmap]
  · intro q p hp hc
    exact ((hchildren q p hp child).mp hc).2 hmem
  · obtain ⟨ret, exitCode, k', hw, hcases⟩ := hclean.waitpid hp arg
    refine ⟨ret, exitCode, k', hw, ?_⟩
    simp only [hchildren parent p hp] at hcases
    rcases hcases with ⟨c, ⟨hc, hnot⟩, rfl, hmatch, hz⟩ | ⟨hnone, ⟨rfl, hno⟩ | ⟨rfl, c, ⟨hc, hnot⟩, hmatch⟩⟩
    · refine ⟨iff_of_false (by omega) fun hno => hno c hc hnot hmatch, iff_of_false (by omega) fun hno => ?_⟩
      rw [hno.2 c hc hnot hmatch] at hz
      cases hz
    · refine ⟨iff_of_true rfl fun c hc hnot => hno c ⟨hc, hnot⟩, iff_of_false (by decide) ?_⟩
      rintro ⟨⟨c, hc, hnot, hmatch⟩, -⟩
      exact hno c ⟨hc, hnot⟩ hmatch
    · refine ⟨iff_of_false (by decide) fun hno => hno c hc hnot hmatch, iff_of_true rfl ?_⟩
      exact ⟨⟨c, hc, hnot, hmatch⟩, fun c hc hnot => hnone c ⟨hc, hnot⟩⟩
  · have hok := hclean.trace.rosterOk
    have hprocOk := hok.procs pid p.entry (roster_proc hp)
    refine ⟨⟨fun hz t task htask hpid => ?_, fun hall => ?_⟩, hprocOk.vm⟩
    · have hentry : k.roster.tasks[t]? = some task.entry := by rw [getElem?_roster_tasks, htask]; rfl
      exact beq_iff_eq.mp (hok.zombie_tasks (roster_proc hp) hz hentry hpid)
    · refine hprocOk.zombie.mpr (taskCount_eq_zero.mpr fun e he => ?_)
      obtain ⟨task, htask, hpid, -⟩ := hprocOk.tasks e he
      refine ⟨task, htask, ?_⟩
      rw [getElem?_roster_tasks, Option.map_eq_some_iff] at htask
      obtain ⟨task', htask', rfl⟩ := htask
      exact beq_iff_eq.mpr (hall e.2 task' htask' hpid)

theorem LifeTrace.run {k k' : Kernel} {log : Log} {es : List Event} (h : LifeTrace k log)
    (hg : ∀ e ∈ es, e.exitGroups = []) (hr : k.cleanRun es = some k') : ∃ log', LifeTrace k' log' := by
  induction es generalizing k log with
  | nil =>
    cases hr
    exact ⟨log, h⟩
  | cons e es ih =>
    rw [Kernel.cleanRun] at hr
    split_ifs at hr with he
    rw [Bool.and_eq_true] at he
    split at hr
    next k₁ hs =>
      have hl : Clean (k.leaves e) := fun g hmem => by simpa using List.all_eq_true.mp he.2 g hmem
      obtain ⟨changes, h₁⟩ := h.extend he.1 (hg e List.mem_cons_self) hl hs
      exact ih h₁ (fun e' he' => hg e' (List.mem_cons_of_mem _ he')) hr
    next => cases hr

/-- The shell's child has ended, and the shell has waited for it. -/
theorem reaping_child : ∃ k log, LifeTrace k log ∧ k.procs[5]?.map Option.isSome = some false ∧
    log.reaped.Nodup := by
  have hrun : ((booted 0 0).cleanRun (forked ++ [.syscall (.exit 7) (.newUser 0 0), .proceed .zero,
      .syscall (.waitpid 5 (.mapped ())) (.newUser 0 0)])).any
        (fun k => k.procs[5]?.map Option.isSome == some false) = true := by
    decide +kernel
  obtain ⟨k, hk, htest⟩ := (Option.any_eq_true ..).mp hrun
  obtain ⟨log, h⟩ := (LifeTrace.boot (boot_eq 0 0)).run (by simp [forked, Event.exitGroups]) hk
  exact ⟨k, log, h, beq_iff_eq.mp htest, (reaping h).1⟩

end RCore.Os
