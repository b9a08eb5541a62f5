import RCore.Sanity.Os.Roster

/-! The changes to a roster as a log, and what can be read off it: whose child a process is,
whether it has been waited for, and the code of the last of its tasks to end. In a run in
which no process is stopped, the roster agrees with its log. -/

namespace RCore.Os

open RCore.Lib Roster

/-- The changes and the processes they were made by, the last one first. -/
abbrev Log := List (ℕ × Change)

def Change.reaped : Change → Option ℕ
  | .waitpid child _ => some child
  | _ => none

def Change.ended : Change → Option Int32
  | .exit exitCode => some exitCode
  | _ => none

namespace Log

/-- The children of the root process at boot, and those that have been forked. -/
def Child (log : Log) (parent child : ℕ) : Prop :=
  parent = ROOT_PID ∧ child ∈ [2, 3, 4] ∨ (parent, .fork child) ∈ log

/-- Those that have been returned by `waitpid`. -/
def reaped (log : Log) : List ℕ := log.filterMap fun x => x.2.reaped

/-- The code that the last task of a process to end has passed to `exit`. -/
def lastExit (log : Log) (pid : ℕ) : Option Int32 :=
  log.findSome? fun x => if x.1 = pid then x.2.ended else none

variable {log : Log} {pid q c : ℕ} {ch : Change} {code : Int32}

theorem child_cons : Child ((pid, ch) :: log) q c ↔ q = pid ∧ ch = .fork c ∨ log.Child q c := by
  have hmem : (q, Change.fork c) ∈ (pid, ch) :: log ↔ q = pid ∧ ch = .fork c ∨ (q, .fork c) ∈ log := by
    rw [List.mem_cons, Prod.mk.injEq, eq_comm (a := Change.fork c)]
  rw [Child, Child, hmem]
  tauto

theorem child_cons_of_ne (h : ∀ c, ch ≠ .fork c) : Child ((pid, ch) :: log) q c ↔ log.Child q c := by
  rw [child_cons, or_iff_right fun hf => h c hf.2]

theorem reaped_cons_of_none (h : ch.reaped = none) : reaped ((pid, ch) :: log) = log.reaped :=
  List.filterMap_cons_none h

theorem mem_reaped : c ∈ log.reaped ↔ ∃ q code, (q, .waitpid c code) ∈ log := by
  rw [reaped, List.mem_filterMap]
  constructor
  · rintro ⟨⟨q, ch⟩, hx, hc⟩
    cases ch with
    | waitpid child code =>
      obtain rfl : child = c := Option.some.inj hc
      exact ⟨q, code, hx⟩
    | _ => cases hc
  · rintro ⟨q, code, hx⟩
    exact ⟨_, hx, rfl⟩

theorem lastExit_exit : lastExit ((pid, .exit code) :: log) pid = some code := by
  rw [lastExit, List.findSome?_cons_of_isSome] <;> simp [Change.ended]

theorem lastExit_cons_of_ne (h : q ≠ pid ∨ ch.ended = none) :
    lastExit ((pid, ch) :: log) q = log.lastExit q := by
  refine List.findSome?_cons_of_isNone ?_
  rcases h with h | h
  · rw [if_neg (Ne.symm h)]
    rfl
  · rw [h, ite_self]
    rfl

end Log

namespace Roster

variable {r r' : Roster} {log : Log} {t pid q c child : ℕ} {p : ProcEntry} {ch : Change}
  {f : ProcEntry → ProcEntry} {code : Int32}

/-- Who is whose child. -/
structure Kin (r : Roster) (log : Log) : Prop where
  children : ∀ (q : ℕ) (p : ProcEntry), r.procs[q]? = some (some p) →
    ∀ c, c ∈ p.children ↔ log.Child q c ∧ c ∉ log.reaped
  nodup : ∀ (q : ℕ) (p : ProcEntry), r.procs[q]? = some (some p) → p.children.Nodup
  bound : ∀ q c, log.Child q c → q < r.procs.length ∧ c < r.procs.length
  unique : ∀ q q' c, log.Child q c → log.Child q' c → q = q'
  gone : ∀ c ∈ log.reaped, r.procs[c]? = some none ∧ c ∉ r.procMap
  once : log.reaped.Nodup
  own : ∀ q c code, (q, .waitpid c code) ∈ log → log.Child q c

/-- The codes that processes end with. -/
structure Codes (r : Roster) (log : Log) : Prop where
  delivered : ∀ q c code, (q, .waitpid c code) ∈ log → log.lastExit c = some code
  state : ∀ (q : ℕ) (p : ProcEntry), r.procs[q]? = some (some p) → p.state ≠ .stop
  zombie : ∀ (q : ℕ) (p : ProcEntry), r.procs[q]? = some (some p) → p.state = .zombie →
    log.lastExit q = some p.exitCode

/-- The processes have the same children. -/
theorem Kin.congr (h : Kin r log) (hlen : r'.procs.length = r.procs.length) (hmap : r'.procMap = r.procMap)
    (hprocs : ∀ (q : ℕ) (p' : ProcEntry), r'.procs[q]? = some (some p') →
      ∃ p, r.procs[q]? = some (some p) ∧ p'.children = p.children)
    (hnone : ∀ q : ℕ, r.procs[q]? = some none → r'.procs[q]? = some none) : Kin r' log := by
  refine ⟨fun q p' hq => ?_, fun q p' hq => ?_, fun q c hc => hlen ▸ h.bound q c hc, h.unique, fun c hc => ?_,
    h.once, h.own⟩
  · obtain ⟨p, hp, hchildren⟩ := hprocs q p' hq
    rw [hchildren]
    exact h.children q p hp
  · obtain ⟨p, hp, hchildren⟩ := hprocs q p' hq
    rw [hchildren]
    exact h.nodup q p hp
  · rw [hmap]
    exact ⟨hnone c (h.gone c hc).1, (h.gone c hc).2⟩

theorem Kin.modifyProc (h : Kin r log) (hf : ∀ p, (f p).children = p.children) :
    Kin (r.modifyProc pid f) log := by
  refine h.congr (List.length_modify ..) rfl (fun q p' hq => ?_) fun q hq => ?_
  · rcases modifyProc_cases hq with ⟨-, hp⟩ | ⟨rfl, p, hp, rfl⟩
    · exact ⟨p', hp, rfl⟩
    · exact ⟨p, hp, hf p⟩
  · rw [getElem?_modifyProc, hq]
    split_ifs <;> rfl

/-- A change that concerns no children. -/
theorem Kin.cons (h : Kin r log) (hfork : ∀ c, ch ≠ .fork c) (hwait : ch.reaped = none) :
    Kin r ((pid, ch) :: log) := by
  have hreaped : Log.reaped ((pid, ch) :: log) = log.reaped := Log.reaped_cons_of_none hwait
  refine ⟨fun q p hp c => ?_, h.nodup, fun q c hc => ?_, fun q q' c hq hq' => ?_, fun c hc => ?_, ?_, ?_⟩
  · rw [Log.child_cons_of_ne hfork, hreaped]
    exact h.children q p hp c
  · exact h.bound q c ((Log.child_cons_of_ne hfork).mp hc)
  · exact h.unique q q' c ((Log.child_cons_of_ne hfork).mp hq) ((Log.child_cons_of_ne hfork).mp hq')
  · rw [hreaped] at hc
    exact h.gone c hc
  · rw [hreaped]
    exact h.once
  · intro q c code hmem
    rcases List.mem_cons.mp hmem with heq | hmem
    · rw [← (Prod.mk.inj heq).2] at hwait
      cases hwait
    · exact (Log.child_cons_of_ne hfork).mpr (h.own q c code hmem)

theorem Kin.of_eq (h : Kin r log) (hprocs : r'.procs = r.procs) (hmap : r'.procMap = r.procMap) :
    Kin r' log :=
  h.congr (by rw [hprocs]) hmap (fun q p hq => ⟨p, by rwa [← hprocs], rfl⟩) fun q hq => by rwa [hprocs]

theorem length_procs_fork (r : Roster) (pid : ℕ) :
    (r.fork pid).procs.length = r.procs.length + 1 := by
  rw [Roster.fork, List.length_modify, List.length_append, List.length_singleton]

/-- The parent has one more child, which is the last process. -/
theorem getElem?_procs_fork (hp : r.procs[pid]? = some (some p)) (q : ℕ) :
    (r.fork pid).procs[q]? = if q = pid then some (some { p with
      children := p.children ++ [r.procs.length] }) else if q = r.procs.length then
        some (some (.forked r.tasks.length)) else r.procs[q]? := by
  have hpid : pid < r.procs.length := (List.getElem?_eq_some_iff.mp hp).1
  rw [Roster.fork, List.getElem?_modify, getElem?_snoc]
  by_cases hq : q = pid
  · rw [hq, if_neg hpid.ne, hp]
    simp
  · rw [if_neg hq]
    by_cases hn : q = r.procs.length
    · simp [hn, hpid.ne]
    · simp [hn, Ne.symm hq]

theorem Kin.fork (h : Kin r log) (hp : r.procs[pid]? = some (some p)) :
    Kin (r.fork pid) ((pid, .fork r.procs.length) :: log) := by
  have hpid : pid < r.procs.length := (List.getElem?_eq_some_iff.mp hp).1
  have hreaped : Log.reaped ((pid, .fork r.procs.length) :: log) = log.reaped :=
    Log.reaped_cons_of_none rfl
  have hnew : ∀ q, ¬ log.Child q r.procs.length := fun q hq => (h.bound q _ hq).2.false
  have hnot : r.procs.length ∉ log.reaped := fun hm => by
    have hlt := (List.getElem?_eq_some_iff.mp (h.gone _ hm).1).1
    exact hlt.false
  refine ⟨fun q p' hq c => ?_, fun q p' hq => ?_, fun q c hc => ?_, fun q q' c hq hq' => ?_, fun c hc => ?_, ?_, ?_⟩
  · rw [getElem?_procs_fork hp] at hq
    rw [Log.child_cons, hreaped, Change.fork.injEq]
    split_ifs at hq with hqp hn
    · rw [← Option.some.inj (Option.some.inj hq), List.mem_append, List.mem_singleton, hqp, h.children pid p hp c]
      grind
    · rw [← Option.some.inj (Option.some.inj hq)]
      refine iff_of_false (List.not_mem_nil) ?_
      rintro ⟨⟨he, -⟩ | hc, -⟩
      · exact hqp he
      · exact (h.bound q c hc).1.ne hn
    · rw [h.children q p' hq c, or_iff_right fun he => hqp he.1]
  · rw [getElem?_procs_fork hp] at hq
    split_ifs at hq with hqp hn
    · rw [← Option.some.inj (Option.some.inj hq)]
      refine List.nodup_append.mpr ⟨h.nodup pid p hp, List.nodup_singleton _, ?_⟩
      intro a ha b hb
      rw [List.mem_singleton.mp hb]
      rintro rfl
      exact hnew pid ((h.children pid p hp _).mp ha).1
    · rw [← Option.some.inj (Option.some.inj hq)]
      exact List.nodup_nil
    · exact h.nodup q p' hq
  · rw [length_procs_fork]
    rcases Log.child_cons.mp hc with ⟨rfl, he⟩ | hc
    · rw [← Change.fork.inj he]
      omega
    · have := h.bound q c hc
      omega
  · rw [Log.child_cons, Change.fork.injEq] at hq hq'
    rcases hq with ⟨rfl, rfl⟩ | hq
    · rcases hq' with ⟨rfl, -⟩ | hq'
      · rfl
      · exact absurd hq' (hnew q')
    · rcases hq' with ⟨rfl, rfl⟩ | hq'
      · exact absurd hq (hnew q)
      · exact h.unique q q' c hq hq'
  · rw [hreaped] at hc
    obtain ⟨hnone, hmap⟩ := h.gone c hc
    have hne : c ≠ pid := fun he => by
      rw [he, hp] at hnone
      cases hnone
    have hlast : c ≠ r.procs.length := fun he => hnot (he ▸ hc)
    refine ⟨?_, ?_⟩
    · rw [getElem?_procs_fork hp, if_neg hne, if_neg hlast, hnone]
    · rw [Roster.fork, List.mem_append, List.mem_singleton]
      rintro (hm | he)
      · exact hmap hm
      · exact hlast he
  · rw [hreaped]
    exact h.once
  · intro q c code hmem
    have hmem : (q, Change.waitpid c code) ∈ log := by simpa using hmem
    exact Log.child_cons.mpr (.inr (h.own q c code hmem))

/-- A child is waited for. -/
theorem Kin.reap (h : Kin r log) {x : ProcEntry} (hp : r.procs[pid]? = some (some p))
    (hx : r.procs[child]? = some (some x)) (hchild : child ∈ p.children)
    (hrefs : (r.disown pid child).refs child = 0) (code : Int32) :
    Kin (r.reap pid child) ((pid, .waitpid child code) :: log) := by
  have hfork : ∀ c, Change.waitpid child code ≠ .fork c := nofun
  have hreaped : Log.reaped ((pid, .waitpid child code) :: log) = child :: log.reaped := rfl
  obtain ⟨hmade, hnot⟩ := (h.children pid p hp child).mp hchild
  -- the processes that are left
  have hget : ∀ (q : ℕ) (p' : ProcEntry), (r.reap pid child).procs[q]? = some (some p') → q ≠ child ∧
      ((q = pid ∧ p' = { p with children := p.children.erase child }) ∨
        q ≠ pid ∧ r.procs[q]? = some (some p')) := by
    intro q p' hq
    rw [Roster.reap, List.getElem?_set] at hq
    split_ifs at hq with hqc
    · cases hq
    · refine ⟨Ne.symm hqc, ?_⟩
      rcases modifyProc_cases hq with hq | ⟨rfl, p₀, hp₀, rfl⟩
      · exact .inr hq
      · rw [hp, Option.some.injEq, Option.some.injEq] at hp₀
        exact .inl ⟨rfl, by rw [hp₀]⟩
  have hlen : (r.reap pid child).procs.length = r.procs.length := by
    rw [Roster.reap, List.length_set, disown, Roster.modifyProc, List.length_modify]
  refine ⟨fun q p' hq c => ?_, fun q p' hq => ?_, fun q c hc => ?_, fun q q' c hq hq' => ?_, fun c hc => ?_, ?_, ?_⟩
  · rw [Log.child_cons_of_ne hfork, hreaped, List.mem_cons, not_or]
    rcases hget q p' hq with ⟨-, ⟨rfl, rfl⟩ | ⟨hne, hq⟩⟩
    · rw [(h.nodup q p hp).mem_erase_iff, h.children q p hp c]
      tauto
    · rw [h.children q p' hq c]
      refine ⟨fun hc => ⟨hc.1, fun he => hne ?_, hc.2⟩, fun hc => ⟨hc.1, hc.2.2⟩⟩
      exact h.unique q pid child (he ▸ hc.1) hmade
  · rcases hget q p' hq with ⟨-, ⟨rfl, rfl⟩ | ⟨-, hq⟩⟩
    · exact (h.nodup q p hp).erase child
    · exact h.nodup q p' hq
  · rw [hlen]
    exact h.bound q c ((Log.child_cons_of_ne hfork).mp hc)
  · exact h.unique q q' c ((Log.child_cons_of_ne hfork).mp hq) ((Log.child_cons_of_ne hfork).mp hq')
  · rw [refs, Nat.add_eq_zero_iff, List.count_eq_zero, List.count_eq_zero] at hrefs
    rw [hreaped, List.mem_cons] at hc
    have hlt : child < (r.disown pid child).procs.length := by
      rw [disown, Roster.modifyProc, List.length_modify]
      exact (List.getElem?_eq_some_iff.mp hx).1
    by_cases hcc : c = child
    · rw [hcc, Roster.reap, List.getElem?_set_self hlt]
      exact ⟨rfl, hrefs.2⟩
    · obtain ⟨hnone, hmap⟩ := h.gone c (hc.resolve_left hcc)
      refine ⟨?_, fun hm => hmap (List.mem_of_mem_erase hm)⟩
      rw [Roster.reap, List.getElem?_set_ne (Ne.symm hcc)]
      change (r.modifyProc pid _).procs[c]? = _
      rw [getElem?_modifyProc, hnone]
      split_ifs <;> rfl
  · rw [hreaped]
    exact List.nodup_cons.mpr ⟨hnot, h.once⟩
  · intro q c code' hmem
    refine (Log.child_cons_of_ne hfork).mpr ?_
    rcases List.mem_cons.mp hmem with heq | hmem
    · obtain ⟨rfl, hw⟩ := Prod.mk.inj heq
      rw [(Change.waitpid.inj hw).1]
      exact hmade
    · exact h.own q c code' hmem

/-! The codes -/

/-- The processes are in the same states, and those that are new are not zombies. -/
theorem Codes.congr (h : Codes r log) (hend : ch.ended = none)
    (hdelivered : ∀ c code, ch = .waitpid c code → log.lastExit c = some code)
    (hprocs : ∀ (q : ℕ) (p' : ProcEntry), r'.procs[q]? = some (some p') → p'.state = .normal ∨
      ∃ p, r.procs[q]? = some (some p) ∧ p'.state = p.state ∧ p'.exitCode = p.exitCode) :
    Codes r' ((pid, ch) :: log) := by
  have hlast : ∀ q, Log.lastExit ((pid, ch) :: log) q = log.lastExit q := fun q =>
    Log.lastExit_cons_of_ne (.inr hend)
  refine ⟨fun q c code hmem => ?_, fun q p' hq => ?_, fun q p' hq hz => ?_⟩
  · rw [hlast]
    rcases List.mem_cons.mp hmem with heq | hmem
    · exact hdelivered c code (Prod.mk.inj heq).2.symm
    · exact h.delivered q c code hmem
  · rcases hprocs q p' hq with hs | ⟨p, hp, hs, -⟩
    · rw [hs]
      nofun
    · rw [hs]
      exact h.state q p hp
  · rcases hprocs q p' hq with hs | ⟨p, hp, hs, hcode⟩
    · rw [hs] at hz
      cases hz
    · rw [hlast, hcode]
      exact h.zombie q p hp (hs ▸ hz)

/-- A change to one process that concerns neither its children nor its state. -/
theorem life_modifyProc (hk : Kin r log) (hc : Codes r log) (hprocs : r'.procs = (r.modifyProc q f).procs)
    (hmap : r'.procMap = r.procMap) (hfork : ∀ c, ch ≠ .fork c) (hwait : ch.reaped = none)
    (hend : ch.ended = none) (hf : ∀ p, (f p).children = p.children ∧ (f p).state = p.state ∧
      (f p).exitCode = p.exitCode) : Kin r' ((pid, ch) :: log) ∧ Codes r' ((pid, ch) :: log) := by
  refine ⟨?_, hc.congr hend (fun c code he => ?_) fun q' p' hq => .inr ?_⟩
  · exact ((hk.modifyProc fun p => (hf p).1).of_eq hprocs hmap).cons hfork hwait
  · rw [he] at hwait
    cases hwait
  · rw [hprocs] at hq
    rcases modifyProc_cases hq with ⟨-, hp⟩ | ⟨rfl, p, hp, rfl⟩
    · exact ⟨p', hp, rfl, rfl⟩
    · exact ⟨p, hp, (hf p).2⟩

/-- The last code is that of the task that has just ended. -/
theorem Codes.exit (h : Codes r log) (hk : Kin r log) (hok : r.Ok) (hs : r.Serves t pid p) (code : Int32) :
    Codes (r.exit t pid p code) ((pid, .exit code) :: log) := by
  -- the process that has ended, and the others
  have hget : ∀ (q : ℕ) (p' : ProcEntry), (r.exit t pid p code).procs[q]? = some (some p') →
      r.procs[q]? = some (some p') ∨ q = pid ∧ p'.state = .zombie ∧ p'.exitCode = code := by
    intro q p' hq
    rw [Roster.exit] at hq
    split_ifs at hq
    · rcases modifyProc_cases hq with ⟨-, hp⟩ | ⟨rfl, p₀, hp₀, rfl⟩
      · exact .inl hp
      · have hp₀ : r.procs[q]? = some (some p₀) := hp₀
        have hnormal : p₀.state = .normal := by
          have hstop := h.state q p₀ hp₀
          have hzombie : p₀.state ≠ .zombie := hok.serves_state ⟨hs.task, hp₀⟩
          cases hstate : p₀.state with
          | normal => rfl
          | stop => exact absurd hstate hstop
          | zombie => exact absurd hstate hzombie
        exact .inr ⟨rfl, rfl, if_pos hnormal⟩
    · exact .inl hq
  refine ⟨fun q c code' hmem => ?_, fun q p' hq => ?_, fun q p' hq hz => ?_⟩
  · have hmem : (q, Change.waitpid c code') ∈ log := by simpa using hmem
    have hne : c ≠ pid := fun he => by
      have hnone := (hk.gone c (Log.mem_reaped.mpr ⟨q, code', hmem⟩)).1
      rw [he, hs.proc] at hnone
      cases hnone
    rw [Log.lastExit_cons_of_ne (.inl hne)]
    exact h.delivered q c code' hmem
  · rcases hget q p' hq with hp | ⟨-, hz, -⟩
    · exact h.state q p' hp
    · rw [hz]
      exact ProcState.noConfusion
  · rcases hget q p' hq with hp | ⟨rfl, -, hcode⟩
    · have hne : q ≠ pid := fun he => hok.serves_state ⟨hs.task, he ▸ hp⟩ hz
      rw [Log.lastExit_cons_of_ne (.inl hne)]
      exact h.zombie q p' hp hz
    · rw [hcode]
      exact Log.lastExit_exit

/-- A change that stops no process keeps the roster in agreement with its log. -/
theorem Makes.life (h : Makes t pid p r ch r') (hok : r.Ok) (hs : r.Serves t pid p) (hk : Kin r log)
    (hc : Codes r log) (hstop : ∀ code, ch ≠ .stop code) :
    Kin r' ((pid, ch) :: log) ∧ Codes r' ((pid, ch) :: log) := by
  cases h with
  | fork =>
    refine ⟨hk.fork hs.proc, hc.congr rfl (fun _ _ he => by cases he) fun q p' hq => ?_⟩
    set r₁ : Roster := { r with procs := r.procs ++ [some (ProcEntry.forked r.tasks.length)] }
    rcases modifyProc_cases (r := r₁) hq with ⟨-, hp⟩ | ⟨rfl, p₀, hp₀, rfl⟩
    · rcases getElem?_snoc_cases hp with hp | ⟨-, hp⟩
      · exact .inr ⟨p', hp, rfl, rfl⟩
      · rw [Option.some.inj hp]
        exact .inl rfl
    · rcases getElem?_snoc_cases hp₀ with hp | ⟨-, hp⟩
      · exact .inr ⟨p₀, hp, rfl, rfl⟩
      · rw [Option.some.inj hp]
        exact .inl rfl
  | threadCreate => exact life_modifyProc hk hc rfl rfl (fun _ he => by cases he) rfl rfl fun _ => ⟨rfl, rfl, rfl⟩
  | exec => exact life_modifyProc hk hc rfl rfl (fun _ he => by cases he) rfl rfl fun _ => ⟨rfl, rfl, rfl⟩
  | stop code => exact absurd rfl (hstop code)
  | exit code =>
    refine ⟨Kin.cons ?_ (fun _ he => by cases he) rfl, hc.exit hk hok hs code⟩
    rw [Roster.exit]
    split_ifs
    · exact Kin.modifyProc (hk.of_eq rfl rfl) fun _ => rfl
    · exact hk.of_eq rfl rfl
  | waitpid hchild hx hz hrefs =>
    refine ⟨hk.reap hs.proc hx hchild hrefs _, hc.congr rfl ?_ fun q p' hq => .inr ?_⟩
    · intro c code he
      obtain ⟨rfl, rfl⟩ := Change.waitpid.inj he
      exact hc.zombie _ _ hx hz
    · rw [Roster.reap, List.getElem?_set] at hq
      split_ifs at hq
      · cases hq
      · rcases modifyProc_cases hq with ⟨-, hp⟩ | ⟨rfl, p₀, hp₀, rfl⟩
        · exact ⟨p', hp, rfl, rfl⟩
        · exact ⟨p₀, hp₀, rfl, rfl⟩
  | waittid => exact life_modifyProc hk hc rfl rfl (fun _ he => by cases he) rfl rfl fun _ => ⟨rfl, rfl, rfl⟩

/-- What has changed is put on the log, the last change first. -/
theorem Changes.life {cs : List Change} (h : Changes t cs r r') (hok : r.Ok)
    (hpid : ∃ task, r.tasks[t]? = some task ∧ task.process = pid) (hk : Kin r log)
    (hc : Codes r log) (hstop : ∀ code, .stop code ∉ cs) :
    Kin r' (cs.reverse.map (pid, ·) ++ log) ∧ Codes r' (cs.reverse.map (pid, ·) ++ log) := by
  induction h generalizing log with
  | nil r => exact ⟨hk, hc⟩
  | @cons pid' p r r₁ r' ch cs hs hm _ ih =>
    obtain ⟨task, htask, rfl⟩ := hpid
    obtain ⟨task', htask', rfl, -⟩ := hs.task
    obtain rfl : task = task' := Option.some.inj (htask.symm.trans htask')
    obtain ⟨hk₁, hc₁⟩ := hm.life hok hs hk hc fun code he => hstop code (he ▸ List.mem_cons_self)
    have hrest := ih (hm.ok hok hs) (hm.process htask) hk₁ hc₁ fun code hm =>
      hstop code (List.mem_cons_of_mem _ hm)
    rwa [List.reverse_cons, List.map_append, List.append_assoc]

end Roster

end RCore.Os
