import RCore.Spec.Os.Syscall

/-! The function `waittid` of `user/src/lib.rs`, a loop around the system call, in one task of
a process, while the kernel goes on with all the others. -/

namespace RCore.Os

open Kernel

/-- What the user gets of the return value of `Process::waittid`: `as i32`, `as isize`, and
through the register. -/
def userValue (value : ℤ) : ℤ := wrap (value.bmod (2 ^ 32))

/-- Where the loop is: before `sys_waittid`, before `sched_yield`, or it has returned. -/
inductive JoinPhase where
  | poll
  | yield
  | done (exitCode : ℤ)
deriving DecidableEq

/-- `match sys_waittid(tid)` -/
def JoinPhase.after (ret : ℤ) : JoinPhase := if ret = -2 then .yield else .done ret

/-- A call of `sys_waittid`: what it has returned, and whether the thread is off the table of
its process since. -/
structure Poll where
  ret : ℤ
  removed : Bool
deriving DecidableEq

/-- The kernel, and the loop with its calls of `sys_waittid`, the last one first. -/
structure Join where
  kernel : Kernel
  phase : JoinPhase
  polls : List Poll

namespace Kernel

/-- What a system call returns, and the kernel then, if it does so at once. -/
def reply (k : Kernel) (call : Syscall) (tf : TrapFrame) : Option (ℤ × Kernel) :=
  match (k.modifyTask k.current fun task => { task with tf }).syscall call with
  | .ok (.ret value, k') => some (value, k')
  | _ => none

/-- Whether there is a thread of this number in the table of the process. -/
def hasThread (k : Kernel) (pid tid : ℕ) : Bool :=
  match k.procs[pid]? with
  | some (some p) => (p.tasks.lookup tid).isSome
  | _ => false

/-- The task `w` makes no calls but those of its loop, and no other task of the process waits
for the thread. -/
def interferes (k : Kernel) (pid w tid : ℕ) : Event → Bool
  | .syscall call _ =>
    k.current == w || match call with
      | .waittid tid' => tid' == tid && k.tasks[k.current]?.map Task.process == some pid
      | _ => false
  | _ => false

end Kernel

inductive JoinEvent where
  | poll (tf : TrapFrame)
  | yield (tf : TrapFrame)
  /-- What is no call of the loop. -/
  | other (e : Event)

namespace Join

def start (k : Kernel) : Join := ⟨k, .poll, []⟩

/-- The task `w` of the process `pid` waits for the thread `tid`. -/
def step (pid w tid : ℕ) (s : Join) : JoinEvent → Option Join
  | .poll tf =>
    let call := Syscall.waittid tid
    if s.phase = .poll ∧ s.kernel.current = w ∧ s.kernel.enabled (.syscall call tf) then do
      let (value, k) ← s.kernel.reply call tf
      let kernel ← (s.kernel.step (.syscall call tf)).toOption
      let removed := s.kernel.hasThread pid tid && !k.hasThread pid tid
      some ⟨kernel, .after (userValue value), ⟨userValue value, removed⟩ :: s.polls⟩
    else none
  | .yield tf =>
    if s.phase = .yield ∧ s.kernel.current = w ∧ s.kernel.enabled (.syscall .yield tf) then do
      let kernel ← (s.kernel.step (.syscall .yield tf)).toOption
      some { s with kernel, phase := .poll }
    else none
  | .other e =>
    if s.kernel.enabled e ∧ !s.kernel.interferes pid w tid e then do
      let kernel ← (s.kernel.step e).toOption
      some { s with kernel }
    else none

def run (pid w tid : ℕ) (s : Join) : List JoinEvent → Option Join
  | [] => some s
  | e :: es => do (← s.step pid w tid e).run pid w tid es

end Join

end RCore.Os
