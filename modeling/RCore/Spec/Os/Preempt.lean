import RCore.Spec.Os.Syscall

/-! The kernel with the interrupt mask of the CPU: `sync/spin.rs`, `handle_irq_exception`,
`task_entry` and `task::run`. Exceptions are taken with interrupts masked, a `SpinNoIrqLock` masks
them while it is held, and user mode and kernel tasks have them enabled. So where a kernel task
makes several steps with the locks released in between, an interrupt can come between any two. -/

namespace RCore.Os

open Kernel

/-- `SpinNoIrqLock::lock`: `irq_enabled_before` of the guard, and whether interrupts are enabled
while it is held. -/
def SpinNoIrqLock.lock (irqs : Bool) : Bool × Bool := (irqs, false)

/-- The guard is dropped. -/
def SpinNoIrqLockGuard.drop (irqEnabledBefore irqs : Bool) : Bool :=
  if irqEnabledBefore then true else irqs

/-- Where a kernel task goes on, when it is between two steps that are one for the other tasks as
long as no interrupt comes. -/
inductive Point where
  /-- In `run`, before `yield_now`. -/
  | run
  /-- In the loop of the root task, which has found children, before `yield_now`. -/
  | rootYield
  /-- In `CurrentTask::exit`, after `set_state`. -/
  | setExitCode
  | taskExit
  /-- In `task_exit`, which has found no task left. -/
  | procExitCode
  | procState
  | dropVm
  | exitCurrent
deriving DecidableEq

/-- In `CurrentTask::exit`: the task has been marked as a zombie. -/
def Point.marked : Point → Bool
  | .run | .rootYield => false
  | _ => true

/-- A step from a point on, and the next point. The locks that it takes are released again, so
that it leaves interrupts enabled as they were. -/
def Kernel.stepAt (k : Kernel) (exitCode : Int32) : Point → Except Panic (Kernel × Option Point)
  | .run => do pure (← k.yieldCurrent, none)
  | .rootYield => do pure (← k.yieldNow .rootReap, none)
  | .setExitCode => pure (k.setExitCode k.current exitCode, some .taskExit)
  | .taskExit => do
    let (_, p) ← k.proc
    pure (k, some (if k.taskCount p = 0 then .procExitCode else .exitCurrent))
  | .procExitCode => do
    let (pid, _) ← k.proc
    let k := k.modifyProc pid fun p =>
      { p with exitCode := if p.state = .normal then exitCode else p.exitCode }
    pure (k, some .procState)
  | .procState => do
    let (pid, _) ← k.proc
    pure (k.modifyProc pid fun p => { p with state := .zombie }, some .dropVm)
  | .dropVm => do
    let (pid, _) ← k.proc
    k.lock (.vm pid)
    pure (k.modifyProc pid fun p => { p with vm := false }, some .exitCurrent)
  | .exitCurrent => do pure (← k.exitCurrent exitCode, none)

/-- What a task is in that does not have the CPU. -/
inductive Frame where
  /-- Nothing yet: it begins in `task_entry`. -/
  | entry
  /-- `yield_now` or `block_and_yield`, with the guard of `TASK_MANAGER`. -/
  | guard (irqEnabledBefore : Bool)
  /-- `handle_irq_exception`, with that guard and with the mask of what was interrupted. -/
  | irq (irqEnabledBefore interrupted : Bool)
deriving DecidableEq

/-- Whether interrupts are enabled when it goes on: the context switch leaves them masked, then
`task_entry` enables them, or the guard is dropped, and `eret` restores what was interrupted. -/
def Frame.resume : Frame → Bool
  | .entry => true
  | .guard irqEnabledBefore => SpinNoIrqLockGuard.drop irqEnabledBefore false
  | .irq _ interrupted => interrupted

structure Cpu where
  kernel : Kernel
  /-- Whether interrupts are enabled. -/
  irqs : Bool
  frames : ℕ → Frame
  points : ℕ → Option Point

namespace Cpu

/-- The current task has acted. It may have given way to another one, in `frame`, or may have
returned to user mode, where interrupts are enabled. -/
def settle (s : Cpu) (frame : Frame) (k : Kernel) : Cpu :=
  let frames := Function.update s.frames s.kernel.current frame
  let toUser := k.current == s.kernel.current && k.contOf k.current == some .user
  { s with kernel := k, frames, irqs := toUser || (frames k.current).resume }

/-- The current task goes on in the kernel. -/
def proceed (s : Cpu) (input : Input) : Except Panic (Kernel × Option Point) :=
  match s.points s.kernel.current with
  | some point => s.kernel.stepAt 0 point
  | none =>
    match s.kernel.contOf s.kernel.current with
    | some .kernelEntry =>
      -- the entry function has returned 0
      pure (s.kernel.setState s.kernel.current .zombie, some .setExitCode)
    | some .rootCheck => do
      let (_, p) ← s.kernel.proc
      if p.children.length = 0 then pure (s.kernel.setCont .rootReap, none)
      else pure (s.kernel, some .rootYield)
    | _ => do pure (← s.kernel.step (.proceed input), none)

def step (s : Cpu) : Event → Except Panic Cpu
  | .timer tie => do
    -- the exception masks interrupts, so the guard does not enable them
    let k ← s.kernel.step (.timer tie)
    pure (s.settle (.irq (SpinNoIrqLock.lock false).1 s.irqs) k)
  | .proceed input => do
    let (k, point) ← s.proceed input
    pure { s.settle (.guard (SpinNoIrqLock.lock s.irqs).1) k with
      points := Function.update s.points s.kernel.current point }
  | .clock ms => do
    let k ← s.kernel.step (.clock ms)
    pure { s with kernel := k }
  | .syscall call tf => do
    let k ← s.kernel.step (.syscall call tf)
    pure (s.settle (.guard (SpinNoIrqLock.lock false).1) k)
  | .fault => do
    let k ← s.kernel.step .fault
    pure (s.settle (.guard (SpinNoIrqLock.lock false).1) k)

/-- Interrupts come wherever they are enabled. -/
def enabled (s : Cpu) : Event → Bool
  | .timer _ => s.irqs
  | e => s.kernel.enabled e

/-- `task::init`, and `run` up to where it has enabled interrupts. -/
def boot (entry ustackTop : UInt64) : Except Panic Cpu := do
  let k ← Kernel.init entry ustackTop
  pure ⟨k, true, fun _ => .entry, Function.update (fun _ => none) k.current (some .run)⟩

/-- The current task is in `CurrentTask::exit`: it has been marked, and has not taken the lock of
`TASK_MANAGER` yet. -/
def Exiting (s : Cpu) : Prop := (s.points s.kernel.current).any Point.marked = true

end Cpu

/-- The states that events lead to from `run` on, with timer interrupts placed anywhere. -/
inductive CpuRun : Cpu → Prop
  | boot {s : Cpu} {entry ustackTop : UInt64} (h : Cpu.boot entry ustackTop = .ok s) : CpuRun s
  | step {s s' : Cpu} {e : Event} (h : CpuRun s) (he : s.enabled e = true) (hs : s.step e = .ok s') :
    CpuRun s'

end RCore.Os
