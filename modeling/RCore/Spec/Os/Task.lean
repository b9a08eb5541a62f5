import RCore.Spec.Os.Pipe
import RCore.Spec.Os.Signal

/-! Tasks and processes, and how tasks are scheduled: `structs.rs`, `manager.rs` and
`schedule.rs`. Tasks and the objects they share are referred to by their places in the
lists of a `Kernel`; the place of a process is its `pid`. There is one CPU, and
exceptions are handled with interrupts masked, so a task runs in the kernel until it
gives way to another one or returns to user mode. -/

namespace RCore.Os

inductive TaskState where
  | ready
  | running
  | zombie
  | blocking
deriving DecidableEq

inductive ProcState where
  | normal
  | stop
  | zombie
deriving DecidableEq

/-- What a file descriptor refers to. `inode` counts the files that have been opened. -/
inductive File where
  | stdin
  | stdout
  | pipeRead (pipe : ℕ)
  | pipeWrite (pipe : ℕ)
  | inode (id : ℕ) ( readable writable : Bool)
deriving DecidableEq

namespace File

def readable : File → Bool
  | .stdin => true
  | .stdout => false
  | .pipeRead _ => true
  | .pipeWrite _ => false
  | .inode _ readable _ => readable

def writable : File → Bool
  | .stdin => false
  | .stdout => true
  | .pipeRead _ => false
  | .pipeWrite _ => true
  | .inode _ _ writable => writable

end File

/-- Where a task goes on when it next runs. -/
inductive Cont where
  /-- In user mode. -/
  | user
  /-- The system call returns, and signals are to be handled. -/
  | finish (ret : ℤ)
  /-- In the loop of `MutexSpin::lock`, or in `Condvar::wait` before it locks the mutex. -/
  | lock (mutex : ℕ)
  /-- In `MutexBlocking::lock`, which returns when the task is woken. -/
  | locked (mutex : ℕ)
  /-- In `Stdin::read`. -/
  | readStdin
  | readInode (file : File) (len : ℕ)
  /-- In the loop of `Pipe::read`. -/
  | readPipe (pipe : ℕ) (call : ReadCall)
  /-- In the loop of `sys_write`. -/
  | write (file : File) (len count : ℕ)
  /-- In the loop of `Pipe::write`, called by `sys_write`. -/
  | writePipe (pipe : ℕ) (call : WriteCall) (len count : ℕ)
  /-- In the loop of `handle_signals`. -/
  | signals
  /-- In the loop of the root task: at `waitpid`, and after it. -/
  | rootReap
  | rootCheck
  /-- At the entry of a kernel task. -/
  | kernelEntry
  /-- In `task::run`, which the idle task has called. -/
  | run
  /-- After `exit_current`. -/
  | exited
deriving DecidableEq

structure Task where
  tid : ℕ
  process : ℕ
  state : TaskState
  exitCode : Int32
  signal : SignalInner
  /-- The registers that the task has in user mode, as its last trap saved them. -/
  tf : TrapFrame
  cont : Cont

structure Process where
  isKernel : Bool
  state : ProcState
  exitCode : Int32
  /-- Whether there is an address space. -/
  vm : Bool
  /-- Each `tid` with its task, in ascending order. -/
  tasks : List (ℕ × ℕ)
  tidAllocator : ℕ
  children : List ℕ
  fdTable : List (Option File)
  signalActions : SignalActions
  mutexList : List (Option ℕ)
  semaphoreList : List (Option ℕ)
  condvarList : List (Option ℕ)

/-- `dyn UserMutex` -/
inductive UserMutex where
  | spin (locked : Bool)
  | blocking (locked : Bool) (waitQueue : List ℕ)
deriving DecidableEq

def UserMutex.waitQueue : UserMutex → List ℕ
  | .spin _ => []
  | .blocking _ waitQueue => waitQueue

structure Semaphore where
  count : ℤ
  waitQueue : List ℕ
deriving DecidableEq

structure Condvar where
  waitQueue : List ℕ
deriving DecidableEq

structure TimerCondVar where
  expireMs : ℕ
  task : ℕ
deriving DecidableEq

/-- What the kernel stops with. -/
inductive Panic where
  /-- The assertions of the functions of that name. -/
  | spawn
  | resume
  | resched
  | yieldCurrent
  | exitCurrent
  /-- Invalid TaskState -/
  | invalidTaskState
  /-- `unreachable!`: task exited! -/
  | taskExited
  /-- `unreachable!`: root task exit! -/
  | rootTaskExit
  /-- The strong counts of `switch_to`. -/
  | switchTo
  /-- A reference that leads nowhere, and a process that is gone. -/
  | dangling
  | upgrade
  /-- The kind of a process, and the number of its tasks. -/
  | isKernel
  | taskCount
  | noTask
  | noMemory
  | tid
  | stop
  /-- The strong count of `waitpid`. -/
  | waitpid
  /-- Not a panic: the kernel spins on a lock whose holder has exited. -/
  | deadlock
  /-- An object of a process that does not exist. -/
  | noMutex
  | noSemaphore
  | noCondvar
  /-- A mutex is unlocked that is not locked. -/
  | unlock
  /-- The checks and `unwrap`s on what the user passes. -/
  | uaccess
  | openFlags
  | stdinLength
  | notText
  | chunkLength
  | noWriteEnd
  | file
deriving DecidableEq

/-- Those of the functions that schedule tasks. -/
def Panic.ofScheduler : Panic → Bool
  | .spawn | .resume | .resched | .yieldCurrent | .exitCurrent => true
  | .invalidTaskState | .taskExited | .rootTaskExit => true
  | _ => false

/-- Where tasks wait to be woken. -/
inductive Place where
  | mutex (mutex : ℕ)
  | semaphore (sem : ℕ)
  | condvar (condvar : ℕ)
  | timers
deriving DecidableEq

/-- The locks of a process that are held while user memory is accessed. -/
inductive ProcLock where
  | vm (pid : ℕ)
  | signalActions (pid : ℕ)
deriving DecidableEq

structure Kernel where
  tasks : List Task
  /-- `none` once the process is gone. -/
  procs : List (Option Process)
  /-- The keys of `PROC_MAP`. -/
  procMap : List ℕ
  readyQueue : List ℕ
  /-- The current task of the CPU. -/
  current : ℕ
  /-- How often `pick_next_task` has passed over a task. -/
  skipped : ℕ
  mutexes : List UserMutex
  semaphores : List Semaphore
  condvars : List Condvar
  timers : List TimerCondVar
  pipes : List PipeRingBuffer
  /-- How many files have been opened. -/
  inodes : ℕ
  /-- What was on the stacks of tasks that have exited: references, and guards of locks. -/
  leakedProcs : List ℕ
  leakedFiles : List File
  leakedLocks : List ProcLock
  timeMs : ℕ

/-- The task of the idle process, and those of the root process. -/
abbrev idleTask : ℕ := 0
abbrev IDLE_PID : ℕ := 0
abbrev ROOT_PID : ℕ := 1

namespace Kernel

def modifyTask (k : Kernel) (t : ℕ) (f : Task → Task) : Kernel :=
  { k with tasks := k.tasks.modify t f }

def modifyProc (k : Kernel) (pid : ℕ) (f : Process → Process) : Kernel :=
  { k with procs := k.procs.modify pid (Option.map f) }

def task (k : Kernel) (t : ℕ) : Except Panic Task :=
  match k.tasks[t]? with
  | some task => .ok task
  | none => .error .dangling

def process (k : Kernel) (pid : ℕ) : Except Panic Process :=
  match k.procs[pid]? with
  | some (some p) => .ok p
  | _ => .error .upgrade

/-- Takes a lock, for as long as the task does not give way. -/
def lock (k : Kernel) (lock : ProcLock) : Except Panic Unit :=
  if lock ∈ k.leakedLocks then .error .deadlock else .ok ()

/-- `CurrentTask::get().proc()` -/
def proc (k : Kernel) : Except Panic (ℕ × Process) := do
  let task ← k.task k.current
  let p ← k.process task.process
  pure (task.process, p)

def stateOf (k : Kernel) (t : ℕ) : Option TaskState := k.tasks[t]?.map Task.state

def contOf (k : Kernel) (t : ℕ) : Option Cont := k.tasks[t]?.map Task.cont

def setState (k : Kernel) (t : ℕ) (state : TaskState) : Kernel :=
  k.modifyTask t fun task => { task with state }

def setExitCode (k : Kernel) (t : ℕ) (exitCode : Int32) : Kernel :=
  k.modifyTask t fun task => { task with exitCode }

/-- Where the current task goes on. -/
def setCont (k : Kernel) (cont : Cont) : Kernel :=
  k.modifyTask k.current fun task => { task with cont }

/-- The wait queue of an object, or the tasks of the timer heap. -/
def queue (k : Kernel) : Place → List ℕ
  | .mutex mutex => (k.mutexes[mutex]?.map UserMutex.waitQueue).getD []
  | .semaphore sem => (k.semaphores[sem]?.map Semaphore.waitQueue).getD []
  | .condvar condvar => (k.condvars[condvar]?.map Condvar.waitQueue).getD []
  | .timers => k.timers.map TimerCondVar.task

/-- The places there are. -/
def places (k : Kernel) : List Place :=
  .timers :: (List.range k.mutexes.length).map .mutex ++
    (List.range k.semaphores.length).map .semaphore ++ (List.range k.condvars.length).map .condvar

/-- `Arc::strong_count` of a task, apart from the reference that is at hand. -/
def taskRefs (k : Kernel) (t : ℕ) : ℕ :=
  (k.procs.flatMap fun p => (p.map Process.tasks).getD []).countP (fun e => e.2 == t) +
    k.readyQueue.count t + (k.places.flatMap k.queue).count t

/-- `is_idle` -/
def isIdle (k : Kernel) (t : ℕ) : Except Panic Bool := do
  let task ← k.task t
  let _ ← k.process task.process
  pure (task.process == IDLE_PID && task.tid == 0)

def addReadyTask (k : Kernel) (t : ℕ) : Kernel := { k with readyQueue := k.readyQueue ++ [t] }

/-- The loop of `pick_next_task`: the task, what is left of the queue, and the number of
tasks that have been passed over. -/
def pickNext (k : Kernel) : List ℕ → Except Panic (Option ℕ × List ℕ × ℕ)
  | [] => .ok (none, [], 0)
  | t :: readyQueue =>
    match k.stateOf t with
    | some .ready => .ok (some t, readyQueue, 0)
    | some .running => .error .invalidTaskState
    | some .zombie => do
      let (next, readyQueue, skipped) ← k.pickNext readyQueue
      pure (next, readyQueue, skipped + 1)
    | some .blocking => do
      let (next, readyQueue, skipped) ← k.pickNext readyQueue
      pure (next, readyQueue, skipped + 1)
    | none => .error .dangling

def pickNextTask (k : Kernel) : Except Panic (Option ℕ × Kernel) := do
  let (next, readyQueue, skipped) ← k.pickNext k.readyQueue
  pure (next, { k with readyQueue, skipped := k.skipped + skipped })

/-- `TaskManager::spawn`, and `spawn_task` -/
def spawn (k : Kernel) (t : ℕ) : Except Panic Kernel :=
  if k.stateOf t = some .ready then .ok (k.addReadyTask t) else .error .spawn

def switchTo (k : Kernel) (nextTask : ℕ) : Except Panic Kernel :=
  let k := k.setState nextTask .running
  if k.current = nextTask then .ok k
  else if k.taskRefs k.current = 0 ∨ k.taskRefs nextTask = 0 then .error .switchTo
  else .ok { k with current := nextTask }

def resched (k : Kernel) : Except Panic Kernel :=
  if k.stateOf k.current = some .running then .error .resched
  else do
    let (next, k) ← k.pickNextTask
    match next with
    | some nextTask => k.switchTo nextTask
    | none => k.switchTo idleTask

def yieldCurrent (k : Kernel) : Except Panic Kernel :=
  if k.stateOf k.current ≠ some .running then .error .yieldCurrent
  else do
    let k := k.setState k.current .ready
    let isIdle ← k.isIdle k.current
    if isIdle then k.resched else (k.addReadyTask k.current).resched

def blockCurrent (k : Kernel) : Except Panic Kernel :=
  (k.setState k.current .blocking).resched

def exitCurrent (k : Kernel) (exitCode : Int32) : Except Panic Kernel :=
  if k.stateOf k.current ≠ some .running ∧ k.stateOf k.current ≠ some .zombie then
    .error .exitCurrent
  else
    (((k.setState k.current .zombie).setExitCode k.current exitCode).setCont .exited).resched

/-- `Task::resume` -/
def resume (k : Kernel) (t : ℕ) : Except Panic Kernel :=
  if k.stateOf t = some .blocking then (k.setState t .ready).spawn t else .error .resume

def yieldNow (k : Kernel) (cont : Cont) : Except Panic Kernel := (k.setCont cont).yieldCurrent

def blockAndYield (k : Kernel) (cont : Cont) : Except Panic Kernel :=
  (k.setCont cont).blockCurrent

end Kernel

end RCore.Os
