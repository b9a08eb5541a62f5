import RCore.Spec.Os.Task

/-! Processes: how they come about, end and are waited for (`structs.rs`), and the
objects that tasks wait for: mutexes, semaphores, condition variables and timers. -/

namespace RCore.Os

open SignalFlags

/-- The first place in a table that is free, or a new one at its end. -/
def allocSlot {α : Type} (table : List (Option α)) (x : α) : ℕ × List (Option α) :=
  match table.findIdx? Option.isNone with
  | some i => (i, table.set i (some x))
  | none => (table.length, table ++ [some x])

namespace Process

/-- `new_common` -/
def new (isKernel : Bool) : Process where
  isKernel := isKernel
  state := .normal
  exitCode := 0
  vm := false
  tasks := []
  tidAllocator := 0
  children := []
  fdTable := [some .stdin, some .stdout, some .stdout]
  signalActions := .default
  mutexList := []
  semaphoreList := []
  condvarList := []

end Process

/-- `new_common`; the task is ready, and goes on at `cont`. -/
def Task.new (tid process : ℕ) (tf : TrapFrame) (cont : Cont) : Task where
  tid := tid
  process := process
  state := .ready
  exitCode := 0
  signal := .new
  tf := tf
  cont := cont

/-- The result of an operation on `isize`. -/
def wrap (n : ℤ) : ℤ := n.bmod (2 ^ 64)

/-- The order of the heap of timers: by the negation of an `isize`. -/
def TimerCondVar.key (timer : TimerCondVar) : ℤ := wrap (-(wrap timer.expireMs))

def USER_STACK_TOP : ℕ := 0x800000000000
def USER_STACK_SIZE : ℕ := 4096 * 4
def PAGE_SIZE : ℕ := 4096

/-- The user stack of a task: bottom and top. -/
def userStack (tid : ℕ) : ℕ × ℕ :=
  let top := USER_STACK_TOP - tid * (USER_STACK_SIZE + PAGE_SIZE)
  (top - USER_STACK_SIZE, top)

namespace Kernel

def addChild (k : Kernel) (parent child : ℕ) : Kernel :=
  k.modifyProc parent fun p => { p with children := p.children ++ [child] }

/-- A process with one task, of `tid` 0. -/
def newProcess (k : Kernel) (p : Process) (tf : TrapFrame) (cont : Cont) : Kernel :=
  { k with
    tasks := k.tasks ++ [.new 0 k.procs.length tf cont]
    procs := k.procs ++ [some { p with tasks := [(0, k.tasks.length)], tidAllocator := 1 }] }

/-- `new_kernel`: the process and all its tasks are of the kernel. -/
def newKernel (k : Kernel) (cont : Cont) : ℕ × Kernel :=
  let pid := k.procs.length
  let k := k.newProcess (.new true) (.newUser 0 0) cont
  (pid, if pid = ROOT_PID then k else k.addChild ROOT_PID pid)

/-- `new_user`, for a program that is there. -/
def newUser (k : Kernel) (entry ustackTop : UInt64) : ℕ × Kernel :=
  let pid := k.procs.length
  let k := k.newProcess { Process.new false with vm := true } (.newUser entry ustackTop) .user
  (pid, k.addChild ROOT_PID pid)

def taskCount (k : Kernel) (p : Process) : ℕ :=
  p.tasks.countP fun e => k.stateOf e.2 ≠ some .zombie

/-- `Process::task` -/
def onlyTask (k : Kernel) (pid : ℕ) : Except Panic ℕ := do
  let p ← k.process pid
  if k.taskCount p ≠ 1 then throw .taskCount
  else match p.tasks.lookup 0 with
    | some t => pure t
    | none => throw .noTask

/-- `new_fork`: the child has a copy of the memory and of the file descriptors. -/
def newFork (k : Kernel) (pid : ℕ) (tf : TrapFrame) : Except Panic (ℕ × Kernel) := do
  let p ← k.process pid
  if p.isKernel then throw .isKernel
  else do
    k.lock (.vm pid)
    if !p.vm then throw .noMemory
    let child := k.procs.length
    let k := k.newProcess { Process.new false with vm := true, fdTable := p.fdTable } tf.newFork .user
    pure (child, k.addChild pid child)

/-- `new_user_task`: the `tid` and the task. -/
def newUserTask (k : Kernel) (pid : ℕ) (entry arg : UInt64) : Except Panic (ℕ × ℕ × Kernel) := do
  let p ← k.process pid
  let tid := p.tidAllocator
  k.lock (.vm pid)
  if !p.vm then throw .noMemory
  else if 16 < tid then throw .tid
  else
    let t := k.tasks.length
    let tf := TrapFrame.newUserArg entry (UInt64.ofNat (userStack tid).2) arg 0
    let k := { k with tasks := k.tasks ++ [Task.new tid pid tf .user] }
    pure (tid, t, k.modifyProc pid fun p =>
      { p with tidAllocator := tid + 1, tasks := p.tasks ++ [(tid, t)] })

/-- Adds a signal to those of a task, unless it is a zombie or has it. Whether it has
been added. -/
def insertSignal (k : Kernel) (t : ℕ) (flag : SignalFlags) : Bool × Kernel :=
  match k.tasks[t]? with
  | some task =>
    if task.state ≠ .zombie ∧ !task.signal.signals.contains flag then
      (true, k.modifyTask t fun task =>
        { task with signal := { task.signal with signals := task.signal.signals.insert flag } })
    else (false, k)
  | none => (false, k)

/-- The tasks of a process, one after the other; how many of them the signal was new to. -/
def insertSignals (k : Kernel) (flag : SignalFlags) : List (ℕ × ℕ) → ℕ × Kernel
  | [] => (0, k)
  | (_, t) :: tasks =>
    let (new, k) := k.insertSignal t flag
    let (count, k) := k.insertSignals flag tasks
    (count + new.toNat, k)

/-- `ROOT_PROC.add_child(c)` for each of the children, which are then cleared. -/
def reparent (k : Kernel) (pid : ℕ) (children : List ℕ) : Kernel :=
  (k.modifyProc ROOT_PID fun root => { root with children := root.children ++ children }).modifyProc
    pid fun p => { p with children := [] }

/-- `Process::stop`: the children become children of the root process, and all tasks
are to be killed. -/
def stop (k : Kernel) (pid : ℕ) (exitCode : Int32) : Except Panic Kernel := do
  let p ← k.process pid
  if pid = IDLE_PID ∨ pid = ROOT_PID then throw .stop
  else
    let (_, k) := (k.reparent pid p.children).insertSignals SIGKILL p.tasks
    pure (k.modifyProc pid fun p => { p with state := .stop, exitCode })

/-- `task_exit`, and `Process::exit` with the last task. -/
def taskExit (k : Kernel) (pid : ℕ) (exitCode : Int32) : Except Panic Kernel := do
  let p ← k.process pid
  if k.taskCount p = 0 then do
    k.lock (.vm pid)
    pure (k.modifyProc pid fun p =>
      { p with
        exitCode := if p.state = .normal then exitCode else p.exitCode
        state := .zombie
        vm := false })
  else pure k

/-- `CurrentTask::exit` -/
def exit (k : Kernel) (exitCode : Int32) : Except Panic Kernel := do
  let task ← k.task k.current
  let k := (k.setState k.current .zombie).setExitCode k.current exitCode
  let k ← k.taskExit task.process exitCode
  k.exitCurrent exitCode

/-- What `waitpid` looks for among the children. -/
def isZombie (k : Kernel) (pid : ℕ) : Bool :=
  match k.procs[pid]? with
  | some (some p) => p.state == .zombie
  | _ => false

/-- `Arc::strong_count` of a process. -/
def procRefs (k : Kernel) (pid : ℕ) : ℕ :=
  (k.procs.flatMap fun p => (p.map Process.children).getD []).count pid +
    k.procMap.count pid + k.leakedProcs.count pid

/-- `Process::waitpid`: the result, and the exit code if a child has been found. The
child goes with the last reference to it. -/
def waitpid (k : Kernel) (parent : ℕ) (pid : ℤ) : Except Panic (ℤ × Option Int32 × Kernel) := do
  let p ← k.process parent
  let found : ℕ → Bool := fun c => pid == -1 || (c : ℤ) == pid
  match p.children.find? fun c => found c && k.isZombie c with
  | some child =>
    let c ← k.process child
    let k := k.modifyProc parent fun p => { p with children := p.children.erase child }
    let k := { k with procMap := k.procMap.erase child }
    if k.procRefs child ≠ 0 then throw .waitpid
    else pure (child, some c.exitCode, { k with procs := k.procs.set child none })
  | none => pure (if p.children.any found then -2 else -1, none, k)

/-- `Process::waittid` -/
def waittid (k : Kernel) (pid tid : ℕ) : Except Panic (ℤ × Kernel) := do
  let p ← k.process pid
  match p.tasks.lookup tid with
  | some t =>
    let task ← k.task t
    if task.state = .zombie then
      pure (task.exitCode.toInt, k.modifyProc pid fun p =>
        { p with tasks := p.tasks.filter fun e => e.1 ≠ tid })
    else pure (-2, k)
  | none => pure (-1, k)

/-- Where `exec` leaves the arguments: the strings, the last one first, then the array of
the pointers to them. -/
def argvBase (ustackTop : ℕ) (args : List String) : ℕ :=
  let strings := args.reverse.foldl (fun top arg => top - (arg.utf8ByteSize + 1)) ustackTop
  strings / 16 * 16 - 8 * args.length

/-- `UserMutex::lock`: whether the lock has been taken. -/
def mutexLock (k : Kernel) (mutex : ℕ) : Except Panic (Bool × Kernel) :=
  match k.mutexes[mutex]? with
  | some (.spin locked) =>
    if locked then do pure (false, ← k.yieldNow (.lock mutex))
    else pure (true, { k with mutexes := k.mutexes.set mutex (.spin true) })
  | some (.blocking locked waitQueue) =>
    if locked then do
      let k := { k with
        mutexes := k.mutexes.set mutex (.blocking locked (waitQueue ++ [k.current])) }
      pure (false, ← k.blockAndYield (.locked mutex))
    else pure (true, { k with mutexes := k.mutexes.set mutex (.blocking true waitQueue) })
  | none => throw .dangling

/-- `UserMutex::unlock` -/
def mutexUnlock (k : Kernel) (mutex : ℕ) : Except Panic Kernel :=
  match k.mutexes[mutex]? with
  | some (.spin _) => pure { k with mutexes := k.mutexes.set mutex (.spin false) }
  | some (.blocking false _) => throw .unlock
  | some (.blocking true (wakingTask :: waitQueue)) =>
    ({ k with mutexes := k.mutexes.set mutex (.blocking true waitQueue) }).resume wakingTask
  | some (.blocking true []) => pure { k with mutexes := k.mutexes.set mutex (.blocking false []) }
  | none => throw .dangling

def semaphoreUp (k : Kernel) (sem : ℕ) : Except Panic Kernel :=
  match k.semaphores[sem]? with
  | some ⟨count, waitQueue⟩ =>
    let count := wrap (count + 1)
    if count ≤ 0 then
      match waitQueue with
      | t :: waitQueue =>
        ({ k with semaphores := k.semaphores.set sem ⟨count, waitQueue⟩ }).resume t
      | [] => pure { k with semaphores := k.semaphores.set sem ⟨count, []⟩ }
    else pure { k with semaphores := k.semaphores.set sem ⟨count, waitQueue⟩ }
  | none => throw .dangling

/-- Whether `down` has returned. -/
def semaphoreDown (k : Kernel) (sem : ℕ) : Except Panic (Bool × Kernel) :=
  match k.semaphores[sem]? with
  | some ⟨count, waitQueue⟩ =>
    let count := wrap (count - 1)
    if count < 0 then do
      let k := { k with semaphores := k.semaphores.set sem ⟨count, waitQueue ++ [k.current]⟩ }
      pure (false, ← k.blockAndYield (.finish 0))
    else pure (true, { k with semaphores := k.semaphores.set sem ⟨count, waitQueue⟩ })
  | none => throw .dangling

def condvarSignal (k : Kernel) (condvar : ℕ) : Except Panic Kernel :=
  match k.condvars[condvar]? with
  | some ⟨t :: waitQueue⟩ =>
    ({ k with condvars := k.condvars.set condvar ⟨waitQueue⟩ }).resume t
  | some ⟨[]⟩ => pure k
  | none => throw .dangling

/-- `Condvar::wait`, up to where the task waits. -/
def condvarWait (k : Kernel) (condvar mutex : ℕ) : Except Panic Kernel := do
  let k ← k.mutexUnlock mutex
  match k.condvars[condvar]? with
  | some ⟨waitQueue⟩ =>
    let k := { k with condvars := k.condvars.set condvar ⟨waitQueue ++ [k.current]⟩ }
    k.blockAndYield (.lock mutex)
  | none => throw .dangling

/-- The top of the heap: one of the greatest, and `tie` picks which. -/
def peek (tie : List TimerCondVar → ℕ) (timers : List TimerCondVar) : Option TimerCondVar :=
  let greatest := timers.filter fun timer => timers.all fun other =>
    other.key ≤ timer.key
  greatest[tie timers % greatest.length]?

/-- The loop of `check_timer`; every round takes a timer out. -/
def checkTimerLoop (tie : List TimerCondVar → ℕ) : ℕ → Kernel → Except Panic Kernel
  | 0, k => pure k
  | n + 1, k =>
    match peek tie k.timers with
    | some timer =>
      if timer.expireMs ≤ k.timeMs then do
        let k ← k.resume timer.task
        checkTimerLoop tie n { k with timers := k.timers.erase timer }
      else pure k
    | none => pure k

def checkTimer (k : Kernel) (tie : List TimerCondVar → ℕ) : Except Panic Kernel :=
  checkTimerLoop tie k.timers.length k

end Kernel

end RCore.Os
