import RCore.Spec.Os.Process

/-! The system calls (`syscall/`), what happens at the end of a trap, and the kernel as
a whole: from boot on, by system calls, faults and timer interrupts. -/

namespace RCore.Os

open SignalFlags

/-- An access to user memory. The address does not pass the checks, or there is no page,
or it is mapped. -/
inductive UserRef (α : Type) where
  | refused
  | fault
  | mapped (a : α)

inductive Syscall where
  | read (fd len : ℕ)
  | write (fd len : ℕ)
  | exit (exitCode : Int32)
  | exitGroup (exitCode : Int32)
  | yield
  | getTime
  | getpid
  | fork
  /-- With the entry and the stack of the program, if there is one, and whether there is
  memory where the arguments are left. -/
  | exec (path : UserRef String) (args : UserRef (List String)) (elf : Option (UInt64 × ℕ))
      (stackMapped : Bool)
  | waitpid (pid : ℤ) (exitCodePtr : UserRef Unit)
  /-- With whether `open_file` gives a file. -/
  | open_ (path : UserRef String) (flags : BitVec 32) (found : Bool)
  | close (fd : ℕ)
  | dup (fd : ℕ)
  | pipe (ptr : UserRef Unit)
  | kill (pid : ℕ) (signum : ℤ)
  /-- `none` is a null pointer. -/
  | sigaction (signum : ℤ) (action : Option (UserRef SignalAction))
      (oldAction : Option (UserRef Unit))
  | sigprocmask (mask : BitVec 32)
  | sigreturn
  | sleep (ms : ℕ)
  | threadCreate (entry arg : UInt64)
  | gettid
  | waittid (tid : ℕ)
  | mutexCreate (blocking : Bool)
  | mutexLock (mutexId : ℕ)
  | mutexUnlock (mutexId : ℕ)
  | semaphoreCreate (resCount : ℕ)
  | semaphoreUp (semId : ℕ)
  | semaphoreDown (semId : ℕ)
  | condvarCreate
  | condvarSignal (condvarId : ℕ)
  | condvarWait (condvarId mutexId : ℕ)
  | unsupported

/-- What a step finds when it looks outside the kernel: the bytes at the user buffer, the
console, and how many bytes the file system has moved. -/
structure Input where
  user : UserRef (ℕ → UInt8)
  console : Option UInt8
  moved : ℕ

/-- A system call returns; or it does not, and the task's `cont` says where it goes on. -/
inductive Flow where
  | ret (value : ℤ)
  | away
deriving DecidableEq

/-- `OpenFlags::from_bits` and `read_write`: readable and writable. -/
def openFlags (flags : BitVec 32) : Option (Bool × Bool) :=
  if flags &&& ~~~0x603#32 ≠ 0 then none
  else if flags = 0 then some (true, false)
  else if flags.getLsbD 0 then some (false, true)
  else some (true, true)

/-- A call of `sys_write` on the write end of a pipe. -/
def Cont.writes (pipe : ℕ) : Cont → Bool
  | .write file _ _ => file == .pipeWrite pipe
  | .writePipe p _ _ _ => p == pipe
  | _ => false

abbrev CHUNK_SIZE : ℕ := 256

namespace Kernel

def leakProc (k : Kernel) (pid : ℕ) : Kernel := { k with leakedProcs := pid :: k.leakedProcs }

def leakFile (k : Kernel) (file : File) : Kernel := { k with leakedFiles := file :: k.leakedFiles }

def leakLock (k : Kernel) (lock : ProcLock) : Kernel :=
  { k with leakedLocks := lock :: k.leakedLocks }

/-- A fault in the kernel ends the task, in the state `k` that has been reached. -/
def access {α : Type} (ref : UserRef α) (k : Kernel) (f : α → Except Panic (Flow × Kernel)) :
    Except Panic (Flow × Kernel) :=
  match ref with
  | .refused => throw .uaccess
  | .fault => do pure (.away, ← k.exit (-1))
  | .mapped a => f a

def sysRead (k : Kernel) (fd len : ℕ) : Except Panic (Flow × Kernel) := do
  let (_, p) ← k.proc
  match p.fdTable[fd]? with
  | some (some file) =>
    if !file.readable then pure (.ret (-1), k)
    else match file with
      | .stdin => if len ≠ 1 then throw .stdinLength else pure (.away, k.setCont .readStdin)
      | .pipeRead pipe => pure (.away, k.setCont (.readPipe pipe ⟨len, [], none⟩))
      | .inode _ _ _ => pure (.away, k.setCont (.readInode file len))
      | _ => throw .file
  | _ => pure (.ret (-1), k)

def sysWrite (k : Kernel) (fd len : ℕ) : Except Panic (Flow × Kernel) := do
  let (_, p) ← k.proc
  match p.fdTable[fd]? with
  | some (some file) =>
    if !file.writable then pure (.ret (-1), k) else pure (.away, k.setCont (.write file len 0))
  | _ => pure (.ret (-1), k)

def sysFork (k : Kernel) : Except Panic (Flow × Kernel) := do
  let task ← k.task k.current
  let (pid, k) ← k.newFork task.process task.tf
  let k := { k with procMap := k.procMap ++ [pid] }
  let t ← k.onlyTask pid
  pure (.ret pid, ← k.spawn t)

/-- `Process::exec` -/
def exec (k : Kernel) (pid : ℕ) (args : List String) (elf : Option (UInt64 × ℕ))
    (stackMapped : Bool) : Except Panic (Flow × Kernel) := do
  let p ← k.process pid
  if p.isKernel then throw .isKernel
  else if k.taskCount p ≠ 1 then throw .taskCount
  else match elf with
    | some (entry, ustackTop) => do
      k.lock (.vm pid)
      let k := k.modifyProc pid fun p => { p with vm := true }
      -- without arguments nothing is pushed
      let stack : UserRef Unit := if stackMapped || args.isEmpty then .mapped () else .fault
      access stack ((k.leakProc pid).leakLock (.vm pid)) fun _ =>
        let base := UInt64.ofNat (argvBase ustackTop args)
        let tf := TrapFrame.newUserArg entry base (UInt64.ofNat args.length) base
        pure (.ret args.length, k.modifyTask k.current fun task => { task with tf })
    | none => pure (.ret (-1), k)

def sysExec (k : Kernel) (path : UserRef String) (args : UserRef (List String))
    (elf : Option (UInt64 × ℕ)) (stackMapped : Bool) : Except Panic (Flow × Kernel) :=
  access path k fun _ => do
    let (pid, _) ← k.proc
    access args (k.leakProc pid) fun args => k.exec pid args elf stackMapped

def sysWaitpid (k : Kernel) (pid : ℤ) (exitCodePtr : UserRef Unit) :
    Except Panic (Flow × Kernel) := do
  let (parent, _) ← k.proc
  let (ret, _, k) ← k.waitpid parent pid
  access exitCodePtr k fun _ => pure (.ret ret, k)

def sysOpen (k : Kernel) (path : UserRef String) (flags : BitVec 32) (found : Bool) :
    Except Panic (Flow × Kernel) := do
  let (pid, p) ← k.proc
  access path (k.leakProc pid) fun _ =>
    match openFlags flags with
    | none => throw .openFlags
    | some ( readable, writable) =>
      if found then
        let (fd, fdTable) := allocSlot p.fdTable (.inode k.inodes readable writable)
        let k := { k with inodes := k.inodes + 1 }
        pure (.ret fd, k.modifyProc pid fun p => { p with fdTable })
      else pure (.ret (-1), k)

def sysClose (k : Kernel) (fd : ℕ) : Except Panic (Flow × Kernel) := do
  let (pid, p) ← k.proc
  match p.fdTable[fd]? with
  | some (some _) => pure (.ret 0, k.modifyProc pid fun p => { p with fdTable := p.fdTable.set fd none })
  | _ => pure (.ret (-1), k)

def sysDup (k : Kernel) (fd : ℕ) : Except Panic (Flow × Kernel) := do
  let (pid, p) ← k.proc
  match p.fdTable[fd]? with
  | some (some file) =>
    let (newFd, fdTable) := allocSlot p.fdTable file
    pure (.ret newFd, k.modifyProc pid fun p => { p with fdTable })
  | _ => pure (.ret (-1), k)

def sysPipe (k : Kernel) (ptr : UserRef Unit) : Except Panic (Flow × Kernel) := do
  let (pid, p) ← k.proc
  let pipe := k.pipes.length
  let (_, fdTable) := allocSlot p.fdTable (.pipeRead pipe)
  let (_, fdTable) := allocSlot fdTable (.pipeWrite pipe)
  let k := { k with pipes := k.pipes ++ [PipeRingBuffer.new.setWriteEnd] }
  let k := k.modifyProc pid fun p => { p with fdTable }
  access ptr (k.leakProc pid) fun _ => pure (.ret 0, k)

/-- `sys_kill`: the result, and the kernel after it. -/
def kill (k : Kernel) (pid : ℕ) (signum : ℤ) : Except Panic (ℤ × Kernel) :=
  if pid ∈ k.procMap then do
    let p ← k.process pid
    match fromBits (shift signum) with
    | some flag =>
      let (count, k) := k.insertSignals flag p.tasks
      pure (if 0 < count then 0 else -1, k)
    | none => pure (-1, k)
  else pure (-1, k)

def sysSigaction (k : Kernel) (signum : ℤ) (action : Option (UserRef SignalAction))
    (oldAction : Option (UserRef Unit)) : Except Panic (Flow × Kernel) :=
  if h : 0 ≤ signum ∧ signum ≤ MAX_SIG then
    match fromBits (shift signum), action, oldAction with
    | some signal, some action, some oldAction =>
      if signal = SIGKILL ∨ signal = SIGSTOP then pure (.ret (-1), k)
      else do
        let (pid, _) ← k.proc
        k.lock (.signalActions pid)
        let abandoned := (k.leakProc pid).leakLock (.signalActions pid)
        access oldAction abandoned fun _ =>
          access action abandoned fun action =>
            let sig : Fin (MAX_SIG + 1) := ⟨signum.toNat, by omega⟩
            pure (.ret 0, k.modifyProc pid fun p =>
              { p with signalActions := ⟨Function.update p.signalActions.table sig action⟩ })
    | _, _, _ => pure (.ret (-1), k)
  else pure (.ret (-1), k)

def sysSigprocmask (k : Kernel) (mask : BitVec 32) : Except Panic (Flow × Kernel) := do
  let task ← k.task k.current
  match fromBits mask with
  | some flag =>
    pure (.ret task.signal.signalMask.bits.toNat, k.modifyTask k.current fun task =>
      { task with signal := { task.signal with signalMask := flag } })
  | none => pure (.ret (-1), k)

/-- `sys_sigretrun` -/
def sysSigreturn (k : Kernel) : Except Panic (Flow × Kernel) := do
  let task ← k.task k.current
  match task.signal.trapframeBackup, task.signal.maskBackup with
  | some backup, some mask =>
    pure (.ret 0, k.modifyTask k.current fun task =>
      { task with
        tf := backup
        signal := { task.signal with
          trapframeBackup := none, handlingSig := none, signalMask := mask, maskBackup := none } })
  | some _, none => throw .dangling
  | none, _ => pure (.ret (-1), k)

def sysSleep (k : Kernel) (ms : ℕ) : Except Panic (Flow × Kernel) := do
  let timer : TimerCondVar := ⟨(k.timeMs + ms) % 2 ^ 64, k.current⟩
  let k := { k with timers := k.timers ++ [timer] }
  pure (.away, ← k.blockAndYield (.finish 0))

def sysThreadCreate (k : Kernel) (entry arg : UInt64) : Except Panic (Flow × Kernel) := do
  let (pid, _) ← k.proc
  let (tid, t, k) ← k.newUserTask pid entry arg
  pure (.ret tid, ← k.spawn t)

def sysWaittid (k : Kernel) (tid : ℕ) : Except Panic (Flow × Kernel) := do
  let task ← k.task k.current
  -- a thread cannot wait for itself
  if task.tid = tid then pure (.ret (-1), k)
  else do
    let (ret, k) ← k.waittid task.process tid
    pure (.ret ret, k)

def sysMutexCreate (k : Kernel) ( blocking : Bool) : Except Panic (Flow × Kernel) := do
  let (pid, p) ← k.proc
  let (id, mutexList) := allocSlot p.mutexList k.mutexes.length
  let mutex : UserMutex := if blocking then .blocking false [] else .spin false
  let k := { k with mutexes := k.mutexes ++ [mutex] }
  pure (.ret id, k.modifyProc pid fun p => { p with mutexList })

def sysSemaphoreCreate (k : Kernel) (resCount : ℕ) : Except Panic (Flow × Kernel) := do
  let (pid, p) ← k.proc
  let (id, semaphoreList) := allocSlot p.semaphoreList k.semaphores.length
  let k := { k with semaphores := k.semaphores ++ [Semaphore.mk (wrap resCount) []] }
  pure (.ret id, k.modifyProc pid fun p => { p with semaphoreList })

def sysCondvarCreate (k : Kernel) : Except Panic (Flow × Kernel) := do
  let (pid, p) ← k.proc
  let (id, condvarList) := allocSlot p.condvarList k.condvars.length
  let k := { k with condvars := k.condvars ++ [Condvar.mk []] }
  pure (.ret id, k.modifyProc pid fun p => { p with condvarList })

/-- `list[id].as_ref().unwrap()` -/
def object (list : List (Option ℕ)) (id : ℕ) (panic : Panic) : Except Panic ℕ :=
  match list[id]? with
  | some (some object) => .ok object
  | _ => .error panic

/-- Goes on with the return value 0, if the call has not given way. -/
def returnZero (r : Except Panic (Bool × Kernel)) : Except Panic (Flow × Kernel) := do
  let (returned, k) ← r
  pure (if returned then .ret 0 else .away, k)

def sysMutexLock (k : Kernel) (mutexId : ℕ) : Except Panic (Flow × Kernel) := do
  let (_, p) ← k.proc
  returnZero (k.mutexLock (← object p.mutexList mutexId .noMutex))

def sysMutexUnlock (k : Kernel) (mutexId : ℕ) : Except Panic (Flow × Kernel) := do
  let (_, p) ← k.proc
  pure (.ret 0, ← k.mutexUnlock (← object p.mutexList mutexId .noMutex))

def sysSemaphoreUp (k : Kernel) (semId : ℕ) : Except Panic (Flow × Kernel) := do
  let (_, p) ← k.proc
  pure (.ret 0, ← k.semaphoreUp (← object p.semaphoreList semId .noSemaphore))

def sysSemaphoreDown (k : Kernel) (semId : ℕ) : Except Panic (Flow × Kernel) := do
  let (_, p) ← k.proc
  returnZero (k.semaphoreDown (← object p.semaphoreList semId .noSemaphore))

def sysCondvarSignal (k : Kernel) (condvarId : ℕ) : Except Panic (Flow × Kernel) := do
  let (_, p) ← k.proc
  pure (.ret 0, ← k.condvarSignal (← object p.condvarList condvarId .noCondvar))

def sysCondvarWait (k : Kernel) (condvarId mutexId : ℕ) : Except Panic (Flow × Kernel) := do
  let (_, p) ← k.proc
  let condvar ← object p.condvarList condvarId .noCondvar
  let mutex ← object p.mutexList mutexId .noMutex
  pure (.away, ← k.condvarWait condvar mutex)

def syscall (k : Kernel) : Syscall → Except Panic (Flow × Kernel)
  | .read fd len => k.sysRead fd len
  | .write fd len => k.sysWrite fd len
  | .exit exitCode => do pure (.away, ← k.exit exitCode)
  | .exitGroup exitCode => do
    let (pid, _) ← k.proc
    let k ← k.stop pid exitCode
    pure (.away, ← k.exit exitCode)
  | .yield => do pure (.away, ← k.yieldNow (.finish 0))
  | .getTime => pure (.ret k.timeMs, k)
  | .getpid => do
    let (pid, _) ← k.proc
    pure (.ret pid, k)
  | .fork => k.sysFork
  | .exec path args elf stackMapped => k.sysExec path args elf stackMapped
  | .waitpid pid exitCodePtr => k.sysWaitpid pid exitCodePtr
  | .open_ path flags found => k.sysOpen path flags found
  | .close fd => k.sysClose fd
  | .dup fd => k.sysDup fd
  | .pipe ptr => k.sysPipe ptr
  | .kill pid signum => do
    let (ret, k) ← k.kill pid signum
    pure (.ret ret, k)
  | .sigaction signum action oldAction => k.sysSigaction signum action oldAction
  | .sigprocmask mask => k.sysSigprocmask mask
  | .sigreturn => k.sysSigreturn
  | .sleep ms => k.sysSleep ms
  | .threadCreate entry arg => k.sysThreadCreate entry arg
  | .gettid => do
    let task ← k.task k.current
    pure (.ret task.tid, k)
  | .waittid tid => k.sysWaittid tid
  | .mutexCreate blocking => k.sysMutexCreate blocking
  | .mutexLock mutexId => k.sysMutexLock mutexId
  | .mutexUnlock mutexId => k.sysMutexUnlock mutexId
  | .semaphoreCreate resCount => k.sysSemaphoreCreate resCount
  | .semaphoreUp semId => k.sysSemaphoreUp semId
  | .semaphoreDown semId => k.sysSemaphoreDown semId
  | .condvarCreate => k.sysCondvarCreate
  | .condvarSignal condvarId => k.sysCondvarSignal condvarId
  | .condvarWait condvarId mutexId => k.sysCondvarWait condvarId mutexId
  | .unsupported => do pure (.away, ← k.exit (-1))

/-- The end of `handle_signals`, and of `handle_sync_exception`. -/
def signalsHandled (k : Kernel) (inner : SignalInner) : Except Panic Kernel :=
  match inner.signals.checkError with
  | some (errno, _) => k.exit errno
  | none => pure (k.setCont .user)

/-- The actions of the process are looked at in a handler, and for a signal that is the
user's. -/
def lockActions (k : Kernel) (task : Task) (signal : Option SignalFlags) : Except Panic Unit :=
  if task.signal.handlingSig.isSome || signal.any (!KERNEL_SIGNAL.contains ·) then
    k.lock (.signalActions task.process)
  else pure ()

/-- One round of the loop of `handle_signals`. -/
def handleSignals (k : Kernel) : Except Panic Kernel := do
  let task ← k.task k.current
  let p ← k.process task.process
  let (signal, inner, tf) := task.signal.checkPendingSignals p.signalActions task.tf
  k.lockActions task signal
  let k := k.modifyTask k.current fun task => { task with signal := inner, tf }
  if inner.killed then k.signalsHandled inner
  else if inner.frozen then k.blockAndYield .signals
  else k.signalsHandled inner

/-- A system call has returned: the rest of `handle_sync_exception`. -/
def finish (k : Kernel) (ret : ℤ) : Except Panic Kernel :=
  (k.modifyTask k.current fun task =>
    { task with tf := task.tf.setR0 (UInt64.ofInt ret) }).handleSignals

/-- What becomes of a system call. -/
def proceed : Flow × Kernel → Except Panic Kernel
  | (.ret value, k) => k.finish value
  | (.away, k) => pure k

/-- `Arc::strong_count` of the write end of a pipe: descriptors, calls of `sys_write` that
have not returned, and what tasks that have exited have left behind. -/
def writeEnds (k : Kernel) (pipe : ℕ) : ℕ :=
  (k.procs.flatMap fun p => (p.map Process.fdTable).getD []).count (some (.pipeWrite pipe)) +
    k.tasks.countP (fun task => task.cont.writes pipe) +
    k.leakedFiles.count (.pipeWrite pipe)

/-- The end of `sys_read`: the buffer is written to user memory. -/
def readDone (k : Kernel) (file : File) (n : ℕ) (input : Input) : Except Panic Kernel := do
  let (pid, _) ← k.proc
  proceed (← access input.user ((k.leakProc pid).leakFile file) fun _ => pure (.ret n, k))

/-- A round of `Stdin::read`. -/
def readStdin (k : Kernel) (input : Input) : Except Panic Kernel :=
  match input.console with
  | none => k.yieldNow .readStdin
  | some c =>
    -- 3 is Ctrl-C
    if c = 3 then
      (k.modifyTask k.current fun task =>
        { task with signal := { task.signal with signals := task.signal.signals.insert SIGINT } }).readDone
          .stdin 1 input
    else k.readDone .stdin 1 input

/-- A round of `Pipe::read`. -/
def readPipe (k : Kernel) (pipe : ℕ) (call : ReadCall) (input : Input) : Except Panic Kernel :=
  match k.pipes[pipe]? with
  | none => throw .dangling
  | some ring =>
    match readRound (k.writeEnds pipe) call ring with
    | none => throw .noWriteEnd
    | some (call, ring', _) =>
      let k := { k with pipes := k.pipes.set pipe ring' }
      match call.result with
      | some n => k.readDone (.pipeRead pipe) n input
      | none =>
        if ring.availableRead = 0 then k.yieldNow (.readPipe pipe call)
        else pure (k.setCont (.readPipe pipe call))

/-- A round of the loop of `sys_write`. -/
def writeChunk (k : Kernel) (file : File) (len count : ℕ) (input : Input) :
    Except Panic Kernel :=
  if count < len then do
    let chunkLen := min CHUNK_SIZE (len - count)
    let (pid, _) ← k.proc
    proceed (← access input.user ((k.leakProc pid).leakFile file) fun bytes =>
      let chunk := (List.range chunkLen).map bytes
      let next := k.setCont (.write file len (count + chunkLen))
      match file with
      | .stdout =>
        if (ByteArray.mk chunk.toArray).validateUTF8 then pure (.away, next) else throw .notText
      | .pipeWrite pipe => pure (.away, k.setCont (.writePipe pipe ⟨chunk, chunk, 0, none⟩ len count))
      | .inode _ _ _ =>
        if input.moved = chunkLen then pure (.away, next) else throw .chunkLength
      | _ => throw .file)
  else k.finish count

/-- A round of `Pipe::write`. -/
def writePipe (k : Kernel) (pipe : ℕ) (call : WriteCall) (len count : ℕ) : Except Panic Kernel :=
  match k.pipes[pipe]? with
  | none => throw .dangling
  | some ring =>
    let (call, ring', _) := writeRound call ring
    let k := { k with pipes := k.pipes.set pipe ring' }
    match call.result with
    | some n =>
      if n = call.buf.length then pure (k.setCont (.write (.pipeWrite pipe) len (count + n)))
      else throw .chunkLength
    | none =>
      if ring.availableWrite = 0 then k.yieldNow (.writePipe pipe call len count)
      else pure (k.setCont (.writePipe pipe call len count))

/-- `while curr_proc.waitpid(-1, &mut exit_code) > 0 {}` -/
def rootReap (k : Kernel) : Except Panic Kernel := do
  let (pid, _) ← k.proc
  let (ret, _, k) ← k.waitpid pid (-1)
  pure (if ret > 0 then k else k.setCont .rootCheck)

/-- With no children left the root task waits for an interrupt, and goes on. -/
def rootCheck (k : Kernel) : Except Panic Kernel := do
  let (_, p) ← k.proc
  if p.children.length = 0 then pure (k.setCont .rootReap) else k.yieldNow .rootReap

/-- The current task goes on in the kernel. -/
def proceedWith (k : Kernel) (input : Input) : Cont → Except Panic Kernel
  | .user => pure k
  | .finish ret => k.finish ret
  | .lock mutex => do proceed (← returnZero (k.mutexLock mutex))
  | .locked _ => k.finish 0
  | .readStdin => k.readStdin input
  | .readInode file len => k.readDone file (min input.moved len) input
  | .readPipe pipe call => k.readPipe pipe call input
  | .write file len count => k.writeChunk file len count input
  | .writePipe pipe call len count => k.writePipe pipe call len count
  | .signals => k.handleSignals
  | .rootReap => k.rootReap
  | .rootCheck => k.rootCheck
  | .kernelEntry => k.exit 0
  | .run => throw .rootTaskExit
  | .exited => throw .taskExited

inductive Event where
  /-- The current task makes a system call. -/
  | syscall (call : Syscall) (tf : TrapFrame)
  /-- It does what the kernel kills it for. -/
  | fault
  /-- It is in the kernel, and goes on there. -/
  | proceed (input : Input)
  /-- A timer interrupt; `tie` is for the order of timers that are equal. -/
  | timer (tie : List TimerCondVar → ℕ)
  | clock (ms : ℕ)

/-- Whether an event can happen: interrupts are taken in user mode, in the loop of the root
task and in the other kernel tasks before they exit. -/
def enabled (k : Kernel) : Event → Bool
  | .syscall _ _ => k.contOf k.current == some .user
  | .fault => k.contOf k.current == some .user
  | .proceed _ => k.contOf k.current != some .user
  | .timer _ =>
    [some .user, some .rootReap, some .rootCheck, some .kernelEntry].contains (k.contOf k.current)
  | .clock _ => true

def step (k : Kernel) : Event → Except Panic Kernel
  | .syscall call tf => do
    proceed (← (k.modifyTask k.current fun task => { task with tf }).syscall call)
  | .fault => k.exit (-1)
  | .proceed input => do
    let task ← k.task k.current
    k.proceedWith input task.cont
  | .timer tie => do (← k.checkTimer tie).yieldCurrent
  | .clock ms => pure { k with timeMs := ms }

/-- The kernel before `task::init`, with the idle process. -/
def idle : Kernel where
  tasks := [{ Task.new 0 IDLE_PID (.newUser 0 0) .run with state := .running }]
  procs := [some { Process.new true with tasks := [(0, 0)], tidAllocator := 1 }]
  procMap := []
  readyQueue := []
  current := 0
  skipped := 0
  mutexes := []
  semaphores := []
  condvars := []
  timers := []
  pipes := []
  inodes := 0
  leakedProcs := []
  leakedFiles := []
  leakedLocks := []
  timeMs := 0

/-- `task::init`: the root process, two kernel processes, and the shell, whose program
starts at `entry`. -/
def init (entry ustackTop : UInt64) : Except Panic Kernel := do
  let (root, k) := idle.newKernel .rootReap
  let k ← k.spawn (← k.onlyTask root)
  let (pid, k) := k.newKernel .kernelEntry
  let k ← k.spawn (← k.onlyTask pid)
  let (pid, k) := k.newKernel .kernelEntry
  let k ← k.spawn (← k.onlyTask pid)
  let (pid, k) := k.newUser entry ustackTop
  k.spawn (← k.onlyTask pid)

/-- `task::init` and `task::run` -/
def boot (entry ustackTop : UInt64) : Except Panic Kernel := do
  (← init entry ustackTop).yieldCurrent

end Kernel

open Kernel

/-- No process has children when it is a zombie. -/
def Kernel.NoZombieParent (k : Kernel) : Prop :=
  ∀ (pid : ℕ) (p : Process), k.procs[pid]? = some (some p) → p.state = .zombie → p.children = []

/-- The states of the kernel from boot on, the last one first. -/
inductive Trace : Kernel → List Kernel → Prop
  | boot {k : Kernel} {entry ustackTop : UInt64} (h : boot entry ustackTop = .ok k) : Trace k [k]
  | step {k k' : Kernel} {states : List Kernel} {e : Event} (h : Trace k states)
      (he : k.enabled e) (hs : k.step e = .ok k') : Trace k' (k' :: states)

end RCore.Os
