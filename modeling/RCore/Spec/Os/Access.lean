import RCore.Spec.Os.Syscall

/-! What the system calls hold when they access user memory: each of them as the guards it
takes and drops, in the order of the source, with the accesses in between. A fault in an
access is handled by `handle_sync_exception`, which calls `exit`: the stack of the system
call, with all that is on it, is never left. -/

namespace RCore.Os

open SignalFlags

/-- The locks that are taken on the way. -/
inductive KernelLock where
  | fdTable
  | children
  | vm
  | signalActions
  | fileSystem
deriving DecidableEq

/-- What is on the stack of a system call. -/
inductive Guard where
  /-- `Arc<Process>`, of `CurrentTask::get().proc()`. -/
  | process
  /-- `Arc<dyn File>`, from the table of the process. -/
  | file (file : File)
  | lock (lock : KernelLock)
deriving DecidableEq

/-- The places where user memory is read or written. -/
inductive Access where
  /-- `read_array` in the loop of `sys_write`, and `write_buf` at the end of `sys_read`. -/
  | write (file : File)
  | read (file : File)
  /-- `as_c_str` in `sys_open`, and `open_file`, which is given that string. -/
  | openPath
  | openName
  | pipe
  /-- `read_str` and `read_argvs` in `sys_exec`, and `push_c_str` and `push_stack` in `exec`. -/
  | execPath
  | execArgs
  | execStack
  | exitCode
  | oldAction
  | action
deriving DecidableEq

inductive Act where
  | take (guard : Guard)
  | drop (guard : Guard)
  | user (access : Access)
  /-- The last access was a fault. -/
  | abandon
deriving DecidableEq

/-- An access, and what comes after it. An address that does not pass the checks is a
panic. -/
def UserRef.acts {α : Type} (ref : UserRef α) (access : Access) (rest : α → List Act) : List Act :=
  match ref with
  | .refused => []
  | .fault => [.user access, .abandon]
  | .mapped a => .user access :: rest a

/-- `alloc_fd` -/
def allocFdActs : List Act := [.take (.lock .fdTable), .drop (.lock .fdTable)]

/-- What `sys_read` and `sys_write` have in common: `transfer` is done with a file for which
`allowed`. -/
def fileActs (p : Process) (fd : ℕ) (allowed : File → Bool) (transfer : File → List Act) : List Act :=
  let back := [.drop (.lock .fdTable), .drop .process]
  [.take .process, .take (.lock .fdTable)] ++
    match p.fdTable[fd]? with
    | some (some file) =>
      if !allowed file then back
      else [.take (.file file), .drop (.lock .fdTable)] ++ transfer file ++
        [.drop (.file file), .drop .process]
    | _ => back

/-- The chunks of the loop. -/
def sysWriteActs (p : Process) (fd len : ℕ) : List Act :=
  fileActs p fd File.writable fun file =>
    List.replicate ((len + CHUNK_SIZE - 1) / CHUNK_SIZE) (.user (.write file))

def sysReadActs (p : Process) (fd len : ℕ) : List Act :=
  fileActs p fd File.readable fun file => if len = 0 then [] else [.user (.read file)]

def sysOpenActs (path : UserRef String) (found : Bool) : List Act :=
  .take .process :: path.acts .openPath fun _ =>
    [.take (.lock .fileSystem), .user .openName, .drop (.lock .fileSystem)] ++
      (if found then allocFdActs else []) ++ [.drop .process]

def sysPipeActs (ptr : UserRef Unit) : List Act :=
  .take .process :: allocFdActs ++ allocFdActs ++ ptr.acts .pipe fun _ => [.drop .process]

def sysExecActs (path : UserRef String) (args : UserRef (List String)) (elf : Option (UInt64 × ℕ))
    (stackMapped : Bool) : List Act :=
  path.acts .execPath fun _ =>
    -- the receiver of `exec` is evaluated before its arguments
    .take .process :: args.acts .execArgs fun args =>
      match elf with
      | some _ =>
        let stack : UserRef Unit := if stackMapped then .mapped () else .fault
        let back := [.drop (.lock .vm), .drop .process]
        .take (.lock .vm) :: if args.isEmpty then back else stack.acts .execStack fun _ => back
      | none => [.drop .process]

def sysWaitpidActs (exitCodePtr : UserRef Unit) : List Act :=
  [.take .process, .take (.lock .children), .drop (.lock .children), .drop .process] ++
    exitCodePtr.acts .exitCode fun _ => []

theorem signum_lt {signum : ℤ} (h : 0 ≤ signum ∧ signum ≤ MAX_SIG) : signum.toNat < MAX_SIG + 1 := by
  omega

def sysSigactionActs (p : Process) (signum : ℤ) (action : Option (UserRef SignalAction))
    (oldAction : Option (UserRef Unit)) : List Act :=
  if h : 0 ≤ signum ∧ signum ≤ MAX_SIG then
    match fromBits (shift signum), action, oldAction with
    | some signal, some action, some oldAction =>
      if signal = SIGKILL ∨ signal = SIGSTOP then []
      else
        let rest := action.acts .action fun _ => [.drop (.lock .signalActions), .drop .process]
        [.take .process, .take (.lock .signalActions)] ++
          if (p.signalActions.table ⟨signum.toNat, signum_lt h⟩).mask ≠ TRAP_QUIT then
            oldAction.acts .oldAction fun _ => rest
          else oldAction.acts .oldAction fun _ => .user .oldAction :: rest
    | _, _, _ => []
  else []

/-- The other calls do not access user memory. -/
def Syscall.acts (p : Process) : Syscall → List Act
  | .read fd len => sysReadActs p fd len
  | .write fd len => sysWriteActs p fd len
  | .open_ path _ found => sysOpenActs path found
  | .pipe ptr => sysPipeActs ptr
  | .exec path args elf stackMapped => sysExecActs path args elf stackMapped
  | .waitpid _ exitCodePtr => sysWaitpidActs exitCodePtr
  | .sigaction signum action oldAction => sysSigactionActs p signum action oldAction
  | _ => []

/-- The accesses, each with the guards that are held then. -/
def heldAt : List Guard → List Act → List (Access × List Guard)
  | _, [] => []
  | held, .take guard :: acts => heldAt (guard :: held) acts
  | held, .drop guard :: acts => heldAt (held.erase guard) acts
  | held, .user access :: acts => (access, held) :: heldAt held acts
  | _, .abandon :: _ => []

/-- What is left on the stack, if the task dies. -/
def leftBehind : List Guard → List Act → List Guard
  | _, [] => []
  | held, .take guard :: acts => leftBehind (guard :: held) acts
  | held, .drop guard :: acts => leftBehind (held.erase guard) acts
  | held, .user _ :: acts => leftBehind held acts
  | held, .abandon :: _ => held

namespace Kernel

/-- The accesses of a call of the current task. -/
def accesses (k : Kernel) (call : Syscall) : List (Access × List Guard) :=
  match k.proc with
  | .ok (_, p) => heldAt [] (call.acts p)
  | .error _ => []

/-- The file whose call of `sys_read` or `sys_write` accesses user memory next. -/
def fileOf (k : Kernel) (input : Input) : Cont → Option File
  | .readStdin => if input.console.isSome then some .stdin else none
  | .readInode file _ => some file
  | .readPipe pipe call =>
    match k.pipes[pipe]?.bind (readRound (k.writeEnds pipe) call) with
    | some (call, _, _) => if call.result.isSome then some (.pipeRead pipe) else none
    | none => none
  | .write file len count => if count < len then some file else none
  | _ => none

/-- What the current task leaves on its stack if it dies in an access. -/
def leaves (k : Kernel) : Event → List Guard
  | .syscall call _ =>
    match k.proc with
    | .ok (_, p) => leftBehind [] (call.acts p)
    | .error _ => []
  | .proceed ⟨.fault, console, moved⟩ =>
    match (k.contOf k.current).bind (k.fileOf ⟨.fault, console, moved⟩) with
    | some file => [.file file, .process]
    | none => []
  | _ => []

end Kernel

end RCore.Os
