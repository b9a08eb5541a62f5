import RCore.Spec.Os.Syscall

/-! The roster of the kernel: which tasks and processes there are, which of them have ended
and with which code, and who is whose child. It changes when a task makes tasks and
processes, ends, or waits for others, and `Makes` says how; for everything else that the
kernel does the roster is no different. -/

namespace RCore.Os

structure TaskEntry where
  tid : ℕ
  process : ℕ
  zombie : Bool
  exitCode : Int32

structure ProcEntry where
  isKernel : Bool
  state : ProcState
  exitCode : Int32
  vm : Bool
  tasks : List (ℕ × ℕ)
  tidAllocator : ℕ
  children : List ℕ

structure Roster where
  tasks : List TaskEntry
  procs : List (Option ProcEntry)
  procMap : List ℕ

def Task.entry (task : Task) : TaskEntry where
  tid := task.tid
  process := task.process
  zombie := task.state == .zombie
  exitCode := task.exitCode

def Process.entry (p : Process) : ProcEntry where
  isKernel := p.isKernel
  state := p.state
  exitCode := p.exitCode
  vm := p.vm
  tasks := p.tasks
  tidAllocator := p.tidAllocator
  children := p.children

def Kernel.roster (k : Kernel) : Roster where
  tasks := k.tasks.map Task.entry
  procs := k.procs.map (Option.map Process.entry)
  procMap := k.procMap

/-- What a task does to the roster. -/
inductive Change where
  | fork (child : ℕ)
  | threadCreate (tid : ℕ)
  | exec
  | stop (exitCode : Int32)
  | exit (exitCode : Int32)
  /-- With the exit code of the child. -/
  | waitpid (child : ℕ) (exitCode : Int32)
  | waittid (tid : ℕ)
deriving DecidableEq

/-- A process of one task, the place of which is `t`. -/
def ProcEntry.forked (t : ℕ) : ProcEntry where
  isKernel := false
  state := .normal
  exitCode := 0
  vm := true
  tasks := [(0, t)]
  tidAllocator := 1
  children := []

namespace Roster

def modifyTask (r : Roster) (t : ℕ) (f : TaskEntry → TaskEntry) : Roster :=
  { r with tasks := r.tasks.modify t f }

def modifyProc (r : Roster) (pid : ℕ) (f : ProcEntry → ProcEntry) : Roster :=
  { r with procs := r.procs.modify pid (Option.map f) }

def taskCount (r : Roster) (p : ProcEntry) : ℕ :=
  p.tasks.countP fun e => r.tasks[e.2]?.map TaskEntry.zombie ≠ some true

/-- The new process is the child of `pid`. -/
def fork (r : Roster) (pid : ℕ) : Roster :=
  let child := r.procs.length
  { tasks := r.tasks ++ [TaskEntry.mk 0 child false 0]
    procs := (r.procs ++ [some (ProcEntry.forked r.tasks.length)]).modify pid
      (Option.map fun p => { p with children := p.children ++ [child] })
    procMap := r.procMap ++ [child] }

def threadCreate (r : Roster) (pid tid : ℕ) : Roster :=
  { r with tasks := r.tasks ++ [TaskEntry.mk tid pid false 0] }.modifyProc pid fun p =>
    { p with tidAllocator := tid + 1, tasks := p.tasks ++ [(tid, r.tasks.length)] }

def exec (r : Roster) (pid : ℕ) : Roster := r.modifyProc pid fun p => { p with vm := true }

/-- The root process takes over the children. -/
def reparent (r : Roster) (pid : ℕ) (children : List ℕ) : Roster :=
  (r.modifyProc ROOT_PID fun root => { root with children := root.children ++ children }).modifyProc
    pid fun p => { p with children := [] }

def stop (r : Roster) (pid : ℕ) (children : List ℕ) (exitCode : Int32) : Roster :=
  (r.reparent pid children).modifyProc pid fun p => { p with state := .stop, exitCode }

def endTask (r : Roster) (t : ℕ) (exitCode : Int32) : Roster :=
  r.modifyTask t fun task => { task with zombie := true, exitCode }

def endProcess (r : Roster) (pid : ℕ) (exitCode : Int32) : Roster :=
  r.modifyProc pid fun p =>
    { p with
      exitCode := if p.state = .normal then exitCode else p.exitCode
      state := .zombie
      vm := false }

/-- The process `p` ends with the last of its tasks. -/
def exit (r : Roster) (t pid : ℕ) (p : ProcEntry) (exitCode : Int32) : Roster :=
  let r := r.endTask t exitCode
  if r.taskCount p = 0 then r.endProcess pid exitCode else r

def disown (r : Roster) (parent child : ℕ) : Roster :=
  { r.modifyProc parent fun p => { p with children := p.children.erase child } with
    procMap := r.procMap.erase child }

def reap (r : Roster) (parent child : ℕ) : Roster :=
  { r.disown parent child with procs := (r.disown parent child).procs.set child none }

/-- The references to a process. -/
def refs (r : Roster) (pid : ℕ) : ℕ :=
  (r.procs.flatMap fun p => (p.map ProcEntry.children).getD []).count pid + r.procMap.count pid

def waittid (r : Roster) (pid tid : ℕ) : Roster :=
  r.modifyProc pid fun p => { p with tasks := p.tasks.filter fun e => e.1 ≠ tid }

def Alive (r : Roster) (t : ℕ) : Prop := ∃ task, r.tasks[t]? = some task ∧ task.zombie = false

/-- The task `t` is alive, and one of the process `p`, which is there. -/
structure Serves (r : Roster) (t pid : ℕ) (p : ProcEntry) : Prop where
  task : ∃ task, r.tasks[t]? = some task ∧ task.process = pid ∧ task.zombie = false
  proc : r.procs[pid]? = some (some p)

/-- What a change is, made by the task `t` of the process `p`: what the code asserts before
it, and the roster after it. -/
inductive Makes (t pid : ℕ) (p : ProcEntry) (r : Roster) : Change → Roster → Prop
  | fork (hkernel : p.isKernel = false) (hvm : p.vm = true) :
      Makes t pid p r (.fork r.procs.length) (r.fork pid)
  | threadCreate (hvm : p.vm = true) (htid : p.tidAllocator ≤ 16) :
      Makes t pid p r (.threadCreate p.tidAllocator) (r.threadCreate pid p.tidAllocator)
  | exec (hkernel : p.isKernel = false) (hcount : r.taskCount p = 1) :
      Makes t pid p r .exec (r.exec pid)
  | stop (exitCode : Int32) (hpid : ¬ (pid = IDLE_PID ∨ pid = ROOT_PID)) :
      Makes t pid p r (.stop exitCode) (r.stop pid p.children exitCode)
  | exit (exitCode : Int32) : Makes t pid p r (.exit exitCode) (r.exit t pid p exitCode)
  | waitpid {child : ℕ} {c : ProcEntry} (hchild : child ∈ p.children)
      (hc : r.procs[child]? = some (some c)) (hzombie : c.state = .zombie)
      (hrefs : (r.disown pid child).refs child = 0) :
      Makes t pid p r (.waitpid child c.exitCode) (r.reap pid child)
  | waittid {tid u : ℕ} {task : TaskEntry} (htid : p.tasks.lookup tid = some u)
      (htask : r.tasks[u]? = some task) (hzombie : task.zombie = true) :
      Makes t pid p r (.waittid tid) (r.waittid pid tid)

/-- The changes that a task makes, one after the other. -/
inductive Changes (t : ℕ) : List Change → Roster → Roster → Prop
  | nil (r : Roster) : Changes t [] r r
  | cons {pid : ℕ} {p : ProcEntry} {r r₁ r' : Roster} {c : Change} {cs : List Change}
      (hs : r.Serves t pid p) (hm : Makes t pid p r c r₁) (h : Changes t cs r₁ r') :
      Changes t (c :: cs) r r'

end Roster

/-- A trap ends with the end of the task, or without it. -/
def Ends (cs : List Change) : Prop := cs = [] ∨ ∃ exitCode, cs = [.exit exitCode]

/-- There may be one change before that. -/
def EndsAfter (c : Change) (cs : List Change) : Prop := ∃ rest, cs = c :: rest ∧ Ends rest

namespace Kernel

/-- The changes that go with `waitpid`. -/
def Waits (k : Kernel) (pid : ℤ) (cs : List Change) : Prop :=
  ∃ parent p ret exitCode k', k.proc = .ok (parent, p) ∧ k.waitpid parent pid = .ok (ret, exitCode, k') ∧
    match exitCode with
    | some exitCode => ∃ child : ℕ, ret = child ∧ EndsAfter (.waitpid child exitCode) cs
    | none => Ends cs

/-- The changes that go with an event. -/
def Explains (k : Kernel) : Event → List Change → Prop
  | .syscall (.exit exitCode) _, cs => cs = [.exit exitCode]
  | .syscall (.exitGroup exitCode) _, cs => cs = [.stop exitCode, .exit exitCode]
  | .syscall .fork _, cs => EndsAfter (.fork k.procs.length) cs
  | .syscall (.threadCreate _ _) _, cs => ∃ tid, EndsAfter (.threadCreate tid) cs
  | .syscall (.exec _ _ _ _) _, cs => Ends cs ∨ EndsAfter .exec cs
  | .syscall (.waitpid pid _) _, cs => k.Waits pid cs
  | .syscall (.waittid tid) _, cs => Ends cs ∨ EndsAfter (.waittid tid) cs
  | .syscall _ _, cs => Ends cs
  | .fault, cs => cs = [.exit (-1)]
  | .proceed _, cs => if k.contOf k.current = some .rootReap then k.Waits (-1) cs else Ends cs
  | .timer _, cs => cs = []
  | .clock _, cs => cs = []

end Kernel

end RCore.Os
