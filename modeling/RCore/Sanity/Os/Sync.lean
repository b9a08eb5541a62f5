import RCore.Sanity.Os.Sched

/-! The kernel as mutexes, semaphores and condition variables: what system calls do to
them, and where the tasks are that lock one. -/

namespace RCore.Os

/-- Where a task is that has called `UserMutex::lock` or `Condvar::wait`. -/
inductive Phase where
  /-- It is going to try and take the lock. -/
  | locking (mutex : ℕ)
  /-- It has the lock when it is woken. -/
  | locked (mutex : ℕ)
deriving DecidableEq

def Cont.phase : Cont → Option Phase
  | .lock mutex => some (.locking mutex)
  | .locked mutex => some (.locked mutex)
  | _ => none

/-- What `up` does to a semaphore; a task that has left the queue is woken. -/
def Semaphore.up (s : Semaphore) : Semaphore :=
  let count := wrap (s.count + 1)
  ⟨count, if count ≤ 0 then s.waitQueue.tail else s.waitQueue⟩

/-- What `down` does to a semaphore; a task that has joined the queue waits. -/
def Semaphore.down (s : Semaphore) (t : ℕ) : Semaphore :=
  let count := wrap (s.count - 1)
  ⟨count, if count < 0 then s.waitQueue ++ [t] else s.waitQueue⟩

structure Sync where
  mutexes : List UserMutex
  semaphores : List Semaphore
  condvars : List Condvar
  phase : ℕ → Option Phase

inductive SyncOp where
  | newMutex (blocking : Bool)
  | lock (mutex : ℕ)
  /-- A task that has been handed a lock returns with it. -/
  | granted (mutex : ℕ)
  | unlock (mutex : ℕ)
  | newSemaphore (resCount : ℕ)
  | up (sem : ℕ)
  | down (sem : ℕ)
  | newCondvar
  | signal (condvar : ℕ)
  | wait (condvar mutex : ℕ)
deriving DecidableEq

namespace Sync

def setPhase (s : Sync) (t : ℕ) (phase : Option Phase) : Sync :=
  { s with phase := Function.update s.phase t phase }

def setMutex (s : Sync) (mutex : ℕ) (m : UserMutex) : Sync :=
  { s with mutexes := s.mutexes.set mutex m }

def lock (s : Sync) (t mutex : ℕ) : Sync :=
  match s.mutexes[mutex]? with
  | some (.spin true) => s.setPhase t (some (.locking mutex))
  | some (.spin false) => (s.setMutex mutex (.spin true)).setPhase t none
  | some (.blocking true waitQueue) =>
    (s.setMutex mutex (.blocking true (waitQueue ++ [t]))).setPhase t (some (.locked mutex))
  | some (.blocking false waitQueue) =>
    (s.setMutex mutex (.blocking true waitQueue)).setPhase t none
  | none => s

/-- With tasks in the queue the lock is handed to the first of them. -/
def unlock (s : Sync) (mutex : ℕ) : Sync :=
  match s.mutexes[mutex]? with
  | some (.spin _) => s.setMutex mutex (.spin false)
  | some (.blocking _ (_ :: waitQueue)) => s.setMutex mutex (.blocking true waitQueue)
  | some (.blocking _ []) => s.setMutex mutex (.blocking false [])
  | none => s

def up (s : Sync) (sem : ℕ) : Sync :=
  match s.semaphores[sem]? with
  | some semaphore => { s with semaphores := s.semaphores.set sem semaphore.up }
  | none => s

def down (s : Sync) (t sem : ℕ) : Sync :=
  match s.semaphores[sem]? with
  | some semaphore => { s with semaphores := s.semaphores.set sem (semaphore.down t) }
  | none => s

def signal (s : Sync) (condvar : ℕ) : Sync :=
  match s.condvars[condvar]? with
  | some ⟨waitQueue⟩ => { s with condvars := s.condvars.set condvar ⟨waitQueue.tail⟩ }
  | none => s

/-- The mutex is unlocked, and then the task joins the queue. -/
def sleep (s : Sync) (t condvar mutex : ℕ) : Sync :=
  match s.condvars[condvar]? with
  | some ⟨waitQueue⟩ =>
    { s with condvars := s.condvars.set condvar ⟨waitQueue ++ [t]⟩ }.setPhase t (some (.locking mutex))
  | none => s

/-- What an operation of task `t` does. -/
def apply (s : Sync) (t : ℕ) : SyncOp → Sync
  | .newMutex blocking =>
    { s with mutexes := s.mutexes ++ [if blocking then .blocking false [] else .spin false] }
  | .lock mutex => s.lock t mutex
  | .granted _ => s.setPhase t none
  | .unlock mutex => s.unlock mutex
  | .newSemaphore resCount => { s with semaphores := s.semaphores ++ [⟨wrap resCount, []⟩] }
  | .up sem => s.up sem
  | .down sem => s.down t sem
  | .newCondvar => { s with condvars := s.condvars ++ [⟨[]⟩] }
  | .signal condvar => s.signal condvar
  | .wait condvar mutex => (s.unlock mutex).sleep t condvar mutex

@[simp] theorem phase_setPhase_self (s : Sync) (t : ℕ) (ph : Option Phase) :
    (s.setPhase t ph).phase t = ph := Function.update_self ..

/-! What an operation leaves as it is -/

@[simp] theorem semaphores_lock (s : Sync) (t mutex : ℕ) :
    (s.lock t mutex).semaphores = s.semaphores := by
  rw [lock]
  split <;> rfl

@[simp] theorem condvars_lock (s : Sync) (t mutex : ℕ) :
    (s.lock t mutex).condvars = s.condvars := by
  rw [lock]
  split <;> rfl

@[simp] theorem semaphores_unlock (s : Sync) (mutex : ℕ) :
    (s.unlock mutex).semaphores = s.semaphores := by
  rw [unlock]
  split <;> rfl

@[simp] theorem condvars_unlock (s : Sync) (mutex : ℕ) :
    (s.unlock mutex).condvars = s.condvars := by
  rw [unlock]
  split <;> rfl

@[simp] theorem phase_unlock (s : Sync) (mutex : ℕ) : (s.unlock mutex).phase = s.phase := by
  rw [unlock]
  split <;> rfl

@[simp] theorem mutexes_up (s : Sync) (sem : ℕ) : (s.up sem).mutexes = s.mutexes := by
  rw [up]
  split <;> rfl

@[simp] theorem condvars_up (s : Sync) (sem : ℕ) : (s.up sem).condvars = s.condvars := by
  rw [up]
  split <;> rfl

@[simp] theorem phase_up (s : Sync) (sem : ℕ) : (s.up sem).phase = s.phase := by
  rw [up]
  split <;> rfl

@[simp] theorem mutexes_down (s : Sync) (t sem : ℕ) : (s.down t sem).mutexes = s.mutexes := by
  rw [down]
  split <;> rfl

@[simp] theorem condvars_down (s : Sync) (t sem : ℕ) : (s.down t sem).condvars = s.condvars := by
  rw [down]
  split <;> rfl

@[simp] theorem phase_down (s : Sync) (t sem : ℕ) : (s.down t sem).phase = s.phase := by
  rw [down]
  split <;> rfl

@[simp] theorem mutexes_signal (s : Sync) (condvar : ℕ) :
    (s.signal condvar).mutexes = s.mutexes := by
  rw [signal]
  split <;> rfl

@[simp] theorem semaphores_signal (s : Sync) (condvar : ℕ) :
    (s.signal condvar).semaphores = s.semaphores := by
  rw [signal]
  split <;> rfl

@[simp] theorem phase_signal (s : Sync) (condvar : ℕ) : (s.signal condvar).phase = s.phase := by
  rw [signal]
  split <;> rfl

@[simp] theorem mutexes_sleep (s : Sync) (t condvar mutex : ℕ) :
    (s.sleep t condvar mutex).mutexes = s.mutexes := by
  rw [sleep]
  split <;> rfl

@[simp] theorem semaphores_sleep (s : Sync) (t condvar mutex : ℕ) :
    (s.sleep t condvar mutex).semaphores = s.semaphores := by
  rw [sleep]
  split <;> rfl

@[simp] theorem length_mutexes_unlock (s : Sync) (mutex : ℕ) :
    (s.unlock mutex).mutexes.length = s.mutexes.length := by
  rw [unlock]
  split <;> simp [setMutex]

end Sync

namespace Kernel

def phase (k : Kernel) (t : ℕ) : Option Phase := (k.contOf t).bind Cont.phase

def sync (k : Kernel) : Sync := ⟨k.mutexes, k.semaphores, k.condvars, k.phase⟩

/-- The object of the current process that a system call names. -/
def objectOf (k : Kernel) (list : Process → List (Option ℕ)) (id : ℕ) : Option ℕ :=
  match k.proc with
  | .ok (_, p) => ((list p)[id]?).join
  | .error _ => none

/-- What an event does to the objects, if anything. -/
def syncOp (k : Kernel) : Event → Option SyncOp
  | .syscall (.mutexCreate blocking) _ => some (.newMutex blocking)
  | .syscall (.mutexLock mutexId) _ => (k.objectOf Process.mutexList mutexId).map .lock
  | .syscall (.mutexUnlock mutexId) _ => (k.objectOf Process.mutexList mutexId).map .unlock
  | .syscall (.semaphoreCreate resCount) _ => some (.newSemaphore resCount)
  | .syscall (.semaphoreUp semId) _ => (k.objectOf Process.semaphoreList semId).map .up
  | .syscall (.semaphoreDown semId) _ => (k.objectOf Process.semaphoreList semId).map .down
  | .syscall .condvarCreate _ => some .newCondvar
  | .syscall (.condvarSignal condvarId) _ =>
    (k.objectOf Process.condvarList condvarId).map .signal
  | .syscall (.condvarWait condvarId mutexId) _ => do
    let condvar ← k.objectOf Process.condvarList condvarId
    let mutex ← k.objectOf Process.mutexList mutexId
    pure (.wait condvar mutex)
  | .proceed _ =>
    match k.phase k.current with
    | some (.locking mutex) => some (.lock mutex)
    | some (.locked mutex) => some (.granted mutex)
    | none => none
  | _ => none

/-- The kernel's objects after an event. -/
def syncAfter (k : Kernel) (e : Event) : Sync :=
  match k.syncOp e with
  | some op => k.sync.apply k.current op
  | none => k.sync

end Kernel

end RCore.Os
