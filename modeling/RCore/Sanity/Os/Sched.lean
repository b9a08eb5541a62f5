import RCore.Lib.Ensures
import RCore.Lib.Heap
import RCore.Lib.Sched
import RCore.Spec.Os.Syscall

/-! The kernel as a scheduler: what its parts amount to, and which functions change
nothing of it. -/

namespace RCore.Os

open RCore.Lib

def TaskState.status : TaskState → Status
  | .ready => .ready
  | .running => .running
  | .zombie => .done
  | .blocking => .blocked

theorem TaskState.status_inj {a b : TaskState} (h : a.status = b.status) : a = b := by
  cases a <;> cases b <;> first | rfl | cases h

namespace Kernel

/-- A task that has been frozen by a signal, and not killed. -/
def Frozen (k : Kernel) (t : ℕ) : Prop :=
  ∃ task, k.tasks[t]? = some task ∧ task.signal.frozen = true ∧ task.signal.killed = false

def sched (k : Kernel) : Sched ℕ Place where
  status := fun t => (k.stateOf t).map TaskState.status
  ready := k.readyQueue
  queue := k.queue
  stopped := k.Frozen

/-- The children of the processes that there are. -/
def tree (k : Kernel) (pid : ℕ) : Option (List ℕ) :=
  match k.procs[pid]? with
  | some (some p) => some p.children
  | _ => none

variable {k k' : Kernel} {t u pid : ℕ} {s : TaskState} {f : Task → Task} {g : Process → Process}

theorem status_eq_iff : k.sched.status t = some s.status ↔ k.stateOf t = some s := by
  simp only [sched, Option.map_eq_some_iff]
  constructor
  · rintro ⟨s', hs', he⟩
    rw [hs', TaskState.status_inj he]
  · intro h
    exact ⟨s, h, rfl⟩

theorem status_eq_none_iff : k.sched.status t = none ↔ k.tasks.length ≤ t := by
  simp [sched, stateOf]

@[simp] theorem setState_current (k : Kernel) (t : ℕ) (s : TaskState) :
    (k.setState t s).current = k.current := rfl

@[simp] theorem setCont_current (k : Kernel) (c : Cont) : (k.setCont c).current = k.current := rfl

@[simp] theorem setExitCode_current (k : Kernel) (t : ℕ) (code : Int32) :
    (k.setExitCode t code).current = k.current := rfl

@[simp] theorem addReadyTask_current (k : Kernel) (t : ℕ) :
    (k.addReadyTask t).current = k.current := rfl

theorem getElem?_modifyTask (k : Kernel) (t u : ℕ) (f : Task → Task) :
    (k.modifyTask t f).tasks[u]? = if u = t then k.tasks[u]?.map f else k.tasks[u]? := by
  rw [modifyTask, List.getElem?_modify]
  by_cases h : u = t
  · simp [h]
  · simp [h, Ne.symm h]

/-- The registers that a trap saves. -/
abbrev setTf (k : Kernel) (tf : TrapFrame) : Kernel :=
  k.modifyTask k.current fun task => { task with tf }

theorem proc_setTf (k : Kernel) (tf : TrapFrame) : (k.setTf tf).proc = k.proc := by
  have hget : (k.setTf tf).tasks[k.current]? =
      k.tasks[k.current]?.map fun task => { task with tf } := by
    rw [getElem?_modifyTask, if_pos rfl]
  change ((k.setTf tf).task k.current >>= fun task => _) = _
  rw [proc, Kernel.task, Kernel.task, hget]
  cases k.tasks[k.current]? <;> rfl

theorem stateOf_modifyTask (hf : ∀ task, k.tasks[t]? = some task → (f task).state = task.state) :
    (k.modifyTask t f).stateOf = k.stateOf := by
  funext u
  rw [stateOf, stateOf, getElem?_modifyTask]
  split_ifs with h
  · subst h
    cases htask : k.tasks[u]? with
    | none => rfl
    | some task => simp [hf task htask]
  · rfl

theorem stateOf_setState (h : k.stateOf t ≠ none) (s : TaskState) :
    (k.setState t s).stateOf = Function.update k.stateOf t (some s) := by
  funext u
  rw [stateOf, setState, getElem?_modifyTask, Function.update_apply]
  split_ifs with hu
  · subst hu
    obtain ⟨task, htask⟩ : ∃ task, k.tasks[u]? = some task := by
      rw [← Option.ne_none_iff_exists']
      simpa [stateOf] using h
    simp [htask]
  · rfl

theorem frozen_modifyTask (hf : ∀ task, k.tasks[t]? = some task →
      ((f task).signal.frozen = true ∧ (f task).signal.killed = false ↔
        task.signal.frozen = true ∧ task.signal.killed = false)) :
    (k.modifyTask t f).Frozen = k.Frozen := by
  funext u
  rw [eq_iff_iff, Frozen, Frozen]
  simp only [getElem?_modifyTask]
  by_cases h : u = t
  · subst h
    cases htask : k.tasks[u]? with
    | none => simp
    | some task => simpa using hf task htask
  · simp [h]

theorem sched_modifyTask (hs : ∀ task, k.tasks[t]? = some task → (f task).state = task.state)
    (hf : ∀ task, k.tasks[t]? = some task →
      ((f task).signal.frozen = true ∧ (f task).signal.killed = false ↔
        task.signal.frozen = true ∧ task.signal.killed = false)) :
    (k.modifyTask t f).sched = k.sched := by
  rw [sched, sched, stateOf_modifyTask hs, frozen_modifyTask hf]
  rfl

theorem sched_setCont (k : Kernel) (c : Cont) : (k.setCont c).sched = k.sched :=
  sched_modifyTask (fun _ _ => rfl) fun _ _ => Iff.rfl

theorem sched_setState (h : k.stateOf t ≠ none) (s : TaskState) : (k.setState t s).sched =
    { k.sched with status := Function.update k.sched.status t (some s.status) } := by
  have hfrozen : (k.setState t s).Frozen = k.Frozen := frozen_modifyTask fun _ _ => Iff.rfl
  simp only [sched, stateOf_setState h, hfrozen, Sched.mk.injEq]
  refine ⟨?_, rfl, rfl, trivial⟩
  funext u
  simp only [Function.update_apply]
  split_ifs <;> rfl

/-- A task joins those that are ready. -/
theorem sched_enqueue (h : k.stateOf t ≠ none) :
    ((k.setState t .ready).addReadyTask t).sched = k.sched.enqueue t := by
  have hadd : ((k.setState t .ready).addReadyTask t).sched =
      { (k.setState t .ready).sched with ready := k.readyQueue ++ [t] } := rfl
  rw [hadd, sched_setState h]
  rfl

theorem tree_modifyProc (hg : ∀ p, (g p).children = p.children) :
    (k.modifyProc pid g).tree = k.tree := by
  funext q
  rw [tree, tree, modifyProc, List.getElem?_modify]
  by_cases h : pid = q
  · cases k.procs[q]? with
    | none => rfl
    | some p =>
      cases p with
      | none => simp [h]
      | some p => simp [h, hg]
  · simp [h]

end Kernel

end RCore.Os
