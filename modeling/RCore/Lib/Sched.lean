import Mathlib.Data.List.Nodup
import Mathlib.Logic.Function.Basic
import Mathlib.Tactic

/-! Scheduling on one processor. Tasks are ready, run, wait or are done. A task that
waits stands in one of several queues, from which another task wakes it; a task may
also stop without entering a queue. -/

namespace RCore.Lib

inductive Status where
  | ready
  | running
  | blocked
  | done
deriving DecidableEq

structure Sched (α π : Type) where
  /-- `none` for a task that does not exist yet. -/
  status : α → Option Status
  ready : List α
  queue : π → List α
  /-- The tasks that wait in no queue. -/
  stopped : α → Prop

namespace Sched

variable {α π : Type}

/-- `run` is the task that has the processor, if any. The `idle` task has it only when
no other task can, and the `root` task never waits. -/
structure Consistent (idle root : α) (run : Option α) (s : Sched α π) : Prop where
  running : ∀ t, s.status t = some .running ↔ run = some t
  ready : ∀ t, t ∈ s.ready ↔ s.status t = some .ready ∧ t ≠ idle
  ready_nodup : s.ready.Nodup
  blocked : ∀ t, s.status t = some .blocked ↔ (∃ p, t ∈ s.queue p) ∨ s.stopped t
  queue_nodup : ∀ p, (s.queue p).Nodup
  queue_unique : ∀ p q t, t ∈ s.queue p → t ∈ s.queue q → p = q
  stopped : ∀ t, s.stopped t → ∀ p, t ∉ s.queue p
  idle : s.status idle = some .ready
  root : run = some root ∨ root ∈ s.ready

namespace Consistent

variable {idle root t : α} {run : Option α} {s : Sched α π} {p : π}

theorem status_of_queue (h : Consistent idle root run s) (ht : t ∈ s.queue p) :
    s.status t = some .blocked :=
  (h.blocked t).mpr (.inl ⟨p, ht⟩)

theorem not_stopped (h : Consistent idle root (some t) s) : ¬ s.stopped t := by
  intro hs
  have hb := (h.blocked t).mpr (.inr hs)
  rw [(h.running t).mpr rfl] at hb
  cases hb

theorem not_queued (h : Consistent idle root (some t) s) (p : π) : t ∉ s.queue p := by
  intro hq
  have hb := h.status_of_queue hq
  rw [(h.running t).mpr rfl] at hb
  cases hb

theorem not_ready (h : Consistent idle root (some t) s) : t ∉ s.ready := by
  intro hr
  have hb := ((h.ready t).mp hr).1
  rw [(h.running t).mpr rfl] at hb
  cases hb

theorem ne_idle (h : Consistent idle root (some t) s) : t ≠ idle := by
  rintro rfl
  have hi := h.idle
  rw [(h.running t).mpr rfl] at hi
  cases hi

/-- The processor is never left to the idle task: some other task is ready. -/
theorem exists_ready (h : Consistent idle root none s) : ∃ t rest, s.ready = t :: rest := by
  have hroot := h.root.resolve_left (by simp)
  exact List.exists_cons_of_ne_nil (List.ne_nil_of_mem hroot)

theorem root_ready (h : Consistent idle root (some t) s) (ht : t ≠ root) : root ∈ s.ready :=
  h.root.resolve_left fun he => ht (Option.some.inj he)

end Consistent

variable [DecidableEq α]

/-- The processor turns to a task that is ready; `rest` are the others. -/
def dispatch (s : Sched α π) (t : α) (rest : List α) : Sched α π :=
  { s with status := Function.update s.status t (some .running), ready := rest }

/-- A task that is new, or gives way to the others, is the last of those that are ready. -/
def enqueue (s : Sched α π) (t : α) : Sched α π :=
  { s with status := Function.update s.status t (some .ready), ready := s.ready ++ [t] }

def finish (s : Sched α π) (t : α) : Sched α π :=
  { s with status := Function.update s.status t (some .done) }

def stop (s : Sched α π) (t : α) : Sched α π :=
  { s with
    status := Function.update s.status t (some .blocked)
    stopped := fun u => u = t ∨ s.stopped u }

variable [DecidableEq π]

def block (s : Sched α π) (t : α) (p : π) : Sched α π :=
  { s with
    status := Function.update s.status t (some .blocked)
    queue := Function.update s.queue p (s.queue p ++ [t]) }

/-- A task leaves a queue, of which `rest` remains. -/
def wake (s : Sched α π) (t : α) (p : π) (rest : List α) : Sched α π :=
  { s with queue := Function.update s.queue p rest }.enqueue t

namespace Consistent

variable {idle root t : α} {run : Option α} {s : Sched α π} {p : π} {rest : List α}

omit [DecidableEq π]

theorem dispatch (h : Consistent idle root none s) (hr : s.ready = t :: rest) :
    Consistent idle root (some t) (s.dispatch t rest) := by
  have ht : s.status t = some .ready ∧ t ≠ idle := (h.ready t).mp (by simp [hr])
  have hnodup : (t :: rest).Nodup := hr ▸ h.ready_nodup
  refine ⟨fun u => ?_, fun u => ?_, hnodup.of_cons, fun u => ?_, h.queue_nodup, h.queue_unique,
    h.stopped, ?_, ?_⟩
  all_goals simp only [Sched.dispatch, Function.update_apply]
  · have := h.running u
    grind
  · have := h.ready u
    grind
  · have := h.blocked u
    grind
  · have := h.idle
    grind
  · have := h.root
    grind

/-- The running task gives way to the others. -/
theorem yield (h : Consistent idle root (some t) s) :
    Consistent idle root none (s.enqueue t) := by
  have hrun := (h.running t).mpr rfl
  have hidle := h.ne_idle
  have hready := h.not_ready
  refine ⟨fun u => ?_, fun u => ?_, ?_, fun u => ?_, h.queue_nodup, h.queue_unique, h.stopped,
    ?_, ?_⟩
  all_goals simp only [Sched.enqueue, Function.update_apply]
  · have := h.running u
    grind
  · have := h.ready u
    grind
  · exact h.ready_nodup.append (List.nodup_singleton t) (by simpa using hready)
  · have := h.blocked u
    grind
  · have := h.idle
    grind
  · have := h.root
    grind

/-- The running task ends. -/
theorem finish (h : Consistent idle root (some t) s) (hroot : t ≠ root) :
    Consistent idle root none (s.finish t) := by
  have hrun := (h.running t).mpr rfl
  have hidle := h.ne_idle
  refine ⟨fun u => ?_, fun u => ?_, h.ready_nodup, fun u => ?_, h.queue_nodup, h.queue_unique,
    h.stopped, ?_, .inr (h.root_ready hroot)⟩
  all_goals simp only [Sched.finish, Function.update_apply]
  · have := h.running u
    grind
  · have := h.ready u
    grind
  · have := h.blocked u
    grind
  · have := h.idle
    grind

/-- The running task stops, and nothing records that it waits. -/
theorem stop (h : Consistent idle root (some t) s) (hroot : t ≠ root) :
    Consistent idle root none (s.stop t) := by
  have hrun := (h.running t).mpr rfl
  have hidle := h.ne_idle
  have hqueued := h.not_queued
  refine ⟨fun u => ?_, fun u => ?_, h.ready_nodup, fun u => ?_, h.queue_nodup, h.queue_unique,
    ?_, ?_, .inr (h.root_ready hroot)⟩
  all_goals simp only [Sched.stop, Function.update_apply]
  · have := h.running u
    grind
  · have := h.ready u
    grind
  · have := h.blocked u
    grind
  · rintro u (rfl | hu)
    · exact hqueued
    · exact h.stopped u hu
  · have := h.idle
    grind

/-- A new task is ready. -/
theorem spawn (h : Consistent idle root run s) (hnew : s.status t = none) :
    Consistent idle root run (s.enqueue t) := by
  have hready : t ∉ s.ready := fun ht => by simp [hnew, h.ready] at ht
  have hidle : t ≠ idle := fun ht => by simp [ht, h.idle] at hnew
  refine ⟨fun u => ?_, fun u => ?_, ?_, fun u => ?_, h.queue_nodup, h.queue_unique, h.stopped,
    ?_, ?_⟩
  all_goals simp only [Sched.enqueue, Function.update_apply]
  · have := h.running u
    grind
  · have := h.ready u
    grind
  · exact h.ready_nodup.append (List.nodup_singleton t) (by simpa using hready)
  · have := h.blocked u
    grind
  · have := h.idle
    grind
  · have := h.root
    grind

variable [DecidableEq π]

/-- The running task enters a queue. -/
theorem block (h : Consistent idle root (some t) s) (hroot : t ≠ root) (p : π) :
    Consistent idle root none (s.block t p) := by
  have hrun := (h.running t).mpr rfl
  have hidle := h.ne_idle
  have hqueued := h.not_queued
  have hstopped := h.not_stopped
  have hmem : ∀ q u, u ∈ Function.update s.queue p (s.queue p ++ [t]) q ↔
      u ∈ s.queue q ∨ q = p ∧ u = t := by
    intro q u
    rw [Function.update_apply]
    grind
  refine ⟨fun u => ?_, fun u => ?_, h.ready_nodup, fun u => ?_, fun q => ?_, ?_, ?_, ?_,
    .inr (h.root_ready hroot)⟩
  all_goals simp only [Sched.block, Function.update_apply s.status, hmem]
  · have := h.running u
    grind
  · have := h.ready u
    grind
  · have := h.blocked u
    grind
  · rw [Function.update_apply]
    split_ifs with hq
    · exact (h.queue_nodup p).append (List.nodup_singleton t) (by simpa using hqueued p)
    · exact h.queue_nodup q
  · have := h.queue_unique
    grind
  · have := h.stopped
    grind
  · have := h.idle
    grind

/-- A task is taken out of its queue. -/
theorem wake {l₁ l₂ : List α} (h : Consistent idle root run s) (hq : s.queue p = l₁ ++ t :: l₂) :
    Consistent idle root run (s.wake t p (l₁ ++ l₂)) := by
  have ht : t ∈ s.queue p := by simp [hq]
  have hblocked := h.status_of_queue ht
  have hready : t ∉ s.ready := fun hr => by simp [hblocked, h.ready] at hr
  have hidle : t ≠ idle := fun hi => by simp [hi, h.idle] at hblocked
  have hnodup : (l₁ ++ t :: l₂).Nodup := hq ▸ h.queue_nodup p
  have hrest : t ∉ l₁ ++ l₂ ∧ (l₁ ++ l₂).Nodup := by
    rw [← List.nodup_cons]
    exact (List.perm_middle.nodup_iff).mp hnodup
  have hmem : ∀ q u, u ∈ Function.update s.queue p (l₁ ++ l₂) q ↔ u ∈ s.queue q ∧ u ≠ t := by
    intro q u
    rw [Function.update_apply]
    split_ifs with hqp
    · subst hqp
      rw [hq]
      grind
    · have := h.queue_unique p q t ht
      grind
  refine ⟨fun u => ?_, fun u => ?_, ?_, fun u => ?_, fun q => ?_, ?_, ?_, ?_, ?_⟩
  all_goals simp only [Sched.wake, Sched.enqueue, Function.update_apply s.status, hmem]
  · have := h.running u
    grind
  · have := h.ready u
    grind
  · exact h.ready_nodup.append (List.nodup_singleton t) (by simpa using hready)
  · have := h.blocked u
    have := h.stopped t
    grind
  · rw [Function.update_apply]
    split_ifs with hqp
    · exact hrest.2
    · exact h.queue_nodup q
  · have := h.queue_unique
    grind
  · have := h.stopped
    grind
  · have := h.idle
    grind
  · have := h.root
    grind

end Consistent

end Sched

end RCore.Lib
