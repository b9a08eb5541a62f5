import RCore.Lib.Handoff
import RCore.Sanity.Os.Sync

/-! Who has a mutex: the task that has returned from `lock` or `wait` with it, or the one
that it has been handed to. -/

namespace RCore.Os

open RCore.Lib

def UserMutex.locked : UserMutex → Bool
  | .spin locked => locked
  | .blocking locked _ => locked

namespace Sync

variable {s s' : Sync} {held held' : Finset (ℕ × ℕ)} {t m : ℕ} {x x' : UserMutex} {ph : Option Phase}

/-- The tasks that have a mutex when they are woken, or have been woken with it. -/
def granted (s : Sync) (m : ℕ) : Set ℕ := {t | s.phase t = some (.locked m)}

/-- The tasks that hold a mutex. -/
def holders (held : Finset (ℕ × ℕ)) (m : ℕ) : Set ℕ := {t | (t, m) ∈ held}

/-- A mutex is handed from one task to the other. `held` are the tasks with the mutexes
that they have returned with. -/
structure Ok (s : Sync) (held : Finset (ℕ × ℕ)) : Prop where
  mutex : ∀ m x, s.mutexes[m]? = some x →
    Handoff x.locked x.waitQueue (s.granted m) (holders held m)
  held : ∀ t m, (t, m) ∈ held → m < s.mutexes.length
  phase : ∀ t m, s.phase t = some (.locking m) ∨ s.phase t = some (.locked m) →
    m < s.mutexes.length

/-- What a task may do: it unlocks a mutex, or waits with it, only if it holds it. -/
def Allowed (s : Sync) (held : Finset (ℕ × ℕ)) (t : ℕ) : SyncOp → Prop
  | .lock m => m < s.mutexes.length ∧ (s.phase t = none ∨ s.phase t = some (.locking m))
  | .granted m => s.phase t = some (.locked m)
  | .unlock m => s.phase t = none ∧ (t, m) ∈ held
  | .wait _ m => s.phase t = none ∧ (t, m) ∈ held
  | _ => s.phase t = none

/-- Who holds what after an operation of task `t` that leads to `s'`. -/
def holding (s' : Sync) (held : Finset (ℕ × ℕ)) (t : ℕ) : SyncOp → Finset (ℕ × ℕ)
  | .lock m => if s'.phase t = none then insert (t, m) held else held
  | .granted m => if s'.phase t = none then insert (t, m) held else held
  | .unlock m => held.erase (t, m)
  | .wait _ m => held.erase (t, m)
  | _ => held

theorem granted_update (hphase : s'.phase = Function.update s.phase t ph) (m : ℕ) :
    s'.granted m = if ph = some (.locked m) then insert t (s.granted m) else s.granted m \ {t} := by
  ext u
  simp only [granted, hphase, Function.update_apply, Set.mem_ofPred_eq]
  split_ifs with hu hp hp <;> simp [hu, hp]

theorem holders_insert (held : Finset (ℕ × ℕ)) (t m : ℕ) :
    holders (insert (t, m) held) m = insert t (holders held m) := by
  ext u
  simp [holders]

theorem holders_erase (held : Finset (ℕ × ℕ)) (t m : ℕ) :
    holders (held.erase (t, m)) m = holders held m \ {t} := by
  ext u
  simp [holders, and_comm]

/-- A task that is busy with one mutex leaves the others to those who have them. -/
theorem Ok.update (h : s.Ok held) (hm : m < s.mutexes.length)
    (hmutexes : s'.mutexes = s.mutexes.set m x')
    (hphase : s'.phase = Function.update s.phase t ph)
    (hph : ph = none ∨ ph = some (.locking m) ∨ ph = some (.locked m))
    (ht : ∀ m', s.phase t = some (.locked m') → m' = m)
    (hheld : ∀ u m', m' ≠ m → ((u, m') ∈ held' ↔ (u, m') ∈ held))
    (hx : Handoff x'.locked x'.waitQueue (s'.granted m) (holders held' m)) : s'.Ok held' := by
  have hlen : s'.mutexes.length = s.mutexes.length := by rw [hmutexes, List.length_set]
  refine ⟨fun m' y hy => ?_, fun u m' hu => ?_, fun u m' hu => ?_⟩
  · by_cases hm' : m' = m
    · subst hm'
      rw [hmutexes, List.getElem?_set_self hm, Option.some.injEq] at hy
      rwa [← hy]
    · rw [hmutexes, List.getElem?_set_ne (Ne.symm hm')] at hy
      have hg : s'.granted m' = s.granted m' := by
        rw [granted_update hphase, if_neg (by grind), Set.sdiff_singleton_eq_self]
        exact fun hmem => hm' (ht m' hmem)
      have hh : holders held' m' = holders held m' := by
        ext u
        exact hheld u m' hm'
      rw [hg, hh]
      exact h.mutex m' y hy
  · rw [hlen]
    by_cases hm' : m' = m
    · rwa [hm']
    · exact h.held u m' ((hheld u m' hm').mp hu)
  · rw [hlen]
    rw [hphase, Function.update_apply] at hu
    split_ifs at hu
    · grind
    · exact h.phase u m' hu

theorem set_self (hx : s.mutexes[m]? = some x) : s.mutexes.set m x = s.mutexes := by
  obtain ⟨hlt, rfl⟩ := List.getElem?_eq_some_iff.mp hx
  exact List.set_getElem_self hlt

section operations

variable (h : s.Ok held)
include h

/-- The mutex is free, and is taken. -/
theorem Ok.take (hx : s.mutexes[m]? = some x) (hfree : x.locked = false) (hlocked : x'.locked = true)
    (hq : x'.waitQueue = x.waitQueue) (ht : s.phase t = none ∨ s.phase t = some (.locking m)) :
    ((s.setMutex m x').setPhase t none).Ok (insert (t, m) held) := by
  have hg : ((s.setMutex m x').setPhase t none).granted m = s.granted m := by
    rw [granted_update (s := s) rfl, if_neg nofun, Set.sdiff_singleton_eq_self]
    simp only [granted, Set.mem_ofPred_eq]
    grind
  refine h.update (List.getElem?_eq_some_iff.mp hx).1 rfl rfl (.inl rfl) (by grind) (by grind) ?_
  rw [hg, holders_insert, hlocked, hq]
  exact (hfree ▸ h.mutex m x hx).take t

/-- The task goes on trying. -/
theorem Ok.retry (hx : s.mutexes[m]? = some x)
    (ht : s.phase t = none ∨ s.phase t = some (.locking m)) :
    (s.setPhase t (some (.locking m))).Ok held := by
  have hg : (s.setPhase t (some (.locking m))).granted m = s.granted m := by
    rw [granted_update (s := s) rfl, if_neg (by simp), Set.sdiff_singleton_eq_self]
    simp only [granted, Set.mem_ofPred_eq]
    grind
  refine h.update (List.getElem?_eq_some_iff.mp hx).1 (set_self hx).symm rfl (.inr (.inl rfl))
    (by grind) (fun _ _ _ => Iff.rfl) ?_
  rw [hg]
  exact h.mutex m x hx

theorem Ok.lock (hm : m < s.mutexes.length)
    (ht : s.phase t = none ∨ s.phase t = some (.locking m)) :
    (s.lock t m).Ok (holding (s.lock t m) held t (.lock m)) := by
  have hx : s.mutexes[m]? = some s.mutexes[m] := List.getElem?_eq_getElem hm
  cases hc : s.mutexes[m] with
  | spin locked =>
    rw [hc] at hx
    cases locked with
    | false =>
      have hs : s.lock t m = (s.setMutex m (.spin true)).setPhase t none := by rw [Sync.lock, hx]
      rw [hs, holding, if_pos (phase_setPhase_self ..)]
      exact h.take hx rfl rfl rfl ht
    | true =>
      have hs : s.lock t m = s.setPhase t (some (.locking m)) := by rw [Sync.lock, hx]
      rw [hs, holding, if_neg (by simp)]
      exact h.retry hx ht
  | blocking locked waitQueue =>
    rw [hc] at hx
    cases locked with
    | false =>
      have hs : s.lock t m = (s.setMutex m (.blocking true waitQueue)).setPhase t none := by
        rw [Sync.lock, hx]
      rw [hs, holding, if_pos (phase_setPhase_self ..)]
      exact h.take hx rfl rfl rfl ht
    | true =>
      have hs : s.lock t m = (s.setMutex m (.blocking true (waitQueue ++ [t]))).setPhase t
          (some (.locked m)) := by
        rw [Sync.lock, hx]
      rw [hs, holding, if_neg (by simp)]
      refine h.update hm rfl rfl (.inr (.inr rfl)) (by grind) (fun _ _ _ => Iff.rfl) ?_
      rw [granted_update (s := s) rfl, if_pos rfl]
      refine (h.mutex m _ hx).enqueue ?_
      simp only [granted, Set.mem_ofPred_eq]
      grind

/-- A task returns that has been handed the mutex. -/
theorem Ok.receive (ht : s.phase t = some (.locked m))
    (hrun : ∀ x, s.mutexes[m]? = some x → t ∉ x.waitQueue) :
    (s.setPhase t none).Ok (insert (t, m) held) := by
  have hm : m < s.mutexes.length := h.phase t m (.inr ht)
  have hx : s.mutexes[m]? = some s.mutexes[m] := List.getElem?_eq_getElem hm
  refine h.update hm (set_self hx).symm rfl (.inl rfl) (by grind) (by grind) ?_
  rw [granted_update (s := s) rfl, if_neg nofun, holders_insert]
  exact (h.mutex m _ hx).receive ht (hrun _ hx)

theorem Ok.unlock (ht : s.phase t = none) (hheld : (t, m) ∈ held)
    (hnodup : ∀ x, s.mutexes[m]? = some x → x.waitQueue.Nodup) :
    (s.unlock m).Ok (held.erase (t, m)) := by
  have hm : m < s.mutexes.length := h.held t m hheld
  have hx : s.mutexes[m]? = some s.mutexes[m] := List.getElem?_eq_getElem hm
  have hg : t ∉ s.granted m := by simp [granted, ht]
  have hset : ∀ x', s.unlock m = s.setMutex m x' →
      Handoff x'.locked x'.waitQueue (s.granted m) (holders held m \ {t}) →
        (s.unlock m).Ok (held.erase (t, m)) := by
    intro x' hs hx'
    rw [hs]
    refine h.update hm rfl (Function.update_eq_self t s.phase).symm (.inl ht) (by grind) (by grind) ?_
    rw [holders_erase]
    exact hx'
  have hhand := h.mutex m _ hx
  cases hc : s.mutexes[m] with
  | spin locked =>
    rw [hc] at hx hhand
    exact hset (.spin false) (by rw [Sync.unlock, hx]) (hhand.release hheld hg)
  | blocking locked waitQueue =>
    rw [hc] at hx hhand
    cases waitQueue with
    | nil => exact hset (.blocking false []) (by rw [Sync.unlock, hx]) (hhand.release hheld hg)
    | cons w waitQueue =>
      exact hset (.blocking true waitQueue) (by rw [Sync.unlock, hx])
        (hhand.pass (hnodup _ hx) hheld hg)

/-- The task joins the queue of a condition variable. -/
theorem Ok.sleep (hm : m < s.mutexes.length) (ht : s.phase t = none) (condvar : ℕ) :
    (s.sleep t condvar m).Ok held := by
  rw [Sync.sleep]
  split
  · have hx : s.mutexes[m]? = some s.mutexes[m] := List.getElem?_eq_getElem hm
    have hr := h.retry hx (.inl ht)
    exact ⟨hr.mutex, hr.held, hr.phase⟩
  · exact h

theorem Ok.newMutex (hx : x.locked = false) (hq : x.waitQueue = []) :
    ({ s with mutexes := s.mutexes ++ [x] } : Sync).Ok held := by
  refine ⟨fun m y hy => ?_, fun u m hu => ?_, fun u m hu => ?_⟩
  · rcases getElem?_snoc_cases hy with hy | ⟨rfl, rfl⟩
    · exact h.mutex m y hy
    · -- nobody has a mutex that has not been there
      have hg : s.granted s.mutexes.length = ∅ := by
        ext u
        simp only [granted, Set.mem_ofPred_eq, Set.mem_empty_iff_false, iff_false]
        exact fun hu => (h.phase u _ (.inr hu)).false
      have hh : holders held s.mutexes.length = ∅ := by
        ext u
        simp only [holders, Set.mem_ofPred_eq, Set.mem_empty_iff_false, iff_false]
        exact fun hu => (h.held u _ hu).false
      rw [hx, hq, show ({ s with mutexes := s.mutexes ++ [y] } : Sync).granted = s.granted from rfl,
        hg, hh]
      exact .new
  · rw [List.length_append]
    exact Nat.lt_add_right _ (h.held u m hu)
  · rw [List.length_append]
    exact Nat.lt_add_right _ (h.phase u m hu)

/-- Every operation keeps to the hand-over of mutexes. -/
theorem Ok.apply {op : SyncOp} (hop : s.Allowed held t op)
    (hrun : ∀ (m : ℕ) (x : UserMutex), s.mutexes[m]? = some x → t ∉ x.waitQueue)
    (hnodup : ∀ (m : ℕ) (x : UserMutex), s.mutexes[m]? = some x → x.waitQueue.Nodup) :
    (s.apply t op).Ok (holding (s.apply t op) held t op) := by
  have hsame : ∀ s' : Sync, s'.mutexes = s.mutexes → s'.phase = s.phase → s'.Ok held := by
    intro s' hm hp
    refine ⟨?_, by rw [hm]; exact h.held, by rw [hm, hp]; exact h.phase⟩
    rw [hm, show s'.granted = s.granted by funext m; rw [granted, granted, hp]]
    exact h.mutex
  cases op with
  | newMutex blocking => cases blocking <;> exact h.newMutex rfl rfl
  | lock m => exact h.lock hop.1 hop.2
  | granted m =>
    rw [Sync.apply, holding, if_pos (phase_setPhase_self ..)]
    exact h.receive hop (hrun m)
  | unlock m => exact h.unlock hop.1 hop.2 (hnodup m)
  | newSemaphore resCount => exact hsame _ rfl rfl
  | up sem => exact hsame _ (mutexes_up s sem) (phase_up s sem)
  | down sem => exact hsame _ (mutexes_down s t sem) (phase_down s t sem)
  | newCondvar => exact hsame _ rfl rfl
  | signal condvar => exact hsame _ (mutexes_signal s condvar) (phase_signal s condvar)
  | wait condvar m =>
    have hm : m < (s.unlock m).mutexes.length := by
      rw [length_mutexes_unlock]
      exact h.held t m hop.2
    exact (h.unlock hop.1 hop.2 (hnodup m)).sleep hm (by rw [phase_unlock, hop.1]) condvar

end operations

/-! What an operation does to the tasks that wait -/

/-- The wait queue of a mutex. -/
def queue (s : Sync) (m : ℕ) : List ℕ := (s.mutexes[m]?.map UserMutex.waitQueue).getD []

/-- The wait queue of a condition variable. -/
def asleep (s : Sync) (c : ℕ) : List ℕ := (s.condvars[c]?.map Condvar.waitQueue).getD []

/-- A task has been handed a mutex, and has not returned with it yet. -/
def Handed (s : Sync) (t m : ℕ) : Prop := s.phase t = some (.locked m) ∧ t ∉ s.queue m

variable {op : SyncOp} {u c : ℕ}

/-- A queue that a task has joined at its end, or that has been left from its front, if it
has changed at all. -/
def Fifo (t : ℕ) (q q' : List ℕ) : Prop := q' = q ∨ q' = q ++ [t] ∨ q' = q.tail

theorem Fifo.mem {q q' : List ℕ} (h : Fifo t q q') (hu : u ≠ t) (hmem : u ∈ q') : u ∈ q := by
  rcases h with rfl | rfl | rfl
  · exact hmem
  · simpa [hu] using hmem
  · exact List.mem_of_mem_tail hmem

theorem queue_setMutex (x' : UserMutex) (hx : s.mutexes[m]? = some x)
    (h : s'.mutexes = s.mutexes.set m x')
    (hq : Fifo t x.waitQueue x'.waitQueue) (i : ℕ) : Fifo t (s.queue i) (s'.queue i) := by
  rw [queue, queue, h, getD_map_set hx]
  split_ifs with hi
  · rw [hi, hx]
    exact hq
  · exact .inl rfl

theorem queue_unlock (s : Sync) (t i m : ℕ) : Fifo t (s.queue m) ((s.unlock i).queue m) := by
  rw [Sync.unlock]
  split
  next hx => exact queue_setMutex (.spin false) hx rfl (.inl rfl) m
  next waitQueue hx => exact queue_setMutex (.blocking true waitQueue) hx rfl (.inr (.inr rfl)) m
  next hx => exact queue_setMutex (.blocking false []) hx rfl (.inl rfl) m
  next => exact .inl rfl

/-- The first task that waits for a mutex is handed it. -/
theorem mutexes_unlock {locked : Bool} {w : ℕ} {waitQueue : List ℕ}
    (hx : s.mutexes[m]? = some (.blocking locked (w :: waitQueue))) :
    (s.unlock m).mutexes[m]? = some (.blocking true waitQueue) := by
  rw [Sync.unlock, hx]
  exact List.getElem?_set_self (List.getElem?_eq_some_iff.mp hx).1

theorem queue_lock (s : Sync) (t i m : ℕ) : Fifo t (s.queue m) ((s.lock t i).queue m) := by
  rw [Sync.lock]
  split
  next => exact .inl rfl
  next hx => exact queue_setMutex (.spin true) hx rfl (.inl rfl) m
  next waitQueue hx =>
    exact queue_setMutex (.blocking true (waitQueue ++ [t])) hx rfl (.inr (.inl rfl)) m
  next waitQueue hx => exact queue_setMutex (.blocking true waitQueue) hx rfl (.inl rfl) m
  next => exact .inl rfl

theorem queue_apply (s : Sync) (t : ℕ) (op : SyncOp) (m : ℕ) :
    Fifo t (s.queue m) ((s.apply t op).queue m) := by
  have hsame : ∀ s' : Sync, s'.mutexes = s.mutexes → Fifo t (s.queue m) (s'.queue m) := by
    intro s' hs'
    rw [queue, queue, hs']
    exact .inl rfl
  cases op with
  | newMutex blocking =>
    refine .inl (getD_map_snoc ?_)
    cases blocking <;> rfl
  | lock i => exact queue_lock s t i m
  | granted i => exact hsame _ rfl
  | unlock i => exact queue_unlock s t i m
  | newSemaphore resCount => exact hsame _ rfl
  | up sem => exact hsame _ (mutexes_up s sem)
  | down sem => exact hsame _ (mutexes_down s t sem)
  | newCondvar => exact hsame _ rfl
  | signal condvar => exact hsame _ (mutexes_signal s condvar)
  | wait condvar i =>
    rw [show (s.apply t (.wait condvar i)).queue m = (s.unlock i).queue m by
      rw [Sync.apply, queue, mutexes_sleep, queue]]
    exact queue_unlock s t i m

theorem asleep_signal (s : Sync) (t c : ℕ) :
    (s.apply t (.signal c)).asleep c = (s.asleep c).tail := by
  rw [Sync.apply, Sync.signal]
  split
  next waitQueue hx =>
    rw [asleep, asleep, getD_map_set hx, if_pos rfl, hx]
    rfl
  next hx =>
    rw [asleep, hx]
    rfl

/-- Tasks join the queue of a condition variable at its end, and leave it only by a
signal. -/
theorem asleep_apply (s : Sync) (t : ℕ) (op : SyncOp) (c : ℕ) :
    (s.apply t op).asleep c = s.asleep c ∨ (s.apply t op).asleep c = s.asleep c ++ [t] ∨
      op = .signal c ∧ (s.apply t op).asleep c = (s.asleep c).tail := by
  have hsame : ∀ s' : Sync, s'.condvars = s.condvars → s'.asleep c = s.asleep c := by
    intro s' hs'
    rw [asleep, asleep, hs']
  cases op with
  | newMutex blocking => exact .inl rfl
  | lock i => exact .inl (hsame _ (condvars_lock s t i))
  | granted i => exact .inl rfl
  | unlock i => exact .inl (hsame _ (condvars_unlock s i))
  | newSemaphore resCount => exact .inl rfl
  | up sem => exact .inl (hsame _ (condvars_up s sem))
  | down sem => exact .inl (hsame _ (condvars_down s t sem))
  | newCondvar => exact .inl (getD_map_snoc rfl)
  | signal condvar =>
    by_cases hc : condvar = c
    · subst hc
      exact .inr (.inr ⟨rfl, asleep_signal s t condvar⟩)
    · rw [Sync.apply, Sync.signal]
      split
      next hx => exact .inl ((getD_map_set hx).trans (if_neg (Ne.symm hc)))
      next => exact .inl rfl
  | wait condvar i =>
    rw [Sync.apply, Sync.sleep]
    split
    next waitQueue hx =>
      rw [condvars_unlock] at hx
      rw [asleep, show (Sync.setPhase _ t (some (.locking i))).condvars =
        (s.unlock i).condvars.set condvar ⟨waitQueue ++ [t]⟩ from rfl, condvars_unlock,
        getD_map_set hx]
      split_ifs with hc
      · subst hc
        refine .inr (.inl ?_)
        rw [asleep, hx]
        rfl
      · exact .inl rfl
    next => exact .inl (hsame _ (condvars_unlock s i))

theorem asleep_wait (hc : c < s.condvars.length) (t m : ℕ) :
    (s.apply t (.wait c m)).asleep c = s.asleep c ++ [t] ∧
      (s.apply t (.wait c m)).phase t = some (.locking m) := by
  have hx : (s.unlock m).condvars[c]? = some s.condvars[c] := by
    rw [condvars_unlock, List.getElem?_eq_getElem hc]
  rw [Sync.apply, Sync.sleep, hx]
  refine ⟨?_, phase_setPhase_self ..⟩
  rw [asleep, asleep, show (Sync.setPhase _ t (some (.locking m))).condvars =
    (s.unlock m).condvars.set c ⟨s.condvars[c].waitQueue ++ [t]⟩ from rfl, getD_map_set hx,
    if_pos rfl, List.getElem?_eq_getElem hc]
  rfl

/-- A task goes on only by itself. -/
theorem phase_apply (s : Sync) (op : SyncOp) (hu : u ≠ t) :
    (s.apply t op).phase u = s.phase u := by
  have hset : ∀ (s' : Sync) ph, s'.phase = s.phase → (s'.setPhase t ph).phase u = s.phase u := by
    intro s' ph hs'
    rw [setPhase, ← hs']
    exact Function.update_of_ne hu ..
  cases op with
  | newMutex blocking => rfl
  | lock i =>
    rw [Sync.apply, Sync.lock]
    split
    next => exact hset s _ rfl
    next => exact hset _ _ rfl
    next => exact hset _ _ rfl
    next => exact hset _ _ rfl
    next => rfl
  | granted i => exact hset s _ rfl
  | unlock i => rw [Sync.apply, phase_unlock]
  | newSemaphore resCount => rfl
  | up sem => rw [Sync.apply, phase_up]
  | down sem => rw [Sync.apply, phase_down]
  | newCondvar => rfl
  | signal condvar => rw [Sync.apply, phase_signal]
  | wait condvar i =>
    rw [Sync.apply, Sync.sleep]
    split
    next => exact hset _ _ (phase_unlock s i)
    next => rw [phase_unlock]

theorem phase_lock (hm : m < s.mutexes.length) (t : ℕ) : (s.lock t m).phase t = some (.locking m) ∨
    (s.lock t m).phase t = some (.locked m) ∨ (s.lock t m).phase t = none := by
  rw [Sync.lock]
  split
  next => exact .inl (phase_setPhase_self ..)
  next => exact .inr (.inr (phase_setPhase_self ..))
  next => exact .inr (.inl (phase_setPhase_self ..))
  next => exact .inr (.inr (phase_setPhase_self ..))
  next hx => exact absurd hm (List.getElem?_eq_none_iff.mp hx).not_gt

/-- A task that has been handed a mutex can only return with it. -/
theorem Allowed.eq_granted (hop : s.Allowed held t op) (ht : s.phase t = some (.locked m)) :
    op = .granted m := by
  cases op <;> simp_all [Allowed]

/-- A task that is in `lock` or in `wait` stays there until it has the mutex. -/
theorem returns_apply (hop : s.Allowed held t op)
    (ht : s.phase t = some (.locking m) ∨ s.phase t = some (.locked m)) :
    (s.apply t op).phase t = some (.locking m) ∨ (s.apply t op).phase t = some (.locked m) ∨
      (s.apply t op).phase t = none ∧ (t, m) ∈ holding (s.apply t op) held t op := by
  have hbusy : s.phase t ≠ none := by grind
  cases op with
  | lock i =>
    obtain ⟨hi, hphase⟩ := hop
    obtain rfl : i = m := by grind
    rw [show s.apply t (.lock i) = s.lock t i from rfl, holding]
    rcases phase_lock hi t with hp | hp | hp
    · exact .inl hp
    · exact .inr (.inl hp)
    · rw [if_pos hp]
      exact .inr (.inr ⟨hp, Finset.mem_insert_self ..⟩)
  | granted i =>
    have hi : s.phase t = some (.locked i) := hop
    obtain rfl : i = m := by grind
    exact .inr (.inr ⟨phase_setPhase_self .., by simp [holding, Sync.apply]⟩)
  | unlock i => exact absurd hop.1 hbusy
  | wait condvar i => exact absurd hop.1 hbusy
  | _ => exact absurd hop hbusy

theorem Handed.apply (h : s.Handed u m) (hop : s.Allowed held t op) :
    (s.apply t op).Handed u m ∨ (u, m) ∈ holding (s.apply t op) held t op := by
  by_cases hu : u = t
  · subst hu
    rw [hop.eq_granted h.1]
    exact .inr (by simp [holding, Sync.apply])
  · refine .inl ⟨by rw [phase_apply s op hu]; exact h.1, fun hmem => h.2 ?_⟩
    exact (queue_apply s t op m).mem hu hmem

end Sync

end RCore.Os
