import RCore.Proofs.Os.Wakes
import RCore.Sanity.Os.Monitor

/-! Mutexes and condition variables along a run: who holds a mutex, whom it is handed to,
and how tasks wait for a signal. -/

namespace RCore.Os

open RCore.Lib Kernel

namespace Kernel

variable {k k' : Kernel} {e : Event} {op : SyncOp} {c m : ℕ}

/-! Where the task is that acts -/

theorem syncOp_cases (h : k.syncOp e = some op) :
    (∃ call tf, e = .syscall call tf ∧ ∀ m, op ≠ .granted m) ∨
      (∃ m, op = .lock m ∧ k.phase k.current = some (.locking m)) ∨
      ∃ m, op = .granted m ∧ k.phase k.current = some (.locked m) := by
  cases e with
  | syscall call tf =>
    refine .inl ⟨call, tf, rfl, ?_⟩
    rintro m rfl
    cases call <;> simp_all [syncOp, Option.bind_eq_some_iff]
  | proceed input =>
    rw [syncOp] at h
    split at h
    next m hphase =>
      cases h
      exact .inr (.inl ⟨m, rfl, hphase⟩)
    next m hphase =>
      cases h
      exact .inr (.inr ⟨m, rfl, hphase⟩)
    next => cases h
  | _ => cases h

theorem mutexLock_valid (k : Kernel) (m : ℕ) :
    Leads (k.mutexLock m) fun _ => m < k.mutexes.length := by
  rw [mutexLock]
  split
  next hm =>
    have hlt := (List.getElem?_eq_some_iff.mp hm).1
    exact (Leads.any _).mono fun _ _ => hlt
  next hm =>
    have hlt := (List.getElem?_eq_some_iff.mp hm).1
    exact (Leads.any _).mono fun _ _ => hlt
  next => trivial

/-- A call that does not panic is on a mutex that exists. -/
theorem lock_valid {call : Syscall} {tf : TrapFrame}
    (hop : k.syncOp (.syscall call tf) = some (.lock m)) (hs : k.step (.syscall call tf) = .ok k') :
    m < k.mutexes.length := by
  obtain ⟨id, rfl, ho⟩ : ∃ id, call = .mutexLock id ∧ k.objectOf Process.mutexList id = some m := by
    cases call <;> simp_all [syncOp, Option.bind_eq_some_iff]
  have hcall : Leads ((k.setTf tf).sysMutexLock id) fun _ => m < k.mutexes.length := by
    refine .bind (Leads.self _) ?_
    rintro ⟨pid, p⟩ hp
    refine .bind (object_eq Process.mutexList hp ho) ?_
    rintro _ rfl
    exact .bind (mutexLock_valid (k.setTf tf) m) fun _ hm => .pure hm
  have hl : Leads (k.step (.syscall (.mutexLock id) tf)) fun _ => m < k.mutexes.length :=
    .bind hcall fun r hm => (Leads.any _).mono fun _ _ => hm
  exact hl.post_of_ok hs

theorem wait_valid (hop : k.syncOp e = some (.wait c m)) (hs : k.step e = .ok k') :
    c < k.condvars.length := by
  obtain ⟨cid, mid, tf, rfl, hoc, hom⟩ := syncOp_wait hop
  have hwait : Leads ((k.setTf tf).condvarWait c m) fun _ => c < k.condvars.length := by
    refine .bind (mutexUnlock_effect (k.setTf tf) m) ?_
    rintro k₁ ⟨-, -, -, hsync⟩
    have hcondvars : k₁.condvars = k.condvars := by
      have := congrArg Sync.condvars hsync
      rwa [Sync.condvars_unlock] at this
    rw [hcondvars]
    split
    next hc =>
      have hlt := (List.getElem?_eq_some_iff.mp hc).1
      exact (Leads.any _).mono fun _ _ => hlt
    next => trivial
  have hcall : Leads ((k.setTf tf).sysCondvarWait cid mid) fun _ => c < k.condvars.length := by
    refine .bind (Leads.self _) ?_
    rintro ⟨pid, p⟩ hp
    refine .bind (object_eq Process.condvarList hp hoc) ?_
    rintro _ rfl
    refine .bind (object_eq Process.mutexList hp hom) ?_
    rintro _ rfl
    exact .bind hwait fun _ hc => .pure hc
  have hl : Leads (k.step (.syscall (.condvarWait cid mid) tf)) fun _ => c < k.condvars.length :=
    .bind hcall fun r hc => (Leads.any _).mono fun _ _ => hc
  exact hl.post_of_ok hs

theorem condvar_of_queue {w : ℕ} {waitQueue : List ℕ}
    (h : k.queue (.condvar c) = w :: waitQueue) : k.condvars[c]? = some ⟨w :: waitQueue⟩ := by
  rw [queue] at h
  cases hc : k.condvars[c]? with
  | none => simp [hc] at h
  | some condvar =>
    rw [hc] at h
    rw [← show condvar.waitQueue = _ from h]

end Kernel

/-- A kernel, and the tasks with the mutexes they hold: those that they have returned with
from `lock` or `wait`, and have not unlocked or waited with since. -/
structure HoldState where
  kernel : Kernel
  held : Finset (ℕ × ℕ)

namespace HoldState

/-- After an event, which leads to the kernel `k'`. -/
def next (s : HoldState) (e : Event) (k' : Kernel) : HoldState where
  kernel := k'
  held := match s.kernel.syncOp e with
    | some op => Sync.holding k'.sync s.held s.kernel.current op
    | none => s.held

/-- Tasks unlock a mutex, or wait with it, only if they hold it. -/
def orderly (s : HoldState) (e : Event) : Bool :=
  match s.kernel.syncOp e with
  | some (.unlock m) => (s.kernel.current, m) ∈ s.held
  | some (.wait _ m) => (s.kernel.current, m) ∈ s.held
  | _ => true

/-- A task has been taken out of the queue of a mutex, and has not returned with it yet. -/
def Handed (s : HoldState) (t m : ℕ) : Prop :=
  s.kernel.phase t = some (.locked m) ∧ t ∉ s.kernel.queue (.mutex m)

/-- An event by which the current task gives a mutex away. -/
def Releases (s : HoldState) (e : Event) (m : ℕ) : Prop :=
  s.kernel.syncOp e = some (.unlock m) ∨ ∃ c, s.kernel.syncOp e = some (.wait c m)

/-- One task holds a mutex, or has been handed it, and a blocking mutex is locked as long
as there is one. -/
structure Exclusive (s : HoldState) : Prop where
  unique : ∀ t u m, (t, m) ∈ s.held → (u, m) ∈ s.held → t = u
  locked : ∀ m locked waitQueue, s.kernel.mutexes[m]? = some (.blocking locked waitQueue) →
    (locked = true ↔ ∃ t, (t, m) ∈ s.held ∨ s.Handed t m)
  handed : ∀ t m, s.Handed t m → ∀ u, (u, m) ∈ s.held ∨ s.Handed u m → u = t

/-- What an event does that leads to the kernel `k'`. -/
structure Passes (s : HoldState) (e : Event) (k' : Kernel) : Prop where
  /-- Tasks wait in the order in which they came. -/
  mutexes : ∀ m, Sync.Fifo s.kernel.current (s.kernel.queue (.mutex m)) (k'.queue (.mutex m))
  condvars : ∀ c, Sync.Fifo s.kernel.current (s.kernel.queue (.condvar c)) (k'.queue (.condvar c))
  /-- A mutex is handed to the one that has waited for the longest time. -/
  handoff : ∀ m locked w waitQueue, s.Releases e m →
    s.kernel.mutexes[m]? = some (.blocking locked (w :: waitQueue)) →
      (s.next e k').Handed w m ∧ k'.queue (.mutex m) = waitQueue ∧ Wakes w s.kernel k'
  /-- Nobody else takes it until that one returns. -/
  kept : ∀ w m, s.Handed w m → ((s.next e k').Handed w m ∨ (w, m) ∈ (s.next e k').held) ∧
    ∀ u, (s.next e k').Handed u m ∨ (u, m) ∈ (s.next e k').held → u = w
  /-- A task that waits releases the mutex and joins the queue. -/
  wait : ∀ c m, s.kernel.syncOp e = some (.wait c m) →
    k'.queue (.condvar c) = s.kernel.queue (.condvar c) ++ [s.kernel.current] ∧
      k'.phase s.kernel.current = some (.locking m)
  /-- It stays there until there is a signal, and it is the first one. -/
  asleep : ∀ c t, t ∈ s.kernel.queue (.condvar c) → t ∈ k'.queue (.condvar c) ∨
    s.kernel.syncOp e = some (.signal c) ∧ (s.kernel.queue (.condvar c)).head? = some t
  /-- A signal wakes the first one, and nobody else. -/
  signal : ∀ c w waitQueue, s.kernel.syncOp e = some (.signal c) →
    s.kernel.queue (.condvar c) = w :: waitQueue →
      k'.queue (.condvar c) = waitQueue ∧ Wakes w s.kernel k'
  /-- A task that returns from `lock` or `wait` holds the mutex. -/
  returns : ∀ t m, s.kernel.phase t = some (.locking m) ∨ s.kernel.phase t = some (.locked m) →
    k'.phase t = some (.locking m) ∨ k'.phase t = some (.locked m) ∨
      k'.phase t = none ∧ (t, m) ∈ (s.next e k').held ∧
        ∃ mutex, k'.mutexes[m]? = some mutex ∧ mutex.locked = true

end HoldState

/-- The states from boot on, with tasks that unlock and wait with mutexes they hold. -/
inductive HoldTrace : HoldState → Prop
  | boot {k : Kernel} {entry ustackTop : UInt64} (h : boot entry ustackTop = .ok k) :
      HoldTrace ⟨k, ∅⟩
  | step {s : HoldState} {k' : Kernel} {e : Event} (h : HoldTrace s) (he : s.kernel.enabled e)
      (ho : s.orderly e) (hs : s.kernel.step e = .ok k') : HoldTrace (s.next e k')

variable {s : HoldState} {e : Event} {k' : Kernel}

theorem HoldTrace.trace (h : HoldTrace s) : ∃ states, Trace s.kernel states := by
  induction h with
  | boot h => exact ⟨_, .boot h⟩
  | step h he ho hs ih =>
    obtain ⟨states, h'⟩ := ih
    exact ⟨_, .step h' he hs⟩

theorem HoldTrace.inv (h : HoldTrace s) : Inv False s.kernel := by
  obtain ⟨states, h'⟩ := h.trace
  exact h'.inv nofun

namespace HoldState

theorem allowed (hok : s.kernel.sync.Ok s.held) (he : s.kernel.enabled e) (ho : s.orderly e)
    (hs : s.kernel.step e = .ok k') {op : SyncOp} (hop : s.kernel.syncOp e = some op) :
    s.kernel.sync.Allowed s.held s.kernel.current op := by
  rw [orderly, hop] at ho
  rcases syncOp_cases hop with ⟨call, tf, rfl, hne⟩ | ⟨m, rfl, hphase⟩ | ⟨m, rfl, hphase⟩
  · have huser : s.kernel.phase s.kernel.current = none := by
      rw [phase, show s.kernel.contOf s.kernel.current = some .user by simpa [enabled] using he]
      rfl
    cases op with
    | lock m => exact ⟨lock_valid hop hs, .inl huser⟩
    | granted m => exact absurd rfl (hne m)
    | unlock m => exact ⟨huser, of_decide_eq_true ho⟩
    | wait c m => exact ⟨huser, of_decide_eq_true ho⟩
    | _ => exact huser
  · exact ⟨hok.phase _ m (.inl hphase), .inr hphase⟩
  · exact hphase

/-- An operation of the current task. -/
structure Acts (s : HoldState) (e : Event) (k' : Kernel) (op : SyncOp) : Prop where
  eq : s.kernel.syncOp e = some op
  sync : k'.sync = s.kernel.sync.apply s.kernel.current op
  held : (s.next e k').held = Sync.holding k'.sync s.held s.kernel.current op
  allowed : s.kernel.sync.Allowed s.held s.kernel.current op

theorem acts_or (hok : s.kernel.sync.Ok s.held) (he : s.kernel.enabled e) (ho : s.orderly e)
    (hs : s.kernel.step e = .ok k') : (∃ op, s.Acts e k' op) ∨
      s.kernel.syncOp e = none ∧ k'.sync = s.kernel.sync ∧ (s.next e k').held = s.held := by
  have hsync := (step_effect he hs).sync
  cases hop : s.kernel.syncOp e with
  | none =>
    rw [syncAfter, hop] at hsync
    exact .inr ⟨rfl, hsync, by rw [next, hop]⟩
  | some op =>
    rw [syncAfter_of op hop] at hsync
    exact .inl ⟨op, hop, hsync, by rw [next, hop], allowed hok he ho hs hop⟩

theorem running_not_queued (h : Inv False s.kernel) {m : ℕ} {mutex : UserMutex}
    (hm : s.kernel.mutexes[m]? = some mutex) : s.kernel.current ∉ mutex.waitQueue := by
  rw [← queue_mutex hm]
  exact h.sched.not_queued (.mutex m)

theorem waitQueue_nodup (h : Inv False s.kernel) {m : ℕ} {mutex : UserMutex}
    (hm : s.kernel.mutexes[m]? = some mutex) : mutex.waitQueue.Nodup := by
  rw [← queue_mutex hm]
  exact h.sched.queue_nodup (.mutex m)

/-- Every event of such a run is one of the hand-over of mutexes. -/
theorem ok_next (hinv : Inv False s.kernel) (hok : s.kernel.sync.Ok s.held)
    (he : s.kernel.enabled e) (ho : s.orderly e) (hs : s.kernel.step e = .ok k') :
    k'.sync.Ok (s.next e k').held := by
  rcases acts_or hok he ho hs with ⟨op, ha⟩ | ⟨-, hsync, hheld⟩
  · rw [ha.held, ha.sync]
    exact hok.apply ha.allowed (fun _ _ => running_not_queued hinv) fun _ _ => waitQueue_nodup hinv
  · rw [hsync, hheld]
    exact hok

end HoldState

theorem HoldTrace.ok (h : HoldTrace s) : s.kernel.sync.Ok s.held := by
  induction h with
  | @boot k entry ustackTop hb =>
    rw [boot_eq] at hb
    cases hb
    have hphase : ∀ t, (booted entry ustackTop).phase t = none := by
      intro t
      rcases t with _ | _ | _ | _ | _ | t <;> rfl
    exact ⟨nofun, nofun, fun t m ht => by simp [sync, hphase] at ht⟩
  | step h he ho hs ih => exact HoldState.ok_next h.inv ih he ho hs

namespace HoldState

/-- Those who have a mutex are the ones that hold it or have been handed it. -/
theorem mem_owners {m t : ℕ} {mutex : UserMutex} (hm : s.kernel.mutexes[m]? = some mutex) :
    t ∈ owners mutex.waitQueue (s.kernel.sync.granted m) (Sync.holders s.held m) ↔
      (t, m) ∈ s.held ∨ s.Handed t m := by
  rw [Handed, queue_mutex hm]
  rfl

theorem exclusive (hok : s.kernel.sync.Ok s.held) : s.Exclusive := by
  have hget : ∀ m, m < s.kernel.mutexes.length → ∃ mutex, s.kernel.mutexes[m]? = some mutex :=
    fun m hm => ⟨_, List.getElem?_eq_getElem hm⟩
  refine ⟨fun t u m ht hu => ?_, fun m locked waitQueue hm => ?_, fun t m ht u hu => ?_⟩
  · obtain ⟨mutex, hm⟩ := hget m (hok.held t m ht)
    exact (hok.mutex m mutex hm).unique (.inl ht) (.inl hu)
  · refine (hok.mutex m _ hm).locked.trans (exists_congr fun t => ?_)
    exact mem_owners hm
  · obtain ⟨mutex, hm⟩ := hget m (hok.phase t m (.inr ht.1))
    exact (hok.mutex m mutex hm).unique ((mem_owners hm).mpr hu) ((mem_owners hm).mpr (.inr ht))

/-! The fields of `Passes` -/

section step

variable (hinv : Inv False s.kernel) (hok : s.kernel.sync.Ok s.held) (he : s.kernel.enabled e)
  (ho : s.orderly e) (hs : s.kernel.step e = .ok k')
include hok he ho hs

theorem passes_mutexes (m : ℕ) :
    Sync.Fifo s.kernel.current (s.kernel.queue (.mutex m)) (k'.queue (.mutex m)) := by
  change Sync.Fifo s.kernel.current (s.kernel.sync.queue m) (k'.sync.queue m)
  rcases acts_or hok he ho hs with ⟨op, ha⟩ | ⟨-, hsync, -⟩
  · rw [ha.sync]
    exact Sync.queue_apply ..
  · rw [hsync]
    exact .inl rfl

theorem passes_asleep (c : ℕ) : k'.queue (.condvar c) = s.kernel.queue (.condvar c) ∨
    k'.queue (.condvar c) = s.kernel.queue (.condvar c) ++ [s.kernel.current] ∨
      s.kernel.syncOp e = some (.signal c) ∧
        k'.queue (.condvar c) = (s.kernel.queue (.condvar c)).tail := by
  change k'.sync.asleep c = s.kernel.sync.asleep c ∨ k'.sync.asleep c = s.kernel.sync.asleep c ++ _ ∨
    _ ∧ k'.sync.asleep c = (s.kernel.sync.asleep c).tail
  rcases acts_or hok he ho hs with ⟨op, ha⟩ | ⟨-, hsync, -⟩
  · rw [ha.sync, ha.eq, Option.some.injEq]
    exact Sync.asleep_apply ..
  · exact .inl (by rw [hsync])

omit hok ho in
theorem passes_signal {c : ℕ} (hop : s.kernel.syncOp e = some (.signal c)) :
    k'.queue (.condvar c) = (s.kernel.queue (.condvar c)).tail := by
  change k'.sync.asleep c = (s.kernel.sync.asleep c).tail
  have hsync := (step_effect he hs).sync
  rw [hsync, syncAfter_of _ hop]
  exact Sync.asleep_signal ..

omit hok ho in
theorem passes_wait {c m : ℕ} (hop : s.kernel.syncOp e = some (.wait c m)) :
    k'.queue (.condvar c) = s.kernel.queue (.condvar c) ++ [s.kernel.current] ∧
      k'.phase s.kernel.current = some (.locking m) := by
  change k'.sync.asleep c = s.kernel.sync.asleep c ++ _ ∧ k'.sync.phase _ = _
  have hsync := (step_effect he hs).sync
  rw [hsync, syncAfter_of _ hop]
  exact Sync.asleep_wait (wait_valid hop hs) ..

theorem passes_returns {t m : ℕ}
    (ht : s.kernel.phase t = some (.locking m) ∨ s.kernel.phase t = some (.locked m)) :
    k'.phase t = some (.locking m) ∨ k'.phase t = some (.locked m) ∨
      k'.phase t = none ∧ (t, m) ∈ (s.next e k').held := by
  change k'.sync.phase t = _ ∨ k'.sync.phase t = _ ∨ k'.sync.phase t = none ∧ _
  rcases acts_or hok he ho hs with ⟨op, ha⟩ | ⟨-, hsync, -⟩
  · rw [ha.held, ha.sync]
    by_cases hu : t = s.kernel.current
    · subst hu
      exact Sync.returns_apply ha.allowed ht
    · rw [Sync.phase_apply _ op hu]
      exact ht.imp_right .inl
  · rw [hsync]
    exact ht.imp_right .inl

theorem passes_handed {w m : ℕ} (hw : s.Handed w m) :
    (s.next e k').Handed w m ∨ (w, m) ∈ (s.next e k').held := by
  change k'.sync.Handed w m ∨ _
  rcases acts_or hok he ho hs with ⟨op, ha⟩ | ⟨-, hsync, -⟩
  · rw [ha.held, ha.sync]
    exact Sync.Handed.apply hw ha.allowed
  · rw [hsync]
    exact .inl hw

include hinv

theorem passes_handoff {m w : ℕ} {locked : Bool} {waitQueue : List ℕ} (hr : s.Releases e m)
    (hm : s.kernel.mutexes[m]? = some (.blocking locked (w :: waitQueue))) :
    (s.next e k').Handed w m ∧ k'.queue (.mutex m) = waitQueue ∧ Wakes w s.kernel k' := by
  obtain ⟨op, ha⟩ : ∃ op, s.Acts e k' op := by
    refine (acts_or hok he ho hs).resolve_right fun hn => ?_
    rcases hr with hr | ⟨c, hr⟩ <;> cases hr.symm.trans hn.1
  have hunlock : k'.mutexes = (s.kernel.sync.unlock m).mutexes ∧ Wakes w s.kernel k' := by
    rcases hr with hr | ⟨c, hr⟩
    · obtain rfl := Option.some.inj (ha.eq.symm.trans hr)
      exact ⟨congrArg Sync.mutexes ha.sync, unlock_wakes hinv hr hm hs⟩
    · obtain rfl := Option.some.inj (ha.eq.symm.trans hr)
      exact ⟨(congrArg Sync.mutexes ha.sync).trans (Sync.mutexes_sleep ..), wait_wakes hinv hr hm hs⟩
  have hget : k'.mutexes[m]? = some (.blocking true waitQueue) := by
    rw [hunlock.1]
    exact Sync.mutexes_unlock hm
  have hnodup : (w :: waitQueue).Nodup := waitQueue_nodup hinv hm
  have hne : w ≠ s.kernel.current := by
    rintro rfl
    exact running_not_queued hinv hm List.mem_cons_self
  have hphase : k'.phase w = s.kernel.phase w :=
    (congrFun (congrArg Sync.phase ha.sync) w).trans (Sync.phase_apply _ op hne)
  refine ⟨⟨?_, ?_⟩, queue_mutex hget, hunlock.2⟩
  · exact hphase.trans ((hok.mutex m _ hm).queued w List.mem_cons_self)
  · rw [show (s.next e k').kernel.queue (.mutex m) = _ from queue_mutex hget]
    exact (List.nodup_cons.mp hnodup).1

theorem passes : s.Passes e k' := by
  have hok' := ok_next hinv hok he ho hs
  have hexcl : (s.next e k').Exclusive := exclusive hok'
  refine ⟨passes_mutexes hok he ho hs, fun c => ?_, fun m locked w waitQueue hr hm =>
    passes_handoff hinv hok he ho hs hr hm, fun w m hw => ?_, fun c m hop => ?_, fun c t ht => ?_,
    fun c w waitQueue hop hq => ?_, fun t m ht => ?_⟩
  · rcases passes_asleep hok he ho hs c with hq | hq | ⟨-, hq⟩
    · exact .inl hq
    · exact .inr (.inl hq)
    · exact .inr (.inr hq)
  · have hkept := passes_handed hok he ho hs hw
    refine ⟨hkept, fun u hu => ?_⟩
    rcases hkept with hw' | hw'
    · exact hexcl.handed w m hw' u hu.symm
    · rcases hu with hu | hu
      · exact (hexcl.handed u m hu w (.inl hw')).symm
      · exact hexcl.unique u w m hu hw'
  · exact passes_wait he hs hop
  · rcases passes_asleep hok he ho hs c with hq | hq | ⟨hop, hq⟩
    · exact .inl (by rwa [hq])
    · exact .inl (by rw [hq]; exact List.mem_append_left _ ht)
    · rw [hq]
      cases hold : s.kernel.queue (.condvar c) with
      | nil =>
        rw [hold] at ht
        cases ht
      | cons w waitQueue =>
        rw [hold] at ht
        rcases List.mem_cons.mp ht with rfl | ht
        · exact .inr ⟨hop, rfl⟩
        · exact .inl ht
  · refine ⟨?_, signal_wakes hinv hop (condvar_of_queue hq) hs⟩
    rw [passes_signal he hs hop, hq]
    rfl
  · rcases passes_returns hok he ho hs ht with hr | hr | ⟨hr, hheld⟩
    · exact .inl hr
    · exact .inr (.inl hr)
    · obtain ⟨mutex, hm⟩ : ∃ mutex, k'.mutexes[m]? = some mutex :=
        ⟨_, List.getElem?_eq_getElem (hok'.held t m hheld)⟩
      exact .inr (.inr ⟨hr, hheld, mutex, hm, (hok'.mutex m mutex hm).locked.mpr ⟨t, .inl hheld⟩⟩)

end step

end HoldState

/-- In every run in which tasks unlock and wait only with mutexes they hold, one task has a
mutex at a time, and no signal is lost. -/
theorem mutual_exclusion (h : HoldTrace s) : s.Exclusive ∧ ∀ e k', s.kernel.enabled e →
    s.orderly e → s.kernel.step e = .ok k' → s.Passes e k' :=
  ⟨HoldState.exclusive h.ok, fun _ _ he ho hs => HoldState.passes h.inv h.ok he ho hs⟩

/-- The state after some events, if they can happen and nothing panics. -/
def HoldState.run (s : HoldState) : List Event → Option HoldState
  | [] => some s
  | e :: es =>
    if s.kernel.enabled e ∧ s.orderly e then
      match s.kernel.step e with
      | .ok k' => (s.next e k').run es
      | .error _ => none
    else none

theorem HoldTrace.run {s' : HoldState} {es : List Event} (h : HoldTrace s)
    (hr : s.run es = some s') : HoldTrace s' := by
  induction es generalizing s with
  | nil =>
    cases hr
    exact h
  | cons e es ih =>
    rw [HoldState.run] at hr
    split_ifs at hr with he
    split at hr
    next k' hs => exact ih (.step h he.1 he.2 hs) hr
    next => cases hr

/-- The shell makes a blocking mutex and locks it. -/
theorem mutual_exclusion_locked : ∃ s, HoldTrace s ∧ s.held = {(4, 0)} ∧ s.Exclusive := by
  have hrun : ((HoldState.mk (booted 0 0) ∅).run (List.replicate 4 (.proceed .zero) ++
      [.syscall (.mutexCreate true) (.newUser 0 0), .syscall (.mutexLock 0) (.newUser 0 0)])).any
        (fun s => s.held = {(4, 0)}) = true := by
    decide +kernel
  obtain ⟨s, hs, hheld⟩ := (Option.any_eq_true ..).mp hrun
  have h : HoldTrace s := (HoldTrace.boot (boot_eq 0 0)).run hs
  exact ⟨s, h, of_decide_eq_true hheld, (mutual_exclusion h).1⟩

end RCore.Os
