import RCore.Lib.Drain
import RCore.Proofs.Os.Semaphores

/-! Timers: whom `check_timer` wakes. The heap is by the negation of an `isize`, and so
those beyond `2 ^ 63` stand above all others. -/

namespace RCore.Os

open RCore.Lib Kernel

/-! The order of the heap -/

theorem TimerCondVar.key_eq {timer : TimerCondVar} (h : timer.expireMs < 2 ^ 64) :
    timer.key = if timer.expireMs ≤ 2 ^ 63 then -(timer.expireMs : ℤ)
      else 2 ^ 64 - timer.expireMs := by
  simp only [TimerCondVar.key, wrap, Int.bmod_def]
  split_ifs <;> omega

theorem isTop_peek (tie : List TimerCondVar → ℕ) : IsTop TimerCondVar.key (peek tie) := by
  refine ⟨fun l hl => ?_, fun l x hx => ⟨mem_of_peek hx, ?_⟩⟩
  · by_contra hne
    obtain ⟨x, hx, hmax⟩ := l.toFinset.exists_max_image TimerCondVar.key
      (by simpa [Finset.Nonempty] using List.exists_mem_of_ne_nil l hne)
    have hmem : x ∈ l.filter fun timer => l.all fun other => other.key ≤ timer.key := by
      rw [List.mem_filter, List.all_eq_true]
      exact ⟨by simpa using hx, fun y hy => by simpa using hmax y (by simpa using hy)⟩
    rw [peek, List.getElem?_eq_none_iff] at hl
    exact absurd (Nat.mod_lt _ (List.length_pos_of_mem hmem)) (not_lt.mpr hl)
  · have hmem := List.mem_of_getElem? hx
    rw [List.mem_filter, List.all_eq_true] at hmem
    intro y hy
    simpa using hmem.2 y hy

/-! The loop of `check_timer` -/

namespace Kernel

variable {k k' : Kernel} {x : Prop} {tie : List TimerCondVar → ℕ} {timer : TimerCondVar}

/-- The tasks that have been taken out of the heap are ready, and the others are what they
were. -/
structure Rings (k k' : Kernel) : Prop where
  subset : k'.timers ⊆ k.timers
  state : ∀ u, k'.stateOf u =
    if u ∈ k.queue .timers ∧ u ∉ k'.queue .timers then some .ready else k.stateOf u

theorem Rings.refl (k : Kernel) : Rings k k := by
  refine ⟨List.Subset.refl _, fun u => ?_⟩
  rw [if_neg fun h => h.2 h.1]

/-- What a round does. -/
theorem resume_timer (h : Inv x k) (ht : timer ∈ k.timers) :
    ∃ k₁, k.resume timer.task = .ok k₁ ∧ Inv x { k₁ with timers := k₁.timers.erase timer } ∧
      k₁.timers = k.timers ∧ k₁.timeMs = k.timeMs ∧
        ∀ u, k₁.stateOf u = if u = timer.task then some .ready else k.stateOf u := by
  have hb : k.stateOf timer.task = some .blocking :=
    h.blocking_iff.mpr (.inl ⟨.timers, List.mem_map_of_mem ht⟩)
  have hspec := wakeTimer_spec h ht
  rw [resume_eq hb] at hspec ⊢
  refine ⟨_, rfl, hspec.1, rfl, rfl, fun u => ?_⟩
  have hs := congrFun (stateOf_setState (k := k) (t := timer.task) (by rw [hb]; simp) .ready) u
  rw [Function.update_apply] at hs
  exact hs

theorem Rings.round (h : Inv x k) (ht : timer ∈ k.timers) {k₁ : Kernel}
    (htimers : k₁.timers = k.timers.erase timer)
    (hstate : ∀ u, k₁.stateOf u = if u = timer.task then some .ready else k.stateOf u)
    (hr : Rings k₁ k') : Rings k k' := by
  have hsub : k'.timers ⊆ k.timers := by
    refine List.Subset.trans hr.subset ?_
    rw [htimers]
    exact List.erase_subset
  have hsub₁ : k'.queue .timers ⊆ k₁.queue .timers := List.map_subset _ hr.subset
  obtain ⟨l₁, l₂, -, hl, herase⟩ := List.exists_erase_eq ht
  have hq : k.queue .timers =
      l₁.map TimerCondVar.task ++ timer.task :: l₂.map TimerCondVar.task := by
    rw [queue, hl, List.map_append, List.map_cons]
  have hq₁ : k₁.queue .timers = l₁.map TimerCondVar.task ++ l₂.map TimerCondVar.task := by
    rw [queue, htimers, herase, List.map_append]
  have hgone : timer.task ∉ k₁.queue .timers := by
    have hnodup : (k.queue .timers).Nodup := h.sched.queue_nodup .timers
    rw [hq, List.nodup_middle, ← hq₁] at hnodup
    exact (List.nodup_cons.mp hnodup).1
  refine ⟨hsub, fun u => ?_⟩
  rw [hr.state, hstate]
  by_cases hu : u = timer.task
  · subst hu
    have hmem : timer.task ∈ k.queue .timers := List.mem_map_of_mem ht
    rw [if_neg fun hc => hgone hc.1, if_pos rfl, if_pos ⟨hmem, fun hc => hgone (hsub₁ hc)⟩]
  · have hmem : u ∈ k₁.queue .timers ↔ u ∈ k.queue .timers := by
      rw [hq, hq₁]
      simp [hu]
    simp only [hmem, if_neg hu]

theorem checkTimerLoop_rings (tie : List TimerCondVar → ℕ) (n : ℕ) (h : Inv x k) :
    ∃ k', checkTimerLoop tie n k = .ok k' ∧ Rings k k' ∧
      k'.timers = drain (peek tie) (fun timer => timer.expireMs ≤ k.timeMs) n k.timers := by
  induction n generalizing k with
  | zero => exact ⟨k, rfl, .refl k, rfl⟩
  | succ n ih =>
    rw [checkTimerLoop, drain]
    split
    next timer hpeek =>
      simp only [hpeek, decide_eq_true_eq]
      by_cases hdue : timer.expireMs ≤ k.timeMs
      · obtain ⟨k₁, hk₁, hinv, htimers, htime, hstate⟩ := resume_timer h (mem_of_peek hpeek)
        rw [if_pos hdue, if_pos hdue, hk₁]
        obtain ⟨k', hk', hr, hdrain⟩ := ih hinv
        refine ⟨k', hk', ?_, ?_⟩
        · refine Rings.round h (mem_of_peek hpeek) ?_ ?_ hr
          · rw [htimers]
          · exact hstate
        · rw [hdrain, htimers, htime]
      · rw [if_neg hdue, if_neg hdue]
        exact ⟨k, rfl, .refl k, rfl⟩
    next hpeek =>
      simp only [hpeek]
      exact ⟨k, rfl, .refl k, rfl⟩

def due (now : ℕ) (timer : TimerCondVar) : Bool := timer.expireMs ≤ now

/-- What `check_timer` leaves in the heap is what is kept back by a timer that is not
due. -/
theorem checkTimer_rings (h : Inv x k) (hlt : ∀ timer ∈ k.timers, timer.expireMs < 2 ^ 64)
    (tie : List TimerCondVar → ℕ) :
    ∃ k', k.checkTimer tie = .ok k' ∧ Rings k k' ∧
      k'.timers = k.timers.filter (Held TimerCondVar.key (due k.timeMs) k.timers) := by
  obtain ⟨k', hk', hr, hdrain⟩ := checkTimerLoop_rings tie k.timers.length h
  have hnodup : (k.timers.map TimerCondVar.task).Nodup := h.sched.queue_nodup .timers
  refine ⟨k', hk', hr, hdrain.trans (drain_eq (isTop_peek tie) ?_ hnodup.of_map le_rfl)⟩
  intro a ha b hb hkey
  rw [TimerCondVar.key_eq (hlt a ha), TimerCondVar.key_eq (hlt b hb)] at hkey
  have hexpire : a.expireMs = b.expireMs := by
    have := hlt a ha
    have := hlt b hb
    split_ifs at hkey <;> omega
  rw [hexpire]

/-- A timer is kept back if it is not due, or one beyond `2 ^ 63` is not and stands above
it. -/
theorem held_iff (hlt : ∀ timer ∈ k.timers, timer.expireMs < 2 ^ 64) (ht : timer ∈ k.timers)
    (now : ℕ) : Held TimerCondVar.key (due now) k.timers timer ↔ now < timer.expireMs ∨
      timer.expireMs ≤ 2 ^ 63 ∧ ∃ other ∈ k.timers, 2 ^ 63 < other.expireMs ∧ now < other.expireMs := by
  have hkey := TimerCondVar.key_eq (hlt timer ht)
  constructor
  · rintro ⟨other, hother, hle, hdue⟩
    rw [hkey, TimerCondVar.key_eq (hlt other hother)] at hle
    have hnow : now < other.expireMs := by simpa [due] using hdue
    have := hlt other hother
    by_cases hbig : 2 ^ 63 < other.expireMs
    · by_cases hsmall : timer.expireMs ≤ 2 ^ 63
      · exact .inr ⟨hsmall, other, hother, hbig, hnow⟩
      · rw [if_neg hsmall, if_neg (by omega)] at hle
        exact .inl (by omega)
    · rw [if_pos (by omega : other.expireMs ≤ 2 ^ 63)] at hle
      split_ifs at hle
      · exact .inl (by omega)
      · have := hlt timer ht
        omega
  · rintro (hnow | ⟨hsmall, other, hother, hbig, hnow⟩)
    · exact ⟨timer, ht, le_rfl, by simpa [due] using hnow⟩
    · refine ⟨other, hother, ?_, by simpa [due] using hnow⟩
      rw [hkey, TimerCondVar.key_eq (hlt other hother), if_pos hsmall, if_neg (by omega)]
      have := hlt other hother
      omega

end Kernel

/-! The tasks that sleep -/

/-- A task that has called `sys_sleep` and has not been woken. -/
structure Sleep where
  time : ℕ
  ms : ℕ
  task : ℕ
deriving DecidableEq

namespace Sleep

/-- When the task is to be woken. -/
def wake (s : Sleep) : ℕ := s.time + s.ms

def timer (s : Sleep) : TimerCondVar := ⟨s.wake % 2 ^ 64, s.task⟩

end Sleep

/-- A kernel, and the tasks that sleep. -/
structure SleepState where
  kernel : Kernel
  sleeps : List Sleep

namespace SleepState

/-- After an event, which leads to the kernel `k'`. -/
def next (s : SleepState) (e : Event) (k' : Kernel) : SleepState where
  kernel := k'
  sleeps := match e with
    | .syscall (.sleep ms) _ => s.sleeps ++ [⟨s.kernel.timeMs, ms, s.kernel.current⟩]
    | .timer _ => s.sleeps.filter fun sleep => sleep.timer ∈ k'.timers
    | _ => s.sleeps

/-- At the time `now`, `check_timer` resumes the tasks that are to be woken by then, and
takes their timers out of the heap. -/
def Exact (s : SleepState) (tie : List TimerCondVar → ℕ) (now : ℕ) : Prop :=
  ∃ k', { s.kernel with timeMs := now }.checkTimer tie = .ok k' ∧
    k'.timers = (s.sleeps.filter fun sleep => now < sleep.wake).map Sleep.timer ∧
    ∀ u, k'.stateOf u = if ∃ sleep ∈ s.sleeps, sleep.task = u ∧ sleep.wake ≤ now then some .ready
      else s.kernel.stateOf u

variable {s : SleepState}

theorem expire_lt (h : s.kernel.timers = s.sleeps.map Sleep.timer) :
    ∀ timer ∈ s.kernel.timers, timer.expireMs < 2 ^ 64 := by
  intro timer ht
  rw [h, List.mem_map] at ht
  obtain ⟨sleep, -, rfl⟩ := ht
  exact Nat.mod_lt _ (by norm_num)

theorem filter_timers {sleeps : List Sleep} {p : TimerCondVar → Bool} {timers : List TimerCondVar}
    (h : timers = (sleeps.map Sleep.timer).filter p) :
    timers = (sleeps.filter fun sleep => sleep.timer ∈ timers).map Sleep.timer := by
  have hmem : ∀ sleep ∈ sleeps, decide (sleep.timer ∈ timers) = p sleep.timer := by
    intro sleep hs
    rw [h]
    simp only [List.mem_filter, List.mem_map_of_mem hs, true_and, Bool.decide_eq_true]
  rw [List.filter_congr hmem, h, List.filter_map]
  rfl

end SleepState

/-- The states from boot on. -/
inductive SleepTrace : SleepState → Prop
  | boot {k : Kernel} {entry ustackTop : UInt64} (h : boot entry ustackTop = .ok k) :
      SleepTrace ⟨k, []⟩
  | step {s : SleepState} {k' : Kernel} {e : Event} (h : SleepTrace s) (he : s.kernel.enabled e)
      (hs : s.kernel.step e = .ok k') : SleepTrace (s.next e k')

variable {s : SleepState} {e : Event} {k' : Kernel}

theorem SleepTrace.inv (h : SleepTrace s) : Inv False s.kernel := by
  have htrace : ∃ states, Trace s.kernel states := by
    induction h with
    | boot h => exact ⟨_, .boot h⟩
    | step h he hs ih =>
      obtain ⟨states, h'⟩ := ih
      exact ⟨_, .step h' he hs⟩
  obtain ⟨states, h'⟩ := htrace
  exact h'.inv nofun

/-- The heap has the timers of the tasks that sleep. -/
theorem SleepTrace.timers (h : SleepTrace s) : s.kernel.timers = s.sleeps.map Sleep.timer := by
  induction h with
  | boot hb =>
    rw [boot_eq] at hb
    cases hb
    rfl
  | @step s k' e h he hs ih =>
    by_cases htimer : ∃ tie, e = .timer tie
    · obtain ⟨tie, rfl⟩ := htimer
      obtain ⟨k₁, hk₁, -, hkept⟩ := checkTimer_rings h.inv (SleepState.expire_lt ih) tie
      have hyield : k₁.yieldCurrent = .ok k' := by
        rw [Kernel.step, hk₁] at hs
        exact hs
      have htimers : k'.timers = k₁.timers :=
        ((yieldCurrent_keeps (a := none) k₁).post_of_ok hyield).timers
      rw [hkept, ih] at htimers
      exact SleepState.filter_timers htimers
    · push Not at htimer
      have htimers := (step_effect he hs).timers htimer
      by_cases hsleep : ∃ ms tf, e = .syscall (.sleep ms) tf
      · obtain ⟨ms, tf, rfl⟩ := hsleep
        exact htimers.trans (by simp [timersAfter, SleepState.next, ih, Sleep.timer, Sleep.wake])
      · push Not at hsleep
        have hsame : (s.next e k').sleeps = s.sleeps := by
          rw [SleepState.next]
          · exact hsleep
          · exact htimer
        rw [hsame, ← ih]
        exact htimers.trans (by rw [timersAfter]; exact hsleep)

namespace SleepState

/-- `check_timer` does what it should exactly when those timers are kept back that are not
due. -/
theorem exact_iff (h : SleepTrace s) (tie : List TimerCondVar → ℕ) (now : ℕ) :
    s.Exact tie now ↔ ∀ sleep ∈ s.sleeps,
      (Held TimerCondVar.key (due now) s.kernel.timers sleep.timer ↔ now < sleep.wake) := by
  have hinv : Inv False { s.kernel with timeMs := now } := h.inv.quiet ⟨rfl, rfl, rfl, rfl, id⟩
  obtain ⟨k', hk', hr, hkept⟩ := checkTimer_rings hinv (expire_lt h.timers) tie
  have hq : s.kernel.queue .timers = s.sleeps.map Sleep.task := by
    rw [queue, h.timers, List.map_map]
    rfl
  have hnodup : (s.sleeps.map Sleep.task).Nodup := by
    rw [← hq]
    exact h.inv.sched.queue_nodup .timers
  have hinj : ∀ a ∈ s.sleeps, ∀ b ∈ s.sleeps, a.task = b.task → a = b :=
    fun a ha b hb => List.inj_on_of_nodup_map hnodup ha hb
  have hmem : ∀ sleep ∈ s.sleeps, (sleep.timer ∈ k'.timers ↔
      Held TimerCondVar.key (due now) s.kernel.timers sleep.timer) := by
    intro sleep hs
    have ht : sleep.timer ∈ s.kernel.timers := by
      rw [h.timers]
      exact List.mem_map_of_mem hs
    rw [hkept, List.mem_filter, decide_eq_true_eq]
    exact and_iff_right ht
  constructor
  · rintro ⟨k'', hk'', htimers, -⟩ sleep hs
    obtain rfl : k' = k'' := Except.ok.inj (hk'.symm.trans hk'')
    rw [← hmem sleep hs, htimers, List.mem_map]
    constructor
    · rintro ⟨other, hother, heq⟩
      obtain ⟨hother, hnow⟩ := List.mem_filter.mp hother
      rw [← hinj other hother sleep hs (congrArg TimerCondVar.task heq)]
      exact of_decide_eq_true hnow
    · intro hnow
      exact ⟨sleep, List.mem_filter.mpr ⟨hs, decide_eq_true hnow⟩, rfl⟩
  · intro hall
    have htimers : k'.timers = (s.sleeps.filter fun sleep => now < sleep.wake).map Sleep.timer := by
      rw [filter_timers (hkept.trans (congrArg (List.filter _) h.timers))]
      congr 1
      exact List.filter_congr fun sleep hs => decide_eq_decide.mpr ((hmem sleep hs).trans (hall sleep hs))
    refine ⟨k', hk', htimers, fun u => (hr.state u).trans (if_congr ?_ rfl rfl)⟩
    have hq : ({ s.kernel with timeMs := now } : Kernel).queue .timers = s.sleeps.map Sleep.task := hq
    have hq' : k'.queue .timers = (s.sleeps.filter fun sleep => now < sleep.wake).map Sleep.task := by
      rw [queue, htimers, List.map_map]
      rfl
    rw [hq, hq', List.mem_map, List.mem_map]
    constructor
    · rintro ⟨⟨sleep, hs, rfl⟩, hgone⟩
      refine ⟨sleep, hs, rfl, not_lt.mp fun hnow => hgone ⟨sleep, ?_, rfl⟩⟩
      exact List.mem_filter.mpr ⟨hs, decide_eq_true hnow⟩
    · rintro ⟨sleep, hs, rfl, hnow⟩
      refine ⟨⟨sleep, hs, rfl⟩, ?_⟩
      rintro ⟨other, hother, heq⟩
      obtain ⟨hother, hlater⟩ := List.mem_filter.mp hother
      rw [hinj other hother sleep hs heq] at hlater
      exact absurd (of_decide_eq_true hlater) (not_lt.mpr hnow)

end SleepState

/-- Whatever the time is, `check_timer` wakes the tasks that are to be woken by then and no
others, exactly when no time to be woken exceeds a `usize`, and none beyond `2 ^ 63` is yet to
come while there is one below. -/
theorem sleepers_woken_iff (h : SleepTrace s) (ht : s.kernel.timeMs < 2 ^ 64) :
    (∀ tie now, s.kernel.timeMs ≤ now → now < 2 ^ 64 → s.Exact tie now) ↔
      (∀ x ∈ s.sleeps, x.wake < 2 ^ 64) ∧ ∀ x ∈ s.sleeps, ∀ y ∈ s.sleeps,
        x.wake ≤ 2 ^ 63 → 2 ^ 63 < y.wake → y.wake ≤ s.kernel.timeMs := by
  have hlt := SleepState.expire_lt h.timers
  have hmem : ∀ x ∈ s.sleeps, x.timer ∈ s.kernel.timers := by
    intro x hx
    rw [h.timers]
    exact List.mem_map_of_mem hx
  constructor
  · intro hall
    have hexact : ∀ now, s.kernel.timeMs ≤ now → now < 2 ^ 64 → ∀ x ∈ s.sleeps,
        (Held TimerCondVar.key (due now) s.kernel.timers x.timer ↔ now < x.wake) :=
      fun now h₁ h₂ => (SleepState.exact_iff h (fun _ => 0) now).mp (hall (fun _ => 0) now h₁ h₂)
    have hsmall : ∀ x ∈ s.sleeps, x.wake < 2 ^ 64 := by
      -- at the end of time nothing is kept back
      intro x hx
      by_contra hbig
      have hheld := (hexact (2 ^ 64 - 1) (by omega) (by omega) x hx).mpr (by omega)
      rw [held_iff hlt (hmem x hx)] at hheld
      rcases hheld with hnow | ⟨-, other, hother, -, hnow⟩
      · have := hlt _ (hmem x hx)
        omega
      · have := hlt _ hother
        omega
    refine ⟨hsmall, fun x hx y hy hx' hy' => ?_⟩
    by_contra hlater
    have hxe : x.timer.expireMs = x.wake := Nat.mod_eq_of_lt (hsmall x hx)
    have hye : y.timer.expireMs = y.wake := Nat.mod_eq_of_lt (hsmall y hy)
    have hy'' := hsmall y hy
    have hheld : Held TimerCondVar.key (due (max s.kernel.timeMs x.wake)) s.kernel.timers x.timer := by
      rw [held_iff hlt (hmem x hx)]
      refine .inr ⟨by omega, y.timer, hmem y hy, by omega, by omega⟩
    have := (hexact (max s.kernel.timeMs x.wake) (by omega) (by omega) x hx).mp hheld
    omega
  · rintro ⟨hsmall, hlate⟩ tie now hnow -
    rw [SleepState.exact_iff h]
    intro x hx
    have hxe : x.timer.expireMs = x.wake := Nat.mod_eq_of_lt (hsmall x hx)
    rw [held_iff hlt (hmem x hx), hxe]
    refine ⟨?_, .inl⟩
    rintro (hx' | ⟨hx', other, hother, hbig, hlater⟩)
    · exact hx'
    · rw [h.timers, List.mem_map] at hother
      obtain ⟨y, hy, rfl⟩ := hother
      have hye : y.timer.expireMs = y.wake := Nat.mod_eq_of_lt (hsmall y hy)
      have := hlate x hx y hy hx' (by omega)
      omega

/-- The state after some events, if they can happen and nothing panics. -/
def SleepState.run (s : SleepState) : List Event → Option SleepState
  | [] => some s
  | e :: es =>
    if s.kernel.enabled e then
      match s.kernel.step e with
      | .ok k' => (s.next e k').run es
      | .error _ => none
    else none

theorem SleepTrace.run {s' : SleepState} {es : List Event} (h : SleepTrace s)
    (hr : s.run es = some s') : SleepTrace s' := by
  induction es generalizing s with
  | nil =>
    cases hr
    exact h
  | cons e es ih =>
    rw [SleepState.run] at hr
    split_ifs at hr with he
    split at hr
    next k' hs => exact ih (.step h he hs) hr
    next => cases hr

/-- The shell forks, and its child goes to sleep for 5 ms. -/
theorem sleepers_woken_iff_child : ∃ s, SleepTrace s ∧ s.sleeps = [⟨0, 5, 5⟩] ∧
    ∀ tie now, s.kernel.timeMs ≤ now → now < 2 ^ 64 → s.Exact tie now := by
  have hrun : ((SleepState.mk (booted 0 0) []).run (forked ++
      [.syscall (.sleep 5) (.newUser 0 0)])).any (fun s => s.sleeps == [⟨0, 5, 5⟩] &&
        s.kernel.timeMs == 0) = true := by
    decide +kernel
  obtain ⟨s, hs, htest⟩ := (Option.any_eq_true ..).mp hrun
  have h : SleepTrace s := (SleepTrace.boot (boot_eq 0 0)).run hs
  simp only [Bool.and_eq_true, beq_iff_eq] at htest
  refine ⟨s, h, htest.1, (sleepers_woken_iff h (by omega)).mpr ?_⟩
  rw [htest.1]
  simp [Sleep.wake]

/-- The shell then sleeps for `2 ^ 63 + 1` ms, and the child is not woken at its time. -/
theorem child_kept_asleep : ∃ s, SleepTrace s ∧ s.kernel.timeMs = 0 ∧
    s.sleeps = [⟨0, 5, 5⟩, ⟨0, 2 ^ 63 + 1, 4⟩] ∧ ∀ tie, ¬ s.Exact tie 5 := by
  have hrun : ((SleepState.mk (booted 0 0) []).run (forked ++ [.syscall (.sleep 5) (.newUser 0 0),
      .proceed .zero, .syscall (.sleep (2 ^ 63 + 1)) (.newUser 0 0)])).any (fun s =>
        s.sleeps == [⟨0, 5, 5⟩, ⟨0, 2 ^ 63 + 1, 4⟩] && s.kernel.timeMs == 0) = true := by
    decide +kernel
  obtain ⟨s, hs, htest⟩ := (Option.any_eq_true ..).mp hrun
  have h : SleepTrace s := (SleepTrace.boot (boot_eq 0 0)).run hs
  simp only [Bool.and_eq_true, beq_iff_eq] at htest
  refine ⟨s, h, htest.2, htest.1, fun tie hexact => ?_⟩
  have hchild := (SleepState.exact_iff h tie 5).mp hexact ⟨0, 5, 5⟩ (by simp [htest.1])
  have htimers : s.kernel.timers = [⟨5, 5⟩, ⟨2 ^ 63 + 1, 4⟩] := by
    rw [h.timers, htest.1]
    rfl
  rw [htimers] at hchild
  exact absurd hchild (by decide)

end RCore.Os
