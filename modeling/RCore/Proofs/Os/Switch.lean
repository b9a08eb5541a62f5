import RCore.Spec.Os.Context

/-! A task that is switched to goes on with what it had when it was switched from. -/

namespace RCore.Os

open RCore.Lib.A64

namespace TaskContext

variable {s : State} {m : Mem} {a b old new : Word} {l : List (ℕ × Word)}

/-- What the first half of `context_switch` stores. -/
def switchWords (s : State) : List (ℕ × Word) :=
  [(12, s.x 29), (13, s.x 30), (10, s.x 27), (11, s.x 28), (8, s.x 25), (9, s.x 26), (6, s.x 23), (7, s.x 24),
    (4, s.x 21), (5, s.x 22), (2, s.x 19), (3, s.x 20), (0, s.sp), (1, s.sys .tpidrEl0)]

theorem lt_of_mem_switchWords : ∀ p ∈ switchWords s, p.1 < 14 := by simp [switchWords]

theorem ofMem_stores_of_apart (hab : Apart 120 a b) (hl : ∀ p ∈ l, p.1 < 14) :
    ofMem (stores m a l) b = ofMem m b := by
  have hload : ∀ k < 15, load (stores m a l) (slot b k) = load m (slot b k) := fun k hk =>
    load_slot_of_apart hab (fun c hc => stores_apply (n := 14) (by omega) hl (by omega)) (by omega)
  unfold ofMem
  simp (disch := omega) only [hload]

/-- The context that has been stored; the page table stays. -/
theorem ofMem_switchWords (m : Mem) (a : Word) (s : State) :
    ofMem (stores m a (switchWords s)) a = { ofState s with ttbr0El1 := load m (slot a 14) } := by
  have hload : ∀ k < 15, load (stores m a (switchWords s)) (slot a k) =
      ((switchWords s).reverse.lookup k).getD (load m (slot a k)) := fun k hk =>
    load_stores (by omega) (fun p hp => (lt_of_mem_switchWords p hp).trans (by omega)) hk
  unfold ofMem
  simp (disch := omega) only [hload]
  rfl

theorem run_save (s : State) : (run s (contextSwitch.take 9)).mem = stores s.mem (s.x 0) (switchWords s) ∧
    (run s (contextSwitch.take 9)).x 1 = s.x 1 ∧ (run s (contextSwitch.take 9)).sys = s.sys := by
  simp only [contextSwitch, List.take, run, Instr.exec, switchWords, stores, State.next, State.base]
  exact ⟨rfl, rfl, rfl⟩

theorem run_restore (s : State) :
    ofState (run s (contextSwitch.drop 9)) = { ofMem s.mem (s.x 1) with ttbr0El1 := s.sys .ttbr0El1 } ∧
      (run s (contextSwitch.drop 9)).pc = (ofMem s.mem (s.x 1)).lr ∧ (run s (contextSwitch.drop 9)).mem = s.mem := by
  obtain ⟨s₁, hs₁⟩ : ∃ s₁, s₁ = run s [.ldp 19 20 (.x 1) 0, .movToSp 19, .msr .tpidrEl0 20] := ⟨_, rfl⟩
  have hcode : run s (contextSwitch.drop 9) = run (run s₁ (loadPairs (.x 1) 17 [1, 2, 3, 4, 5, 6])) [.ret] := by
    rw [hs₁]
    rfl
  obtain ⟨pc, hrun⟩ := run_loadPairs s₁ (.x 1) 17 [1, 2, 3, 4, 5, 6] (by decide) (by
    intro r hr
    cases hr
    decide)
  rw [hcode, hrun, hs₁]
  exact ⟨rfl, rfl, rfl⟩

/-- `context_switch` -/
theorem run_contextSwitch (s : State) (hapart : Apart 120 (s.x 0) (s.x 1)) :
    ofState (run s contextSwitch) = { ofMem s.mem (s.x 1) with ttbr0El1 := s.sys .ttbr0El1 } ∧
      (run s contextSwitch).pc = (ofMem s.mem (s.x 1)).lr ∧
      (run s contextSwitch).mem = stores s.mem (s.x 0) (switchWords s) := by
  obtain ⟨hmem, hx, hsys⟩ := run_save s
  obtain ⟨hstate, hpc, hmem'⟩ := run_restore (run s (contextSwitch.take 9))
  rw [← run_append, List.take_append_drop, hmem] at hstate hpc hmem'
  rw [hx, ofMem_stores_of_apart hapart lt_of_mem_switchWords] at hstate hpc
  rw [hsys] at hstate
  exact ⟨hstate, hpc, hmem'⟩

/-- `switch_to` -/
structure Switched (s s' : State) (old new : Word) : Prop where
  context : ofState s' = ofMem s.mem new
  pc : s'.pc = (ofMem s.mem new).lr
  saved : ofMem s'.mem old = { ofState s with ttbr0El1 := (ofMem s.mem old).ttbr0El1 }
  mem : ∀ b, 112 ≤ (b - old).toNat → s'.mem b = s.mem b
  apart : ∀ a, Apart 120 old a → ofMem s'.mem a = ofMem s.mem a

theorem switched (s : State) (hapart : Apart 120 old new) : Switched s (switchTo s old new) old new := by
  obtain ⟨hstate, hpc, hmem⟩ := run_contextSwitch
    (((s.setSys .ttbr0El1 (ofMem s.mem new).ttbr0El1).setX 0 old).setX 1 new) hapart
  have hsaved : (switchTo s old new).mem = stores s.mem old (switchWords s) := hmem
  refine ⟨hstate, hpc, ?_, fun b hb => ?_, fun a ha => ?_⟩
  · rw [hsaved, ofMem_switchWords]
    rfl
  · rw [hsaved]
    exact stores_apply (n := 14) (by omega) lt_of_mem_switchWords hb
  · rw [hsaved, ofMem_stores_of_apart ha lt_of_mem_switchWords]

end TaskContext

section runs

variable {ι : Type} [DecidableEq ι] {ctx : ι → Word} {s₀ s : State} {cur₀ cur : ι} {left : ι → TaskContext}

/-- The contexts in memory are those that the tasks have left, and each has the page table of
its task, as `TTBR0_EL1` does. -/
structure SwitchRun.Kept (ctx : ι → Word) (s : State) (cur : ι) (left : ι → TaskContext) : Prop where
  left : ∀ i ≠ cur, TaskContext.ofMem s.mem (ctx i) = left i
  root : s.sys .ttbr0El1 = (TaskContext.ofMem s.mem (ctx cur)).ttbr0El1

theorem SwitchRun.kept (hapart : ∀ i j, i ≠ j → Apart 120 (ctx i) (ctx j))
    (hroot : s₀.sys .ttbr0El1 = (TaskContext.ofMem s₀.mem (ctx cur₀)).ttbr0El1)
    (hr : SwitchRun ctx s₀ cur₀ s cur left) : SwitchRun.Kept ctx s cur left := by
  induction hr with
  | start => exact ⟨fun _ _ => rfl, hroot⟩
  | code _ hctx hroot ih =>
    refine ⟨fun i hi => ?_, ?_⟩
    · rw [hctx, ih.left i hi]
    · rw [hroot, hctx, ih.root]
  | @init s s' cur i left c entry kstackTop pageTableRoot _ hi _ hnew hctx hroot ih =>
    refine ⟨fun j hj => ?_, ?_⟩
    · by_cases hji : j = i
      · rw [hji, Function.update_self, hnew]
      · rw [Function.update_of_ne hji, hctx j hji, ih.left j hj]
    · rw [hroot, hctx cur hi.symm, ih.root]
  | @switch s cur next left _ hne ih =>
    have hsw := TaskContext.switched s (hapart cur next hne.symm)
    refine ⟨fun j hj => ?_, ?_⟩
    · by_cases hjc : j = cur
      · rw [hjc, Function.update_self, hsw.saved, ← ih.root]
        rfl
      · rw [Function.update_of_ne hjc, hsw.apart _ (hapart cur j (Ne.symm hjc)), ih.left j hjc]
    · rw [hsw.apart _ (hapart cur next hne.symm), ← hsw.context]
      rfl

/-- In every run of the kernel, whatever tasks it switches between and creates, a task that is
switched to has the registers, the stack and the page table that it had when it was switched
from, and returns to where it called from; a new one starts at its entry. The switch changes no
memory but the registers of the old context. -/
theorem switch_resumes (hapart : ∀ i j, i ≠ j → Apart 120 (ctx i) (ctx j))
    (hroot : s₀.sys .ttbr0El1 = (TaskContext.ofMem s₀.mem (ctx cur₀)).ttbr0El1)
    (hr : SwitchRun ctx s₀ cur₀ s cur left) :
    ∀ next ≠ cur, TaskContext.ofState (TaskContext.switchTo s (ctx cur) (ctx next)) = left next ∧
      (TaskContext.switchTo s (ctx cur) (ctx next)).pc = (left next).lr ∧
      (∀ b, 112 ≤ (b - ctx cur).toNat → (TaskContext.switchTo s (ctx cur) (ctx next)).mem b = s.mem b) := by
  intro next hne
  have hkept := hr.kept hapart hroot
  have hsw := TaskContext.switched s (hapart cur next hne.symm)
  refine ⟨?_, ?_, hsw.mem⟩
  · rw [hsw.context, hkept.left next hne]
  · rw [hsw.pc, hkept.left next hne]

/-- Two tasks: the first one is left and comes back. -/
theorem switch_resumes_back : ∃ s₀ : State, s₀.sp = 0x8000 ∧
    TaskContext.ofState (TaskContext.switchTo (TaskContext.switchTo s₀ 0x1000 0x2000) 0x2000 0x1000) =
      TaskContext.ofState s₀ := by
  obtain ⟨s₀, hs₀⟩ : ∃ s₀ : State,
    s₀ = ⟨fun _ => 7, 0x8000, fun _ => load (fun _ => 0) (slot 0x1000 14), fun _ => 0, 0, 0⟩ := ⟨_, rfl⟩
  obtain ⟨ctx, hfalse, htrue⟩ : ∃ ctx : Bool → Word, ctx false = 0x1000 ∧ ctx true = 0x2000 :=
    ⟨fun i => cond i 0x2000 0x1000, rfl, rfl⟩
  have hapart : ∀ i j, i ≠ j → Apart 120 (ctx i) (ctx j) := by
    intro i j hij
    cases i <;> cases j <;> first | exact absurd rfl hij | (rw [hfalse, htrue]; decide)
  have hroot : s₀.sys .ttbr0El1 = (TaskContext.ofMem s₀.mem (ctx false)).ttbr0El1 := by
    rw [hs₀, hfalse]
    rfl
  have hrun : SwitchRun ctx s₀ false _ true _ := .switch .start (by decide)
  refine ⟨s₀, by rw [hs₀], ?_⟩
  rw [← hfalse, ← htrue, (switch_resumes hapart hroot hrun false (by decide)).1, Function.update_self]

end runs

end RCore.Os
