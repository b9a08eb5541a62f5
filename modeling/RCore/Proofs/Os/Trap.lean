import RCore.Spec.Os.Context

/-! What runs when an exception is taken goes on as the trap frame says once the handler returns. -/

namespace RCore.Os

open RCore.Lib.A64

variable {t : TrapText} {s s' s₀ : State} {kind : Kind} {source : Source} {user : Set Word}

/-- What `SAVE_REGS` stores, in the order of the words. -/
def savedWords (s : State) : List (ℕ × Word) :=
  (List.finRange 31).map (fun r => (r.val, s.x r)) ++ [(31, s.sys .spEl0), (32, s.sys .elrEl1), (33, s.sys .spsrEl1)]

theorem run_saveRegs (s : State) :
    (run s saveRegs).sp = s.sp - 272 ∧ (run s saveRegs).mem = stores s.mem (s.sp - 272) (savedWords s) :=
  ⟨rfl, rfl⟩

theorem lt_of_mem_savedWords : ∀ p ∈ savedWords s, p.1 < 34 := by
  intro p hp
  rcases List.mem_append.mp hp with hp | hp
  · obtain ⟨r, -, rfl⟩ := List.mem_map.mp hp
    exact r.isLt.trans (by decide)
  · simp only [List.mem_cons, List.not_mem_nil, or_false] at hp
    rcases hp with rfl | rfl | rfl <;> simp

/-- The frame that has been stored. -/
theorem ofMem_savedWords (m : Mem) (a : Word) (s : State) :
    TrapFrame.ofMem (stores m a (savedWords s)) a =
      ⟨Vector.ofFn fun i => ⟨s.x i⟩, ⟨s.sys .spEl0⟩, ⟨s.sys .elrEl1⟩, ⟨s.sys .spsrEl1⟩⟩ := by
  have hload : ∀ k < 34, load (stores m a (savedWords s)) (slot a k) =
      ((savedWords s).reverse.lookup k).getD (load m (slot a k)) := fun k hk =>
    load_stores (by omega) lt_of_mem_savedWords hk
  have hlookup : ∀ i : Fin 31, (savedWords s).reverse.lookup i.val = some (s.x i) := by
    intro i
    fin_cases i <;> rfl
  rw [TrapFrame.ofMem, hload 31 (by omega), hload 32 (by omega), hload 33 (by omega)]
  congr 2
  funext i
  rw [hload i (by omega), hlookup]
  rfl

/-- `RESTORE_REGS` and `eret`. -/
theorem exit_eq (user : Set Word) (t : TrapText) (s : State) :
    UserView.ofState user (t.exit s) = UserView.ofHandler user s ∧ (t.exit s).sp = s.sp + 272 := by
  obtain ⟨s₁, hs₁⟩ : ∃ s₁, s₁ = run s [.b t.exceptionReturn, .ldp 10 11 .sp 32, .ldp 30 9 .sp 30, .msr .spEl0 9,
    .msr .elrEl1 10, .msr .spsrEl1 11] := ⟨_, rfl⟩
  have hcode : t.exit s = run (run s₁ (loadPairs .sp 0 (List.range 15).reverse)) [.addSp (34 * 8), .eret] := by
    rw [hs₁]
    rfl
  obtain ⟨pc, hrun⟩ := run_loadPairs s₁ .sp 0 (List.range 15).reverse (by decide) nofun
  rw [hcode, hrun, hs₁]
  refine ⟨?_, rfl⟩
  unfold UserView.ofState UserView.ofHandler TrapFrame.ofState TrapFrame.ofMem
  congr 3
  funext i
  change UInt64.ofBitVec (if 0 ≤ i.val ∧ i.val / 2 ∈ (List.range 15).reverse then load s.mem (slot s.sp i) else _) = _
  split_ifs with hi
  · rfl
  · obtain rfl : i = 30 := by
      revert i
      decide
    rfl

/-- The handler is called, on the kernel stack, with the frame of what has been interrupted. -/
structure Called (handler : Word) (s s' : State) : Prop where
  pc : s'.pc = handler
  sp : s'.sp = s.sp - 272
  arg : s'.x 0 = s'.sp
  frame : TrapFrame.ofMem s'.mem s'.sp = TrapFrame.ofState s
  mem : ∀ b, 272 ≤ (b - s'.sp).toNat → s'.mem b = s.mem b

/-- The function that is called for an exception. -/
def TrapText.handler (t : TrapText) : Kind → Source → Word
  | .synchronous, .currentSpElx | .synchronous, .lowerAArch64 => t.handleSyncException
  | .irq, .currentSpElx | .irq, .lowerAArch64 => t.handleIrqException
  | _, _ => t.invalidException

/-- The code of a vector saves the registers first, and calls the handler with the frame. -/
theorem vector_code (t : TrapText) (kind : Kind) (source : Source) :
    ∃ args, t.exceptionVectors.getD (vector kind source) [] = saveRegs ++ args ∧ ∀ s,
      (run s args).pc = t.handler kind source ∧ (run s args).sp = s.sp ∧ (run s args).x 0 = s.sp ∧
        (run s args).mem = s.mem := by
  cases kind <;> cases source <;> exact ⟨_, rfl, fun s => ⟨rfl, rfl, rfl, rfl⟩⟩

/-- For every kind of exception, wherever it is taken. -/
theorem entry_called (t : TrapText) (kind : Kind) (source : Source) (s : State) :
    Called (t.handler kind source) s (t.entry kind source s) := by
  obtain ⟨args, hcode, hargs⟩ := vector_code t kind source
  obtain ⟨hsp, hmem⟩ := run_saveRegs (s.takeException t.vectors kind source)
  obtain ⟨hpc, hsp', harg, hmem'⟩ := hargs (run (s.takeException t.vectors kind source) saveRegs)
  have hentry : t.entry kind source s = run (run (s.takeException t.vectors kind source) saveRegs) args := by
    rw [TrapText.entry, hcode, run_append]
  rw [hsp] at hsp'
  rw [hmem] at hmem'
  rw [hentry]
  refine ⟨hpc, hsp', harg.trans (hsp.trans hsp'.symm), ?_, fun b hb => ?_⟩
  · rw [hsp', hmem', ofMem_savedWords]
    rfl
  · rw [hsp'] at hb
    rw [hmem']
    exact stores_apply (n := 34) (by omega) lt_of_mem_savedWords hb

theorem Called.view {handler : Word} (hc : Called handler s s') (huser : ∀ a ∈ user, 272 ≤ (a - (s.sp - 272)).toNat) :
    UserView.ofHandler user s' = UserView.ofState user s := by
  have hmem : (fun a : user => s'.mem a) = fun a : user => s.mem a := by
    funext a
    exact hc.mem a (by rw [hc.sp]; exact huser a a.2)
  rw [UserView.ofHandler, UserView.ofState, hc.frame, hmem]

/-- The kernel stack is as it was when the handler was called. -/
theorem exit_sp (hsp : s'.sp = (t.entry kind source s).sp) : (t.exit s').sp = s.sp := by
  rw [(exit_eq ∅ t s').2, hsp, (entry_called t kind source s).sp]
  exact BitVec.sub_add_cancel ..

section runs

variable {prog : UserView user → UserView user} {handles : Kind → UserView user → UserView user → Prop}

theorem TrapRun.sp (hr : TrapRun t prog handles s₀ s) : s.sp = s₀.sp := by
  induction hr with
  | start => rfl
  | user _ hsp _ ih => rw [hsp, ih]
  | trap _ _ hsp _ ih => rw [exit_sp hsp, ih]

/-- In every run of a program the exceptions it takes are single steps of what it can see: a
handler is called with the registers of the program in the frame, whatever it leaves there the
program goes on with, and the vectors change nothing else. -/
theorem traps_are_steps (huser : ∀ a ∈ user, 272 ≤ (a - (s₀.sp - 272)).toNat) (hr : TrapRun t prog handles s₀ s) :
    ViewRun prog handles (UserView.ofState user s₀) (UserView.ofState user s) ∧ s.sp = s₀.sp ∧
      ∀ kind, (t.entry kind .lowerAArch64 s).pc = t.handler kind .lowerAArch64 ∧
        (t.entry kind .lowerAArch64 s).x 0 = (t.entry kind .lowerAArch64 s).sp ∧
        UserView.ofHandler user (t.entry kind .lowerAArch64 s) = UserView.ofState user s := by
  refine ⟨?_, hr.sp, fun kind => ?_⟩
  · induction hr with
    | start => exact .start
    | user _ _ hs ih =>
      rw [hs]
      exact ih.user
    | trap hr _ _ hh ih =>
      rw [(entry_called t _ _ _).view (by rw [hr.sp]; exact huser)] at hh
      rw [(exit_eq ..).1]
      exact ih.trap hh
  · have hc := entry_called t kind .lowerAArch64 s
    exact ⟨hc.pc, hc.arg, hc.view (by rw [hr.sp]; exact huser)⟩

/-- A program that can see all memory but the frame is interrupted, by a handler that changes
nothing. -/
theorem traps_are_steps_interrupted : ∃ (user : Set Word) (s₀ s : State), 0 ∈ user ∧
    TrapRun ⟨0x1000, 0, 0, 0, 0⟩ (@id (UserView user)) (fun _ v v' => v' = v) s₀ s ∧
      ViewRun id (fun _ v v' => v' = v) (UserView.ofState user s₀) (UserView.ofState user s) := by
  obtain ⟨s₀, hs₀⟩ : ∃ s₀ : State, s₀.sp = 0x10000 := ⟨⟨fun _ => 0, 0x10000, fun _ => 0, fun _ => 0, 0, 0⟩, rfl⟩
  have hrun : TrapRun ⟨0x1000, 0, 0, 0, 0⟩ (@id (UserView {a | 272 ≤ (a - (s₀.sp - 272)).toNat}))
    (fun _ v v' => v' = v) s₀ _ := TrapRun.start.trap (.inr rfl) rfl rfl
  refine ⟨_, s₀, _, ?_, hrun, (traps_are_steps (fun _ ha => ha) hrun).1⟩
  rw [Set.mem_ofPred_eq, hs₀]
  decide

end runs

end RCore.Os
