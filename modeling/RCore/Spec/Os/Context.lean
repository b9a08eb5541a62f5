import RCore.Lib.A64
import RCore.Spec.Os.Signal

/-! The code in assembly: the exception vectors (`trap/trap.S`) and the switch from one task to
another (`task/switch.rs`). -/

namespace RCore.Os

open RCore.Lib.A64

/-- `SAVE_REGS` -/
def saveRegs : List Instr :=
  [.subSp (34 * 8),
    .stp 0 1 .sp 0, .stp 2 3 .sp 2, .stp 4 5 .sp 4, .stp 6 7 .sp 6, .stp 8 9 .sp 8,
    .stp 10 11 .sp 10, .stp 12 13 .sp 12, .stp 14 15 .sp 14, .stp 16 17 .sp 16, .stp 18 19 .sp 18,
    .stp 20 21 .sp 20, .stp 22 23 .sp 22, .stp 24 25 .sp 24, .stp 26 27 .sp 26, .stp 28 29 .sp 28,
    .mrs 9 .spEl0, .mrs 10 .elrEl1, .mrs 11 .spsrEl1,
    .stp 30 9 .sp 30, .stp 10 11 .sp 32]

/-- `RESTORE_REGS` -/
def restoreRegs : List Instr :=
  [.ldp 10 11 .sp 32, .ldp 30 9 .sp 30,
    .msr .spEl0 9, .msr .elrEl1 10, .msr .spsrEl1 11,
    .ldp 28 29 .sp 28, .ldp 26 27 .sp 26, .ldp 24 25 .sp 24, .ldp 22 23 .sp 22, .ldp 20 21 .sp 20,
    .ldp 18 19 .sp 18, .ldp 16 17 .sp 16, .ldp 14 15 .sp 14, .ldp 12 13 .sp 12, .ldp 10 11 .sp 10,
    .ldp 8 9 .sp 8, .ldp 6 7 .sp 6, .ldp 4 5 .sp 4, .ldp 2 3 .sp 2, .ldp 0 1 .sp 0,
    .addSp (34 * 8)]

/-- Where the vectors are, the functions that they call, and `.Lexception_return`. -/
structure TrapText where
  vectors : Word
  handleSyncException : Word
  handleIrqException : Word
  invalidException : Word
  exceptionReturn : Word

namespace TrapText

variable (t : TrapText)

/-- `INVALID_EXCP`, up to the call; what follows it is `b .Lexception_return` in all of these. -/
def invalidExcp (kind source : Word) : List Instr :=
  saveRegs ++ [.movFromSp 0, .mov 1 kind, .mov 2 source, .bl t.invalidException]

/-- `HANDLE_SYNC` -/
def handleSync : List Instr := saveRegs ++ [.movFromSp 0, .bl t.handleSyncException]

/-- `HANDLE_IRQ` -/
def handleIrq : List Instr := saveRegs ++ [.movFromSp 0, .bl t.handleIrqException]

/-- `exception_vector_base` -/
def exceptionVectors : List (List Instr) :=
  [ -- current EL, with SP_EL0
    t.invalidExcp 0 0, t.invalidExcp 1 0, t.invalidExcp 2 0, t.invalidExcp 3 0,
    -- current EL, with SP_ELx
    t.handleSync, t.handleIrq, t.invalidExcp 2 1, t.invalidExcp 3 1,
    -- lower EL, aarch64
    t.handleSync, t.handleIrq, t.invalidExcp 2 2, t.invalidExcp 3 2,
    -- lower EL, aarch32
    t.invalidExcp 0 3, t.invalidExcp 1 3, t.invalidExcp 2 3, t.invalidExcp 3 3]

/-- An exception, up to the call of its handler. -/
def entry (kind : Kind) (source : Source) (s : State) : State :=
  run (s.takeException t.vectors kind source) (t.exceptionVectors.getD (vector kind source) [])

/-- From the return of the handler on, up to where what was interrupted goes on. -/
def exit (s : State) : State := run s (.b t.exceptionReturn :: restoreRegs ++ [.eret])

end TrapText

namespace TrapFrame

/-- The frame at an address: `repr(C)` puts its fields in order. -/
def ofMem (m : Mem) (a : Word) : TrapFrame where
  r := Vector.ofFn fun i => ⟨load m (slot a i)⟩
  usp := ⟨load m (slot a 31)⟩
  elr := ⟨load m (slot a 32)⟩
  spsr := ⟨load m (slot a 33)⟩

/-- The registers of what runs. -/
def ofState (s : State) : TrapFrame where
  r := Vector.ofFn fun i => ⟨s.x i⟩
  usp := ⟨s.sys .spEl0⟩
  elr := ⟨s.pc⟩
  spsr := ⟨s.pstate⟩

end TrapFrame

/-- What a program in user mode can see: its registers, and the memory at its addresses. -/
structure UserView (user : Set Word) where
  tf : TrapFrame
  mem : user → BitVec 8

def UserView.ofState (user : Set Word) (s : State) : UserView user :=
  ⟨TrapFrame.ofState s, fun a => s.mem a⟩

/-- What there is of it while a handler runs: the frame at the stack pointer, and the memory. -/
def UserView.ofHandler (user : Set Word) (s : State) : UserView user :=
  ⟨TrapFrame.ofMem s.mem s.sp, fun a => s.mem a⟩

/-- The runs of a program in user mode. `prog` is what it does in a step, `handles` what the
handlers may make of what it can see; they return with the stack as it was. -/
inductive TrapRun (t : TrapText) {user : Set Word} (prog : UserView user → UserView user)
    (handles : Kind → UserView user → UserView user → Prop) (s₀ : State) : State → Prop
  | start : TrapRun t prog handles s₀ s₀
  | user {s s' : State} (hr : TrapRun t prog handles s₀ s) (hsp : s'.sp = s.sp)
      (hs : UserView.ofState user s' = prog (UserView.ofState user s)) : TrapRun t prog handles s₀ s'
  | trap {s s' : State} {kind : Kind} (hr : TrapRun t prog handles s₀ s) (hkind : kind = .synchronous ∨ kind = .irq)
      (hsp : s'.sp = (t.entry kind .lowerAArch64 s).sp)
      (hh : handles kind (UserView.ofHandler user (t.entry kind .lowerAArch64 s)) (UserView.ofHandler user s')) :
      TrapRun t prog handles s₀ (t.exit s')

/-- What the program can see: its own steps, and what the handlers do, which are one step each. -/
inductive ViewRun {user : Set Word} (prog : UserView user → UserView user)
    (handles : Kind → UserView user → UserView user → Prop) (v₀ : UserView user) : UserView user → Prop
  | start : ViewRun prog handles v₀ v₀
  | user {v : UserView user} (hr : ViewRun prog handles v₀ v) : ViewRun prog handles v₀ (prog v)
  | trap {v v' : UserView user} {kind : Kind} (hr : ViewRun prog handles v₀ v) (hh : handles kind v v') :
      ViewRun prog handles v₀ v'

/-- What a task has in the registers that a function keeps for its caller, and its page table. -/
structure TaskContext where
  (sp tpidrEl0 r19 r20 r21 r22 r23 r24 r25 r26 r27 r28 r29 : Word)
  /-- `r30` -/
  lr : Word
  ttbr0El1 : Word

namespace TaskContext

/-- The context at an address. -/
def ofMem (m : Mem) (a : Word) : TaskContext :=
  let word i := load m (slot a i)
  ⟨word 0, word 1, word 2, word 3, word 4, word 5, word 6, word 7, word 8, word 9, word 10, word 11,
    word 12, word 13, word 14⟩

/-- The context of what runs, which returns to `x30`. -/
def ofState (s : State) : TaskContext :=
  ⟨s.sp, s.sys .tpidrEl0, s.x 19, s.x 20, s.x 21, s.x 22, s.x 23, s.x 24, s.x 25, s.x 26, s.x 27,
    s.x 28, s.x 29, s.x 30, s.sys .ttbr0El1⟩

/-- `TaskContext::default` -/
def default : TaskContext := ⟨0, 0, 0, 0, 0, 0, 0, 0, 0, 0, 0, 0, 0, 0, 0⟩

def init (c : TaskContext) (entry kstackTop pageTableRoot : Word) : TaskContext :=
  { c with sp := kstackTop, lr := entry, ttbr0El1 := pageTableRoot }

end TaskContext

/-- `context_switch`: the old context is at `x0`, the new one at `x1`. -/
def contextSwitch : List Instr :=
  [ -- save old context (callee-saved registers)
    .stp 29 30 (.x 0) 12, .stp 27 28 (.x 0) 10, .stp 25 26 (.x 0) 8, .stp 23 24 (.x 0) 6,
    .stp 21 22 (.x 0) 4, .stp 19 20 (.x 0) 2,
    .movFromSp 19, .mrs 20 .tpidrEl0, .stp 19 20 (.x 0) 0,
    -- restore new context
    .ldp 19 20 (.x 1) 0, .movToSp 19, .msr .tpidrEl0 20,
    .ldp 19 20 (.x 1) 2, .ldp 21 22 (.x 1) 4, .ldp 23 24 (.x 1) 6, .ldp 25 26 (.x 1) 8,
    .ldp 27 28 (.x 1) 10, .ldp 29 30 (.x 1) 12,
    .ret]

/-- `switch_to`: `activate_paging` with the page table of the new context, and the call of
`context_switch`, which returns in the new task. -/
def TaskContext.switchTo (s : State) (old new : Word) : State :=
  let s := s.setSys .ttbr0El1 (ofMem s.mem new).ttbr0El1
  run ((s.setX 0 old).setX 1 new) contextSwitch

/-- The contexts of tasks at the addresses `ctx` while the kernel runs, `cur` the task that does.
`left` is the context that a task had when it called `context_switch` last, or has been created
with. Code between the switches does not touch the contexts, nor `TTBR0_EL1`. -/
inductive SwitchRun {ι : Type} [DecidableEq ι] (ctx : ι → Word) (s₀ : State) (cur₀ : ι) :
    State → ι → (ι → TaskContext) → Prop
  | start : SwitchRun ctx s₀ cur₀ s₀ cur₀ fun i => .ofMem s₀.mem (ctx i)
  | code {s s' : State} {cur : ι} {left : ι → TaskContext} (hr : SwitchRun ctx s₀ cur₀ s cur left)
      (hctx : ∀ i, TaskContext.ofMem s'.mem (ctx i) = .ofMem s.mem (ctx i))
      (hroot : s'.sys .ttbr0El1 = s.sys .ttbr0El1) : SwitchRun ctx s₀ cur₀ s' cur left
  /-- `Task::new_kernel`, `Task::new_user` and so on -/
  | init {s s' : State} {cur i : ι} {left : ι → TaskContext} {c : TaskContext} (entry kstackTop pageTableRoot : Word)
      (hr : SwitchRun ctx s₀ cur₀ s cur left) (hi : i ≠ cur)
      (hc : c = TaskContext.default.init entry kstackTop pageTableRoot) (hnew : .ofMem s'.mem (ctx i) = c)
      (hctx : ∀ j ≠ i, TaskContext.ofMem s'.mem (ctx j) = .ofMem s.mem (ctx j))
      (hroot : s'.sys .ttbr0El1 = s.sys .ttbr0El1) : SwitchRun ctx s₀ cur₀ s' cur (Function.update left i c)
  | switch {s : State} {cur next : ι} {left : ι → TaskContext} (hr : SwitchRun ctx s₀ cur₀ s cur left)
      (hne : next ≠ cur) :
      SwitchRun ctx s₀ cur₀ (TaskContext.switchTo s (ctx cur) (ctx next)) next
        (Function.update left cur (.ofState s))

end RCore.Os
