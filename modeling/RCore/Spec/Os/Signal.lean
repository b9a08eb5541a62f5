import Mathlib.Data.BitVec
import Mathlib.Data.List.FinRange
import Mathlib.Tactic

/-! `context.rs` and `signal.rs`: what a trap saves of a user task, the signals and
their default actions, and the state that a task keeps about its signals. -/

namespace RCore.Os

/-- The registers of a user task. -/
structure TrapFrame where
  /-- General-purpose registers (R0..R30). -/
  r : Vector UInt64 31
  /-- User Stack Pointer (SP_EL0). -/
  usp : UInt64
  /-- Exception Link Register (ELR_EL1). -/
  elr : UInt64
  /-- Saved Process Status Register (SPSR_EL1). -/
  spsr : UInt64
deriving DecidableEq

namespace TrapFrame

/-- EL0t, with IRQs enabled and D, A and F masked. -/
def SPSR_USER : UInt64 := 0x340

def newUser (entry ustackTop : UInt64) : TrapFrame :=
  ⟨.replicate 31 0, ustackTop, entry, SPSR_USER⟩

def newUserArg (entry ustackTop arg0 arg1 : UInt64) : TrapFrame :=
  let tf := newUser entry ustackTop
  { tf with r := (tf.r.set 0 arg0).set 1 arg1 }

/-- What a system call returns is in `r[0]`. -/
def r0 (tf : TrapFrame) : UInt64 := tf.r[0]

def setR0 (tf : TrapFrame) (value : UInt64) : TrapFrame := { tf with r := tf.r.set 0 value }

/-- For the child process, fork returns 0. -/
def newFork (tf : TrapFrame) : TrapFrame := tf.setR0 0

end TrapFrame

abbrev MAX_SIG : ℕ := 31

structure SignalFlags where
  bits : BitVec 32
deriving DecidableEq

namespace SignalFlags

/-- Each of the 32 bits is a signal. -/
def fromBits (bits : BitVec 32) : Option SignalFlags := some ⟨bits⟩

/-- `1 << signum`: the number of the shift is taken modulo 32. -/
def shift (signum : ℤ) : BitVec 32 := 1#32 <<< (signum % 32).toNat

def empty : SignalFlags := ⟨0⟩

def contains (flags other : SignalFlags) : Bool := flags.bits &&& other.bits == other.bits

def insert (flags other : SignalFlags) : SignalFlags := ⟨flags.bits ||| other.bits⟩

def inter (flags other : SignalFlags) : SignalFlags := ⟨flags.bits &&& other.bits⟩

/-- `^=` -/
def toggle (flags other : SignalFlags) : SignalFlags := ⟨flags.bits ^^^ other.bits⟩

def SIGDEF : SignalFlags := ⟨1⟩
def SIGINT : SignalFlags := ⟨1 <<< 2⟩
def SIGQUIT : SignalFlags := ⟨1 <<< 3⟩
def SIGILL : SignalFlags := ⟨1 <<< 4⟩
def SIGTRAP : SignalFlags := ⟨1 <<< 5⟩
def SIGABRT : SignalFlags := ⟨1 <<< 6⟩
def SIGFPE : SignalFlags := ⟨1 <<< 8⟩
def SIGKILL : SignalFlags := ⟨1 <<< 9⟩
def SIGSEGV : SignalFlags := ⟨1 <<< 11⟩
def SIGCONT : SignalFlags := ⟨1 <<< 18⟩
def SIGSTOP : SignalFlags := ⟨1 <<< 19⟩

def KERNEL_SIGNAL : SignalFlags := ((SIGKILL.insert SIGSTOP).insert SIGCONT).insert SIGDEF

def TRAP_QUIT : SignalFlags := SIGQUIT.insert SIGTRAP

def checkError (flags : SignalFlags) : Option (Int32 × String) :=
  if flags.contains SIGINT then some (-2, "Killed, SIGINT=2")
  else if flags.contains SIGILL then some (-4, "Illegal Instruction, SIGILL=4")
  else if flags.contains SIGABRT then some (-6, "Aborted, SIGABRT=6")
  else if flags.contains SIGFPE then some (-8, "Erroneous Arithmetic Operation, SIGFPE=8")
  else if flags.contains SIGKILL then some (-9, "Killed, SIGKILL=9")
  else if flags.contains SIGSEGV then some (-11, "Segmentation Fault, SIGSEGV=11")
  else none

end SignalFlags

open SignalFlags

/-- Action for a signal. -/
structure SignalAction where
  handler : UInt64
  mask : SignalFlags
deriving DecidableEq

def SignalAction.default : SignalAction := ⟨0, ⟨40⟩⟩

/-- The actions of a process, one for each signal. -/
structure SignalActions where
  table : Fin (MAX_SIG + 1) → SignalAction

def SignalActions.default : SignalActions := ⟨fun _ => .default⟩

structure SignalInner where
  signals : SignalFlags
  signalMask : SignalFlags
  /-- The signal which is being handled. -/
  handlingSig : Option (Fin (MAX_SIG + 1))
  /-- If the task is killed. -/
  killed : Bool
  /-- If the task is frozen by a signal. -/
  frozen : Bool
  maskBackup : Option SignalFlags
  trapframeBackup : Option TrapFrame
deriving DecidableEq

namespace SignalInner

/-- What a new task starts with. -/
def new : SignalInner := ⟨.empty, .empty, none, false, false, none, none⟩

/-- `singal_metadata` -/
def metadata (inner : SignalInner) (actions : SignalActions) :
    SignalFlags × Option SignalFlags :=
  (inner.signals.inter inner.signalMask, inner.handlingSig.map fun sig => (actions.table sig).mask)

def kernelSignalHandler (inner : SignalInner) (signal : SignalFlags) : SignalInner :=
  if signal = SIGSTOP then
    { inner with frozen := true, signals := inner.signals.toggle SIGSTOP }
  else if signal = SIGCONT then
    if inner.signals.contains SIGCONT then
      { inner with signals := inner.signals.toggle SIGCONT, frozen := false }
    else inner
  -- SIGKILL | SIGDEF
  else { inner with killed := true }

def userSignalHandler (inner : SignalInner) (action : SignalAction) (sig : Fin (MAX_SIG + 1))
    (tf : TrapFrame) : SignalInner × TrapFrame :=
  if action.handler ≠ 0 then
    ({ inner with
        maskBackup := some inner.signalMask
        signalMask := action.mask
        handlingSig := some sig
        signals := inner.signals.toggle ⟨shift sig⟩
        trapframeBackup := some tf },
      { tf with elr := action.handler, r := tf.r.set 0 (UInt64.ofNat sig) })
  -- default action: ignore it or kill process
  else (inner, tf)

/-- Whether `check_pending_signals` acts on a signal. -/
def eligible (inner : SignalInner) (actions : SignalActions) (sig : Fin (MAX_SIG + 1)) : Bool :=
  let (maskedSignal, handlingSigMask) := inner.metadata actions
  maskedSignal.contains ⟨shift sig⟩ && handlingSigMask.all fun mask => mask.contains ⟨shift sig⟩

/-- The first signal that is eligible is handled, and no other one. -/
def checkPendingSignals (inner : SignalInner) (actions : SignalActions) (tf : TrapFrame) :
    Option SignalFlags × SignalInner × TrapFrame :=
  match (List.finRange (MAX_SIG + 1)).find? (inner.eligible actions) with
  | none => (none, inner, tf)
  | some sig =>
    let signal : SignalFlags := ⟨shift sig⟩
    if KERNEL_SIGNAL.contains signal then (some signal, inner.kernelSignalHandler signal, tf)
    else (some signal, inner.userSignalHandler (actions.table sig) sig tf)

end SignalInner

/-- What the signals of a task can come to, when only those of `sent` are sent to it: by
`sys_kill`, `Process::stop` and `Stdin::read`, by `sys_sigprocmask` and `sys_sigretrun`, and by
`check_pending_signals`, whatever the actions are then. -/
inductive SignalRun (sent : SignalFlags → Prop) : SignalInner → Prop
  | new : SignalRun sent .new
  | send {inner : SignalInner} {flag : SignalFlags} (h : SignalRun sent inner) (hs : sent flag) :
    SignalRun sent { inner with signals := inner.signals.insert flag }
  | sigprocmask {inner : SignalInner} (h : SignalRun sent inner) (mask : SignalFlags) :
    SignalRun sent { inner with signalMask := mask }
  | sigreturn {inner : SignalInner} {mask : SignalFlags} (h : SignalRun sent inner)
      (hmask : inner.maskBackup = some mask) :
    SignalRun sent { inner with
      trapframeBackup := none, handlingSig := none, signalMask := mask, maskBackup := none }
  | check {inner : SignalInner} (h : SignalRun sent inner) (actions : SignalActions)
      (tf : TrapFrame) : SignalRun sent (inner.checkPendingSignals actions tf).2.1

end RCore.Os
