import Mathlib
import RCore.Spec.Os.Exec
import RCore.Spec.Os.Syscall

/-! `sys_sigaction` on the memory of the process: the action that is set is read from there
after the one that was set before has been written. -/

namespace RCore.Os

open RCore.Lib RCore.Mm SignalFlags

theorem signalAction_align_pow : ∃ n, 8 = 2 ^ n := ⟨3, rfl⟩

theorem signalAction_size_lt : 16 < 2 ^ 63 := by decide

/-- `SignalAction` is `repr(C)`: the handler, the mask, and 4 bytes of padding. -/
def Layout.signalAction : Layout := ⟨16, 8, signalAction_align_pow, ⟨2, rfl⟩, signalAction_size_lt⟩

namespace SignalAction

/-- The bytes of an action in memory. What the padding holds is not specified. -/
def toBytes (action : SignalAction) (padding : Vector UInt8 4) : List UInt8 :=
  leBytes action.handler.toBitVec ++
    (List.range 4).map (fun i => UInt8.ofNat (action.mask.bits.toNat / 256 ^ i)) ++ padding.toList

def ofBytes (bytes : List UInt8) : SignalAction where
  handler := .ofBitVec (ofLeBytes (bytes.take 8))
  mask := ⟨BitVec.ofNat 32 (Nat.ofDigits 256 (((bytes.drop 8).take 4).map UInt8.toNat))⟩

theorem length_toBytes (action : SignalAction) (padding : Vector UInt8 4) :
    (action.toBytes padding).length = 16 := by
  simp [toBytes, leBytes]

/-- An action that is written. -/
def toValues (action : SignalAction) (padding : Vector UInt8 4) : Values Layout.signalAction where
  len := 1
  bytes := action.toBytes padding
  length_eq := length_toBytes action padding
  fits := by decide

end SignalAction

/-- `UserPtr::<SignalAction>::read` -/
def readAction (p : Usize) : Uaccess SignalAction := do
  let bytes ← UserPtr.read (T := Layout.signalAction) ⟨p⟩
  pure (.ofBytes bytes)

/-- `UserPtr::<SignalAction>::write` -/
def writeAction (p : Usize) (action : SignalAction) (padding : Vector UInt8 4) : Uaccess Unit :=
  UserPtr.write ⟨p⟩ (action.toValues padding)

theorem toNat_lt_of_signum {signum : ℤ} (h : 0 ≤ signum ∧ signum ≤ MAX_SIG) : signum.toNat < MAX_SIG + 1 := by
  omega

/-- `sys_sigaction` on the table of the process: the result, and the table after it. -/
def sigaction (actions : SignalActions) (signum : ℤ) (action oldAction : Usize)
    (padding : Vector UInt8 4) : Uaccess (ℤ × SignalActions) :=
  if h : 0 ≤ signum ∧ signum ≤ MAX_SIG then
    match fromBits (shift signum) with
    | some signal =>
      if action = 0 ∨ oldAction = 0 ∨ signal = SIGKILL ∨ signal = SIGSTOP then pure (-1, actions)
      else do
        let sig : Fin (MAX_SIG + 1) := ⟨signum.toNat, toNat_lt_of_signum h⟩
        let oldKernelAction := actions.table sig
        if oldKernelAction.mask ≠ TRAP_QUIT then
          writeAction oldAction oldKernelAction padding
        else do
          let userAction ← readAction oldAction
          writeAction oldAction { userAction with handler := oldKernelAction.handler } padding
        let newAction ← readAction action
        pure (0, ⟨Function.update actions.table sig newAction⟩)
    | none => pure (-1, actions)
  else pure (-1, actions)

end RCore.Os
