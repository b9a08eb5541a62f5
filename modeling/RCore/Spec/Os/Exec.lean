import Mathlib.Data.Nat.Digits.Defs
import RCore.Spec.Mm.Uaccess
import RCore.Spec.Os.Process

/-! The arguments of a program: how `sys_exec` reads them, how `Process::exec` puts them on
the user stack, and how `_start` of the user library takes them from there. Both work on the memory of the
process, and what is not mapped is a fault. -/

namespace RCore.Os

open RCore.Lib RCore.Mm

/-- The second argument of `_start` is in `r[1]`. -/
def TrapFrame.r1 (tf : TrapFrame) : UInt64 := tf.r.get 1

/-- The bytes of a `usize` in memory, the lowest first. -/
def leBytes (v : Usize) : List UInt8 :=
  (List.range 8).map fun i => UInt8.ofNat (v.toNat / 256 ^ i)

def ofLeBytes (bytes : List UInt8) : Usize :=
  BitVec.ofNat 64 (Nat.ofDigits 256 (bytes.map UInt8.toNat))

/-- `str::as_bytes` -/
def asBytes (s : String) : List UInt8 := s.toByteArray.data.toList

/-- `push_stack::<usize>` -/
def pushStack (stack val : Usize) : Uaccess Usize := do
  store (stack - 8) (leBytes val)
  pure (stack - 8)

def pushCStr (stack : Usize) (val : String) : Uaccess Usize := do
  let len := BitVec.ofNat 64 (val.utf8ByteSize + 1)
  store (stack - len) (asBytes val ++ [0])
  pure (stack - len)

/-- The loop over the arguments, which come in reverse: the top of the stack after it, and
`argv_vec`. -/
def pushStrings (ustackTop : Usize) (argvVec : List Usize) :
    List String → Uaccess (Usize × List Usize)
  | [] => pure (ustackTop, argvVec)
  | arg :: args => do
    let ustackTop ← pushCStr ustackTop arg
    pushStrings ustackTop (argvVec ++ [ustackTop]) args

/-- The loop over `argv_vec`. -/
def pushPointers (ustackTop : Usize) : List Usize → Uaccess Usize
  | [] => pure ustackTop
  | arg :: argvVec => do
    let ustackTop ← pushStack ustackTop arg
    pushPointers ustackTop argvVec

/-- `Process::exec`, after the program has been loaded: the registers, and what it returns. -/
def execArgs (entry ustackTop : Usize) (args : List String) : Uaccess (TrapFrame × ℕ) := do
  let argc := args.length
  let (ustackTop, argvVec) ← pushStrings ustackTop [] args.reverse
  let argvBase ← pushPointers (ustackTop &&& ~~~0xF#64) argvVec
  pure (.newUserArg (.ofBitVec entry) (.ofBitVec argvBase) (UInt64.ofNat argc) (.ofBitVec argvBase),
    argc)

/-- A `usize`, and a pointer. -/
def Layout.usize : Layout := ⟨8, 8, ⟨3, rfl⟩, Nat.dvd_refl 8, by decide⟩

/-- The loop of `read_argvs`, with `n` pointers to go at most, from argument `argc` on. -/
def readArgvsLoop (args : Usize) : ℕ → ℕ → Uaccess (List String)
  | 0, _ => .stop .diverges
  | n + 1, argc => do
    let bytes ← UserPtr.read (T := Layout.usize) ⟨args + BitVec.ofNat 64 argc * 8⟩
    let arg := ofLeBytes bytes
    if arg = 0 then pure []
    else do
      let s ← UserPtr.readCStr ⟨arg⟩
      match s with
      | .ok s => do
        let rest ← readArgvsLoop args n (argc + 1)
        pure (s :: rest)
      -- `expect`
      | .error _ => .stop .assertion

/-- `read_argvs`: the arguments that `sys_exec` passes to `exec`. -/
def readArgvs (args : Usize) : Uaccess (List String) := readArgvsLoop args UserPtr.ADDRESSES 0

/-- `read_volatile` of a `usize` -/
def readWord (p : Usize) : Uaccess Usize := do
  let bytes ← load ⟨p, 8⟩
  pure (ofLeBytes bytes)

/-- The loop of `_start`, with `n` arguments to go from argument `i` on. -/
def startArgs (argv : Usize) : ℕ → ℕ → Uaccess (List String)
  | 0, _ => pure []
  | n + 1, i => do
    let strStart ← readWord (argv + BitVec.ofNat 64 i * 8)
    let len ← UserPtr.find UserPtr.ADDRESSES strStart
    let bytes ← load ⟨strStart, len⟩
    match String.fromUTF8? ⟨bytes.toArray⟩ with
    | some s => do
      let rest ← startArgs argv n (i + 1)
      pure (s :: rest)
    -- `unwrap`
    | none => .stop .assertion

/-- `_start`: what `main` is called with. -/
def start (argc argv : UInt64) : Uaccess (ℕ × List String) := do
  let v ← startArgs argv.toBitVec argc.toNat 0
  pure (argc.toNat, v)

end RCore.Os
