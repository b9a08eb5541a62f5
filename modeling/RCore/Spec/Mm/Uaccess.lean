import RCore.Lib.Logged
import RCore.Spec.Mm.Frame

/-! `uaccess.rs`: how the kernel reads and writes memory at addresses that a user has given.
The log of a call has what it dereferences, and what is dereferenced through the reference
that it returns. -/

namespace RCore.Mm

open RCore.Lib

/-- `USER_ASPACE_RANGE` is `0..0x1_0000_0000_0000`. -/
def USER_ASPACE_START : Usize := 0

def USER_ASPACE_END : Usize := 0x1000000000000

/-- The difference wraps around in the release build. -/
def uaccessOk (vaddr size : Usize) : Bool :=
  vaddr != 0 && decide (USER_ASPACE_START ≤ vaddr) && decide (vaddr ≤ USER_ASPACE_END - size)

/-- `size_of` and `align_of` of a type. No type is larger than `isize::MAX`. -/
structure Layout where
  size : ℕ
  align : ℕ
  align_pow : ∃ n, align = 2 ^ n
  align_dvd : align ∣ size
  size_lt : size < 2 ^ 63

theorem one_eq_pow : ∃ n, 1 = 2 ^ n := ⟨0, rfl⟩

theorem one_lt_isize : 1 < 2 ^ 63 := by decide

def Layout.u8 : Layout := ⟨1, 1, one_eq_pow, Nat.dvd_refl 1, one_lt_isize⟩

/-- The bytes that the translation tables map. Those of the kernel are there as well. -/
abbrev Memory := Usize → Option UInt8

/-- `len` bytes from `start` on. -/
structure Span where
  start : Usize
  len : ℕ
deriving DecidableEq

/-- The byte number `i` of a span. -/
def Span.byte (s : Span) (i : ℕ) : Usize := s.start + BitVec.ofNat 64 i

inductive Stop where
  | assertion
  /-- A byte is not mapped, or must not be accessed. -/
  | fault
  /-- No zero byte is found in all of the memory. -/
  | diverges
deriving DecidableEq

abbrev Uaccess := Logged Span Memory Stop

/-- `assert!` -/
def uassert (b : Bool) : Uaccess Unit := if b then pure () else .stop .assertion

/-- The `n` bytes from `p` on, if all of them are mapped. -/
def Memory.bytes (mem : Memory) (p : Usize) : ℕ → Option (List UInt8)
  | 0 => some []
  | n + 1 => do
    let byte ← mem p
    let rest ← Memory.bytes mem (p + 1) n
    pure (byte :: rest)

def load (s : Span) : Uaccess (List UInt8) := fun mem =>
  ([s], match mem.bytes s.start s.len with
    | some bytes => .ok (bytes, mem)
    | none => .error .fault)

def loadByte (p : Usize) : Uaccess UInt8 := fun mem =>
  ([⟨p, 1⟩], match mem p with
    | some byte => .ok (byte, mem)
    | none => .error .fault)

/-- The memory after the bytes have been written from `p` on. -/
def Memory.write (mem : Memory) (p : Usize) : List UInt8 → Memory
  | [] => mem
  | byte :: bytes => Memory.write (Function.update mem p (some byte)) (p + 1) bytes

def store (p : Usize) (bytes : List UInt8) : Uaccess Unit := fun mem =>
  ([⟨p, bytes.length⟩], match mem.bytes p bytes.length with
    | some _ => .ok ((), mem.write p bytes)
    | none => .error .fault)

/-- A reference is made, through which all of the span can be dereferenced. -/
def reference (s : Span) : Uaccess Span := fun mem => ([s], .ok (s, mem))

def copyFromUser (T : Layout) (usrc len : Usize) : Uaccess (List UInt8) := do
  uassert (uaccessOk usrc (len * BitVec.ofNat 64 T.size))
  load ⟨usrc, len.toNat * T.size⟩

/-- The bytes of the values `ksrc` are copied. -/
def copyToUser (T : Layout) (udst : Usize) (ksrc : List UInt8) (len : Usize) : Uaccess Unit := do
  uassert (uaccessOk udst (len * BitVec.ofNat 64 T.size))
  store udst ksrc

/-- The loop of `copy_from_user_str`, with `n` bytes to go: the bytes that are copied. -/
def copyStrLoop : ℕ → Usize → Uaccess (List UInt8)
  | 0, _ => pure []
  | n + 1, usrc => do
    uassert (decide (usrc < USER_ASPACE_END))
    let c ← loadByte usrc
    if c = 0 then pure []
    else do
      let rest ← copyStrLoop n (usrc + 1)
      pure (c :: rest)

def copyFromUserStr (usrc maxLen : Usize) : Uaccess (List UInt8) := do
  uassert (uaccessOk usrc 1)
  copyStrLoop maxLen.toNat usrc

/-- The values of `&[T]`: their number and their bytes. No slice is larger than
`isize::MAX`. -/
structure Values (T : Layout) where
  len : Usize
  bytes : List UInt8
  length_eq : bytes.length = len.toNat * T.size
  fits : len.toNat * T.size < 2 ^ 63

/-- A pointer to a `T`. -/
structure UserPtr (T : Layout) where
  ptr : Usize

namespace UserPtr

variable {T : Layout}

def check (p : UserPtr T) : Bool := uaccessOk p.ptr 1 && p.ptr.toNat % T.align == 0

def add (p : UserPtr T) (count : Usize) : UserPtr T := ⟨p.ptr + count * BitVec.ofNat 64 T.size⟩

/-- The slice that is returned. Its length is checked as if it were in bytes. -/
def asSlice (p : UserPtr T) (len : Usize) : Uaccess Span :=
  if len = 0 then pure ⟨0, 0⟩
  else do
    uassert (uaccessOk p.ptr len)
    reference ⟨p.ptr, len.toNat * T.size⟩

def read (p : UserPtr T) : Uaccess (List UInt8) := do
  uassert p.check
  copyFromUser T p.ptr 1

/-- `read_array::<N>` -/
def readArray (p : UserPtr T) (n maxLen : Usize) : Uaccess (List UInt8) := do
  uassert p.check
  copyFromUser T p.ptr (if maxLen ≤ n then maxLen else n)

/-- `read_str::<N>` -/
def readStr (p : UserPtr .u8) (n : Usize) : Uaccess (List UInt8) := do
  uassert p.check
  copyFromUserStr p.ptr (n - 1)

def asStr (p : UserPtr .u8) (len : Usize) : Uaccess (Except String String) := do
  uassert p.check
  let slice ← p.asSlice len
  let bytes ← load slice
  match String.fromUTF8? ⟨bytes.toArray⟩ with
  | some s => pure (.ok s)
  | none => pure (.error "Invalid Utf8")

/-- `(0usize..).find(|&i| *ptr.add(i) == 0)`, with `n` bytes to go: how many bytes there are
before the first that is zero. -/
def find : ℕ → Usize → Uaccess ℕ
  | 0, _ => .stop .diverges
  | n + 1, p => do
    let c ← loadByte p
    if c = 0 then pure 0
    else do
      let i ← find n (p + 1)
      pure (i + 1)

/-- The number of addresses. -/
def ADDRESSES : ℕ := 2 ^ 64

/-- The end of the string is looked for before any check is made. -/
def asCStr (p : UserPtr .u8) : Uaccess (Except String String) := do
  let len ← find ADDRESSES p.ptr
  p.asStr (BitVec.ofNat 64 len)

/-- A copy of the string that `as_c_str` returns. -/
def readCStr (p : UserPtr .u8) : Uaccess (Except String String) := p.asCStr

def write (p : UserPtr T) (value : Values T) : Uaccess Unit := do
  uassert p.check
  copyToUser T p.ptr value.bytes 1

def writeBuf (p : UserPtr T) (buf : Values T) : Uaccess Unit := do
  uassert p.check
  copyToUser T p.ptr buf.bytes buf.len

end UserPtr

/-- A use of a pointer. The array of `read_array` is a type, and so not larger than
`isize::MAX`; `write` has one value. -/
inductive PtrCall where
  | read (T : Layout)
  | readArray (T : Layout) (n maxLen : Usize) (h : n.toNat * T.size < 2 ^ 63)
  | readStr (n : Usize)
  | readCStr
  | asCStr
  | asStr (len : Usize)
  | asSlice (T : Layout) (len : Usize)
  | write (T : Layout) (value : Values T) (h : value.len = 1)
  | writeBuf (T : Layout) (buf : Values T)

namespace PtrCall

/-- The call on the address that the user has given, without its result. -/
def run (ptr : Usize) : PtrCall → Uaccess Unit
  | .read T => (fun _ => ()) <$> UserPtr.read (T := T) ⟨ptr⟩
  | .readArray T n maxLen _ => (fun _ => ()) <$> UserPtr.readArray (T := T) ⟨ptr⟩ n maxLen
  | .readStr n => (fun _ => ()) <$> UserPtr.readStr ⟨ptr⟩ n
  | .readCStr => (fun _ => ()) <$> UserPtr.readCStr ⟨ptr⟩
  | .asCStr => (fun _ => ()) <$> UserPtr.asCStr ⟨ptr⟩
  | .asStr len => (fun _ => ()) <$> UserPtr.asStr ⟨ptr⟩ len
  | .asSlice T len => (fun _ => ()) <$> UserPtr.asSlice (T := T) ⟨ptr⟩ len
  | .write _ value _ => UserPtr.write ⟨ptr⟩ value
  | .writeBuf _ buf => UserPtr.writeBuf ⟨ptr⟩ buf

end PtrCall

end RCore.Mm
