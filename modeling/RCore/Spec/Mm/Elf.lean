import RCore.Spec.Os.Space

/-! The file that a program is loaded from (`load_user` of `memory_set.rs`), as `xmas_elf`
reports it. -/

namespace RCore.Mm

/-- `header::Class` -/
inductive Class where
  | none
  | thirtyTwo
  | sixtyFour
  | other (n : ℕ)
deriving DecidableEq

/-- `header::Type` -/
inductive ElfType where
  | none
  | relocatable
  | executable
  | sharedObject
  | core
  | processorSpecific (n : ℕ)
deriving DecidableEq

/-- `header::Machine`: those that are not asked for are `other`. -/
inductive ElfMachine where
  | aArch64
  | other (n : ℕ)
deriving DecidableEq

/-- Of a header that is not of type `Load` nothing else is read. -/
inductive ProgramHeader where
  | load (ph : Segment)
  | other

structure ElfFile where
  cls : Class
  type : ElfType
  machine : ElfMachine
  entryPoint : Usize
  programIter : List ProgramHeader

namespace MemorySet

/-- The loop of `load_user`. -/
def loadPrograms (ms : MemorySet) (m : Machine) : List ProgramHeader → Except Panic (MemorySet × Machine)
  | [] => pure (ms, m)
  | .other :: phs => ms.loadPrograms m phs
  | .load ph :: phs => do
    let (ms, m) ← ms.loadSegment ph m
    ms.loadPrograms m phs

/-- `load_user`: the entry point and the top of the stack are returned. -/
def loadElf (ms : MemorySet) (elf : ElfFile) (m : Machine) : Except Panic ((Usize × Usize) × MemorySet × Machine) := do
  if elf.cls ≠ .sixtyFour then throw .elfClass
  if elf.type ≠ .executable then throw .elfType
  if elf.machine ≠ .aArch64 then throw .elfMachine
  let (ms, m) ← ms.loadPrograms m elf.programIter
  let (ms, m) ← ms.insertStack (Os.USER_STACK_TOP - Os.USER_STACK_SIZE) m
  pure ((elf.entryPoint, BitVec.ofNat 64 Os.USER_STACK_TOP), ms, m)

end MemorySet

/-- The segments that are loaded. -/
def ElfFile.segments (elf : ElfFile) : List Segment :=
  elf.programIter.filterMap fun
    | .load ph => some ph
    | .other => none

end RCore.Mm
