import RCore.Spec.Mm.MemorySet
import RCore.Spec.Os.Roster

/-! The address spaces of processes: how a program is loaded (`load_user` of `memory_set.rs`),
and what the changes of the roster do to the memory sets of the processes and to the root of
the page table in the context of each task (`structs.rs`, `switch.rs`). -/

namespace RCore.Mm

def VirtAddr.alignUp (v : VirtAddr) : VirtAddr := ⟨Mm.alignUp v.bits PAGE_SIZE⟩

/-- A segment of type `Load`. -/
structure Segment where
  virtualAddr : Usize
  memSize : Usize
  isRead : Bool
  isWrite : Bool
  isExecute : Bool
  data : Slice

/-- `From<Flags> for MemFlags` -/
def Segment.flags (ph : Segment) : MemFlags where
  read := ph.isRead
  write := ph.isWrite
  execute := ph.isExecute
  user := true
  device := false

namespace MemorySet

def pageTableRoot (ms : MemorySet) : PhysAddr := ms.pt.rootPaddr

def loadSegment (ms : MemorySet) (ph : Segment) (m : Machine) : Except Panic (MemorySet × Machine) := do
  let vaddr ← VirtAddr.new ph.virtualAddr
  let offset := vaddr.pageOffset
  let areaStart := vaddr.alignDown
  let areaEnd := (← VirtAddr.new (ph.virtualAddr + ph.memSize)).alignUp
  let area ← MapArea.newFramed areaStart (areaEnd.bits - areaStart.bits) ph.flags
  let (area, m) ← area.writeData m offset ph.data
  ms.insert area m

def loadSegments (ms : MemorySet) (m : Machine) : List Segment → Except Panic (MemorySet × Machine)
  | [] => pure (ms, m)
  | ph :: elf => do
    let (ms, m) ← ms.loadSegment ph m
    ms.loadSegments m elf

/-- The stack of a task. -/
def insertStack (ms : MemorySet) (ustackBottom : ℕ) (m : Machine) : Except Panic (MemorySet × Machine) := do
  let area ← MapArea.newFramed (← VirtAddr.new (BitVec.ofNat 64 ustackBottom))
    (BitVec.ofNat 64 Os.USER_STACK_SIZE) ⟨true, true, false, true, false⟩
  ms.insert area m

def loadUser (ms : MemorySet) (elf : List Segment) (m : Machine) : Except Panic (MemorySet × Machine) := do
  let (ms, m) ← ms.loadSegments m elf
  ms.insertStack (Os.USER_STACK_TOP - Os.USER_STACK_SIZE) m

end MemorySet

end RCore.Mm

namespace RCore.Os

open Mm (MemorySet Segment PhysAddr)

/-- The memory sets by process, and `ttbr0_el1` of the contexts by task. A switch of the
context does not write it. -/
structure Spaces where
  machine : Mm.Machine
  vms : List (Option MemorySet)
  ttbr0 : List PhysAddr

namespace Spaces

def vm (s : Spaces) (pid : ℕ) : Option MemorySet := s.vms[pid]?.join

def newKernel (s : Spaces) : Spaces := { s with vms := s.vms ++ [none], ttbr0 := s.ttbr0 ++ [PhysAddr.new 0] }

/-- A process with one task, and memory. -/
def newProcess (s : Spaces) (vm : MemorySet) (m : Mm.Machine) : Spaces :=
  ⟨m, s.vms ++ [some vm], s.ttbr0 ++ [vm.pageTableRoot]⟩

def newUser (s : Spaces) (elf : List Segment) : Except Mm.Panic Spaces := do
  let (vm, m) ← MemorySet.new s.machine
  let (vm, m) ← vm.loadUser elf m
  pure (s.newProcess vm m)

/-- The idle process, the root process, two processes of the kernel and the shell. -/
def boot (m : Mm.Machine) (elf : List Segment) : Except Mm.Panic Spaces :=
  newUser (newKernel (newKernel (newKernel (newKernel ⟨m, [], []⟩)))) elf

def newFork (s : Spaces) (vm : MemorySet) : Except Mm.Panic Spaces := do
  let (vm, m) ← vm.clone s.machine
  pure (s.newProcess vm m)

def newUserTask (s : Spaces) (pid : ℕ) (vm : MemorySet) (tid : ℕ) : Except Mm.Panic Spaces := do
  let (vm, m) ← vm.insertStack (userStack tid).1 s.machine
  pure ⟨m, s.vms.set pid (some vm), s.ttbr0 ++ [vm.pageTableRoot]⟩

/-- The argument of `get_or_insert` is made in any case. -/
def getOrInsert (vm : Option MemorySet) (m : Mm.Machine) : Except Mm.Panic (MemorySet × Mm.Machine) := do
  let (new, m) ← MemorySet.new m
  match vm with
  | some vm =>
    let m ← new.drop m
    pure (vm, m)
  | none => pure (new, m)

def exec (s : Spaces) (pid : ℕ) (elf : List Segment) : Except Mm.Panic Spaces := do
  let (vm, m) ← getOrInsert (s.vm pid) s.machine
  let (vm, m) ← vm.clear m
  let (vm, m) ← vm.loadUser elf m
  pure { s with machine := m, vms := s.vms.set pid (some vm) }

/-- The memory set of a process is dropped, if there is one. -/
def dropVm (s : Spaces) (pid : ℕ) : Except Mm.Panic Spaces :=
  match s.vm pid with
  | some vm => do
    let m ← vm.drop s.machine
    pure { s with machine := m, vms := s.vms.set pid none }
  | none => pure s

/-- What goes with a change that the task `t` of the process `p` makes, if nothing panics. The
program is that of `exec`. -/
def follow (s : Spaces) (r : Roster) (t pid : ℕ) (p : ProcEntry) (elf : List Segment) : Change → Option Spaces
  | .fork _ => do (s.newFork (← s.vm pid)).toOption
  | .threadCreate tid => do (s.newUserTask pid (← s.vm pid) tid).toOption
  | .exec => (s.exec pid elf).toOption
  | .stop _ => some s
  | .exit exitCode =>
    if (r.endTask t exitCode).taskCount p = 0 then (s.dropVm pid).toOption else some s
  -- the last reference to the child goes
  | .waitpid child _ => (s.dropVm child).toOption
  | .waittid _ => some s

end Spaces

/-- The processes and their address spaces after any changes in any order, each made by a task
that is alive. In between, the programs write to their memory. -/
inductive SpaceTrace (m : Mm.Machine) : Roster → Spaces → Prop
  | boot {k : Kernel} {entry ustackTop : UInt64} {elf : List Segment} {s : Spaces}
      (hk : Kernel.boot entry ustackTop = .ok k) (hs : Spaces.boot m elf = .ok s) : SpaceTrace m k.roster s
  | change {r r' : Roster} {s s' : Spaces} {t pid : ℕ} {p : ProcEntry} {c : Change} {elf : List Segment}
      (h : SpaceTrace m r s) (hs : r.Serves t pid p) (hm : Roster.Makes t pid p r c r')
      (hf : s.follow r t pid p elf c = some s') : SpaceTrace m r' s'
  | store {r : Roster} {s : Spaces} {t pid : ℕ} {p : ProcEntry} {vm : MemorySet} {v : Mm.VirtAddr}
      {paddr : PhysAddr} {flags : Mm.MemFlags} (h : SpaceTrace m r s) (hs : r.Serves t pid p)
      (hvm : s.vm pid = some vm) (hv : vm.pt.query s.machine v = .ok (some (paddr, flags)))
      (hflags : flags.user = true ∧ flags.write = true) (frame : Mm.Frame) :
      SpaceTrace m r { s with machine := s.machine.setFrame paddr frame }

end RCore.Os
