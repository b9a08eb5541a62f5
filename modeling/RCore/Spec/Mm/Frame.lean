import RCore.Lib.Bits

/-! Addresses, the allocator of frames and physical memory: `address.rs`, `allocator.rs`
and `frame_allocator.rs`. -/

namespace RCore.Mm

abbrev Usize := BitVec 64

/-- What the kernel stops with. -/
inductive Panic where
  /-- invalid VA! -/
  | invalidVa
  /-- The `unwrap` of a frame: there is none left. -/
  | noFrame
  /-- The assertions of `dealloc`. -/
  | dealloc
  /-- An entry of a table is a block. -/
  | block
  /-- Invalid memory attribute index -/
  | memType
  /-- An address is mapped before mapping. -/
  | mapped
  /-- The `unwrap` of an entry that is not there, and one that is invalid before unmapping. -/
  | noEntry
  | unmapped
  /-- The assertions on alignment, and on where data is written. -/
  | unaligned
  | writeData
  /-- An area that starts at the address is existed! -/
  | existed
  /-- 64-bit ELF required, not an executable object, or invalid arch -/
  | elfClass
  | elfType
  | elfMachine
deriving DecidableEq

def PAGE_SIZE : Usize := 0x1000

def alignDown (addr pageSize : Usize) : Usize := addr &&& ~~~(pageSize - 1)

def alignUp (addr pageSize : Usize) : Usize := (addr + pageSize - 1) &&& ~~~(pageSize - 1)

def pageOffset (addr pageSize : Usize) : Usize := addr &&& (pageSize - 1)

def isAligned (addr pageSize : Usize) : Bool := pageOffset addr pageSize == 0

structure PhysAddr where
  bits : Usize
deriving DecidableEq

namespace PhysAddr

/-- `PA_1TB_BITS` is 40. -/
def MAX : Usize := 0xffffffffff

def new (pa : Usize) : PhysAddr := ⟨pa &&& MAX⟩

def alignDown (p : PhysAddr) : PhysAddr := ⟨Mm.alignDown p.bits PAGE_SIZE⟩

def isAligned (p : PhysAddr) : Bool := Mm.isAligned p.bits PAGE_SIZE

/-- The frame that the address is in: physical memory is mapped at `PHYS_VIRT_OFFSET`. -/
def frame (p : PhysAddr) : ℕ := p.bits.toNat / 4096

end PhysAddr

structure VirtAddr where
  bits : Usize

namespace VirtAddr

/-- `VA_MAX_BITS` is 48. -/
def new (va : Usize) : Except Panic VirtAddr :=
  let topBits := va >>> 48
  if topBits ≠ 0 ∧ topBits ≠ 0xffff then .error .invalidVa else .ok ⟨va⟩

def alignDown (v : VirtAddr) : VirtAddr := ⟨Mm.alignDown v.bits PAGE_SIZE⟩

def pageOffset (v : VirtAddr) : Usize := Mm.pageOffset v.bits PAGE_SIZE

def isAligned (v : VirtAddr) : Bool := Mm.isAligned v.bits PAGE_SIZE

theorem toNat_injective : Function.Injective fun v : VirtAddr => v.bits.toNat :=
  fun _ _ h => congrArg mk (BitVec.eq_of_toNat_eq h)

instance : LinearOrder VirtAddr := LinearOrder.lift' (fun v => v.bits.toNat) toNat_injective

end VirtAddr

/-- The range is from `start` to `stop`. The last value of the free list is its first one
here. -/
structure FreeListAllocator where
  start : ℕ
  stop : ℕ
  nextAvailable : ℕ
  freeList : List ℕ
deriving DecidableEq

namespace FreeListAllocator

def empty : FreeListAllocator := ⟨0, 0, 0, []⟩

def init (a : FreeListAllocator) (start stop : ℕ) : FreeListAllocator :=
  { a with nextAvailable := start, start, stop }

def availableSpace (a : FreeListAllocator) : ℕ := a.freeList.length + a.stop - a.nextAvailable

def alloc (a : FreeListAllocator) : Option (ℕ × FreeListAllocator) :=
  match a.freeList with
  | value :: freeList => some (value, { a with freeList })
  | [] =>
    if a.nextAvailable ≥ a.stop then none
    else some (a.nextAvailable, { a with nextAvailable := a.nextAvailable + 1 })

def dealloc (a : FreeListAllocator) (value : ℕ) : Except Panic FreeListAllocator :=
  if value ≥ a.start ∧ value < a.nextAvailable ∧ value ∉ a.freeList then
    .ok { a with freeList := value :: a.freeList }
  else .error .dealloc

end FreeListAllocator

/-- The bytes of a frame. -/
abbrev Frame := BitVec 32768

/-- `FRAME_ALLOCATOR`, and physical memory. -/
structure Machine where
  allocator : FreeListAllocator
  memory : ℕ → Frame

/-- A frame starts at a multiple of the page size, below 1 TB. -/
structure PhysFrame where
  startPaddr : PhysAddr
  start : PhysAddr.new startPaddr.alignDown.bits = startPaddr
deriving DecidableEq

namespace PhysFrame

theorem start_mul (value : Usize) :
    PhysAddr.new (PhysAddr.new (value * PAGE_SIZE)).alignDown.bits = PhysAddr.new (value * PAGE_SIZE) := by
  have hmul : value * PAGE_SIZE = value <<< 12 := (BitVec.shiftLeft_eq_mul_twoPow value 12).symm
  have hlow : value <<< 12 &&& ~~~(PAGE_SIZE - 1) = value <<< 12 := by
    rw [show ~~~(PAGE_SIZE - 1) = BitVec.allOnes 64 <<< 12 by decide, ← BitVec.shiftLeft_and_distrib,
      BitVec.and_allOnes]
  have hand : value <<< 12 &&& PhysAddr.MAX &&& ~~~(PAGE_SIZE - 1) &&& PhysAddr.MAX =
      (value <<< 12 &&& ~~~(PAGE_SIZE - 1)) &&& (PhysAddr.MAX &&& PhysAddr.MAX) := by ac_rfl
  rw [hlow, BitVec.and_self] at hand
  rw [hmul]
  exact congrArg PhysAddr.mk hand

def number (f : PhysFrame) : ℕ := f.startPaddr.bits.toNat / PAGE_SIZE.toNat

/-- The `unwrap` is part of all calls. -/
def alloc (m : Machine) : Except Panic (PhysFrame × Machine) :=
  match m.allocator.alloc with
  | some (value, allocator) =>
    .ok (⟨PhysAddr.new (BitVec.ofNat 64 value * PAGE_SIZE), start_mul _⟩, { m with allocator })
  | none => .error .noFrame

end PhysFrame

namespace Machine

/-- The frame at a physical address is written. -/
def setFrame (m : Machine) (p : PhysAddr) (frame : Frame) : Machine :=
  { m with memory := Function.update m.memory p.frame frame }

end Machine

namespace PhysFrame

def allocZero (m : Machine) : Except Panic (PhysFrame × Machine) := do
  let (f, m) ← alloc m
  pure (f, m.setFrame f.startPaddr 0)

/-- `Drop` -/
def drop (f : PhysFrame) (m : Machine) : Except Panic Machine := do
  let allocator ← m.allocator.dealloc f.number
  pure { m with allocator }

end PhysFrame

end RCore.Mm
