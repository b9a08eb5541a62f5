import RCore.Lib.OrdMap
import RCore.Lib.While
import RCore.Spec.Mm.PageTable

/-! Areas of memory and sets of them: `memory_set.rs`, and the loops over an area of
`page_table.rs`. -/

namespace RCore.Mm

open RCore.Lib

inductive Mapper where
  | offset (off : Usize)
  | framed (frames : OrdMap VirtAddr PhysFrame)
deriving DecidableEq

/-- Both constructors assert the alignment. -/
structure MapArea where
  start : VirtAddr
  size : Usize
  flags : MemFlags
  mapper : Mapper
  start_aligned : start.isAligned = true
  size_aligned : isAligned size PAGE_SIZE = true
deriving DecidableEq

/-- The bytes of a `&[u8]` are at most `isize::MAX`. -/
abbrev Slice := {data : List (BitVec 8) // data.length < 2 ^ 63}

/-- The bytes from `off` on are overwritten. -/
def copyFromSlice (frame : Frame) (off : ℕ) : List (BitVec 8) → Frame
  | [] => frame
  | b :: data => copyFromSlice (splice frame (8 * off) b) (off + 1) data

/-- Frames are dropped one after the other. -/
def dropFrames (frames : List PhysFrame) (m : Machine) : Except Panic Machine :=
  frames.foldlM (fun m f => f.drop m) m

namespace MapArea

def newOffset (startVaddr : VirtAddr) (startPaddr : PhysAddr) (size : Usize) (flags : MemFlags) :
    Except Panic MapArea :=
  if h : startVaddr.isAligned = true ∧ startPaddr.isAligned = true ∧ isAligned size PAGE_SIZE = true then
    .ok ⟨startVaddr, size, flags, .offset (startVaddr.bits - startPaddr.bits), h.1, h.2.2⟩
  else .error .unaligned

def newFramed (startVaddr : VirtAddr) (size : Usize) (flags : MemFlags) : Except Panic MapArea :=
  if h : startVaddr.isAligned = true ∧ isAligned size PAGE_SIZE = true then
    .ok ⟨startVaddr, size, flags, .framed .empty, h.1, h.2⟩
  else .error .unaligned

/-- The loop of `clone`: a frame for each frame, with the same bytes. -/
def cloneFrames (newFrames : OrdMap VirtAddr PhysFrame) (m : Machine) :
    List (VirtAddr × PhysFrame) → Except Panic (OrdMap VirtAddr PhysFrame × Machine)
  | [] => pure (newFrames, m)
  | (vaddr, origFrame) :: origFrames => do
    let (newFrame, m) ← PhysFrame.alloc m
    let m := m.setFrame newFrame.startPaddr (m.memory origFrame.startPaddr.frame)
    cloneFrames (newFrames.insert vaddr newFrame) m origFrames

def clone (area : MapArea) (m : Machine) : Except Panic (MapArea × Machine) :=
  match area.mapper with
  | .offset off => pure ({ area with mapper := .offset off }, m)
  | .framed origFrames => do
    let (newFrames, m) ← cloneFrames .empty m origFrames.entries
    pure ({ area with mapper := .framed newFrames }, m)

def map (area : MapArea) (m : Machine) (vaddr : VirtAddr) : Except Panic (PhysAddr × MapArea × Machine) :=
  if vaddr.isAligned then
    match area.mapper with
    | .offset off => pure (PhysAddr.new (vaddr.bits - off), area, m)
    | .framed frames =>
      match frames.get? vaddr with
      | some f => pure (f.startPaddr, area, m)
      | none => do
        let (f, m) ← PhysFrame.allocZero m
        pure (f.startPaddr, { area with mapper := .framed (frames.insert vaddr f) }, m)
  else throw .unaligned

/-- The frame that is removed is dropped. -/
def unmap (area : MapArea) (m : Machine) (vaddr : VirtAddr) : Except Panic (MapArea × Machine) :=
  match area.mapper with
  | .offset _ => pure (area, m)
  | .framed frames =>
    match frames.get? vaddr with
    | some f => do
      let m ← f.drop m
      pure ({ area with mapper := .framed (frames.erase vaddr) }, m)
    | none => pure (area, m)

/-- The variables of the loop of `write_data`. -/
structure Writing where
  area : MapArea
  machine : Machine
  start : Usize
  remain : Usize
  processed : Usize

def Writing.next (data : List (BitVec 8)) (w : Writing) : Except Panic Writing := do
  let startAlign := alignDown w.start PAGE_SIZE
  let pgoff := w.start - startAlign
  let n := if PAGE_SIZE - pgoff ≤ w.remain then PAGE_SIZE - pgoff else w.remain
  let vaddr ← VirtAddr.new (w.area.start.bits + startAlign)
  let (paddr, area, m) ← w.area.map w.machine vaddr
  let bytes := (data.drop w.processed.toNat).take n.toNat
  pure {
    area
    machine := m.setFrame paddr (copyFromSlice (m.memory paddr.frame) pgoff.toNat bytes)
    start := w.start + n
    remain := w.remain - n
    processed := w.processed + n }

def writeData (area : MapArea) (m : Machine) (offset : Usize) (data : Slice) :
    Except Panic (MapArea × Machine) :=
  let len := BitVec.ofNat 64 data.val.length
  if offset < area.size ∧ offset + len ≤ area.size then do
    let w ← whileM (fun w => 0 < w.remain) (Writing.next data.val) data.val.length ⟨area, m, offset, len, 0⟩
    pure (w.area, w.machine)
  else throw .writeData

/-- The frames of an area are dropped with it. -/
def drop (area : MapArea) (m : Machine) : Except Panic Machine :=
  match area.mapper with
  | .offset _ => pure m
  | .framed frames => dropFrames frames.values m

/-- As many rounds as the loops over the pages of an area can take. -/
def pages (area : MapArea) : ℕ := area.size.toNat / PAGE_SIZE.toNat

end MapArea

namespace PageTable

/-- The variables of the loop of `map_area`. -/
structure Mapping where
  pt : PageTable
  area : MapArea
  machine : Machine
  vaddr : Usize

def Mapping.next (s : Mapping) : Except Panic Mapping := do
  let (paddr, area, m) ← s.area.map s.machine (← VirtAddr.new s.vaddr)
  let (pt, m) ← s.pt.map m (← VirtAddr.new s.vaddr) paddr area.flags
  pure ⟨pt, area, m, s.vaddr + PAGE_SIZE⟩

def mapArea (pt : PageTable) (area : MapArea) (m : Machine) : Except Panic (PageTable × MapArea × Machine) := do
  let stop := area.start.bits + area.size
  let s ← whileM (fun s => s.vaddr < stop) Mapping.next area.pages ⟨pt, area, m, area.start.bits⟩
  pure (s.pt, s.area, s.machine)

/-- The variables of the loop of `unmap_area`. -/
structure Unmapping where
  area : MapArea
  machine : Machine
  vaddr : Usize

def Unmapping.next (pt : PageTable) (s : Unmapping) : Except Panic Unmapping := do
  let (area, m) ← s.area.unmap s.machine (← VirtAddr.new s.vaddr)
  let m ← pt.unmap m (← VirtAddr.new s.vaddr)
  pure ⟨area, m, s.vaddr + PAGE_SIZE⟩

def unmapArea (pt : PageTable) (area : MapArea) (m : Machine) : Except Panic (MapArea × Machine) := do
  let stop := area.start.bits + area.size
  let s ← whileM (fun s => s.vaddr < stop) (Unmapping.next pt) area.pages ⟨area, m, area.start.bits⟩
  pure (s.area, s.machine)

/-- The frames of the tables are dropped with the page table. -/
def drop (pt : PageTable) (m : Machine) : Except Panic Machine := dropFrames pt.intrmTables m

end PageTable

structure MemorySet where
  pt : PageTable
  areas : OrdMap VirtAddr MapArea
deriving DecidableEq

namespace MemorySet

def new (m : Machine) : Except Panic (MemorySet × Machine) := do
  let (pt, m) ← PageTable.new m
  pure (⟨pt, .empty⟩, m)

/-- The condition is `!area.size > 0`, and the operator is the bitwise one. -/
def insert (ms : MemorySet) (area : MapArea) (m : Machine) : Except Panic (MemorySet × Machine) := do
  if 0 < ~~~area.size then
    match ms.areas.get? area.start with
    | none =>
      let (pt, area', m) ← ms.pt.mapArea area m
      pure (⟨pt, ms.areas.insert area.start area'⟩, m)
    | some _ => throw .existed
  else
    let m ← area.drop m
    pure (ms, m)

/-- The loop of `clear`. -/
def unmapAreas (pt : PageTable) (m : Machine) : List MapArea → Except Panic (List MapArea × Machine)
  | [] => pure ([], m)
  | area :: areas => do
    let (area, m) ← pt.unmapArea area m
    let (areas, m) ← unmapAreas pt m areas
    pure (area :: areas, m)

def clear (ms : MemorySet) (m : Machine) : Except Panic (MemorySet × Machine) := do
  let (areas, m) ← unmapAreas ms.pt m ms.areas.values
  let m ← areas.foldlM (fun m area => area.drop m) m
  pure ({ ms with areas := .empty }, m)

/-- The loop of `clone`. -/
def cloneAreas (ms : MemorySet) (m : Machine) : List MapArea → Except Panic (MemorySet × Machine)
  | [] => pure (ms, m)
  | area :: areas => do
    let (area, m) ← area.clone m
    let (ms, m) ← ms.insert area m
    cloneAreas ms m areas

def clone (ms : MemorySet) (m : Machine) : Except Panic (MemorySet × Machine) := do
  let (ms', m) ← new m
  cloneAreas ms' m ms.areas.values

/-- `Drop`, and then the fields -/
def drop (ms : MemorySet) (m : Machine) : Except Panic Machine := do
  let (ms, m) ← ms.clear m
  let m ← ms.pt.drop m
  ms.areas.values.foldlM (fun m area => area.drop m) m

end MemorySet

/-! Any number of memory sets over one allocator -/

structure Sets where
  machine : Machine
  /-- A set that has been dropped is `none`. -/
  sets : List (Option MemorySet)

inductive SetOp where
  | new
  /-- A framed area is made, data is written to it and it is inserted. -/
  | insert (n : ℕ) (start : VirtAddr) (size : Usize) (flags : MemFlags) (writes : List (Usize × Slice))
  | clone (n : ℕ)
  | clear (n : ℕ)
  | drop (n : ℕ)

namespace MapArea

def writeAll (area : MapArea) (m : Machine) : List (Usize × Slice) → Except Panic (MapArea × Machine)
  | [] => pure (area, m)
  | (offset, data) :: writes => do
    let (area, m) ← area.writeData m offset data
    area.writeAll m writes

end MapArea

namespace Sets

def set (s : Sets) (n : ℕ) : Option MemorySet := s.sets[n]?.join

/-- An operation on a set that is not there does nothing. -/
def step (s : Sets) : SetOp → Except Panic Sets
  | .new => do
    let (ms, m) ← MemorySet.new s.machine
    pure ⟨m, s.sets ++ [some ms]⟩
  | .insert n start size flags writes =>
    match s.set n with
    | some ms => do
      let area ← MapArea.newFramed start size flags
      let (area, m) ← area.writeAll s.machine writes
      let (ms, m) ← ms.insert area m
      pure ⟨m, s.sets.set n (some ms)⟩
    | none => pure s
  | .clone n =>
    match s.set n with
    | some ms => do
      let (ms', m) ← ms.clone s.machine
      pure ⟨m, s.sets ++ [some ms']⟩
    | none => pure s
  | .clear n =>
    match s.set n with
    | some ms => do
      let (ms, m) ← ms.clear s.machine
      pure ⟨m, s.sets.set n (some ms)⟩
    | none => pure s
  | .drop n =>
    match s.set n with
    | some ms => do
      let m ← ms.drop s.machine
      pure ⟨m, s.sets.set n none⟩
    | none => pure s

end Sets

/-- The states of a run of operations, the last one first. -/
inductive SetTrace (m : Machine) : Sets → List Sets → Prop where
  | start : SetTrace m ⟨m, []⟩ [⟨m, []⟩]
  | step {s s' : Sets} {states : List Sets} {op : SetOp} (h : SetTrace m s states) (hs : s.step op = .ok s') :
    SetTrace m s' (s' :: states)

end RCore.Mm
