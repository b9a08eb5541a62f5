import RCore.Spec.Mm.Frame

/-! Page tables: `page_table.rs`. -/

namespace RCore.Mm

open RCore.Lib

structure MemFlags where
  read : Bool
  write : Bool
  execute : Bool
  user : Bool
  device : Bool
deriving DecidableEq

inductive MemType where
  | device
  | normal
deriving DecidableEq

/-- Memory attribute fields in the VMSAv8-64 translation table format descriptors. -/
abbrev DescriptorAttr := BitVec 64

namespace DescriptorAttr

/-- Whether the descriptor is valid. -/
def VALID : DescriptorAttr := 1 <<< 0
/-- The descriptor gives the address of the next level of translation table or 4KB page. -/
def NON_BLOCK : DescriptorAttr := 1 <<< 1
/-- Accessable at EL0. -/
def AP_EL0 : DescriptorAttr := 1 <<< 6
/-- Read-only. -/
def AP_RO : DescriptorAttr := 1 <<< 7
def INNER : DescriptorAttr := 1 <<< 8
def SHAREABLE : DescriptorAttr := 1 <<< 9
/-- The Access flag. -/
def AF : DescriptorAttr := 1 <<< 10
/-- The Privileged execute-never field. -/
def PXN : DescriptorAttr := 1 <<< 53
/-- The Execute-never or Unprivileged execute-never field. -/
def UXN : DescriptorAttr := 1 <<< 54

/-- Bits 0 to 11, 52 to 54 and 59 to 63 have a name. -/
def all : DescriptorAttr := 0xf870000000000fff

def ATTR_INDEX_MASK : BitVec 64 := 0b11100

def fromBitsTruncate (bits : BitVec 64) : DescriptorAttr := bits &&& all

def contains (attr other : DescriptorAttr) : Bool := attr &&& other == other

def fromMemType : MemType → DescriptorAttr
  | .device => fromBitsTruncate (0 <<< 2)
  | .normal => fromBitsTruncate ((1 <<< 2) ||| INNER ||| SHAREABLE)

def memType (attr : DescriptorAttr) : Except Panic MemType :=
  let idx := (attr &&& ATTR_INDEX_MASK) >>> 2
  if idx = 0 then .ok .device
  else if idx = 1 then .ok .normal
  else .error .memType

/-- `From<DescriptorAttr> for MemFlags` -/
def toFlags (attr : DescriptorAttr) : Except Panic MemFlags := do
  let execute :=
    if contains attr AP_EL0 then !contains attr UXN
    else attr &&& PXN == 0
  let memType ← memType attr
  pure {
    read := contains attr VALID
    write := !contains attr AP_RO
    execute
    user := contains attr AP_EL0
    device := memType = .device }

/-- `From<MemFlags> for DescriptorAttr` -/
def fromFlags (flags : MemFlags) : DescriptorAttr :=
  let attr := if flags.device then fromMemType .device else fromMemType .normal
  let attr := if flags.read then attr ||| VALID else attr
  let attr := if !flags.write then attr ||| AP_RO else attr
  if flags.user then
    let attr := attr ||| (AP_EL0 ||| PXN)
    if !flags.execute then attr ||| UXN else attr
  else
    let attr := attr ||| UXN
    if !flags.execute then attr ||| PXN else attr

end DescriptorAttr

open DescriptorAttr

abbrev PageTableEntry := BitVec 64

namespace PageTableEntry

def PHYS_ADDR_MASK : Usize := PhysAddr.MAX &&& ~~~(PAGE_SIZE - 1)

def empty : PageTableEntry := 0

def newPage (paddr : PhysAddr) (flags : MemFlags) (isBlock : Bool) : PageTableEntry :=
  let attr := fromFlags flags ||| AF
  let attr := if !isBlock then attr ||| NON_BLOCK else attr
  attr ||| (paddr.bits &&& PHYS_ADDR_MASK)

def newTable (paddr : PhysAddr) : PageTableEntry :=
  (NON_BLOCK ||| VALID) ||| (paddr.bits &&& PHYS_ADDR_MASK)

def paddr (e : PageTableEntry) : PhysAddr := PhysAddr.new (e &&& PHYS_ADDR_MASK)

def flags (e : PageTableEntry) : Except Panic MemFlags := toFlags (fromBitsTruncate e)

def isUnused (e : PageTableEntry) : Bool := e == 0

def isPresent (e : PageTableEntry) : Bool := contains (fromBitsTruncate e) VALID

def isBlock (e : PageTableEntry) : Bool := !contains (fromBitsTruncate e) NON_BLOCK

end PageTableEntry

abbrev ENTRY_COUNT : ℕ := 512

theorem index_lt (bits : Usize) : (bits &&& 511).toNat < ENTRY_COUNT := by
  rw [BitVec.toNat_and]
  exact Nat.lt_of_le_of_lt Nat.and_le_right (by decide)

/-- The entry of a table for the address bits from `shift` upwards. -/
def index (vaddr : VirtAddr) (shift : ℕ) : Fin ENTRY_COUNT := ⟨((vaddr.bits >>> shift) &&& 511).toNat, index_lt _⟩

def p4Index (vaddr : VirtAddr) : Fin ENTRY_COUNT := index vaddr (12 + 27)
def p3Index (vaddr : VirtAddr) : Fin ENTRY_COUNT := index vaddr (12 + 18)
def p2Index (vaddr : VirtAddr) : Fin ENTRY_COUNT := index vaddr (12 + 9)
def p1Index (vaddr : VirtAddr) : Fin ENTRY_COUNT := index vaddr 12

namespace Machine

/-- `&table_of(paddr)[index]` -/
def entry (m : Machine) (table : PhysAddr) (i : Fin ENTRY_COUNT) : PageTableEntry :=
  field (m.memory table.frame) (64 * i) 64

def setEntry (m : Machine) (table : PhysAddr) (i : Fin ENTRY_COUNT) (e : PageTableEntry) : Machine :=
  m.setFrame table (splice (m.memory table.frame) (64 * i) e)

end Machine

structure PageTable where
  rootPaddr : PhysAddr
  intrmTables : List PhysFrame
deriving DecidableEq

def nextTableMut (e : PageTableEntry) : Except Panic (Option PhysAddr) :=
  if !e.isPresent then .ok none
  else if e.isBlock then .error .block
  else .ok (some e.paddr)

namespace PageTable

def new (m : Machine) : Except Panic (PageTable × Machine) := do
  let (rootFrame, m) ← PhysFrame.allocZero m
  pure (⟨rootFrame.startPaddr, [rootFrame]⟩, m)

def allocIntrmTable (pt : PageTable) (m : Machine) : Except Panic (PhysAddr × PageTable × Machine) := do
  let (frame, m) ← PhysFrame.allocZero m
  pure (frame.startPaddr, { pt with intrmTables := pt.intrmTables ++ [frame] }, m)

/-- The table and the index of the entry. -/
def getEntryMut (pt : PageTable) (m : Machine) (vaddr : VirtAddr) :
    Except Panic (Option (PhysAddr × Fin ENTRY_COUNT)) := do
  match ← nextTableMut (m.entry pt.rootPaddr (p4Index vaddr)) with
  | none => pure none
  | some p3 =>
    match ← nextTableMut (m.entry p3 (p3Index vaddr)) with
    | none => pure none
    | some p2 =>
      match ← nextTableMut (m.entry p2 (p2Index vaddr)) with
      | none => pure none
      | some p1 => pure (some (p1, p1Index vaddr))

/-- `next_table_mut_or_create`, for an entry of a table. -/
def nextTableMutOrCreate (pt : PageTable) (m : Machine) (table : PhysAddr) (i : Fin ENTRY_COUNT) :
    Except Panic (Option PhysAddr × PageTable × Machine) := do
  if (m.entry table i).isUnused then
    let (paddr, pt, m) ← pt.allocIntrmTable m
    pure (some paddr, pt, m.setEntry table i (.newTable paddr))
  else
    pure (← nextTableMut (m.entry table i), pt, m)

def getEntryMutOrCreate (pt : PageTable) (m : Machine) (vaddr : VirtAddr) :
    Except Panic (Option (PhysAddr × Fin ENTRY_COUNT) × PageTable × Machine) := do
  match ← pt.nextTableMutOrCreate m pt.rootPaddr (p4Index vaddr) with
  | (none, pt, m) => pure (none, pt, m)
  | (some p3, pt, m) =>
    match ← pt.nextTableMutOrCreate m p3 (p3Index vaddr) with
    | (none, pt, m) => pure (none, pt, m)
    | (some p2, pt, m) =>
      match ← pt.nextTableMutOrCreate m p2 (p2Index vaddr) with
      | (none, pt, m) => pure (none, pt, m)
      | (some p1, pt, m) => pure (some (p1, p1Index vaddr), pt, m)

def map (pt : PageTable) (m : Machine) (vaddr : VirtAddr) (paddr : PhysAddr) (flags : MemFlags) :
    Except Panic (PageTable × Machine) := do
  match ← pt.getEntryMutOrCreate m vaddr with
  | (none, _, _) => throw .noEntry
  | (some (table, i), pt, m) =>
    if !(m.entry table i).isUnused then throw .mapped
    else pure (pt, m.setEntry table i (.newPage paddr.alignDown flags false))

def unmap (pt : PageTable) (m : Machine) (vaddr : VirtAddr) : Except Panic Machine := do
  match ← pt.getEntryMut m vaddr with
  | none => throw .noEntry
  | some (table, i) =>
    if (m.entry table i).isUnused then throw .unmapped else pure (m.setEntry table i .empty)

def query (pt : PageTable) (m : Machine) (vaddr : VirtAddr) :
    Except Panic (Option (PhysAddr × MemFlags)) := do
  match ← pt.getEntryMut m vaddr with
  | none => pure none
  | some (table, i) =>
    let e := m.entry table i
    if e.isUnused then pure none
    else
      let flags ← e.flags
      pure (some (PhysAddr.new (e.paddr.bits + vaddr.pageOffset), flags))

end PageTable

end RCore.Mm
