import RCore.Sanity.Mm.Frame
import RCore.Spec.Mm.PageTable

/-! The words of a page table: what is put into an entry is what is read from it. -/

namespace RCore.Mm

open RCore.Lib
open DescriptorAttr

namespace PageTableEntry

/-- The address in an entry leaves the bits outside the mask alone. -/
theorem or_addr_and (attr addr bits : BitVec 64) (h : PHYS_ADDR_MASK &&& bits = 0) :
    (attr ||| (addr &&& PHYS_ADDR_MASK)) &&& bits = attr &&& bits := by
  rw [BitVec.and_or_distrib_right, BitVec.and_assoc, h]
  exact (congrArg _ BitVec.and_zero).trans BitVec.or_zero

/-- The attributes leave the address alone. -/
theorem or_attr_and (attr addr : BitVec 64) (h : attr &&& PHYS_ADDR_MASK = 0) :
    (attr ||| (addr &&& PHYS_ADDR_MASK)) &&& PHYS_ADDR_MASK = addr &&& PHYS_ADDR_MASK := by
  rw [BitVec.and_or_distrib_right, BitVec.and_assoc, BitVec.and_self, h]
  exact BitVec.zero_or

theorem toNat_addr (addr : Usize) :
    (PhysAddr.new (addr &&& PHYS_ADDR_MASK)).bits.toNat = addr.toNat % 2 ^ 40 - addr.toNat % 4096 := by
  have hand : addr &&& PHYS_ADDR_MASK = alignDown (PhysAddr.new addr).bits PAGE_SIZE := by
    rw [PHYS_ADDR_MASK, PhysAddr.new, alignDown, BitVec.and_assoc]
  rw [toNat_new, hand, toNat_alignDown, toNat_new]
  omega

/-! Entries for tables -/

theorem newTable_isPresent (p : PhysAddr) : isPresent (newTable p) = true := by
  have h := or_addr_and (NON_BLOCK ||| VALID) p.bits (all &&& VALID) (by decide)
  rw [isPresent, contains, fromBitsTruncate, newTable, BitVec.and_assoc, h]
  decide

theorem newTable_isBlock (p : PhysAddr) : isBlock (newTable p) = false := by
  have h := or_addr_and (NON_BLOCK ||| VALID) p.bits (all &&& NON_BLOCK) (by decide)
  rw [isBlock, contains, fromBitsTruncate, newTable, BitVec.and_assoc, h]
  decide

theorem newTable_paddr (p : PhysAddr) : (paddr (newTable p)).frame = p.frame % 2 ^ 28 := by
  rw [paddr, newTable, or_attr_and _ _ (by decide), PhysAddr.frame, toNat_addr, PhysAddr.frame]
  omega

/-! Entries for pages -/

/-- The attributes of a page. -/
def pageAttr (flags : MemFlags) : DescriptorAttr := fromFlags flags ||| AF ||| NON_BLOCK

theorem newPage_eq (p : PhysAddr) (flags : MemFlags) :
    newPage p flags false = pageAttr flags ||| (p.bits &&& PHYS_ADDR_MASK) := rfl

theorem pageAttr_mask (flags : MemFlags) : pageAttr flags &&& PHYS_ADDR_MASK = 0 := by
  obtain ⟨r, w, x, u, d⟩ := flags
  revert r w x u d
  decide

theorem pageAttr_af (flags : MemFlags) : pageAttr flags &&& AF = AF := by
  rw [pageAttr, BitVec.and_or_distrib_right, BitVec.and_or_distrib_right, BitVec.and_self]
  obtain ⟨r, w, x, u, d⟩ := flags
  revert r w x u d
  decide

theorem toFlags_pageAttr (flags : MemFlags) : toFlags (pageAttr flags &&& all) = .ok flags := by
  obtain ⟨r, w, x, u, d⟩ := flags
  cases r <;> cases w <;> cases x <;> cases u <;> cases d <;> rfl

theorem newPage_ne_zero (p : PhysAddr) (flags : MemFlags) : newPage p flags false ≠ 0 := by
  intro h
  have hand := or_addr_and (pageAttr flags) p.bits AF (by decide)
  rw [← newPage_eq, h, pageAttr_af] at hand
  exact absurd hand (by decide)

theorem newPage_flags (p : PhysAddr) (flags : MemFlags) : (newPage p flags false).flags = .ok flags := by
  rw [PageTableEntry.flags, fromBitsTruncate, newPage_eq, or_addr_and _ _ _ (by decide), toFlags_pageAttr]

theorem newPage_paddr (p : PhysAddr) (flags : MemFlags) :
    (paddr (newPage p flags false)).bits.toNat = p.bits.toNat % 2 ^ 40 - p.bits.toNat % 4096 := by
  rw [paddr, newPage_eq, or_attr_and _ _ (pageAttr_mask flags), toNat_addr]

/-- The address that a query gives for a page. -/
theorem newPage_offset {p : PhysAddr} (hp : p.bits.toNat < 2 ^ 40) (flags : MemFlags) (v : VirtAddr) :
    PhysAddr.new ((newPage p.alignDown flags false).paddr.bits + v.pageOffset) =
      ⟨p.alignDown.bits + v.pageOffset⟩ := by
  have hdown : p.alignDown.bits.toNat = p.bits.toNat - p.bits.toNat % 4096 := toNat_alignDown _
  have hoff : v.pageOffset.toNat = v.bits.toNat % 4096 := toNat_pageOffset _
  have haddr : (newPage p.alignDown flags false).paddr.bits = p.alignDown.bits := by
    apply BitVec.eq_of_toNat_eq
    rw [newPage_paddr, hdown]
    omega
  have hnew : (PhysAddr.new (p.alignDown.bits + v.pageOffset)).bits = p.alignDown.bits + v.pageOffset := by
    apply BitVec.eq_of_toNat_eq
    rw [toNat_new, BitVec.toNat_add, hdown, hoff]
    omega
  rw [haddr]
  exact congrArg PhysAddr.mk hnew

end PageTableEntry

end RCore.Mm
