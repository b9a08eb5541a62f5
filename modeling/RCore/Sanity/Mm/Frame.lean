import RCore.Lib.Ensures
import RCore.Lib.Ownership
import RCore.Spec.Mm.Frame

/-! Addresses are a page and an offset in it. The allocator hands out a frame that nobody
has, and takes back any that somebody has. -/

namespace RCore.Mm

open RCore.Lib

theorem toNat_PAGE_SIZE : PAGE_SIZE.toNat = 4096 := rfl

theorem PAGE_SIZE_sub_one : PAGE_SIZE - 1 = BitVec.ofNat 64 (2 ^ 12 - 1) := rfl

@[simp] theorem toNat_pageOffset (addr : Usize) : (pageOffset addr PAGE_SIZE).toNat = addr.toNat % 4096 := by
  rw [pageOffset, PAGE_SIZE_sub_one]
  exact toNat_and_mask addr (by omega)

@[simp] theorem toNat_alignDown (addr : Usize) :
    (alignDown addr PAGE_SIZE).toNat = addr.toNat - addr.toNat % 4096 := by
  rw [alignDown, PAGE_SIZE_sub_one]
  exact toNat_and_not_mask addr (by omega)

theorem isAligned_iff (addr : Usize) : isAligned addr PAGE_SIZE = true ↔ addr.toNat % 4096 = 0 := by
  rw [isAligned, beq_iff_eq, ← toNat_pageOffset]
  exact ⟨fun h => by rw [h]; rfl, fun h => BitVec.eq_of_toNat_eq h⟩

theorem new_eq_ok {va : Usize} {v : VirtAddr} :
    VirtAddr.new va = .ok v ↔ v = ⟨va⟩ ∧ (va.toNat < 2 ^ 48 ∨ 2 ^ 64 - 2 ^ 48 ≤ va.toNat) := by
  have hlt := va.isLt
  have hzero : va >>> 48 = 0 ↔ va.toNat < 2 ^ 48 := by
    rw [← BitVec.toNat_inj, BitVec.toNat_ushiftRight, Nat.shiftRight_eq_div_pow]
    change va.toNat / 2 ^ 48 = 0 ↔ _
    omega
  have hones : va >>> 48 = 0xffff ↔ 2 ^ 64 - 2 ^ 48 ≤ va.toNat := by
    rw [← BitVec.toNat_inj, BitVec.toNat_ushiftRight, Nat.shiftRight_eq_div_pow]
    change va.toNat / 2 ^ 48 = 65535 ↔ _
    omega
  rw [VirtAddr.new]
  split_ifs with h
  · rw [ne_eq, ne_eq, hzero, hones] at h
    exact iff_of_false (fun h => by cases h) fun hv => by omega
  · rw [ne_eq, ne_eq, hzero, hones] at h
    rw [Except.ok.injEq, eq_comm]
    exact ⟨fun hv => ⟨hv, by omega⟩, And.left⟩

theorem toNat_new (pa : Usize) : (PhysAddr.new pa).bits.toNat = pa.toNat % 2 ^ 40 := by
  rw [PhysAddr.new, BitVec.toNat_and, show PhysAddr.MAX.toNat = 2 ^ 40 - 1 from rfl,
    Nat.and_two_pow_sub_one_eq_mod]

namespace FreeListAllocator

structure Ok (a : FreeListAllocator) : Prop where
  start_le : a.start ≤ a.nextAvailable
  next_le : a.nextAvailable ≤ a.stop
  range : ∀ v ∈ a.freeList, a.start ≤ v ∧ v < a.nextAvailable
  nodup : a.freeList.Nodup

/-- Handed out and not given back. -/
def outstanding (a : FreeListAllocator) : Set ℕ :=
  {v | a.start ≤ v ∧ v < a.nextAvailable ∧ v ∉ a.freeList}

variable {a a' : FreeListAllocator} {v : ℕ}

theorem mem_outstanding : v ∈ a.outstanding ↔ a.start ≤ v ∧ v < a.nextAvailable ∧ v ∉ a.freeList :=
  Iff.rfl

theorem Ok.lt_stop (h : a.Ok) (hv : v ∈ a.outstanding) : v < a.stop :=
  lt_of_lt_of_le hv.2.1 h.next_le

theorem Ok.alloc (h : a.Ok) (ha : a.alloc = some (v, a')) :
    a'.Ok ∧ a'.stop = a.stop ∧ v < a.stop ∧ v ∉ a.outstanding ∧
      a'.outstanding = insert v a.outstanding := by
  have hstart := h.start_le
  have hnext := h.next_le
  unfold FreeListAllocator.alloc at ha
  split at ha
  · next value freeList hfree =>
    rw [Option.some.injEq, Prod.mk.injEq] at ha
    obtain ⟨rfl, rfl⟩ := ha
    have hnd := h.nodup
    rw [hfree, List.nodup_cons] at hnd
    have hrange : ∀ w ∈ value :: freeList, a.start ≤ w ∧ w < a.nextAvailable := hfree ▸ h.range
    have hvalue := hrange value List.mem_cons_self
    refine ⟨⟨hstart, hnext, fun w hw => hrange w (List.mem_cons_of_mem _ hw), hnd.2⟩, rfl, by omega,
      fun hv => hv.2.2 (by rw [hfree]; exact List.mem_cons_self), ?_⟩
    ext w
    simp only [mem_outstanding, Set.mem_insert_iff, hfree, List.mem_cons]
    by_cases hw : w = value
    · rw [hw]
      exact iff_of_true ⟨hvalue.1, hvalue.2, hnd.1⟩ (.inl rfl)
    · tauto
  · next hfree =>
    split_ifs at ha with hfull
    rw [Option.some.injEq, Prod.mk.injEq] at ha
    obtain ⟨rfl, rfl⟩ := ha
    refine ⟨⟨by simp; omega, by simp; omega, by simp [hfree], by simp [hfree]⟩, rfl, by omega,
      fun hv => absurd hv.2.1 (lt_irrefl _), ?_⟩
    ext w
    simp only [mem_outstanding, Set.mem_insert_iff, hfree, List.not_mem_nil, not_false_eq_true, and_true]
    omega

theorem Ok.dealloc (h : a.Ok) (hv : v ∈ a.outstanding) :
    ∃ a', a.dealloc v = .ok a' ∧ a'.Ok ∧ a'.stop = a.stop ∧ a'.outstanding = a.outstanding \ {v} := by
  refine ⟨_, if_pos hv, ⟨h.start_le, h.next_le, ?_, List.nodup_cons.mpr ⟨hv.2.2, h.nodup⟩⟩, rfl, ?_⟩
  · intro w hw
    rcases List.mem_cons.mp hw with rfl | hw
    · exact ⟨hv.1, hv.2.1⟩
    · exact h.range w hw
  · ext w
    simp only [mem_outstanding, Set.mem_sdiff, Set.mem_singleton_iff, List.mem_cons]
    tauto

end FreeListAllocator

namespace Machine

/-- The frames of the allocator are below 1 TB. -/
def Ok (m : Machine) : Prop := m.allocator.Ok ∧ m.allocator.stop ≤ 2 ^ 28

def outstanding (m : Machine) : Set ℕ := m.allocator.outstanding

/-- The frames `own` are somebody's, and `others` are all the other ones that are handed out. -/
abbrev Owns (m : Machine) (others : Set ℕ) (own : List ℕ) : Prop :=
  Lib.Owns Machine.Ok Machine.outstanding m others own

variable {m : Machine} {others : Set ℕ} {own : List ℕ}

theorem Ok.lt (h : m.Ok) {f : ℕ} (hf : f ∈ m.outstanding) : f < 2 ^ 28 :=
  lt_of_lt_of_le (h.1.lt_stop hf) h.2

theorem Owns.setFrame (h : m.Owns others own) (p : PhysAddr) (frame : Frame) :
    (m.setFrame p frame).Owns others own :=
  h.same h.sound rfl

/-- Frames that are in use are somebody's, and the others in use are not. -/
theorem owns_of_outstanding (hm : m.Ok) (hnd : own.Nodup) (h : ∀ f ∈ own, f ∈ m.outstanding) :
    m.Owns {f | f ∈ m.outstanding ∧ f ∉ own} own := by
  refine ⟨hm, hnd, fun f hf hno => hno.2 hf, fun f => ?_⟩
  constructor
  · intro hf
    by_cases ht : f ∈ own
    · exact .inr ht
    · exact .inl ⟨hf, ht⟩
  · rintro (hf | hf)
    · exact hf.1
    · exact h f hf

theorem setFrame_memory (m : Machine) (p : PhysAddr) (frame : Frame) (f : ℕ) :
    (m.setFrame p frame).memory f = if f = p.frame then frame else m.memory f :=
  Function.update_apply m.memory p.frame frame f

end Machine

namespace PhysFrame

theorem number_eq (f : PhysFrame) : f.number = f.startPaddr.frame := rfl

theorem toNat_start (f : PhysFrame) :
    f.startPaddr.bits.toNat < 2 ^ 40 ∧ f.startPaddr.bits.toNat % 4096 = 0 := by
  have hstart := congrArg (fun p : PhysAddr => p.bits.toNat) f.start
  rw [toNat_new, PhysAddr.alignDown, toNat_alignDown] at hstart
  omega

@[simp] theorem alignDown_start (f : PhysFrame) : f.startPaddr.alignDown = f.startPaddr := by
  refine congrArg PhysAddr.mk (BitVec.eq_of_toNat_eq ?_)
  rw [toNat_alignDown, f.toNat_start.2, Nat.sub_zero]

theorem number_mul {v : ℕ} (hv : v < 2 ^ 28) :
    PhysFrame.number ⟨PhysAddr.new (BitVec.ofNat 64 v * PAGE_SIZE), start_mul _⟩ = v := by
  have hmul : (BitVec.ofNat 64 v * PAGE_SIZE).toNat = v * 4096 := by
    rw [BitVec.toNat_mul, BitVec.toNat_ofNat, toNat_PAGE_SIZE]
    omega
  rw [number, toNat_new, hmul, toNat_PAGE_SIZE]
  omega

variable {m : Machine} {others : Set ℕ} {own : List ℕ} {f : PhysFrame}

theorem alloc_spec (h : m.Owns others own) : Ensures (PhysFrame.alloc m)
    (fun r => r.1.number ∉ m.outstanding ∧ r.2.Owns others (own ++ [r.1.number]) ∧ r.2.memory = m.memory)
    (· = .noFrame) := by
  rw [PhysFrame.alloc]
  split
  · next value allocator halloc =>
    obtain ⟨hok, hstop, hlt, hnew, hout⟩ := h.sound.1.alloc halloc
    have hnumber := number_mul (lt_of_lt_of_le hlt h.sound.2)
    refine Ensures.ok ⟨?_, ?_, rfl⟩
    · rw [hnumber]
      exact hnew
    · rw [hnumber]
      exact h.take ⟨hok, hstop.le.trans h.sound.2⟩ hnew hout
  · exact Ensures.error rfl

theorem allocZero_spec (h : m.Owns others own) : Ensures (PhysFrame.allocZero m)
    (fun r => r.1.number ∉ m.outstanding ∧ r.2.Owns others (own ++ [r.1.number]) ∧
      r.2.memory r.1.number = 0 ∧ ∀ g ∈ m.outstanding, r.2.memory g = m.memory g)
    (· = .noFrame) := by
  refine (alloc_spec h).bind fun r hr => Ensures.pure ?_
  obtain ⟨hnew, howns, hmem⟩ := hr
  refine ⟨hnew, howns.setFrame _ _, ?_, fun g hg => ?_⟩
  · rw [Machine.setFrame_memory, if_pos (number_eq _)]
  · rw [Machine.setFrame_memory, if_neg, hmem]
    rintro rfl
    exact hnew hg

theorem drop_spec (h : m.Owns others (f.number :: own)) :
    ∃ m', f.drop m = .ok m' ∧ m'.Owns others own ∧ m'.memory = m.memory := by
  obtain ⟨a', hdealloc, hok, hstop, hout⟩ := h.sound.1.dealloc (h.live_own List.mem_cons_self)
  refine ⟨{ m with allocator := a' }, ?_, h.give ⟨hok, hstop.le.trans h.sound.2⟩ hout, rfl⟩
  rw [drop, hdealloc]
  rfl

end PhysFrame

end RCore.Mm
