import RCore.Proofs.Os.Space

/-! Where the stacks of the tasks of a process are, one below the other with a page between
them. A child gets the stacks of the threads of its parent and starts to count anew, and a
program may be linked to where the stacks are; apart from that a stack never meets an area. -/

namespace RCore.Mm

/-- The addresses of an area, around the end of the address space. -/
def MapArea.Covers (area : MapArea) (x : Usize) : Prop := x - area.start.bits < area.size

/-- The addresses of the pages of a segment. -/
def Segment.Covers (ph : Segment) (x : Usize) : Prop :=
  x - alignDown ph.virtualAddr PAGE_SIZE <
    alignUp (ph.virtualAddr + ph.memSize) PAGE_SIZE - alignDown ph.virtualAddr PAGE_SIZE

end RCore.Mm

namespace RCore.Os

open RCore.Lib Kernel
open Mm (MemorySet MapArea Segment Machine VirtAddr Usize)

/-- The stacks of the tasks from 0 to 17 are here. The tasks go up to 16, and the allocator to
one more. -/
def StackAddr (y : ℕ) : Prop := (userStack 17).1 ≤ y ∧ y < USER_STACK_TOP

/-- No segment has a page there, whatever the upper 16 bits of its address: the page table does
not look at them. -/
def Away (ph : Segment) : Prop := ∀ x : Usize, ph.Covers x → ¬ StackAddr (x.toNat % 2 ^ 48)

namespace Spaces

/-- Who forks has no stack of a thread in its memory, and a program is away from the stacks. -/
def Careful (s : Spaces) (pid : ℕ) (elf : List Segment) : Change → Prop
  | .fork _ => ∀ vm, s.vm pid = some vm → ∀ tid, 0 < tid → tid ≤ 16 →
      vm.areas.get? ⟨BitVec.ofNat 64 (userStack tid).1⟩ = none
  | .exec => ∀ ph ∈ elf, Away ph
  | _ => True

end Spaces

/-- The runs in which everybody is careful. -/
inductive CarefulTrace (m : Machine) : Roster → Spaces → Prop
  | boot {k : Kernel} {entry ustackTop : UInt64} {elf : List Segment} {s : Spaces}
      (hk : Kernel.boot entry ustackTop = .ok k) (hs : Spaces.boot m elf = .ok s) (haway : ∀ ph ∈ elf, Away ph) :
      CarefulTrace m k.roster s
  | change {r r' : Roster} {s s' : Spaces} {t pid : ℕ} {p : ProcEntry} {c : Change} {elf : List Segment}
      (h : CarefulTrace m r s) (hs : r.Serves t pid p) (hm : Roster.Makes t pid p r c r')
      (hf : s.follow r t pid p elf c = some s') (hcareful : s.Careful pid elf c) : CarefulTrace m r' s'
  | store {r : Roster} {s : Spaces} {t pid : ℕ} {p : ProcEntry} {vm : MemorySet} {v : VirtAddr}
      {paddr : Mm.PhysAddr} {flags : Mm.MemFlags} (h : CarefulTrace m r s) (hs : r.Serves t pid p)
      (hvm : s.vm pid = some vm) (hv : vm.pt.query s.machine v = .ok (some (paddr, flags)))
      (hflags : flags.user = true ∧ flags.write = true) (frame : Mm.Frame) :
      CarefulTrace m r { s with machine := s.machine.setFrame paddr frame }

/-- The stack of the next task meets no area, so that nothing but the lack of frames keeps it
from being inserted. Between the stacks of any two tasks there is a page that is not mapped. -/
structure SeparateStacks (m : Machine) (p : ProcEntry) (vm : MemorySet) : Prop where
  free : ∀ a ∈ vm.areas.values, ∀ x : Usize, (userStack p.tidAllocator).1 ≤ x.toNat →
    x.toNat < (userStack p.tidAllocator).2 → ¬ a.Covers x
  insert : ∀ e, vm.insertStack (userStack p.tidAllocator).1 m = .error e → e = .noFrame
  apart : ∀ a ∈ p.tasks, ∀ b ∈ p.tasks, a.1 < b.1 → ∃ v : VirtAddr, v.isAligned = true ∧
    (userStack b.1).2 ≤ v.bits.toNat ∧ v.bits.toNat + 4096 ≤ (userStack a.1).1 ∧ vm.pt.query m v = .ok none

/-! Addresses -/

section addresses

variable {n tid y : ℕ} {a : MapArea} {x : Usize}

theorem userStack_eq (h : n ≤ 17) :
    (userStack n).1 + n * 20480 + 16384 = 2 ^ 47 ∧ (userStack n).2 + n * 20480 = 2 ^ 47 := by
  simp only [userStack, USER_STACK_TOP, USER_STACK_SIZE, PAGE_SIZE]
  omega

/-- An address for stacks that is not in one of the first `n`. -/
structure Free (n y : ℕ) : Prop where
  stackAddr : StackAddr y
  outside : ∀ tid < n, ¬ ((userStack tid).1 ≤ y ∧ y < (userStack tid).2)

theorem free_next (hn : n ≤ 17) (hy : (userStack n).1 ≤ y) (hy' : y < (userStack n).2) : Free n y := by
  have heq := userStack_eq hn
  refine ⟨⟨?_, ?_⟩, fun tid htid => ?_⟩
  · have hlast := userStack_eq (le_refl 17)
    omega
  · rw [USER_STACK_TOP]
    omega
  · have htid' := userStack_eq (n := tid) (by omega)
    omega

/-- The page below a stack, if there is another stack below that. -/
theorem free_guard {i j : ℕ} (hij : i < j) (hj : j < n) (hn : n ≤ 17) (hy : (userStack i).1 ≤ y + 4096)
    (hy' : y < (userStack i).1) : Free n y := by
  have heq := userStack_eq (n := i) (by omega)
  refine ⟨⟨?_, ?_⟩, fun tid htid => ?_⟩
  · have hlast := userStack_eq (le_refl 17)
    omega
  · rw [USER_STACK_TOP]
    omega
  · have htid' := userStack_eq (n := tid) (by omega)
    omega

theorem covers_addr {k : ℕ} (hk : k < a.pages) : a.Covers (a.addr k).bits := by
  have hsize := a.pages_mul
  have hlt := a.size.isLt
  have hsub : (a.addr k).bits - a.start.bits = BitVec.ofNat 64 (k * 4096) := by
    rw [MapArea.addr, BitVec.add_comm, BitVec.add_sub_cancel]
  rw [MapArea.Covers, hsub, BitVec.lt_def, BitVec.toNat_ofNat]
  omega

theorem covers_start (h : 0 < a.size.toNat) : a.Covers a.start.bits := by
  rw [MapArea.Covers, BitVec.sub_self, BitVec.lt_def]
  exact h

theorem covers_stack {b : ℕ} (h : a.IsStack b) (hb : b < 2 ^ 48) : a.Covers x ↔ b ≤ x.toNat ∧ x.toNat < b + 16384 := by
  have hx := x.isLt
  have hsize : (BitVec.ofNat 64 USER_STACK_SIZE).toNat = 16384 := rfl
  rw [MapArea.Covers, h.start, h.size, BitVec.lt_def, BitVec.toNat_sub, hsize, BitVec.toNat_ofNat]
  omega

theorem covers_segment {ph : Segment} (h : ph.Spans a) : a.Covers x ↔ ph.Covers x := by
  rw [MapArea.Covers, h.start, h.size]
  rfl

/-- An area is away from the stacks, or the stack of one of the first `n` tasks. -/
structure Placed (n : ℕ) (a : MapArea) : Prop where
  pos : 0 < a.size.toNat
  cases : (∀ x, a.Covers x → ¬ StackAddr (x.toNat % 2 ^ 48)) ∨ ∃ tid < n, a.IsStack (userStack tid).1

theorem placed_segment {ph : Segment} (haway : Away ph) (h : ph.Spans a) : Placed n a :=
  ⟨h.pos, .inl fun x hx => haway x ((covers_segment h).mp hx)⟩

theorem placed_stack (htid : tid < n) (h : a.IsStack (userStack tid).1) : Placed n a :=
  ⟨by rw [h.size]; decide, .inr ⟨tid, htid, h⟩⟩

theorem Placed.mono (h : Placed tid a) (hn : tid ≤ n) : Placed n a :=
  ⟨h.pos, h.cases.imp_right fun ⟨i, hi, hstack⟩ => ⟨i, lt_of_lt_of_le hi hn, hstack⟩⟩

theorem Placed.same {a' : MapArea} (h : Placed n a) (hsame : MapArea.Same a a') : Placed n a' := by
  refine ⟨by rw [hsame.size]; exact h.pos, ?_⟩
  rcases h.cases with haway | ⟨tid, htid, hstart, hsize⟩
  · refine .inl fun x hx => haway x ?_
    unfold MapArea.Covers at hx ⊢
    rwa [hsame.start, hsame.size] at hx
  · exact .inr ⟨tid, htid, by rw [hsame.start, hstart], by rw [hsame.size, hsize]⟩

theorem Placed.not_covers (h : Placed n a) (hn : n ≤ 17) (hfree : Free n (x.toNat % 2 ^ 48)) : ¬ a.Covers x := by
  intro hx
  rcases h.cases with haway | ⟨tid, htid, hstack⟩
  · exact haway x hx hfree.stackAddr
  · have heq := userStack_eq (n := tid) (by omega)
    rw [covers_stack hstack (by omega)] at hx
    refine hfree.outside tid htid ?_
    omega

end addresses

section sets

variable {m : Machine} {vm : MemorySet} {n : ℕ} {v : VirtAddr} {others : Set ℕ}

/-- A page for stacks that is free is not mapped. -/
theorem not_mapped (h : vm.Sound m) (hplaced : ∀ a ∈ vm.areas.values, Placed n a) (hn : n ≤ 17)
    (hv : v.isAligned = true) (hfree : Free n (v.bits.toNat % 2 ^ 48)) (e : Mm.PhysAddr × Mm.MemFlags) :
    (v.page, e) ∉ vm.mapped := by
  intro he
  obtain ⟨a, ha, hfits, u, f, hf, hpage, -⟩ := MemorySet.mem_mapped.mp he
  have hfull := (h.inserted a ha).full hfits
  obtain ⟨k, hk, rfl⟩ := (hfull.keys u).mp (by rw [hf]; rfl)
  have hmod : (a.addr k).bits.toNat % 2 ^ 48 = v.bits.toNat % 2 ^ 48 := by
    have hpages := congrArg BitVec.toNat hpage
    rw [Mm.toNat_page, Mm.toNat_page] at hpages
    have hu := (Mm.isAligned_iff _).mp (a.addr_aligned k)
    have hv := (Mm.isAligned_iff _).mp hv
    omega
  exact (hplaced a ha).not_covers hn (by rwa [hmod]) (covers_addr hk)

theorem stack_addr {a : MapArea} {k : ℕ} (hn : n ≤ 17) (ha : a.IsStack (userStack n).1) (hk : k < a.pages) :
    (a.addr k).bits.toNat = (userStack n).1 + k * 4096 ∧ k < 4 := by
  have heq := userStack_eq hn
  have hpages : a.pages = 4 := by
    rw [MapArea.pages, ha.size]
    rfl
  rw [hpages] at hk
  rw [MapArea.addr, ha.start, BitVec.toNat_add, BitVec.toNat_ofNat, BitVec.toNat_ofNat]
  omega

theorem insertStack_fails (h : vm.Sound m) (ho : m.Owns others vm.frames)
    (hplaced : ∀ a ∈ vm.areas.values, Placed n a) (hn : n ≤ 17) {e : Mm.Panic}
    (he : vm.insertStack (userStack n).1 m = .error e) : e = .noFrame := by
  have heq := userStack_eq hn
  have hbottom : (BitVec.ofNat 64 (userStack n).1).toNat = (userStack n).1 := by
    rw [BitVec.toNat_ofNat]
    omega
  have hvalid : ∀ w : Usize, w.toNat < 2 ^ 48 → VirtAddr.new w ≠ .error e := by
    intro w hw herr
    rw [Mm.new_eq_ok.mpr ⟨rfl, .inl hw⟩] at herr
    cases herr
  rcases (MemorySet.insertStack_spec h ho (userStack n).1).fails_of_error he with
    hnew | haligned | ⟨a, hstack, ⟨rfl, hget⟩ | ⟨-, rfl | ⟨k, hk, hnew | ⟨rfl, hpage | ⟨j, hj, hpage⟩⟩⟩⟩⟩
  · exact absurd hnew (hvalid _ (by omega))
  · rw [← Bool.not_eq_true, Mm.isAligned_iff, hbottom] at haligned
    omega
  · -- an area that starts where the stack does
    obtain ⟨b, hb⟩ := Option.isSome_iff_exists.mp hget
    have hmem := OrdMap.get?_eq_some.mp hb
    have hvalue : b ∈ vm.areas.values := List.mem_map.mpr ⟨_, hmem, rfl⟩
    have hstart : b.start.bits = BitVec.ofNat 64 (userStack n).1 := by
      rw [h.start _ hmem, hstack.start]
    refine absurd (covers_start (hplaced b hvalue).pos) ((hplaced b hvalue).not_covers hn ?_)
    rw [hstart, hbottom]
    exact free_next hn (by omega) (by omega)
  · rfl
  · have haddr := stack_addr hn hstack hk
    exact absurd hnew (hvalid _ (by omega))
  · -- a page that is mapped
    have haddr := stack_addr hn hstack hk
    obtain ⟨d, hd, hde⟩ := List.mem_map.mp hpage
    refine absurd hd (?_ : (d.1, d.2) ∉ vm.mapped)
    rw [hde]
    refine not_mapped h hplaced hn (a.addr_aligned k) ?_ d.2
    rw [haddr.1]
    exact free_next hn (by omega) (by omega)
  · -- the pages of the stack are not the same
    have haddr := stack_addr hn hstack hk
    have haddr' := stack_addr hn hstack (hj.trans hk)
    have hpages := congrArg BitVec.toNat hpage
    rw [Mm.toNat_page, Mm.toNat_page] at hpages
    omega

theorem separateStacks {p : ProcEntry} (h : vm.Sound m) (ho : m.Owns others vm.frames)
    (hplaced : ∀ a ∈ vm.areas.values, Placed p.tidAllocator a) (hn : p.tidAllocator ≤ 17)
    (hbound : ∀ e ∈ p.tasks, e.1 < p.tidAllocator) : SeparateStacks m p vm := by
  have heq := userStack_eq hn
  refine ⟨fun a ha x hx hx' => ?_, fun e => insertStack_fails h ho hplaced hn, fun i _ j hj hij => ?_⟩
  · refine (hplaced a ha).not_covers hn (free_next hn ?_ ?_)
    · omega
    · omega
  · have hj := hbound j hj
    have heqi := userStack_eq (n := i.1) (by omega)
    have heqj := userStack_eq (n := j.1) (by omega)
    have hv : (BitVec.ofNat 64 ((userStack i.1).1 - 4096)).toNat = (userStack i.1).1 - 4096 := by
      rw [BitVec.toNat_ofNat]
      omega
    have haligned : VirtAddr.isAligned ⟨BitVec.ofNat 64 ((userStack i.1).1 - 4096)⟩ = true := by
      rw [VirtAddr.isAligned, Mm.isAligned_iff, hv]
      omega
    refine ⟨⟨BitVec.ofNat 64 ((userStack i.1).1 - 4096)⟩, haligned, ?_, ?_, ?_⟩
    · rw [hv]
      omega
    · rw [hv]
      omega
    · refine h.leaves.query_not_mem (not_mapped h hplaced hn haligned ?_)
      rw [hv]
      exact free_guard hij hj hn (by omega) (by omega)

end sets

/-! Runs -/

section runs

variable {m : Machine} {r r' : Roster} {s s' : Spaces} {t pid q : ℕ} {p p' : ProcEntry} {c : Change}
  {elf : List Segment} {vm : MemorySet} {f : ProcEntry → ProcEntry}

theorem CarefulTrace.spaceTrace (h : CarefulTrace m r s) : SpaceTrace m r s := by
  induction h with
  | boot hk hs _ => exact .boot hk hs
  | change _ hs hm hf _ ih => exact ih.change hs hm hf
  | store _ hs hvm hv hflags frame ih => exact ih.store hs hvm hv hflags frame

/-- Every area of a process is placed. -/
def AllPlaced (r : Roster) (s : Spaces) : Prop :=
  ∀ (pid : ℕ) (p : ProcEntry) (vm : MemorySet), r.procs[pid]? = some (some p) → s.vm pid = some vm →
    1 ≤ p.tidAllocator ∧ p.tidAllocator ≤ 17 ∧ ∀ a ∈ vm.areas.values, Placed p.tidAllocator a

theorem modifyProc_tid (hf : ∀ p, (f p).tidAllocator = p.tidAllocator)
    (h : (r.modifyProc pid f).procs[q]? = some (some p')) :
    ∃ p, r.procs[q]? = some (some p) ∧ p'.tidAllocator = p.tidAllocator := by
  rcases Roster.modifyProc_cases h with ⟨-, hp⟩ | ⟨rfl, p₀, hp₀, rfl⟩
  · exact ⟨p', hp, rfl⟩
  · exact ⟨p₀, hp₀, hf p₀⟩

/-- No allocator has counted on, and no process has other areas. -/
theorem AllPlaced.congr (h : AllPlaced r s) (hprocs : ∀ (q : ℕ) (p' : ProcEntry), r'.procs[q]? = some (some p') →
      ∃ p, r.procs[q]? = some (some p) ∧ p'.tidAllocator = p.tidAllocator)
    (hvms : ∀ q vm, s'.vm q = some vm → s.vm q = some vm) : AllPlaced r' s' := by
  intro q p' vm hp' hvm
  obtain ⟨p, hp, htid⟩ := hprocs q p' hp'
  rw [htid]
  exact h q p vm hp (hvms q vm hvm)

theorem dropVm_vm (h : s.sets.Holds MemorySet.Sound m) (hf : (s.dropVm pid).toOption = some s') (q : ℕ)
    (vm : MemorySet) (hvm : s'.vm q = some vm) : s.vm q = some vm := by
  obtain ⟨s₁, hs₁, -, -, -, hvms⟩ := Spaces.dropVm_spec h pid
  rw [hs₁] at hf
  obtain rfl := Option.some.inj hf
  rw [hvms] at hvm
  split_ifs at hvm
  exact hvm

theorem AllPlaced.fork (h : AllPlaced r s) (hok : s.Ok m r) (hs : r.procs[pid]? = some (some p))
    (hcareful : s.Careful pid elf (.fork q)) (hvm : s.vm pid = some vm)
    (hf : (s.newFork vm).toOption = some s') : AllPlaced (r.fork pid) s' := by
  obtain ⟨vm', m', rfl, -, hlike⟩ := (Spaces.newFork_spec hok.holds hvm).post_of_some hf
  obtain ⟨hpos, hmax, hplaced⟩ := h pid p vm hs hvm
  intro q p' ms hp' hms
  rw [Spaces.newProcess_vm, hok.vms] at hms
  obtain ⟨p₁, hp₁, htid⟩ := modifyProc_tid
    (r := { r with procs := r.procs ++ [some (ProcEntry.forked r.tasks.length)] }) (by intro; rfl) hp'
  rw [htid]
  rcases getElem?_snoc_cases hp₁ with hp₁ | ⟨rfl, hchild⟩
  · rw [if_neg (List.getElem?_eq_some_iff.mp hp₁).1.ne] at hms
    exact h q p₁ ms hp₁ hms
  · -- the only stack that the child takes over is that of the first task
    rw [if_pos rfl, Option.some.injEq] at hms
    rw [Option.some.inj hchild, ← hms]
    refine ⟨le_refl 1, (by decide : 1 ≤ 17), fun a ha => ?_⟩
    obtain ⟨b, hb, hsame⟩ := hlike a ha
    refine Placed.same ⟨(hplaced b hb).pos, (hplaced b hb).cases.imp_right ?_⟩ hsame
    rintro ⟨tid, htid, hstack⟩
    rcases Nat.eq_zero_or_pos tid with rfl | hne
    · exact ⟨0, Nat.zero_lt_one, hstack⟩
    · have hnone := hcareful vm hvm tid hne (by omega)
      obtain ⟨e, he, rfl⟩ := List.mem_map.mp hb
      have hkey : e.1 = ⟨BitVec.ofNat 64 (userStack tid).1⟩ := by
        rw [← (hok.holds.of_set hvm).start e he]
        exact congrArg VirtAddr.mk hstack.start
      rw [← hkey, OrdMap.get?_eq_some.mpr he] at hnone
      cases hnone

theorem AllPlaced.threadCreate (h : AllPlaced r s) (hok : s.Ok m r) (hs : r.procs[pid]? = some (some p))
    (htid : p.tidAllocator ≤ 16) (hvm : s.vm pid = some vm)
    (hf : (s.newUserTask pid vm p.tidAllocator).toOption = some s') :
    AllPlaced (r.threadCreate pid p.tidAllocator) s' := by
  obtain ⟨vm', m', rfl, -, -, hareas⟩ := (Spaces.newUserTask_spec hok.holds hvm p.tidAllocator).post_of_some hf
  obtain ⟨hpos, -, hplaced⟩ := h pid p vm hs hvm
  intro q p' ms hp' hms
  rw [Spaces.vm, Spaces.join_set hvm] at hms
  rcases Roster.modifyProc_cases hp' with ⟨hq, hp'⟩ | ⟨rfl, p₀, hp₀, rfl⟩
  · rw [if_neg hq] at hms
    exact h q p' ms hp' hms
  · rw [if_pos rfl, Option.some.injEq] at hms
    rw [← hms]
    refine ⟨Nat.le_add_left .., Nat.succ_le_succ htid, fun a ha => ?_⟩
    rcases hareas a ha with ha | hstack
    · exact (hplaced a ha).mono (Nat.le_succ _)
    · exact placed_stack (Nat.lt_succ_self _) hstack

theorem AllPlaced.exec (h : AllPlaced r s) (hok : s.Ok m r) (hs : r.procs[pid]? = some (some p))
    (hcareful : s.Careful pid elf .exec) (hvm : s.vm pid = some vm) (hf : (s.exec pid elf).toOption = some s') :
    AllPlaced (r.exec pid) s' := by
  obtain ⟨vm', m', rfl, -, -, hareas⟩ := (Spaces.exec_spec hok.holds hvm elf).post_of_some hf
  obtain ⟨hpos, hmax, -⟩ := h pid p vm hs hvm
  intro q p' ms hp' hms
  rw [Spaces.vm, Spaces.join_set hvm] at hms
  rcases Roster.modifyProc_cases hp' with ⟨hq, hp'⟩ | ⟨rfl, p₀, hp₀, rfl⟩
  · rw [if_neg hq] at hms
    exact h q p' ms hp' hms
  · rw [hs, Option.some.injEq, Option.some.injEq] at hp₀
    rw [if_pos rfl, Option.some.injEq] at hms
    rw [← hms, ← hp₀]
    refine ⟨hpos, hmax, fun a ha => ?_⟩
    rcases hareas a ha with ⟨ph, hph, hspans⟩ | hstack
    · exact placed_segment (hcareful ph hph) hspans
    · exact placed_stack hpos hstack

theorem AllPlaced.change (h : AllPlaced r s) (hr : r.Ok) (hok : s.Ok m r) (hs : r.Serves t pid p)
    (hm : Roster.Makes t pid p r c r') (hf : s.follow r t pid p elf c = some s') (hcareful : s.Careful pid elf c) :
    AllPlaced r' s' := by
  cases hm with
  | fork =>
    obtain ⟨vm, hvm, hf⟩ := Option.bind_eq_some_iff.mp hf
    exact h.fork hok hs.proc hcareful hvm hf
  | threadCreate _ htid =>
    obtain ⟨vm, hvm, hf⟩ := Option.bind_eq_some_iff.mp hf
    exact h.threadCreate hok hs.proc htid hvm hf
  | exec hkernel =>
    obtain ⟨vm, hvm⟩ := hok.exists_vm hr hs hkernel
    exact h.exec hok hs.proc hcareful hvm hf
  | stop code =>
    rw [← Option.some.inj hf]
    refine h.congr (fun q p' hp' => ?_) fun _ _ hvm => hvm
    obtain ⟨p₁, hp₁, htid₁⟩ := modifyProc_tid (by intro; rfl) hp'
    obtain ⟨p₂, hp₂, htid₂⟩ := modifyProc_tid (by intro; rfl) hp₁
    obtain ⟨p₃, hp₃, htid₃⟩ := modifyProc_tid (by intro; rfl) hp₂
    exact ⟨p₃, hp₃, htid₁.trans (htid₂.trans htid₃)⟩
  | exit code =>
    rw [Spaces.follow] at hf
    rw [Roster.exit]
    split_ifs at hf ⊢
    · exact h.congr (fun q p' hp' => modifyProc_tid (r := r.endTask t code) (by intro; rfl) hp')
        (dropVm_vm hok.holds hf)
    · rw [← Option.some.inj hf]
      exact h.congr (fun q p' hp' => ⟨p', hp', rfl⟩) fun _ _ hvm => hvm
  | waitpid =>
    refine h.congr (fun q p' hp' => ?_) (dropVm_vm hok.holds hf)
    rw [Roster.reap, List.getElem?_set] at hp'
    split_ifs at hp'
    · cases hp'
    · exact modifyProc_tid (by intro; rfl) hp'
  | waittid =>
    rw [← Option.some.inj hf]
    exact h.congr (fun q p' hp' => modifyProc_tid (by intro; rfl) hp') fun _ _ hvm => hvm

theorem AllPlaced.boot (hm : m.Ok) {entry ustackTop : UInt64} (hs : Spaces.boot m elf = .ok s)
    (haway : ∀ ph ∈ elf, Away ph) : AllPlaced (booted entry ustackTop).roster s := by
  obtain ⟨vm, m', rfl, -, hareas⟩ := (Spaces.boot_spec hm elf).post_of_ok hs
  intro q p ms hp hms
  rcases q with _ | _ | _ | _ | _ | q
  iterate 4 cases hms
  · cases hp
    rw [← Option.some.inj hms]
    refine ⟨le_refl 1, by decide, fun a ha => ?_⟩
    rcases hareas a ha with ⟨ph, hph, hspans⟩ | hstack
    · exact placed_segment (haway ph hph) hspans
    · exact placed_stack Nat.zero_lt_one hstack
  · cases hms

theorem CarefulTrace.allPlaced (hm : m.Ok) (h : CarefulTrace m r s) : AllPlaced r s := by
  induction h with
  | boot hk hs haway =>
    rw [boot_eq] at hk
    rw [← Except.ok.inj hk]
    exact .boot hm hs haway
  | change h hs hc hf hcareful ih =>
    obtain ⟨hr, hok⟩ := h.spaceTrace.ok hm
    exact ih.change hr hok hs hc hf hcareful
  | store _ _ _ _ _ _ ih => exact ih

end runs

/-- In a run in which nobody forks with the stack of a thread in its memory and no program is
loaded to where the stacks are, the stacks of a process are separate. -/
theorem thread_stacks {m : Machine} {r : Roster} {s : Spaces} {pid : ℕ} {p : ProcEntry} {vm : MemorySet} (hm : m.Ok)
    (h : CarefulTrace m r s) (hp : r.procs[pid]? = some (some p)) (hvm : s.vm pid = some vm) :
    SeparateStacks s.machine p vm := by
  obtain ⟨hr, hok⟩ := h.spaceTrace.ok hm
  obtain ⟨-, hmax, hplaced⟩ := h.allPlaced hm pid p vm hp hvm
  exact separateStacks (hok.holds.of_set hvm) (hok.holds.focus hvm) hplaced hmax (hr.procs pid p hp).bound

theorem away_onePage : ∀ ph ∈ onePage, Away ph := by
  intro ph hph x hx
  rw [List.mem_singleton.mp hph] at hx
  have hstart : Mm.alignDown (0x1000 : Usize) Mm.PAGE_SIZE = 0x1000 := by decide
  have hstop : Mm.alignUp (0x1000 + 8 : Usize) Mm.PAGE_SIZE = 0x2000 := by decide
  unfold Segment.Covers at hx
  dsimp only at hx
  rw [hstart, hstop, BitVec.lt_def, BitVec.toNat_sub] at hx
  have hlt := x.isLt
  have hlast := userStack_eq (le_refl 17)
  have hx : (2 ^ 64 - 0x1000 + x.toNat) % 2 ^ 64 < 0x1000 := hx
  rintro ⟨hlow, -⟩
  omega

/-- The shell with a thread. -/
theorem thread_stacks_shell : ∃ r s p vm, CarefulTrace Mm.frames32 r s ∧ r.procs[4]? = some (some p) ∧
    p.tasks = [(0, 4), (1, 5)] ∧ s.vm 4 = some vm ∧ SeparateStacks s.machine p vm := by
  have hrun : ((Spaces.boot Mm.frames32 onePage).toOption.bind fun s =>
      s.follow (booted 0 0).roster 4 4 (.forked 4) [] (.threadCreate 1)).any (fun s => (s.vm 4).isSome) = true := by
    decide +kernel
  obtain ⟨s₁, hs₁, hvm⟩ := (Option.any_eq_true ..).mp hrun
  obtain ⟨s₀, hs₀, hs₁⟩ := Option.bind_eq_some_iff.mp hs₁
  obtain ⟨vm, hvm⟩ := Option.isSome_iff_exists.mp hvm
  have h₀ : CarefulTrace Mm.frames32 (booted 0 0).roster s₀ := .boot (boot_eq 0 0) (ok_of_toOption hs₀) away_onePage
  have hserves : (booted 0 0).roster.Serves 4 4 (.forked 4) := ⟨⟨_, rfl, rfl, rfl⟩, rfl⟩
  have h₁ := h₀.change hserves (.threadCreate rfl (by decide)) hs₁ trivial
  exact ⟨_, s₁, _, vm, h₁, rfl, rfl, hvm, thread_stacks Mm.frames32_ok h₁ rfl hvm⟩

/-- The shell makes a thread and forks: the first thread of the child cannot be made. -/
theorem forked_stack_existed : ∃ r s p vm, SpaceTrace Mm.frames32 r s ∧ r.procs[5]? = some (some p) ∧
    p.tidAllocator = 1 ∧ s.vm 5 = some vm ∧ vm.insertStack (userStack 1).1 s.machine = .error .existed ∧
    ¬ SeparateStacks s.machine p vm := by
  have hrun : ((Spaces.boot Mm.frames32 onePage).toOption.bind fun s =>
      (s.follow (booted 0 0).roster 4 4 (.forked 4) [] (.threadCreate 1)).bind fun s =>
      s.follow ((booted 0 0).roster.threadCreate 4 1) 4 4
        { ProcEntry.forked 4 with tasks := [(0, 4), (1, 5)], tidAllocator := 2 } [] (.fork 5)).any (fun s =>
        (s.vm 5).any fun vm => error? (vm.insertStack (userStack 1).1 s.machine) == some .existed) = true := by
    decide +kernel
  obtain ⟨s₂, hs₂, htest⟩ := (Option.any_eq_true ..).mp hrun
  obtain ⟨s₀, hs₀, hs₂⟩ := Option.bind_eq_some_iff.mp hs₂
  obtain ⟨s₁, hs₁, hs₂⟩ := Option.bind_eq_some_iff.mp hs₂
  obtain ⟨vm, hvm, htest⟩ := (Option.any_eq_true ..).mp htest
  have h₀ : SpaceTrace Mm.frames32 (booted 0 0).roster s₀ := .boot (boot_eq 0 0) (ok_of_toOption hs₀)
  have hserves₀ : (booted 0 0).roster.Serves 4 4 (.forked 4) := ⟨⟨_, rfl, rfl, rfl⟩, rfl⟩
  have h₁ : SpaceTrace Mm.frames32 ((booted 0 0).roster.threadCreate 4 1) s₁ :=
    h₀.change hserves₀ (.threadCreate rfl (by decide)) hs₁
  have hserves₁ : ((booted 0 0).roster.threadCreate 4 1).Serves 4 4
      { ProcEntry.forked 4 with tasks := [(0, 4), (1, 5)], tidAllocator := 2 } := ⟨⟨_, rfl, rfl, rfl⟩, rfl⟩
  have h₂ := h₁.change hserves₁ (.fork rfl rfl) hs₂
  have hexisted := error_of_error? (beq_iff_eq.mp htest)
  refine ⟨_, s₂, _, vm, h₂, rfl, rfl, hvm, hexisted, fun hsep => ?_⟩
  cases hsep.insert _ hexisted

end RCore.Os
