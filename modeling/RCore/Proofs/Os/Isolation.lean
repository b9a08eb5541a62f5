import RCore.Proofs.Os.Space
import RCore.Sanity.Mm.Contents

/-! The memory of a process is its own: what the tasks of other processes do is not to be seen
in it, nor in the frames that the kernel had before there were processes. -/

namespace RCore.Mm.MemorySet

variable {ms : MemorySet} {m : Machine} {others : Set ℕ} {v v' : VirtAddr} {paddr paddr' : PhysAddr}
  {flags flags' : MemFlags}

/-- No frame is mapped twice. -/
theorem Sound.page_eq (h : ms.Sound m) (ho : m.Owns others ms.frames)
    (hv : ms.pt.query m v = .ok (some (paddr, flags))) (hv' : ms.pt.query m v' = .ok (some (paddr', flags')))
    (hframe : paddr.frame = paddr'.frame) : v.page = v'.page := by
  obtain ⟨area, harea, u, f, hf, hu, hnumber⟩ := h.query_page hv
  obtain ⟨area', harea', u', f', hf', hu', hnumber'⟩ := h.query_page hv'
  have hsame : f.number = f'.number := by rw [hnumber, hnumber', hframe]
  have hmem := MapArea.frame_eq_some.mp hf
  have hmem' := MapArea.frame_eq_some.mp hf'
  obtain ⟨hnodup, hdisjoint⟩ := List.nodup_flatMap.mp ho.nodup.of_append_right
  have harea_eq : area = area' := by
    by_contra hne
    have hsymm : Std.Symm (Function.onFun List.Disjoint MapArea.frames) := ⟨fun _ _ hd => hd.symm⟩
    refine hdisjoint.forall harea harea' hne (List.mem_map.mpr ⟨_, hmem, hsame⟩) ?_
    exact List.mem_map.mpr ⟨_, hmem', rfl⟩
  subst harea_eq
  have hentry := List.inj_on_of_nodup_map (hnodup area harea) hmem hmem' hsame
  rw [← hu, ← hu', (Prod.mk.inj hentry).1]

end RCore.Mm.MemorySet

namespace RCore.Os

open RCore.Lib Kernel
open Mm (MemorySet Segment Machine VirtAddr PhysAddr MemFlags)

/-- What the tasks of other processes than `q` do, from a state on. -/
inductive Meanwhile (q : ℕ) (r : Roster) (s : Spaces) : Roster → Spaces → Prop
  | start : Meanwhile q r s r s
  | change {r₁ r' : Roster} {s₁ s' : Spaces} {t pid : ℕ} {p : ProcEntry} {c : Change} {elf : List Segment}
      (h : Meanwhile q r s r₁ s₁) (hpid : pid ≠ q) (hs : r₁.Serves t pid p) (hm : Roster.Makes t pid p r₁ c r')
      (hf : s₁.follow r₁ t pid p elf c = some s') : Meanwhile q r s r' s'
  | store {r₁ : Roster} {s₁ : Spaces} {t pid : ℕ} {p : ProcEntry} {vm : MemorySet} {v : VirtAddr}
      {paddr : PhysAddr} {flags : MemFlags} (h : Meanwhile q r s r₁ s₁) (hpid : pid ≠ q) (hs : r₁.Serves t pid p)
      (hvm : s₁.vm pid = some vm) (hv : vm.pt.query s₁.machine v = .ok (some (paddr, flags)))
      (hflags : flags.user = true ∧ flags.write = true) (frame : Mm.Frame) :
      Meanwhile q r s r₁ { s₁ with machine := s₁.machine.setFrame paddr frame }

namespace Roster

variable {r r' : Roster} {t pid : ℕ} {p : ProcEntry} {c : Change} {f : ProcEntry → ProcEntry}

/-- The processes that have ended have no memory, those of the kernel not excepted. -/
def Freed (r : Roster) : Prop :=
  ∀ (pid : ℕ) (p : ProcEntry), r.procs[pid]? = some (some p) → p.state = .zombie → p.vm = false

theorem Freed.modifyProc (h : r.Freed)
    (hf : ∀ p, r.procs[pid]? = some (some p) → (f p).state = .zombie → (f p).vm = false) :
    (r.modifyProc pid f).Freed := by
  intro q p hp hz
  rcases modifyProc_cases hp with ⟨-, hp⟩ | ⟨-, p₀, hp₀, rfl⟩
  · exact h q p hp hz
  · exact hf p₀ hp₀ hz

theorem Freed.reparent (h : r.Freed) (children : List ℕ) : (r.reparent pid children).Freed := by
  have hroot : (r.modifyProc ROOT_PID fun root => { root with children := root.children ++ children }).Freed :=
    h.modifyProc fun p hp => h _ p hp
  exact hroot.modifyProc fun p hp => hroot _ p hp

theorem Makes.freed (hm : Makes t pid p r c r') (h : r.Freed) (hr : r.Ok) (hs : r.Serves t pid p) : r'.Freed := by
  cases hm with
  | fork =>
    have hchild : Freed { r with procs := r.procs ++ [some (ProcEntry.forked r.tasks.length)] } := by
      intro q p hp hz
      rcases getElem?_snoc_cases hp with hp | ⟨-, hp⟩
      · exact h q p hp hz
      · rw [Option.some.inj hp] at hz
        cases hz
    exact hchild.modifyProc fun p hp => hchild _ p hp
  | threadCreate => exact Freed.modifyProc (fun q p hp => h q p hp) fun p hp => h _ p hp
  | exec =>
    refine h.modifyProc fun p₀ hp₀ hz => ?_
    rw [hs.proc, Option.some.injEq, Option.some.injEq] at hp₀
    subst hp₀
    exact absurd (show p.state = .zombie from hz) (hr.serves_state hs)
  | stop => exact (h.reparent _).modifyProc fun _ _ hz => nomatch hz
  | exit code =>
    rw [Roster.exit]
    split_ifs
    · exact Freed.modifyProc (fun q p hp => h q p hp) fun _ _ _ => rfl
    · exact h
  | @waitpid child =>
    have hdisown : (r.modifyProc pid fun p => { p with children := p.children.erase child }).Freed :=
      h.modifyProc fun p hp => h _ p hp
    intro q p hp hz
    rw [reap, List.getElem?_set] at hp
    split_ifs at hp
    · cases hp
    · exact hdisown q p hp hz
  | waittid => exact h.modifyProc fun p hp => h _ p hp

end Roster

namespace Spaces

/-- Two pages that lead to one frame are one page of one process. The frame is not a table of
any process, and not one of those that were in use before. -/
structure Isolated (m : Machine) (s : Spaces) : Prop where
  page : ∀ pid q vm vm' v v' paddr paddr' flags flags', s.vm pid = some vm → s.vm q = some vm' →
    vm.pt.query s.machine v = .ok (some (paddr, flags)) → vm'.pt.query s.machine v' = .ok (some (paddr', flags')) →
    paddr.frame = paddr'.frame → pid = q ∧ v.page = v'.page
  table : ∀ pid q vm vm' v paddr flags, s.vm pid = some vm → s.vm q = some vm' →
    vm.pt.query s.machine v = .ok (some (paddr, flags)) → paddr.frame ∉ vm'.pt.tables
  kernel : ∀ pid vm v paddr flags, s.vm pid = some vm → vm.pt.query s.machine v = .ok (some (paddr, flags)) →
    paddr.frame ∉ m.outstanding

/-- What is not of the process `pid`. -/
def others (m : Machine) (s : Spaces) (pid : ℕ) : Set ℕ := m.outstanding ∪ {f | f ∈ s.sets.rest pid}

variable {m : Machine} {r r' : Roster} {s s' : Spaces} {t pid q : ℕ} {p : ProcEntry} {c : Change} {f : ℕ}
  {elf : List Segment} {vm vm' : MemorySet}

theorem mem_others (hq : q ≠ pid) (hvm : s.vm q = some vm) (hf : f ∈ vm.frames) : f ∈ s.others m pid := by
  refine .inr (List.mem_flatMap.mpr ⟨some vm, ?_, hf⟩)
  exact List.mem_eraseIdx_iff_getElem?.mpr ⟨q, hq, Option.join_eq_some_iff.mp hvm⟩

theorem Ok.isolated (h : s.Ok m r) : s.Isolated m := by
  have hframe : ∀ {pid vm v paddr flags}, s.vm pid = some vm →
      vm.pt.query s.machine v = .ok (some (paddr, flags)) → paddr.frame ∈ vm.frames := by
    intro pid vm v paddr flags hvm hv
    exact List.mem_append_right _ ((h.holds.of_set hvm).query_frame hv)
  refine ⟨?_, ?_, ?_⟩
  · intro pid q vm vm' v v' paddr paddr' flags flags' hvm hvm' hv hv' heq
    by_cases hq : q = pid
    · subst hq
      obtain rfl : vm = vm' := Option.some.inj (hvm.symm.trans hvm')
      exact ⟨rfl, (h.holds.of_set hvm).page_eq (h.holds.focus hvm) hv hv' heq⟩
    · refine absurd (mem_others hq hvm' ?_) ((h.holds.focus hvm).apart _ (hframe hvm hv))
      rw [heq]
      exact hframe hvm' hv'
  · intro pid q vm vm' v paddr flags hvm hvm' hv htable
    by_cases hq : q = pid
    · subst hq
      obtain rfl : vm = vm' := Option.some.inj (hvm.symm.trans hvm')
      exact List.disjoint_of_nodup_append (h.holds.focus hvm).nodup htable ((h.holds.of_set hvm).query_frame hv)
    · exact (h.holds.focus hvm).apart _ (hframe hvm hv) (mem_others hq hvm' (List.mem_append_left _ htable))
  · intro pid vm v paddr flags hvm hv hout
    exact (h.holds.focus hvm).apart _ (hframe hvm hv) (.inl hout)

/-! The operations leave alone what is not of the process -/

/-- The sets of the other processes are the same, and so is what is in their frames. -/
structure Leaves (m : Machine) (pid : ℕ) (s s' : Spaces) : Prop where
  keeps : s.machine.Keeps (s.others m pid) s'.machine
  vm : ∀ q vm, q ≠ pid → s.vm q = some vm → s'.vm q = some vm

theorem Leaves.refl (s : Spaces) : s.Leaves m pid s := ⟨Machine.Keeps.refl _ _, fun _ _ _ hvm => hvm⟩

theorem leaves_set {m' : Machine} {o : Option MemorySet} {ttbr0 : List PhysAddr} (hvm : s.vm pid = some vm)
    (hkeeps : s.machine.Keeps (s.others m pid) m') : s.Leaves m pid ⟨m', s.vms.set pid o, ttbr0⟩ := by
  refine ⟨hkeeps, fun q vm' hq hvm' => ?_⟩
  rw [Spaces.vm, join_set hvm, if_neg hq, hvm']

theorem newFork_leaves (h : s.sets.Holds MemorySet.Sound m) (hvm : s.vm pid = some vm) :
    Ensures (s.newFork vm) (s.Leaves m pid) fun _ => True := by
  have hset : s.sets.set pid = some vm := hvm
  refine ((h.of_set hset).clone (Mm.Sets.areaFrames_outstanding m hset) h.owns_nil).weaken.bind ?_
  rintro ⟨vm', m'⟩ ⟨-, -, hkeeps, -⟩
  refine Ensures.pure ⟨hkeeps.mono (Set.union_subset_union_right _ fun f hf => ?_), fun q vm₁ _ hvm₁ => ?_⟩
  · obtain ⟨o, ho, hf⟩ := List.mem_flatMap.mp hf
    exact List.mem_flatMap.mpr ⟨o, List.mem_of_mem_eraseIdx ho, hf⟩
  · rw [newProcess_vm, if_neg (lt_of_vm hvm₁).ne, hvm₁]

theorem newUserTask_leaves (h : s.sets.Holds MemorySet.Sound m) (hvm : s.vm pid = some vm) (tid : ℕ) :
    Ensures (s.newUserTask pid vm tid) (s.Leaves m pid) fun _ => True := by
  refine (MemorySet.insertStack_spec (h.of_set hvm) (h.focus hvm) (userStack tid).1).weaken.bind ?_
  rintro ⟨vm', m'⟩ hi
  exact Ensures.pure (leaves_set hvm hi.keeps)

theorem exec_leaves (h : s.sets.Holds MemorySet.Sound m) (hvm : s.vm pid = some vm) (elf : List Segment) :
    Ensures (s.exec pid elf) (s.Leaves m pid) fun _ => True := by
  rw [exec, hvm]
  refine (getOrInsert_spec (h.of_set hvm) (h.focus hvm)).bind ?_
  rintro ⟨vm₁, m₁⟩ ⟨hvm₁, hsound₁, ho₁, hkeeps₁⟩
  obtain ⟨m₂, hclear, hok₂, ho₂, hkeeps₂⟩ := hsound₁.clear ho₁
  dsimp only at hvm₁ hclear ⊢
  rw [hvm₁, hclear]
  have hown : m₂.Owns (s.others m pid) (MemorySet.frames { vm with areas := .empty }) :=
    ho₂.perm (List.Perm.of_eq (List.append_nil _).symm)
  refine (MemorySet.loadUser_spec hok₂.sound hown elf).bind ?_
  rintro ⟨vm', m'⟩ hi
  exact Ensures.pure (leaves_set hvm ((hkeeps₁.trans hkeeps₂).trans hi.keeps))

theorem dropVm_leaves (h : s.sets.Holds MemorySet.Sound m) (hf : (s.dropVm pid).toOption = some s') :
    s.Leaves m pid s' := by
  rw [dropVm] at hf
  cases hvm : s.vm pid with
  | none =>
    rw [hvm] at hf
    rw [← Option.some.inj hf]
    exact .refl s
  | some vm =>
    obtain ⟨m', hdrop, -, hkeeps⟩ := (h.of_set hvm).drop (h.focus hvm)
    rw [hvm] at hf
    change (vm.drop s.sets.machine >>= _).toOption = _ at hf
    rw [hdrop] at hf
    rw [← Option.some.inj hf]
    exact leaves_set hvm hkeeps

/-- A process that has ended has no memory. -/
theorem Ok.vm_of_zombie (h : s.Ok m r) (hfreed : r.Freed) {child : ℕ} {c : ProcEntry}
    (hc : r.procs[child]? = some (some c)) (hzombie : c.state = .zombie) : s.vm child = none := by
  have hvm := h.vm child
  rw [Roster.vm_of_proc hc, hfreed child c hc hzombie] at hvm
  exact Option.not_isSome_iff_eq_none.mp (Bool.eq_false_iff.mp hvm)

theorem Ok.leaves (h : s.Ok m r) (hr : r.Ok) (hfreed : r.Freed) (hs : r.Serves t pid p) (hm : Roster.Makes t pid p r c r')
    (hf : s.follow r t pid p elf c = some s') : s.Leaves m pid s' := by
  cases hm with
  | fork =>
    obtain ⟨vm, hvm, hf⟩ := Option.bind_eq_some_iff.mp hf
    exact (newFork_leaves h.holds hvm).post_of_some hf
  | threadCreate =>
    obtain ⟨vm, hvm, hf⟩ := Option.bind_eq_some_iff.mp hf
    exact (newUserTask_leaves h.holds hvm _).post_of_some hf
  | exec hkernel =>
    obtain ⟨vm, hvm⟩ := h.exists_vm hr hs hkernel
    exact (exec_leaves h.holds hvm elf).post_of_some hf
  | stop code =>
    rw [← Option.some.inj hf]
    exact .refl s
  | exit code =>
    rw [follow] at hf
    split_ifs at hf
    · exact dropVm_leaves h.holds hf
    · rw [← Option.some.inj hf]
      exact .refl s
  | waitpid _ hc hzombie =>
    rw [follow, Spaces.dropVm, h.vm_of_zombie hfreed hc hzombie] at hf
    rw [← Option.some.inj hf]
    exact .refl s
  | waittid =>
    rw [← Option.some.inj hf]
    exact .refl s

theorem Ok.leaves_store (h : s.Ok m r) (hvm : s.vm pid = some vm) {v : VirtAddr} {paddr : PhysAddr} {flags : MemFlags}
    (hv : vm.pt.query s.machine v = .ok (some (paddr, flags))) (frame : Mm.Frame) :
    s.Leaves m pid { s with machine := s.machine.setFrame paddr frame } := by
  have hframe : paddr.frame ∈ vm.frames := List.mem_append_right _ ((h.holds.of_set hvm).query_frame hv)
  exact ⟨.setFrame (h.holds.focus hvm) hframe frame, fun _ _ _ hvm => hvm⟩

end Spaces

variable {m : Machine} {r r' : Roster} {s s' : Spaces} {q : ℕ} {vm : MemorySet}

theorem SpaceTrace.freed (hm : m.Ok) (h : SpaceTrace m r s) : r.Freed := by
  induction h with
  | boot hk hs =>
    rw [boot_eq] at hk
    rw [← Except.ok.inj hk, roster_booted]
    intro pid p hp hz
    rcases pid with _ | _ | _ | _ | _ | pid
    iterate 5
      cases hp
      cases hz
    simp [roster, booted] at hp
  | change h hs hc _ ih => exact hc.freed ih (h.ok hm).1 hs
  | store _ _ _ _ _ _ ih => exact ih

theorem Meanwhile.trace (h : SpaceTrace m r s) (hw : Meanwhile q r s r' s') : SpaceTrace m r' s' := by
  induction hw with
  | start => exact h
  | change _ _ hs hm hf ih => exact ih.change hs hm hf
  | store _ _ hs hvm hv hflags frame ih => exact ih.store hs hvm hv hflags frame

/-- The process `q` has the memory set it had, and reads at every address what it read before,
with the same access. The frames of the kernel are as before. -/
structure Spaces.Unseen (m : Machine) (q : ℕ) (vm : MemorySet) (s s' : Spaces) : Prop where
  has : s'.vm q = some vm
  read : ∀ v, vm.read s'.machine v = vm.read s.machine v
  kernel : ∀ f ∈ m.outstanding, s'.machine.memory f = s.machine.memory f

theorem Spaces.Unseen.step {s₁ : Spaces} {r₁ : Roster} {pid : ℕ} (h : s.Unseen m q vm s₁) (hok : s₁.Ok m r₁)
    (hleaves : s₁.Leaves m pid s') (hpid : pid ≠ q) : s.Unseen m q vm s' := by
  refine ⟨hleaves.vm q vm hpid.symm h.has, fun v => ?_, fun f hf => ?_⟩
  · have hsound : vm.Sound s₁.machine := hok.holds.of_set h.has
    rw [hsound.read_congr fun f hf => hleaves.keeps f (mem_others hpid.symm h.has hf), h.read]
  · rw [hleaves.keeps f (.inl hf), h.kernel f hf]

/-- No two pages of the processes share a frame. The tasks of others make processes and threads,
load programs, wait, end and write to their memory, and a process does not see any of it. -/
theorem memory_isolation (hm : m.Ok) (h : SpaceTrace m r s) (hvm : s.vm q = some vm) (hw : Meanwhile q r s r' s') :
    s'.Isolated m ∧ s.Unseen m q vm s' := by
  refine ⟨((hw.trace h).ok hm).2.isolated, ?_⟩
  induction hw with
  | start => exact ⟨hvm, fun _ => rfl, fun _ _ => rfl⟩
  | change hw hpid hs hc hf ih =>
    obtain ⟨hr, hok⟩ := (hw.trace h).ok hm
    exact ih.step hok (hok.leaves hr ((hw.trace h).freed hm) hs hc hf) hpid
  | store hw hpid hs hvm' hv _ frame ih =>
    obtain ⟨-, hok⟩ := (hw.trace h).ok hm
    exact ih.step hok (hok.leaves_store hvm' hv frame) hpid

/-- The address of a word of the stack. -/
def stackWord : VirtAddr := ⟨BitVec.ofNat 64 (USER_STACK_TOP - 8)⟩

/-- A child writes to the stack it has got a copy of. The shell does not see it. -/
theorem memory_isolation_child : ∃ r s vm r' s', SpaceTrace Mm.frames32 r s ∧ s.vm 4 = some vm ∧
    Meanwhile 4 r s r' s' ∧ s'.Isolated Mm.frames32 ∧ s.Unseen Mm.frames32 4 vm s' := by
  have hrun : ((Spaces.boot Mm.frames32 onePage).toOption.bind fun s =>
      (s.follow (booted 0 0).roster 4 4 (.forked 4) [] (.fork 5)).bind fun s => (s.vm 4).bind fun _ =>
      (s.vm 5).bind fun vm => (vm.pt.query s.machine stackWord).toOption.join).any
        (fun e => e.2.user && e.2.write) = true := by
    decide +kernel
  obtain ⟨⟨paddr, flags⟩, hv, hflags⟩ := (Option.any_eq_true ..).mp hrun
  obtain ⟨s₀, hs₀, hv⟩ := Option.bind_eq_some_iff.mp hv
  obtain ⟨s₁, hs₁, hv⟩ := Option.bind_eq_some_iff.mp hv
  obtain ⟨vm, hvm, hv⟩ := Option.bind_eq_some_iff.mp hv
  obtain ⟨child, hchild, hv⟩ := Option.bind_eq_some_iff.mp hv
  have hserves₀ : (booted 0 0).roster.Serves 4 4 (.forked 4) := ⟨⟨_, rfl, rfl, rfl⟩, rfl⟩
  have h₀ : SpaceTrace Mm.frames32 (booted 0 0).roster s₀ := .boot (boot_eq 0 0) (ok_of_toOption hs₀)
  have h₁ : SpaceTrace Mm.frames32 ((booted 0 0).roster.fork 4) s₁ := h₀.change hserves₀ (.fork rfl rfl) hs₁
  have hserves₁ : ((booted 0 0).roster.fork 4).Serves 5 5 (.forked 5) := ⟨⟨_, rfl, rfl, rfl⟩, rfl⟩
  have hquery : child.pt.query s₁.machine stackWord = .ok (some (paddr, flags)) :=
    ok_of_toOption (Option.join_eq_some_iff.mp hv)
  have hstore : Meanwhile 4 _ s₁ _ _ := .store .start (by decide) hserves₁ hchild hquery (by simpa using hflags) 0
  exact ⟨_, _, vm, _, _, h₁, hvm, hstore, memory_isolation Mm.frames32_ok h₁ hvm hstore⟩

end RCore.Os
