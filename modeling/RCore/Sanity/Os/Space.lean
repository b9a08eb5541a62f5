import RCore.Sanity.Mm.Load
import RCore.Sanity.Mm.Sets
import RCore.Sanity.Os.Roster

/-! What holds of the address spaces: no frame has two owners, a process has a memory set when
the roster says so, and each task that is alive has the root of the page table of its process.
Every change keeps it. -/

namespace RCore.Os

open RCore.Lib
open Mm (MemorySet Segment Machine)

namespace Roster

variable {r : Roster} {pid q : ℕ} {p : ProcEntry} {f : ProcEntry → ProcEntry}

/-- The process is there and has memory. -/
def vm (r : Roster) (pid : ℕ) : Bool := (r.procs[pid]?.join.map ProcEntry.vm).getD false

theorem vm_of_proc (h : r.procs[pid]? = some (some p)) : r.vm pid = p.vm := by
  rw [vm, h]
  rfl

theorem vm_modifyProc (hf : ∀ p, (f p).vm = p.vm) : (r.modifyProc pid f).vm q = r.vm q := by
  rw [vm, vm, getElem?_modifyProc]
  split_ifs
  · rcases r.procs[q]? with _ | _ | p
    · rfl
    · rfl
    · exact hf p
  · rfl

theorem vm_modifyProc_of_proc (h : r.procs[pid]? = some (some p)) :
    (r.modifyProc pid f).vm q = if q = pid then (f p).vm else r.vm q := by
  split_ifs with hq
  · rw [hq]
    exact vm_of_proc (modifyProc_self h)
  · rw [vm, vm, modifyProc_of_ne hq]

theorem vm_fork (r : Roster) (pid q : ℕ) : (r.fork pid).vm q = if q = r.procs.length then true else r.vm q := by
  have hchild : (r.fork pid).vm q = Roster.vm
      { r with procs := r.procs ++ [some (ProcEntry.forked r.tasks.length)] } q :=
    vm_modifyProc (r := { r with procs := r.procs ++ [some (ProcEntry.forked r.tasks.length)] }) fun _ => rfl
  rw [hchild, vm, vm, getElem?_snoc]
  split_ifs
  · rfl
  · rfl

end Roster

namespace Spaces

variable {m m' : Machine} {r r' : Roster} {s s' : Spaces} {t pid q : ℕ} {p : ProcEntry} {c : Change}
  {elf : List Segment} {vm vm' : MemorySet} {o : Option MemorySet}

def sets (s : Spaces) : Mm.Sets := ⟨s.machine, s.vms⟩

structure Ok (m : Machine) (r : Roster) (s : Spaces) : Prop where
  holds : s.sets.Holds MemorySet.Sound m
  vms : s.vms.length = r.procs.length
  tasks : s.ttbr0.length = r.tasks.length
  vm : ∀ pid, (s.vm pid).isSome = r.vm pid
  root : ∀ (t : ℕ) (task : TaskEntry) (vm : MemorySet), r.tasks[t]? = some task → task.zombie = false →
    s.vm task.process = some vm → s.ttbr0[t]? = some vm.pageTableRoot

theorem lt_of_vm (h : s.vm pid = some vm) : pid < s.vms.length :=
  (List.getElem?_eq_some_iff.mp (Option.join_eq_some_iff.mp h)).1

theorem join_set (h : s.vm pid = some vm) : (s.vms.set pid o)[q]?.join = if q = pid then o else s.vm q := by
  split_ifs with hq
  · rw [hq, List.getElem?_set_self (lt_of_vm h)]
    rfl
  · rw [List.getElem?_set_ne (Ne.symm hq), Spaces.vm]

theorem sound_congr (ms : MemorySet) (h : ms.Sound m) (hm : ∀ f ∈ ms.frames, m'.memory f = m.memory f) :
    ms.Sound m' :=
  h.congr fun t ht => hm t (List.mem_append_left _ ht)

/-! The operations -/

theorem newProcess_vm (s : Spaces) (vm : MemorySet) (m : Machine) (q : ℕ) :
    (s.newProcess vm m).vm q = if q = s.vms.length then some vm else s.vm q := by
  rw [Spaces.vm, newProcess]
  dsimp only
  rw [getElem?_snoc]
  split_ifs
  · rfl
  · rfl

theorem newFork_spec (h : s.sets.Holds MemorySet.Sound m) (hvm : s.vm pid = some vm) :
    Ensures (s.newFork vm) (fun s' => ∃ vm' m', s' = s.newProcess vm' m' ∧ s'.sets.Holds MemorySet.Sound m ∧
      MemorySet.Like vm.areas.values vm') fun _ => True := by
  have hset : s.sets.set pid = some vm := hvm
  refine ((h.of_set hset).clone (Mm.Sets.areaFrames_outstanding m hset) h.owns_nil).weaken.bind ?_
  rintro ⟨vm', m'⟩ ⟨hsound, howns, hkeeps, hcopies⟩
  exact Ensures.pure ⟨vm', m', rfl, h.append sound_congr howns hkeeps hsound, hcopies.like⟩

/-- The memory set of a process is replaced by what an operation makes of it. -/
theorem holds_set (h : s.sets.Holds MemorySet.Sound m) (hvm : s.vm pid = some vm) {P : Mm.MapArea → Prop}
    {ms : MemorySet} {m₀ : Machine}
    (hkeeps : s.machine.Keeps (m.outstanding ∪ {f | f ∈ s.sets.rest pid}) m₀)
    (hi : MemorySet.Inserts (m.outstanding ∪ {f | f ∈ s.sets.rest pid}) ms m₀ P (vm', m')) :
    Mm.Sets.Holds MemorySet.Sound m ⟨m', s.vms.set pid (some vm')⟩ := by
  refine h.replace (Mm.Sets.set_eq_some.mp hvm) sound_congr hi.owns (hkeeps.trans hi.keeps) fun ms hms => ?_
  rw [← Option.some.inj hms]
  exact hi.sound

theorem newUserTask_spec (h : s.sets.Holds MemorySet.Sound m) (hvm : s.vm pid = some vm) (tid : ℕ) :
    Ensures (s.newUserTask pid vm tid) (fun s' => ∃ vm' m',
      s' = ⟨m', s.vms.set pid (some vm'), s.ttbr0 ++ [vm'.pageTableRoot]⟩ ∧ s'.sets.Holds MemorySet.Sound m ∧
      vm'.pageTableRoot = vm.pageTableRoot ∧
      ∀ a ∈ vm'.areas.values, a ∈ vm.areas.values ∨ a.IsStack (userStack tid).1) fun _ => True := by
  refine (MemorySet.insertStack_spec (h.of_set hvm) (h.focus hvm) (userStack tid).1).weaken.bind ?_
  rintro ⟨vm', m'⟩ hi
  exact Ensures.pure ⟨vm', m', rfl, holds_set h hvm (Machine.Keeps.refl _ _) hi, hi.root, hi.areas⟩

/-- The set that is made in vain is dropped. -/
theorem getOrInsert_spec {others : Set ℕ} (h : vm.Sound m) (ho : m.Owns others vm.frames) :
    Ensures (getOrInsert (some vm) m)
      (fun r => r.1 = vm ∧ vm.Sound r.2 ∧ r.2.Owns others vm.frames ∧ m.Keeps others r.2) fun _ => True := by
  have hnil : m.Owns others ([] ++ vm.frames) := ho
  refine (MemorySet.new_spec hnil.focus).weaken.bind ?_
  rintro ⟨new, m₁⟩ ⟨hok, ho₁, hkeeps₁, -⟩
  obtain ⟨m₂, hdrop, ho₂, hkeeps₂⟩ := hok.sound.drop ho₁
  dsimp only
  rw [hdrop]
  have hkeeps := hkeeps₁.trans hkeeps₂
  exact Ensures.pure ⟨rfl, sound_congr vm h fun f hf => hkeeps f (.inr hf), hnil.unfocus ho₂,
    hkeeps.mono Set.subset_union_left⟩

theorem exec_spec (h : s.sets.Holds MemorySet.Sound m) (hvm : s.vm pid = some vm) (elf : List Segment) :
    Ensures (s.exec pid elf) (fun s' => ∃ vm' m', s' = { s with machine := m', vms := s.vms.set pid (some vm') } ∧
      s'.sets.Holds MemorySet.Sound m ∧ vm'.pageTableRoot = vm.pageTableRoot ∧
      ∀ a ∈ vm'.areas.values, (∃ ph ∈ elf, ph.Spans a) ∨ a.IsStack (userStack 0).1) fun _ => True := by
  rw [exec, hvm]
  refine (getOrInsert_spec (h.of_set hvm) (h.focus hvm)).bind ?_
  rintro ⟨vm₁, m₁⟩ ⟨hvm₁, hsound₁, ho₁, hkeeps₁⟩
  obtain ⟨m₂, hclear, hok₂, ho₂, hkeeps₂⟩ := hsound₁.clear ho₁
  dsimp only at hvm₁ hclear ⊢
  rw [hvm₁, hclear]
  have hown : m₂.Owns (m.outstanding ∪ {f | f ∈ s.sets.rest pid})
      (MemorySet.frames { vm with areas := .empty }) := ho₂.perm (List.Perm.of_eq (List.append_nil _).symm)
  refine (MemorySet.loadUser_spec hok₂.sound hown elf).bind ?_
  rintro ⟨vm', m'⟩ hi
  refine Ensures.pure ⟨vm', m', rfl, holds_set h hvm (hkeeps₁.trans hkeeps₂) hi, hi.root, fun a ha => ?_⟩
  exact (hi.areas a ha).resolve_left List.not_mem_nil

theorem dropVm_spec (h : s.sets.Holds MemorySet.Sound m) (pid : ℕ) :
    ∃ s', s.dropVm pid = .ok s' ∧ s'.sets.Holds MemorySet.Sound m ∧ s'.ttbr0 = s.ttbr0 ∧
      s'.vms.length = s.vms.length ∧ ∀ q, s'.vm q = if q = pid then none else s.vm q := by
  rw [dropVm]
  cases hvm : s.vm pid with
  | none =>
    refine ⟨s, rfl, h, rfl, rfl, fun q => ?_⟩
    split_ifs with hq
    · rw [hq, hvm]
    · rfl
  | some vm =>
    obtain ⟨m', hdrop, ho, hkeeps⟩ := (h.of_set hvm).drop (h.focus hvm)
    refine ⟨{ s with machine := m', vms := s.vms.set pid none }, ?_, ?_, rfl, List.length_set, fun q => join_set hvm⟩
    · change (vm.drop s.sets.machine >>= _) = _
      rw [hdrop]
      rfl
    · exact h.replace (Mm.Sets.set_eq_some.mp hvm) sound_congr ho hkeeps nofun

/-! The invariant -/

theorem Ok.fork (h : s.Ok m r) (hr : r.Ok) (hvm : s.vm pid = some vm) (hf : (s.newFork vm).toOption = some s') :
    s'.Ok m (r.fork pid) := by
  obtain ⟨vm', m', rfl, hholds, -⟩ := (newFork_spec h.holds hvm).post_of_some hf
  refine ⟨hholds, ?_, ?_, fun q => ?_, fun t task ms ht hz hms => ?_⟩
  · simp [newProcess, Roster.fork, h.vms]
  · simp [newProcess, Roster.fork, h.tasks]
  · rw [newProcess_vm, Roster.vm_fork, h.vms]
    split_ifs
    · rfl
    · exact h.vm q
  · rw [newProcess_vm] at hms
    rcases getElem?_snoc_cases ht with ht | ⟨rfl, rfl⟩
    · obtain ⟨p, hp, -⟩ := hr.listed t task ht hz
      have hlt := (List.getElem?_eq_some_iff.mp hp).1
      rw [if_neg (by rw [h.vms]; exact hlt.ne)] at hms
      exact getElem?_snoc_of_some (h.root t task ms ht hz hms)
    · rw [if_pos h.vms.symm, Option.some.injEq] at hms
      rw [newProcess, ← h.tasks, ← hms]
      exact List.getElem?_concat_length ..

theorem Ok.threadCreate (h : s.Ok m r) {tid : ℕ} (hvm : s.vm pid = some vm)
    (hf : (s.newUserTask pid vm tid).toOption = some s') : s'.Ok m (r.threadCreate pid tid) := by
  obtain ⟨vm', m', rfl, hholds, hroot, -⟩ := (newUserTask_spec h.holds hvm tid).post_of_some hf
  refine ⟨hholds, ?_, ?_, fun q => ?_, fun t task ms ht hz hms => ?_⟩
  · simp [Roster.threadCreate, Roster.modifyProc, h.vms]
  · simp [Roster.threadCreate, Roster.modifyProc, h.tasks]
  · have hkeep : (r.threadCreate pid tid).vm q = r.vm q :=
      (Roster.vm_modifyProc (r := { r with tasks := r.tasks ++ [TaskEntry.mk tid pid false 0] }) fun _ => rfl)
    rw [Spaces.vm, join_set hvm, hkeep, ← h.vm q]
    split_ifs with hq
    · rw [hq, hvm]
      rfl
    · rfl
  · rw [Spaces.vm, join_set hvm] at hms
    rcases getElem?_snoc_cases ht with ht | ⟨rfl, rfl⟩
    · refine getElem?_snoc_of_some ?_
      split_ifs at hms with hq
      · rw [← Option.some.inj hms, hroot]
        exact h.root t task vm ht hz (by rw [hq, hvm])
      · exact h.root t task ms ht hz hms
    · rw [if_pos rfl, Option.some.injEq] at hms
      rw [← h.tasks, ← hms]
      exact List.getElem?_concat_length ..

theorem Ok.exec (h : s.Ok m r) (hp : r.procs[pid]? = some (some p)) (hvm : s.vm pid = some vm)
    (hf : (s.exec pid elf).toOption = some s') : s'.Ok m (r.exec pid) := by
  obtain ⟨vm', m', rfl, hholds, hroot, -⟩ := (exec_spec h.holds hvm elf).post_of_some hf
  refine ⟨hholds, ?_, h.tasks, fun q => ?_, fun t task ms ht hz hms => ?_⟩
  · simp [Roster.exec, Roster.modifyProc, h.vms]
  · rw [Spaces.vm, join_set hvm, Roster.exec, Roster.vm_modifyProc_of_proc hp]
    split_ifs
    · rfl
    · exact h.vm q
  · rw [Spaces.vm, join_set hvm] at hms
    split_ifs at hms with hq
    · rw [← Option.some.inj hms, hroot]
      exact h.root t task vm ht hz (by rw [hq, hvm])
    · exact h.root t task ms ht hz hms

/-- A process loses its memory, and no task that is alive is one of it. -/
theorem Ok.dropVm (h : s.Ok m r) (hprocs : r'.procs.length = r.procs.length)
    (htasks : r'.tasks.length = r.tasks.length)
    (halive : ∀ (t : ℕ) (task : TaskEntry), r'.tasks[t]? = some task → task.zombie = false → r.tasks[t]? = some task)
    (hvm : ∀ q, r'.vm q = if q = pid then false else r.vm q) (hf : (s.dropVm pid).toOption = some s') :
    s'.Ok m r' := by
  obtain ⟨s₁, hs₁, hholds, httbr0, hlen, hvms⟩ := dropVm_spec h.holds pid
  rw [hs₁] at hf
  obtain rfl := Option.some.inj hf
  refine ⟨hholds, by rw [hlen, h.vms, hprocs], by rw [httbr0, h.tasks, htasks], fun q => ?_, fun t task ms ht hz hms => ?_⟩
  · rw [hvms, hvm]
    split_ifs
    · rfl
    · exact h.vm q
  · rw [hvms] at hms
    split_ifs at hms
    rw [httbr0]
    exact h.root t task ms (halive t task ht hz) hz hms

/-- Nothing happens to the memory. -/
theorem Ok.congr (h : s.Ok m r) (hprocs : r'.procs.length = r.procs.length)
    (htasks : r'.tasks.length = r.tasks.length)
    (halive : ∀ (t : ℕ) (task : TaskEntry), r'.tasks[t]? = some task → task.zombie = false → r.tasks[t]? = some task)
    (hvm : ∀ q, r'.vm q = r.vm q) : s.Ok m r' :=
  ⟨h.holds, by rw [h.vms, hprocs], by rw [h.tasks, htasks], fun q => by rw [hvm, h.vm],
    fun t task ms ht hz => h.root t task ms (halive t task ht hz) hz⟩

theorem endTask_alive {code : Int32} {u : ℕ} {task : TaskEntry} (hs : r.Serves t pid p)
    (hu : (r.endTask t code).tasks[u]? = some task) (hz : task.zombie = false) : r.tasks[u]? = some task := by
  obtain ⟨task₀, htask₀, -⟩ := hs.task
  by_cases hut : u = t
  · rw [hut, Roster.endTask_self htask₀, Option.some.injEq] at hu
    rw [← hu] at hz
    cases hz
  · rwa [Roster.endTask_of_ne hut] at hu

theorem Ok.exit (h : s.Ok m r) (hs : r.Serves t pid p) {code : Int32}
    (hf : s.follow r t pid p elf (.exit code) = some s') : s'.Ok m (r.exit t pid p code) := by
  have hlen : (r.endTask t code).tasks.length = r.tasks.length := List.length_modify ..
  rw [follow] at hf
  rw [Roster.exit]
  split_ifs at hf ⊢ with hcount
  · refine h.dropVm ?_ hlen (fun _ _ => endTask_alive hs) (fun q => ?_) hf
    · simp [Roster.endProcess, Roster.modifyProc, Roster.endTask, Roster.modifyTask]
    · exact Roster.vm_modifyProc_of_proc (show (r.endTask t code).procs[pid]? = _ from hs.proc)
  · rw [← Option.some.inj hf]
    exact h.congr rfl hlen (fun _ _ => endTask_alive hs) fun _ => rfl

theorem Ok.waitpid (h : s.Ok m r) {child : ℕ} (hf : (s.dropVm child).toOption = some s') :
    s'.Ok m (r.reap pid child) := by
  refine h.dropVm ?_ rfl (fun _ _ ht _ => ht) (fun q => ?_) hf
  · simp [Roster.reap, Roster.disown, Roster.modifyProc]
  · have hdisown : (r.disown pid child).vm q = r.vm q :=
      Roster.vm_modifyProc (r := r) fun _ => rfl
    rw [← hdisown, Roster.vm, Roster.vm, Roster.reap, List.getElem?_set]
    by_cases hq : child = q
    · rw [if_pos hq, if_pos hq.symm]
      split_ifs <;> rfl
    · rw [if_neg hq, if_neg (Ne.symm hq)]

/-- The process of a user that has a task which is alive has its memory. -/
theorem Ok.exists_vm (h : s.Ok m r) (hr : r.Ok) (hs : r.Serves t pid p) (hkernel : p.isKernel = false) :
    ∃ vm, s.vm pid = some vm := by
  rw [← Option.isSome_iff_exists, h.vm, Roster.vm_of_proc hs.proc, (hr.procs pid p hs.proc).vm hkernel]
  exact hr.serves_state hs

theorem Ok.change (h : s.Ok m r) (hr : r.Ok) (hs : r.Serves t pid p) (hm : Roster.Makes t pid p r c r')
    (hf : s.follow r t pid p elf c = some s') : s'.Ok m r' := by
  cases hm with
  | fork =>
    obtain ⟨vm, hvm, hf⟩ := Option.bind_eq_some_iff.mp hf
    exact h.fork hr hvm hf
  | threadCreate =>
    obtain ⟨vm, hvm, hf⟩ := Option.bind_eq_some_iff.mp hf
    exact h.threadCreate hvm hf
  | exec hkernel =>
    obtain ⟨vm, hvm⟩ := h.exists_vm hr hs hkernel
    exact h.exec hs.proc hvm hf
  | stop code =>
    rw [← Option.some.inj hf]
    refine h.congr ?_ rfl (fun _ _ ht _ => ht) fun q => ?_
    · simp [Roster.stop, Roster.reparent, Roster.modifyProc]
    · refine (Roster.vm_modifyProc (by intro; rfl)).trans ?_
      exact (Roster.vm_modifyProc (by intro; rfl)).trans (Roster.vm_modifyProc (by intro; rfl))
  | exit code => exact h.exit hs hf
  | waitpid => exact h.waitpid hf
  | waittid =>
    rw [← Option.some.inj hf]
    refine h.congr ?_ rfl (fun _ _ ht _ => ht) fun q => Roster.vm_modifyProc fun _ => rfl
    simp [Roster.waittid, Roster.modifyProc]

theorem Ok.store (h : s.Ok m r) (hvm : s.vm pid = some vm) {v : Mm.VirtAddr} {paddr : Mm.PhysAddr}
    {flags : Mm.MemFlags} (hv : vm.pt.query s.machine v = .ok (some (paddr, flags))) (frame : Mm.Frame) :
    Ok m r { s with machine := s.machine.setFrame paddr frame } := by
  obtain ⟨hholds, hvms, htasks, hvm', hroot⟩ := h
  exact ⟨hholds.store hvm ((hholds.of_set hvm).query_frame hv) frame, hvms, htasks, hvm', hroot⟩

end Spaces

end RCore.Os
