import RCore.Proofs.Mm.Conservation
import RCore.Proofs.Os.Reaping
import RCore.Sanity.Os.Space

/-! No task that can run has the page table of an address space that is gone. -/

namespace RCore.Os

open RCore.Lib Kernel
open Mm (MemorySet Segment Machine)

variable {m : Machine} {r r' : Roster} {s s' : Spaces} {t pid : ℕ} {elf : List Segment}

namespace Spaces

theorem newUser_spec (h : s.sets.Holds MemorySet.Sound m) (elf : List Segment) :
    Ensures (s.newUser elf) (fun s' => ∃ vm' m', s' = s.newProcess vm' m' ∧ s'.sets.Holds MemorySet.Sound m ∧
      ∀ a ∈ vm'.areas.values, (∃ ph ∈ elf, ph.Spans a) ∨ a.IsStack (userStack 0).1) fun _ => True := by
  refine (MemorySet.new_spec h.owns_nil).weaken.bind ?_
  rintro ⟨vm, m₁⟩ ⟨hok, ho, hkeeps, hempty⟩
  refine (MemorySet.loadUser_spec hok.sound ho elf).bind ?_
  rintro ⟨vm', m'⟩ hi
  refine Ensures.pure ⟨vm', m', rfl, h.append sound_congr hi.owns (hkeeps.trans hi.keeps) hi.sound, fun a ha => ?_⟩
  have hareas := hi.areas a ha
  rw [hempty] at hareas
  exact hareas.resolve_left List.not_mem_nil

/-- The processes of the kernel have no memory. -/
theorem holds_kernel (hm : m.Ok) : Mm.Sets.Holds MemorySet.Sound m ⟨m, [none, none, none, none]⟩ := by
  have hstart : Mm.Sets.Holds MemorySet.Sound m ⟨m, []⟩ := .start hm
  exact ⟨hstart.owns, fun ms hms => absurd hms (by simp)⟩

theorem boot_spec (hm : m.Ok) (elf : List Segment) : Ensures (boot m elf) (fun s => ∃ vm m',
    s = ⟨m', [none, none, none, none, some vm], [.new 0, .new 0, .new 0, .new 0, vm.pageTableRoot]⟩ ∧
    s.sets.Holds MemorySet.Sound m ∧
    ∀ a ∈ vm.areas.values, (∃ ph ∈ elf, ph.Spans a) ∨ a.IsStack (userStack 0).1) fun _ => True := by
  refine (newUser_spec (s := newKernel (newKernel (newKernel (newKernel ⟨m, [], []⟩)))) (holds_kernel hm) elf).mono ?_
  rintro s ⟨vm, m', rfl, hholds, hareas⟩
  exact ⟨vm, m', rfl, hholds, hareas⟩

theorem Ok.boot (hm : m.Ok) {entry ustackTop : UInt64} (hs : Spaces.boot m elf = .ok s) :
    s.Ok m (booted entry ustackTop).roster := by
  obtain ⟨vm, m', rfl, hholds, -⟩ := (boot_spec hm elf).post_of_ok hs
  rw [roster_booted]
  refine ⟨hholds, rfl, rfl, fun q => ?_, fun t task ms ht hz hms => ?_⟩
  · rcases q with _ | _ | _ | _ | _ | q
    iterate 5 rfl
    simp [Spaces.vm, Roster.vm, roster, booted]
  · rcases t with _ | _ | _ | _ | _ | t
    iterate 4
      cases ht
      cases hms
    · cases ht
      rw [← Option.some.inj hms]
      rfl
    · simp [roster, booted] at ht

end Spaces

namespace SpaceTrace

theorem ok (hm : m.Ok) (h : SpaceTrace m r s) : r.Ok ∧ s.Ok m r := by
  induction h with
  | boot hk hs =>
    rw [boot_eq] at hk
    rw [← Except.ok.inj hk]
    exact ⟨rosterOk_booted, .boot hm hs⟩
  | change h hs hc hf ih => exact ⟨hc.ok ih.1 hs, ih.2.change ih.1 hs hc hf⟩
  | store h _ hvm hv _ frame ih => exact ⟨ih.1, ih.2.store hvm hv frame⟩

/-- The memory follows the changes of a task, unless something panics. -/
theorem changes {cs : List Change} (h : SpaceTrace m r s) (hc : Roster.Changes t cs r r') :
    (∃ s', SpaceTrace m r' s') ∨ ∃ r₁ s₁ pid p c, SpaceTrace m r₁ s₁ ∧ r₁.Serves t pid p ∧
      ∀ elf, s₁.follow r₁ t pid p elf c = none := by
  induction hc generalizing s with
  | nil r => exact .inl ⟨s, h⟩
  | @cons pid p r r₁ r' c cs hs hm _ ih =>
    by_cases hnone : ∀ elf, s.follow r t pid p elf c = none
    · exact .inr ⟨r, s, pid, p, c, h, hs, hnone⟩
    · push Not at hnone
      obtain ⟨elf, hsome⟩ := hnone
      obtain ⟨s₁, hs₁⟩ := Option.ne_none_iff_exists'.mp hsome
      exact ih (h.change hs hm hs₁)

end SpaceTrace

/-- The memory follows every run of the kernel, until something panics. -/
theorem Trace.exists_spaces {k : Kernel} {states : List Kernel} (h : Trace k states)
    (hboot : Spaces.boot m elf = .ok s) : (∃ s', SpaceTrace m k.roster s') ∨
      ∃ r₁ s₁ t pid p c, SpaceTrace m r₁ s₁ ∧ r₁.Serves t pid p ∧ ∀ elf, s₁.follow r₁ t pid p elf c = none := by
  induction h with
  | boot hk => exact .inl ⟨s, .boot hk hboot⟩
  | @step k k' states e h _ hs ih =>
    rcases ih with ⟨s', hs'⟩ | hpanic
    · obtain ⟨cs, -, hc⟩ := h.exists_changes hs
      refine (hs'.changes hc).imp_right ?_
      rintro ⟨r₁, s₁, hpanic⟩
      exact ⟨r₁, s₁, _, hpanic⟩
    · exact .inr hpanic

/-- The context of the task `t` has the root of the page table of a memory set. The frame of
the root is one of that set, in use, and of no other set. -/
structure Spaces.RunsIn (s : Spaces) (t pid : ℕ) (vm : MemorySet) : Prop where
  has : s.vm pid = some vm
  ttbr0 : s.ttbr0[t]? = some vm.pageTableRoot
  owned : vm.pageTableRoot.frame ∈ vm.pt.tables
  live : vm.pageTableRoot.frame ∈ s.machine.outstanding
  alone : ∀ q vm', q ≠ pid → s.vm q = some vm' → vm.pageTableRoot.frame ∉ vm'.frames

theorem Spaces.Ok.runsIn (h : s.Ok m r) {task : TaskEntry} {vm : MemorySet} (ht : r.tasks[t]? = some task)
    (hz : task.zombie = false) (hvm : s.vm task.process = some vm) : s.RunsIn t task.process vm := by
  have hroot := (h.holds.of_set hvm).root_mem
  have hframe : vm.pageTableRoot.frame ∈ vm.frames := List.mem_append_left _ hroot
  have hown := h.holds.focus hvm
  refine ⟨hvm, h.root t task vm ht hz hvm, hroot, hown.live_own hframe, fun q vm' hq hvm' hmem => ?_⟩
  -- the sets of the others are what is left of the list
  refine hown.apart _ hframe (.inr (List.mem_flatMap.mpr ⟨some vm', ?_, hmem⟩))
  exact List.mem_eraseIdx_iff_getElem?.mpr ⟨q, hq, Option.join_eq_some_iff.mp hvm'⟩

/-- A task that has not ended has a process. If that is one of a user, then it has its memory,
and the root in the context of the task is that of its page table. -/
theorem no_stale_root (hm : m.Ok) (h : SpaceTrace m r s) {task : TaskEntry} (ht : r.tasks[t]? = some task)
    (hz : task.zombie = false) : ∃ p, r.procs[task.process]? = some (some p) ∧
      (p.isKernel = false → ∃ vm, s.RunsIn t task.process vm) := by
  obtain ⟨hr, hs⟩ := h.ok hm
  obtain ⟨p, hp, -⟩ := hr.listed t task ht hz
  refine ⟨p, hp, fun hkernel => ?_⟩
  obtain ⟨vm, hvm⟩ := hs.exists_vm hr ⟨⟨task, ht, rfl, hz⟩, hp⟩ hkernel
  exact ⟨vm, hs.runsIn ht hz hvm⟩

/-- A program of one page. -/
def onePage : List Segment := [⟨0x1000, 8, true, false, true, ⟨[1, 2, 3, 4], by decide⟩⟩]

/-- The shell makes a child, which loads a program, and ends. The child goes on in its own memory. -/
theorem no_stale_root_child : ∃ r s, SpaceTrace Mm.frames32 r s ∧ s.vm 4 = none ∧ ∃ vm, s.RunsIn 5 5 vm := by
  have hrun : ((Spaces.boot Mm.frames32 onePage).toOption.bind fun s =>
      (s.follow (booted 0 0).roster 4 4 (.forked 4) [] (.fork 5)).bind fun s =>
      (s.follow ((booted 0 0).roster.fork 4) 5 5 (.forked 5) onePage .exec).bind fun s =>
      (s.follow (((booted 0 0).roster.fork 4).exec 5) 4 4 { ProcEntry.forked 4 with children := [5] } []
        (.exit 0))).any (fun s => s.vm 4 == none) = true := by
    decide +kernel
  obtain ⟨s₃, hs₃, htest⟩ := (Option.any_eq_true ..).mp hrun
  obtain ⟨s₀, hs₀, hs₃⟩ := Option.bind_eq_some_iff.mp hs₃
  obtain ⟨s₁, hs₁, hs₃⟩ := Option.bind_eq_some_iff.mp hs₃
  obtain ⟨s₂, hs₂, hs₃⟩ := Option.bind_eq_some_iff.mp hs₃
  have h₀ : SpaceTrace Mm.frames32 (booted 0 0).roster s₀ := .boot (boot_eq 0 0) (ok_of_toOption hs₀)
  have hserves₀ : (booted 0 0).roster.Serves 4 4 (.forked 4) := ⟨⟨_, rfl, rfl, rfl⟩, rfl⟩
  have h₁ : SpaceTrace Mm.frames32 ((booted 0 0).roster.fork 4) s₁ := h₀.change hserves₀ (.fork rfl rfl) hs₁
  have hserves₁ : ((booted 0 0).roster.fork 4).Serves 5 5 (.forked 5) := ⟨⟨_, rfl, rfl, rfl⟩, rfl⟩
  have h₂ : SpaceTrace Mm.frames32 (((booted 0 0).roster.fork 4).exec 5) s₂ :=
    h₁.change hserves₁ (.exec rfl (by decide)) hs₂
  have hserves₂ : (((booted 0 0).roster.fork 4).exec 5).Serves 4 4 { ProcEntry.forked 4 with children := [5] } :=
    ⟨⟨_, rfl, rfl, rfl⟩, rfl⟩
  have h₃ := h₂.change hserves₂ (.exit 0) hs₃
  have htask : ((((booted 0 0).roster.fork 4).exec 5).exit 4 4 { ProcEntry.forked 4 with children := [5] } 0).tasks[5]?
      = some ⟨0, 5, false, 0⟩ := rfl
  obtain ⟨p, hp, hvm⟩ := no_stale_root Mm.frames32_ok h₃ htask rfl
  refine ⟨_, s₃, h₃, by simpa using htest, hvm ?_⟩
  cases hp
  rfl

end RCore.Os
