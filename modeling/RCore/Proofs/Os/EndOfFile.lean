import RCore.Proofs.Os.Runs
import RCore.Proofs.Os.SyncStep

/-! When a reader of a pipe sees the end of file. -/

namespace RCore.Os

open RCore.Lib Kernel

variable {k : Kernel} {states : List Kernel} {pipe : ℕ} {ring : PipeRingBuffer}

theorem Trace.pipesOk (h : Trace k states) : k.PipesOk := by
  induction h with
  | @boot k entry ustackTop hb =>
    rw [boot_eq] at hb
    cases hb
    exact nofun
  | step h he hs ih => exact (step_effect he hs).pipes ih

namespace Kernel

/-- No process that is alive has a descriptor of the write end of a pipe, and no call of
`sys_write` on it is in progress. -/
structure Released (k : Kernel) (pipe : ℕ) : Prop where
  alive : ∀ p, some p ∈ k.procs → p.state ≠ .zombie → some (.pipeWrite pipe) ∉ p.fdTable
  writing : ∀ task ∈ k.tasks, task.cont.writes pipe = false

/-- Nobody keeps the write end of a pipe who cannot close it any more: a zombie that has not
been reaped, or a task that has died in a system call. -/
structure NoneKept (k : Kernel) (pipe : ℕ) : Prop where
  zombies : ∀ p, some p ∈ k.procs → p.state = .zombie → some (.pipeWrite pipe) ∉ p.fdTable
  leaked : .pipeWrite pipe ∉ k.leakedFiles

theorem count_fdTables_eq_zero (procs : List (Option Process)) (file : Option File) :
    (procs.flatMap fun p => (p.map Process.fdTable).getD []).count file = 0 ↔
      ∀ p, some p ∈ procs → file ∉ p.fdTable := by
  rw [List.count_eq_zero, List.mem_flatMap]
  constructor
  · intro hnone p hp hmem
    exact hnone ⟨some p, hp, hmem⟩
  · rintro hall ⟨p, hp, hmem⟩
    cases p with
    | none => cases hmem
    | some p => exact hall p hp hmem

theorem writeEnds_eq_zero (h : k.Released pipe) : k.writeEnds pipe = 0 ↔ k.NoneKept pipe := by
  have hwriting : k.tasks.countP (fun task => task.cont.writes pipe) = 0 := by
    rw [List.countP_eq_zero]
    intro task htask
    simp [h.writing task htask]
  rw [writeEnds, hwriting, Nat.add_zero, Nat.add_eq_zero_iff, count_fdTables_eq_zero,
    List.count_eq_zero]
  constructor
  · rintro ⟨hfds, hleaked⟩
    exact ⟨fun p hp _ => hfds p hp, hleaked⟩
  · rintro ⟨hzombies, hleaked⟩
    refine ⟨fun p hp => ?_, hleaked⟩
    by_cases hz : p.state = .zombie
    · exact hzombies p hp hz
    · exact h.alive p hp hz

/-- `Released`, as a test. -/
def released (k : Kernel) (pipe : ℕ) : Bool :=
  k.procs.all (fun p => p.all fun p =>
    p.state == .zombie || !p.fdTable.contains (some (.pipeWrite pipe))) &&
      k.tasks.all fun task => !task.cont.writes pipe

theorem released_of_test (h : k.released pipe = true) : k.Released pipe := by
  rw [released, Bool.and_eq_true, List.all_eq_true, List.all_eq_true] at h
  refine ⟨fun p hp hz hmem => ?_, fun task htask => by simpa using h.2 task htask⟩
  have hall := h.1 (some p) hp
  simp [hz, hmem] at hall

end Kernel

end RCore.Os
