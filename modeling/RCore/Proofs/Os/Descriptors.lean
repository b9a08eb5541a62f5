import RCore.Proofs.Os.Moves
import RCore.Proofs.Os.Runs

/-! The tables of file descriptors refine finite partial maps, in every run of the kernel. -/

namespace RCore.Os

open RCore.Lib Kernel

variable {k k' : Kernel} {ops : List FdOp}

/-- What a process that is not forked starts with. -/
def FdMap.standard : FdMap := .ofTable [some .stdin, some .stdout, some .stdout]

/-- The idle and the root process, two kernel processes and the shell. -/
def FdMaps.initial : FdMaps := fun pid => if pid < 5 then some .standard else none

theorem fds_booted (entry ustackTop : UInt64) : (booted entry ustackTop).fds = FdMaps.initial := by
  funext pid
  rcases pid with _ | _ | _ | _ | _ | pid
  iterate 5 rfl
  rfl

/-- Any signals may be sent. -/
theorem sentByKernel_true : SentByKernel fun _ => True := ⟨trivial, trivial⟩

/-- An event is the operation that it stands for, on the maps of all processes. -/
theorem fds_step {e : Event} (hs : k.step e = .ok k') : k'.fds = (k.fdOp e).apply k.fds :=
  ((step_turns sentByKernel_true (fun _ _ _ _ => trivial) k).post_of_ok hs).fds

theorem FdTrace.replay (h : FdTrace k ops) : k.fds = FdOp.replay .initial ops := by
  induction h with
  | @boot k entry ustackTop h =>
    cases (boot_eq entry ustackTop).symm.trans h
    exact fds_booted entry ustackTop
  | step _ _ hs ih =>
    rw [fds_step hs, ih]
    rfl

/-- In every run of the kernel the tables of all processes hold what the operations have made
of the maps, and every call returns what its operation says. -/
theorem fd_tables_refine (h : FdTrace k ops) :
    k.fds = FdOp.replay .initial ops ∧
      ∀ (call : Syscall) (tf : TrapFrame) (v n : ℤ) (k' : Kernel),
        (k.trapped tf).syscall call = .ok (.ret v, k') →
        (k.fdOp (.syscall call tf)).result k.fds = some n → v = n := by
  refine ⟨h.replay, fun call tf v n k' hcall hn => ?_⟩
  have hserves := (syscall_serves sentByKernel_true (k.trapped tf) _ fun _ _ _ => trivial).post_of_ok hcall
  exact hserves.result v n rfl hn

theorem FdTrace.run {es : List Event} (h : FdTrace k ops) (hr : k.run es = some k') :
    ∃ ops', FdTrace k' ops' := by
  induction es generalizing k ops with
  | nil =>
    cases hr
    exact ⟨ops, h⟩
  | cons e es ih =>
    rw [Kernel.run] at hr
    split_ifs at hr with he
    split at hr
    next k₁ hs => exact ih (.step h he hs) hr
    next => cases hr

/-- The shell makes a pipe, closes 0 and duplicates the write end. -/
theorem fd_tables_refine_pipe : ∃ k ops, FdTrace k ops ∧
    (k.procs[4]?.join.any fun p => p.fdTable == [some (.pipeWrite 0), some .stdout, some .stdout,
      some (.pipeRead 0), some (.pipeWrite 0)]) = true ∧ k.fds = FdOp.replay .initial ops := by
  have hrun : ((booted 0 0).run (List.replicate 4 (.proceed .zero) ++
      [.syscall (.pipe (.mapped ())) (.newUser 0 0), .syscall (.close 0) (.newUser 0 0),
        .syscall (.dup 4) (.newUser 0 0)])).any (fun k => k.procs[4]?.join.any fun p =>
          p.fdTable == [some (.pipeWrite 0), some .stdout, some .stdout, some (.pipeRead 0),
            some (.pipeWrite 0)]) = true := by
    decide +kernel
  obtain ⟨k, hk, htest⟩ := (Option.any_eq_true ..).mp hrun
  obtain ⟨ops, h⟩ := (FdTrace.boot (boot_eq 0 0)).run hk
  exact ⟨k, ops, h, htest, (fd_tables_refine h).1⟩

end RCore.Os
