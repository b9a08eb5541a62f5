import RCore.Lib.PartialMap
import RCore.Spec.Os.Syscall

/-! What file descriptors are for: every process has a finite partial map from numbers to
open files, and `FdOp` says what the system calls do to these maps. -/

namespace RCore.Os

open RCore.Lib

abbrev FdMap := PartialMap File

/-- The maps of the processes that there are. -/
abbrev FdMaps := ℕ → Option FdMap

inductive FdOp where
  | open_ (pid : ℕ) (file : File)
  | dup (pid fd : ℕ)
  | pipe (pid : ℕ) (readEnd writeEnd : File)
  | close (pid fd : ℕ)
  | fork (pid child : ℕ)
  /-- A child has been waited for. -/
  | reap (child : ℕ)
  | nothing

namespace FdOp

/-- The map of one process changes, and no other one. -/
def onMap (maps : FdMaps) (pid : ℕ) (f : FdMap → FdMap) : FdMaps :=
  Function.update maps pid ((maps pid).map f)

/-- The maps after the operation. -/
noncomputable def apply (maps : FdMaps) : FdOp → FdMaps
  | open_ pid file => onMap maps pid fun m => m.push file
  | dup pid fd => onMap maps pid fun m =>
    match m.get fd with
    | some file => m.push file
    | none => m
  | pipe pid readEnd writeEnd => onMap maps pid fun m => (m.push readEnd).push writeEnd
  | close pid fd => onMap maps pid fun m => m.erase fd
  | fork pid child => Function.update maps child (maps pid)
  | reap child => Function.update maps child none
  | nothing => maps

/-- What the call returns. -/
noncomputable def result (maps : FdMaps) : FdOp → Option ℤ
  | open_ pid _ => (maps pid).map fun m => (m.fresh : ℤ)
  | dup pid fd => (maps pid).map fun m => if (m.get fd).isSome then (m.fresh : ℤ) else -1
  | pipe _ _ _ => some 0
  | close pid fd => (maps pid).map fun m => if (m.get fd).isSome then 0 else -1
  | fork _ child => some child
  | reap child => some child
  | nothing => none

/-- The maps after a sequence of operations, the last one first. -/
noncomputable def replay (maps : FdMaps) : List FdOp → FdMaps
  | [] => maps
  | op :: ops => op.apply (replay maps ops)

end FdOp

def Process.fds (p : Process) : FdMap := .ofTable p.fdTable

namespace Kernel

def fds (k : Kernel) : FdMaps := fun pid => k.procs[pid]?.join.map Process.fds

/-- A child that `waitpid` finds. -/
def reapOp (k : Kernel) (parent : ℕ) (pid : ℤ) : FdOp :=
  match k.waitpid parent pid with
  | .ok (child, some _, _) => .reap child.toNat
  | _ => .nothing

/-- The operation that a call of the process `pid` is. A new file or pipe has the next number. -/
def opOf (k : Kernel) (pid : ℕ) : Syscall → FdOp
  | .open_ (.mapped _) flags true =>
    match openFlags flags with
    | some ( readable, writable) => .open_ pid (.inode k.inodes readable writable)
    | none => .nothing
  | .dup fd => .dup pid fd
  | .pipe _ => .pipe pid (.pipeRead k.pipes.length) (.pipeWrite k.pipes.length)
  | .close fd => .close pid fd
  | .fork => .fork pid k.procs.length
  | .waitpid child _ => k.reapOp pid child
  | _ => .nothing

/-- The operation that a call of the current task is. -/
def callOp (k : Kernel) (call : Syscall) : FdOp :=
  match k.proc with
  | .ok (pid, _) => k.opOf pid call
  | .error _ => .nothing

/-- The kernel when a system call starts. -/
def trapped (k : Kernel) (tf : TrapFrame) : Kernel :=
  k.modifyTask k.current fun task => { task with tf }

/-- The operation that an event is. The root task waits for children as well. -/
def fdOp (k : Kernel) : Event → FdOp
  | .syscall call tf => (k.trapped tf).callOp call
  | .proceed _ =>
    match k.contOf k.current, k.proc with
    | some .rootReap, .ok (pid, _) => k.reapOp pid (-1)
    | _, _ => .nothing
  | _ => .nothing

end Kernel

open Kernel

/-- The runs of the kernel, with their operations on descriptors, the last one first. -/
inductive FdTrace : Kernel → List FdOp → Prop
  | boot {k : Kernel} {entry ustackTop : UInt64} (h : boot entry ustackTop = .ok k) :
    FdTrace k []
  | step {k k' : Kernel} {ops : List FdOp} {e : Event} (h : FdTrace k ops) (he : k.enabled e)
      (hs : k.step e = .ok k') : FdTrace k' (k.fdOp e :: ops)

end RCore.Os
