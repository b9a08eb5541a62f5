import RCore.Proofs.EasyFs.Growth
import RCore.Sanity.EasyFs.Dirent

/-! Reading: `read_at`, and the scans of a directory. None of them changes the
disk. -/

namespace RCore.EasyFs

open RCore.Lib

variable {v : Volume} {held : List ℕ} {d : Disk} {ino : Inodes} {id : ℕ} {x : DiskInode}

/-- Entry `i` of a directory. -/
def direntAt (d : Disk) (x : DiskInode) (i : ℕ) : DirEntry :=
  DirEntry.ofBytes (fileSlice d x (32 * i) 32)

/-- The entries from `i` on, `n` of them. -/
def direntsFrom (d : Disk) (x : DiskInode) (i n : ℕ) : List DirEntry :=
  (List.range' i n).map (direntAt d x)

/-- What `find_inode_id` finds among the entries, if none of them makes it panic. -/
def lookup (name : String) : List DirEntry → Option (Option ℕ)
  | [] => some none
  | e :: es => do
    let s ← e.nameOf
    if s = name then some (some e.inodeNumber) else lookup name es

theorem run_readDirent (hs : Sound v ino [] d) (hx : ino id = some x) (hheld : HeldBelow v held)
    {i : ℕ} (hi : i < x.size / 32) :
    (x.readAt (32 * i) 32).run held d = some (fileSlice d x (32 * i) 32, d) := by
  have hk := dataBlocks_eq (hs.size_le id x hx)
  rw [DiskInode.run_readAt _ _ (hs.dataBlocks_le hx) (hs.unlocked hx hheld) (by omega),
    show min 32 (x.size - 32 * i) = 32 by omega]

theorem run_findFrom (hs : Sound v ino [] d) (hx : ino id = some x) (hheld : HeldBelow v held)
    (name : String) (n i : ℕ) (hn : i + n ≤ x.size / 32) :
    (Inode.findFrom name x n i).run held d =
      (lookup name (direntsFrom d x i n)).map fun r => (r, d) := by
  induction n generalizing i with
  | zero => rfl
  | succ n ih =>
    have hread := run_readDirent hs hx hheld (i := i) (by omega)
    rw [Inode.findFrom, Prog.run_bind_of hread,
      Prog.run_bind_of (Prog.run_assert (length_fileSlice _ _ _ _) _ _), direntsFrom,
      List.range'_succ, List.map_cons, lookup]
    simp only
    rw [Prog.run_bind, DirEntry.run_name, ← direntAt]
    cases (direntAt d x i).nameOf with
    | none => rfl
    | some s =>
      simp only [Option.map_some, Option.bind_some, Option.bind_eq_bind]
      split_ifs with hsn
      · rfl
      · exact ih (i + 1) (by omega)

/-- `find_inode_id` on a directory. -/
theorem run_findInodeId (hs : Sound v ino [] d) (hx : ino id = some x) (hheld : HeldBelow v held)
    (name : String) (hdir : x.isDir = true) :
    (Inode.findInodeId name x).run held d =
      (lookup name (direntsFrom d x 0 (x.size / 32))).map fun r => (r, d) := by
  rw [Inode.findInodeId, Prog.run_bind_of (Prog.run_assert hdir _ _)]
  exact run_findFrom hs hx hheld name _ 0 (by rw [Nat.zero_add])

theorem run_lsFrom (hs : Sound v ino [] d) (hx : ino id = some x) (hheld : HeldBelow v held)
    (n i : ℕ) (acc : List String) (hn : i + n ≤ x.size / 32) :
    (Inode.lsFrom x n i acc).run held d =
      ((direntsFrom d x i n).mapM DirEntry.nameOf).map fun r => (acc ++ r, d) := by
  induction n generalizing i acc with
  | zero => simp [Inode.lsFrom, direntsFrom]
  | succ n ih =>
    have hread := run_readDirent hs hx hheld (i := i) (by omega)
    rw [Nat.mul_comm] at hread
    rw [Inode.lsFrom, Prog.run_bind_of hread,
      Prog.run_bind_of (Prog.run_assert (length_fileSlice _ _ _ _) _ _), direntsFrom,
      List.range'_succ, List.map_cons, List.mapM_cons, Prog.run_bind, DirEntry.run_name,
      Nat.mul_comm i, ← direntAt]
    cases (direntAt d x i).nameOf with
    | none => rfl
    | some s =>
      simp only [Option.map_some, Option.bind_some, Option.bind_eq_bind]
      rw [ih (i + 1) _ (by omega), direntsFrom]
      cases ((List.range' (i + 1) n).map (direntAt d x)).mapM DirEntry.nameOf <;> simp

end RCore.EasyFs
