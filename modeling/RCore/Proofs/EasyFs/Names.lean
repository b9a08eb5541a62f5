import RCore.Proofs.EasyFs.Directory

/-! Which names `create` may be called with. A name of 28 bytes fits into the field of an
entry, but no zero byte follows it there, and the entry cannot be read any more. -/

namespace RCore.EasyFs

open RCore.Lib

variable {v : Volume} {s : State} {d d₂ d' : Disk} {x x' xn : DiskInode} {es : List (String × ℕ)}
  {name : String} {p : ℕ} {m : List (String × Inode)} {totalBlocks inodeBitmapBlocks : ℕ}

/-- No zero byte ends a name of 28 bytes. -/
theorem DirEntry.nameOf_entryOf_full (hlen : (strBytes name).length = 28) (hnz : ∀ c ∈ strBytes name, c ≠ 0) :
    (entryOf name p).nameOf = none := by
  have hfind : (List.range (NAME_LENGTH_LIMIT + 1)).find? (fun i => byteAt (entryOf name p) i == 0) = none := by
    rw [List.find?_eq_none]
    intro i hi
    have hlt : i < 28 := List.mem_range.mp hi
    rw [byteAt_entryOf hlen.le hlt, List.getD_eq_getElem _ _ (by omega)]
    simpa using hnz _ (List.getElem_mem _)
  rw [nameOf, hfind]
  rfl

/-- The calls of `find` and `ls` on the root directory return. -/
def DirectoryReadable (fs : EasyFileSystem) (d : Disk) : Prop :=
  (∀ name, ((Inode.find fs fs.rootInode name).run [] d).isSome = true) ∧
    (fs.rootInode.ls.run [] d).isSome = true

theorem Lists.readable (h : Lists v d es) (hs : Sound v (v.fs.inodes d) [] d) : DirectoryReadable v.fs d := by
  constructor
  · intro name
    by_cases hn : name ∈ es.map Prod.fst
    · obtain ⟨⟨n, p⟩, he, rfl⟩ := List.mem_map.mp hn
      rw [h.run_find hs he]
      rfl
    · rw [h.run_find_none hs hn]
      rfl
  · rw [h.run_ls hs]
    rfl

/-- After an entry that cannot be read has been appended, `ls` panics. -/
theorem Lists.unreadable (h : Lists v d es) (hs : Sound v (v.fs.inodes d) [] d) (hc : Clean v (v.fs.inodes d) d)
    (hx : v.fs.inodes d 0 = some x) (hb : Born v d p xn d₂)
    (ha : Appended v d₂ 0 x (DirEntry.entryOf name p) x' d') (hused : v.fs.dataBitmap.used d' ≤ v.size)
    (hlen : (DirEntry.strBytes name).length = 28) (hnz : ∀ c ∈ DirEntry.strBytes name, c ≠ 0) :
    v.fs.rootInode.ls.run [] d' = none := by
  obtain ⟨hsize, -, hes⟩ := h.dirents_appended hs hc hx hb ha hused
  have hx' : v.fs.inodes d' 0 = some x' := by rw [ha.inodes, Function.update_self]
  rw [run_ls_root ha.sound hx', show x'.size / 32 = es.length + 1 by omega, hes, List.mapM_append,
    mapM_nameOf_entriesOf h.valid, List.mapM_cons, DirEntry.nameOf_entryOf_full hlen hnz]
  rfl

theorem Born.isSet (h : Born v d p xn d₂) : v.fs.inodeBitmap.isSet d p = false := by
  have hfresh := h.fresh
  rw [EasyFileSystem.inodes] at hfresh
  split_ifs at hfresh with hset
  rw [not_and, Bool.not_eq_true] at hset
  exact hset h.lt

/-- What the call of `create` with a name is to do: refuse it and change nothing, or make a new
file, on the device, that `find` finds, with a directory that can be read. -/
def TakesName (totalBlocks : ℕ) (s : State) (name : String) : Prop :=
  (Inode.create s.fs s.fs.rootInode name).run [] s.disk = some (none, s.disk) ∨
  ∃ f d', (Inode.create s.fs s.fs.rootInode name).run [] s.disk = some (some f, d') ∧ f ∉ s.files ∧
    State.WithinArea totalBlocks ⟨s.fs, d', s.files ++ [f]⟩ ∧ DirectoryReadable s.fs d' ∧
    (Inode.find s.fs s.fs.rootInode name).run [] d' = some (some f, d')

/-- There are an inode, and the blocks that the directory needs, for one more of `n` files. -/
def RoomForEntry (totalBlocks : ℕ) (s : State) (n : ℕ) : Prop :=
  (∃ k < s.fs.inodeBitmap.maximum, s.fs.inodeBitmap.isSet s.disk k = false) ∧
    32 * n + 32 ≤ State.MAX_SIZE ∧
    s.fs.dataBitmap.used s.disk + blocksNeeded (s.fs.rootInode.diskInode s.disk) (32 * n + 32) ≤
      s.dataAreaBlocks totalBlocks

/-- A disk of 1030 blocks has room for its first file. -/
theorem exists_room : ∃ s, DirRun 1030 1 s [] ∧ RoomForEntry 1030 s 0 := by
  obtain ⟨v, d, htotal, hib, hareas, hf, hr⟩ :=
    exists_formatted 1030 1 (a := ⟨1024, 1, 3⟩) (by omega) (by omega) (by omega) rfl
  have hroot : v.fs.inodes d 0 = some rootInode := by rw [hf.inodes, Function.update_self]
  have hneed : blocksNeeded rootInode (32 * 0 + 32) = 1 := by
    rw [blocksNeeded, show rootInode.size = 0 from DiskInode.size_initializeAs _ _]
    rfl
  have hsize : v.size = 3 := by rw [Volume.size, hareas]
  refine ⟨_, DirRun.init hr, ⟨1, ?_, hf.inodeBits 1 (by omega)⟩, by decide, ?_⟩
  · change 1 < v.fs.inodeBitmap.maximum
    rw [v.inodeBitmap_maximum]
    omega
  · rw [← htotal, dataAreaBlocks_eq rfl]
    change v.fs.dataBitmap.used d + blocksNeeded (v.fs.rootInode.diskInode d) (32 * 0 + 32) ≤ v.size
    rw [EasyFileSystem.rootInode, diskInode_ofId hroot, hf.used, hneed, hsize]
    omega

end RCore.EasyFs
