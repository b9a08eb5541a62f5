import RCore.Proofs.EasyFs.Format

/-! Block ownership. Whatever calls are made, every block of the data area belongs
to one place in one file, or is free and zero. -/

namespace RCore.EasyFs

open RCore.Lib

variable {v : Volume} {s s' : State} {c : Call} {id : ℕ} {x : DiskInode}

/-- The invariant of a file system in use. -/
structure Invariant (v : Volume) (s : State) : Prop where
  fs : s.fs = v.fs
  sound : Sound v (v.fs.inodes s.disk) [] s.disk
  clean : Clean v (v.fs.inodes s.disk) s.disk
  root : ∃ x, v.fs.inodes s.disk 0 = some x
  files : ∀ f ∈ s.files, ∃ id x, f = Inode.ofId v.fs id ∧ v.fs.inodes s.disk id = some x

/-- Inodes are never taken out of use. -/
theorem inodes_isSome_update {ino : Inodes} {j : ℕ} (id : ℕ) (x : DiskInode)
    (h : ∃ y, ino j = some y) : ∃ y, Function.update ino id (some x) j = some y := by
  by_cases hj : j = id
  · exact ⟨x, by rw [hj, Function.update_self]⟩
  · rwa [Function.update_of_ne hj]

theorem Invariant.done {id size : ℕ} {x x' : DiskInode} {f : ℕ → UInt8} {d' : Disk}
    (h : Invariant v s) (hd : Done v s.disk id x size f x' d')
    (hused : v.fs.dataBitmap.used d' ≤ v.size) : Invariant v { s with disk := d' } := by
  refine ⟨h.fs, hd.sound, (hd.clean h.clean hused).1, ?_, fun g hg => ?_⟩
  · rw [hd.inodes]
    exact inodes_isSome_update _ _ h.root
  · obtain ⟨j, y, rfl, hy⟩ := h.files g hg
    obtain ⟨z, hz⟩ := inodes_isSome_update id x' ⟨y, hy⟩
    exact ⟨j, z, rfl, by simp only [hd.inodes, hz]⟩

theorem Invariant.born {p : ℕ} {xn : DiskInode} {d₂ : Disk} (h : Invariant v s)
    (hb : Born v s.disk p xn d₂) :
    Invariant v { s with disk := d₂, files := s.files ++ [Inode.ofId v.fs p] } := by
  refine ⟨h.fs, hb.sound h.sound, hb.clean h.sound h.clean, ?_, fun g hg => ?_⟩
  · rw [hb.inodes]
    exact inodes_isSome_update _ _ h.root
  · rcases List.mem_append.mp hg with hg | hg
    · obtain ⟨j, y, rfl, hy⟩ := h.files g hg
      obtain ⟨z, hz⟩ := inodes_isSome_update p xn ⟨y, hy⟩
      exact ⟨j, z, rfl, by simp only [hb.inodes, hz]⟩
    · exact ⟨p, xn, List.mem_singleton.mp hg, by simp only [hb.inodes, Function.update_self]⟩

theorem dataAreaBlocks_eq (hfs : s.fs = v.fs) : s.dataAreaBlocks v.totalBlocks = v.size := by
  rw [State.dataAreaBlocks, hfs, ← v.start_add_size]
  exact Nat.add_sub_cancel_left ..

theorem withinArea_iff (hfs : s.fs = v.fs) :
    s.WithinArea v.totalBlocks ↔ v.fs.dataBitmap.used s.disk ≤ v.size := by
  rw [State.WithinArea, dataAreaBlocks_eq hfs, hfs]

/-- What a call that returns has run. -/
theorem step_create {name : String} (hs : s.step (.create name) = some s') :
    ∃ r d', (Inode.create s.fs s.fs.rootInode name).run [] s.disk = some (r, d') ∧
      s' = { s with disk := d', files := s.files ++ r.toList } := by
  simp only [State.step, Option.bind_eq_bind, Option.bind_eq_some_iff] at hs
  obtain ⟨⟨r, d'⟩, hr, he⟩ := hs
  exact ⟨r, d', hr, (Option.some.inj he).symm⟩

theorem step_create_of_run {name : String} {r : Option Inode} {d' : Disk}
    (hr : (Inode.create s.fs s.fs.rootInode name).run [] s.disk = some (r, d')) :
    s.step (.create name) = some { s with disk := d', files := s.files ++ r.toList } := by
  simp only [State.step, hr, Option.bind_eq_bind, Option.bind_some, Option.pure_def]

theorem step_writeAt {file : Inode} {offset : ℕ} {buf : List UInt8}
    (hs : s.step (.writeAt file offset buf) = some s') :
    ∃ r d', (Inode.writeAt s.fs file offset buf).run [] s.disk = some (r, d') ∧
      s' = { s with disk := d' } := by
  simp only [State.step, Option.bind_eq_bind, Option.bind_eq_some_iff] at hs
  obtain ⟨⟨r, d'⟩, hr, he⟩ := hs
  exact ⟨r, d', hr, (Option.some.inj he).symm⟩

theorem step_writeAt_of_run {file : Inode} {offset r : ℕ} {buf : List UInt8} {d' : Disk}
    (hr : (Inode.writeAt s.fs file offset buf).run [] s.disk = some (r, d')) :
    s.step (.writeAt file offset buf) = some { s with disk := d' } := by
  simp only [State.step, hr, Option.bind_eq_bind, Option.bind_some, Option.pure_def]

theorem step_clear {file : Inode} (hs : s.step (.clear file) = some s') :
    ∃ d', (Inode.clear s.fs file).run [] s.disk = some ((), d') ∧ s' = { s with disk := d' } := by
  simp only [State.step, Option.bind_eq_bind, Option.bind_eq_some_iff] at hs
  obtain ⟨⟨r, d'⟩, hr, he⟩ := hs
  exact ⟨d', hr, (Option.some.inj he).symm⟩

/-- One call keeps the invariant. -/
theorem Invariant.step (h : Invariant v s) (hc : s.Admissible c) (hs : s.step c = some s')
    (hw : s'.WithinArea v.totalBlocks) : Invariant v s' := by
  cases c with
  | create name =>
    obtain ⟨r, d', hr, rfl⟩ := step_create hs
    obtain ⟨x, hx⟩ := h.root
    rw [h.fs, EasyFileSystem.rootInode] at hr
    replace hw := (withinArea_iff (by exact h.fs)).mp hw
    rcases (run_create_some h.sound hx hr).2 with ⟨rfl, rfl, -⟩ | ⟨p, xn, d₂, x', rfl, -, hb, ha⟩
    · simpa using h
    · exact (h.born hb).done ha hw
  | writeAt file offset buf =>
    obtain ⟨hmem, hne, hend⟩ := hc
    obtain ⟨r, d', hr, rfl⟩ := step_writeAt hs
    obtain ⟨id, x, rfl, hx⟩ := h.files file hmem
    rw [h.fs] at hr
    replace hw := (withinArea_iff (by exact h.fs)).mp hw
    obtain ⟨-, -, x', hd⟩ := run_writeAt_some h.sound hx (List.length_pos_iff.mpr hne) hend hr
    exact h.done hd hw
  | clear file =>
    obtain ⟨d', hr, rfl⟩ := step_clear hs
    obtain ⟨id, x, rfl, hx⟩ := h.files file hc
    rw [h.fs] at hr
    replace hw := (withinArea_iff (by exact h.fs)).mp hw
    obtain ⟨x', d₁, hr', hd⟩ := run_clear h.sound hx
    obtain rfl : d₁ = d' := by simpa [hr'] using hr
    exact h.done hd hw

/-- `write_at` on a file, while the data area has room for it. -/
theorem Invariant.run_writeAt (h : Invariant v s) (hx : v.fs.inodes s.disk id = some x)
    {offset : ℕ} {buf : List UInt8} (hne : buf ≠ []) (hend : offset + buf.length ≤ State.MAX_SIZE)
    (hfree : v.fs.dataBitmap.used s.disk + blocksNeeded x (offset + buf.length) ≤ v.size) :
    ∃ x' d', (Inode.writeAt s.fs (Inode.ofId v.fs id) offset buf).run [] s.disk =
        some (buf.length, d') ∧
      Done v s.disk id x (max x.size (offset + buf.length)) (writtenAt s.disk x offset buf) x' d' ∧
      v.fs.dataBitmap.used d' =
        v.fs.dataBitmap.used s.disk + blocksNeeded x (offset + buf.length) := by
  have hpos := List.length_pos_iff.mpr hne
  obtain ⟨r, d', hr⟩ := run_writeAt_total h.sound hx hpos hend hfree
  obtain ⟨rfl, hused, x', hdone⟩ := run_writeAt_some h.sound hx hpos hend hr
  exact ⟨x', d', by rw [h.fs, hr], hdone, hused⟩

theorem Formatted.invariant {d : Disk} (h : Formatted v.totalBlocks v.inodeBitmapBlocks v.areas d) :
    Invariant v ⟨v.fs, d, [v.fs.rootInode]⟩ := by
  have hroot : v.fs.inodes d 0 = some rootInode := by rw [h.inodes, Function.update_self]
  exact ⟨rfl, h.sound, h.clean, ⟨_, hroot⟩,
    fun f hf => ⟨0, _, List.mem_singleton.mp hf, hroot⟩⟩

/-- Every reachable state satisfies the invariant. -/
theorem Reachable.invariant {totalBlocks inodeBitmapBlocks : ℕ} (htotal : totalBlocks < 2 ^ 32)
    (hids : 4096 * inodeBitmapBlocks ≤ 2 ^ 32) (h : Reachable totalBlocks inodeBitmapBlocks s) :
    ∃ v : Volume, v.totalBlocks = totalBlocks ∧ v.inodeBitmapBlocks = inodeBitmapBlocks ∧
      Invariant v s := by
  induction h with
  | init h =>
    obtain ⟨a, rfl, hf⟩ := run_create_fs_some h
    exact ⟨hf.laid.volume hids htotal, rfl, rfl, Formatted.invariant (v := hf.laid.volume hids htotal) hf⟩
  | step h hc hs hw ih =>
    obtain ⟨v, rfl, rfl, hinv⟩ := ih
    exact ⟨v, rfl, rfl, hinv.step hc hs hw⟩

/-- Every layout that passes the checks of `create` can be formatted. -/
theorem exists_formatted (totalBlocks inodeBitmapBlocks : ℕ) {a : EasyFileSystem.Areas}
    (htotal : totalBlocks < 2 ^ 32) (hids : 4096 * inodeBitmapBlocks ≤ 2 ^ 32)
    (hpos : 0 < inodeBitmapBlocks)
    (ha : (EasyFileSystem.areas totalBlocks inodeBitmapBlocks).run [] (fun _ => 0) =
      some (a, fun _ => 0)) :
    ∃ (v : Volume) (d : Disk), v.totalBlocks = totalBlocks ∧
      v.inodeBitmapBlocks = inodeBitmapBlocks ∧ v.areas = a ∧
      Formatted v.totalBlocks v.inodeBitmapBlocks v.areas d ∧
      (EasyFileSystem.create totalBlocks inodeBitmapBlocks).run [] (fun _ => 0) =
        some (v.fs, d) := by
  obtain ⟨fs, d, hr⟩ := run_create_fs_total _ ha hpos
  obtain ⟨a', rfl, hf⟩ := run_create_fs_some hr
  exact ⟨hf.laid.volume hids htotal, d, rfl, rfl, hf.laid.unique (run_areas_some ha).1, hf, hr⟩

/-- A disk of 1030 blocks with one file on it, which is empty. -/
theorem exists_empty_file : ∃ (v : Volume) (d : Disk) (p : ℕ) (x : DiskInode),
    v.totalBlocks = 1030 ∧ v.size = 3 ∧ p ≠ 0 ∧ v.fs.inodes d p = some x ∧ x.size = 0 ∧
      v.fs.dataBitmap.used d = 1 ∧ Invariant v ⟨v.fs, d, [v.fs.rootInode, Inode.ofId v.fs p]⟩ ∧
      Reachable 1030 1 ⟨v.fs, d, [v.fs.rootInode, Inode.ofId v.fs p]⟩ := by
  obtain ⟨v, d, htotal, hib, hareas, hf, hinit⟩ :=
    exists_formatted 1030 1 (a := ⟨1024, 1, 3⟩) (by omega) (by omega) (by omega) rfl
  have hroot : v.fs.inodes d 0 = some rootInode := by rw [hf.inodes, Function.update_self]
  have hdir : rootInode.isDir = true := by
    rw [rootInode, DiskInode.isDir, DiskInode.type_initializeAs]
    rfl
  have hzero : rootInode.size = 0 := DiskInode.size_initializeAs _ _
  have hneed : blocksNeeded rootInode (rootInode.size / 32 * 32 + 32) = 1 := by
    rw [blocksNeeded, hzero]
    rfl
  have hsize : v.size = 3 := by rw [Volume.size, hareas]
  have hfree : ∃ k < v.fs.inodeBitmap.maximum, v.fs.inodeBitmap.isSet d k = false :=
    ⟨1, by rw [v.inodeBitmap_maximum]; omega, hf.inodeBits 1 (by omega)⟩
  have hname : (DirEntry.strBytes "a").length ≤ 28 := by decide +kernel
  obtain ⟨p, xn, d₂, x', d', hc, hb, happ, hused⟩ := run_create_total hf.sound hroot hdir
    (by rw [hzero]; rfl) hname (by rw [hzero]; omega)
    hfree (by rw [hf.used, hneed, hsize]; omega)
  rw [hf.used, hneed] at hused
  have hp : p ≠ 0 := by
    rintro rfl
    have hfresh := hb.fresh
    rw [hroot] at hfresh
    cases hfresh
  have hrun : (Inode.create v.fs v.fs.rootInode "a").run [] d = some (some (Inode.ofId v.fs p), d') := hc
  have hstep := step_create_of_run (s := ⟨v.fs, d, [v.fs.rootInode]⟩) hrun
  have hwithin : State.WithinArea v.totalBlocks ⟨v.fs, d', [v.fs.rootInode] ++ [Inode.ofId v.fs p]⟩ := by
    rw [withinArea_iff rfl, hused, hsize]
    omega
  refine ⟨v, d', p, xn, htotal, hsize, hp, ?_, hb.size, hused,
    hf.invariant.step (c := .create "a") trivial hstep hwithin,
    (Reachable.init hinit).step (c := .create "a") trivial hstep (htotal ▸ hwithin)⟩
  rw [happ.inodes, Function.update_of_ne hp, hb.inodes, Function.update_self]

end RCore.EasyFs
