import RCore.Proofs.EasyFs.Contents

/-! The root directory as a map from names to files: what `create`, `find` and `ls`
answer, after any sequence of calls. -/

namespace RCore.EasyFs

open RCore.Lib

/-- Calls of `create` on the root, and of `write_at` and `clear` on the files that
`create` has returned, while the data area lasts; with the names and files that
`create` has returned, in that order. -/
inductive DirRun (totalBlocks inodeBitmapBlocks : ℕ) : State → List (String × Inode) → Prop
  | init {d d' : Disk} {fs : EasyFileSystem}
      (h : (EasyFileSystem.create totalBlocks inodeBitmapBlocks).run [] d = some (fs, d')) :
      DirRun totalBlocks inodeBitmapBlocks ⟨fs, d', [fs.rootInode]⟩ []
  | create {s : State} {m : List (String × Inode)} {name : String} {r : Option Inode} {d' : Disk}
      (h : DirRun totalBlocks inodeBitmapBlocks s m) (hname : DirEntry.ValidName name)
      (hr : (Inode.create s.fs s.fs.rootInode name).run [] s.disk = some (r, d'))
      (hw : State.WithinArea totalBlocks ⟨s.fs, d', s.files ++ r.toList⟩) :
      DirRun totalBlocks inodeBitmapBlocks ⟨s.fs, d', s.files ++ r.toList⟩
        (m ++ (r.map fun f => (name, f)).toList)
  | writeAt {s s' : State} {m : List (String × Inode)} {file : Inode} {offset : ℕ}
      {buf : List UInt8} (h : DirRun totalBlocks inodeBitmapBlocks s m)
      (hfile : file ∈ m.map Prod.snd) (hc : s.Admissible (.writeAt file offset buf))
      (hs : s.step (.writeAt file offset buf) = some s') (hw : s'.WithinArea totalBlocks) :
      DirRun totalBlocks inodeBitmapBlocks s' m
  | clear {s s' : State} {m : List (String × Inode)} {file : Inode}
      (h : DirRun totalBlocks inodeBitmapBlocks s m) (hfile : file ∈ m.map Prod.snd)
      (hc : s.Admissible (.clear file)) (hs : s.step (.clear file) = some s')
      (hw : s'.WithinArea totalBlocks) : DirRun totalBlocks inodeBitmapBlocks s' m

theorem DirRun.reachable {totalBlocks inodeBitmapBlocks : ℕ} {s : State}
    {m : List (String × Inode)} (h : DirRun totalBlocks inodeBitmapBlocks s m) :
    Reachable totalBlocks inodeBitmapBlocks s := by
  induction h with
  | init h => exact .init h
  | create h hname hr hw ih => exact ih.step (c := .create _) trivial (step_create_of_run hr) hw
  | writeAt h hfile hc hs hw ih => exact ih.step hc hs hw
  | clear h hfile hc hs hw ih => exact ih.step hc hs hw

/-- The entries of a directory that lists these names and inode numbers. -/
def entriesOf (es : List (String × ℕ)) : List DirEntry :=
  es.map fun e => DirEntry.entryOf e.1 e.2

/-- The files that a directory lists. -/
def filesOf (fs : EasyFileSystem) (es : List (String × ℕ)) : List (String × Inode) :=
  es.map fun e => (e.1, Inode.ofId fs e.2)

/-- The root directory lists `es`. -/
structure Lists (v : Volume) (d : Disk) (es : List (String × ℕ)) : Prop where
  root : ∃ x, v.fs.inodes d 0 = some x ∧ x.isDir = true ∧ x.size = 32 * es.length ∧
    direntsFrom d x 0 es.length = entriesOf es
  valid : ∀ e ∈ es, DirEntry.ValidName e.1
  names : (es.map Prod.fst).Nodup
  ids : ∀ e ∈ es, e.2 ≠ 0 ∧ ∃ y, v.fs.inodes d e.2 = some y

variable {v : Volume} {s : State} {d d₂ d' : Disk} {x x' : DiskInode} {es : List (String × ℕ)}
  {name : String} {p : ℕ}

section entries

/-- What the scan of `find_inode_id` finds. -/
theorem lookup_of_mem (hv : ∀ e ∈ es, DirEntry.ValidName e.1) (hids : ∀ e ∈ es, e.2 < 2 ^ 32)
    (hnd : (es.map Prod.fst).Nodup) (h : (name, p) ∈ es) :
    lookup name (entriesOf es) = some (some p) := by
  induction es with
  | nil => cases h
  | cons e es ih =>
    rw [entriesOf, List.map_cons, lookup, DirEntry.nameOf_entryOf (hv e (by simp))]
    simp only [Option.bind_eq_bind, Option.bind_some]
    rw [List.map_cons, List.nodup_cons] at hnd
    rcases List.mem_cons.mp h with rfl | h
    · rw [if_pos rfl, DirEntry.inodeNumber_entryOf _ (hids (name, p) (by simp))]
    · rw [if_neg fun he : e.1 = name => hnd.1 (List.mem_map.mpr ⟨(name, p), h, he.symm⟩)]
      exact ih (fun e he => hv e (by simp [he])) (fun e he => hids e (by simp [he])) hnd.2 h

theorem lookup_of_not_mem (hv : ∀ e ∈ es, DirEntry.ValidName e.1)
    (h : name ∉ es.map Prod.fst) : lookup name (entriesOf es) = some none := by
  induction es with
  | nil => rfl
  | cons e es ih =>
    rw [List.map_cons, List.mem_cons, not_or] at h
    rw [entriesOf, List.map_cons, lookup, DirEntry.nameOf_entryOf (hv e (by simp))]
    simp only [Option.bind_eq_bind, Option.bind_some]
    rw [if_neg fun he => h.1 he.symm]
    exact ih (fun e he => hv e (by simp [he])) h.2

theorem mapM_nameOf_entriesOf (hv : ∀ e ∈ es, DirEntry.ValidName e.1) :
    (entriesOf es).mapM DirEntry.nameOf = some (es.map Prod.fst) := by
  induction es with
  | nil => rfl
  | cons e es ih =>
    rw [entriesOf, List.map_cons, List.mapM_cons, DirEntry.nameOf_entryOf (hv e (by simp)),
      ← entriesOf, ih fun e he => hv e (by simp [he])]
    rfl

theorem fileSlice_eq_fileAt {start len : ℕ} (h : start + len ≤ x.size) :
    fileSlice d x start len = (List.range' start len).map (fileAt d x) := by
  apply List.map_congr_left
  intro i hi
  rw [List.mem_range'_1] at hi
  rw [fileAt, if_pos (by omega)]

theorem direntsFrom_congr {n : ℕ} (hx : 32 * n ≤ x.size) (hx' : 32 * n ≤ x'.size)
    (h : ∀ i < 32 * n, fileAt d' x' i = fileAt d x i) :
    direntsFrom d' x' 0 n = direntsFrom d x 0 n := by
  apply List.map_congr_left
  intro k hk
  rw [List.mem_range'_1] at hk
  rw [direntAt, direntAt, fileSlice_eq_fileAt (by omega), fileSlice_eq_fileAt (by omega)]
  congr 1
  apply List.map_congr_left
  intro i hi
  rw [List.mem_range'_1] at hi
  exact h i (by omega)

/-- An entry whose bytes have been written. -/
theorem direntAt_of_bytes {k : ℕ} {e : DirEntry} (hx : 32 * k + 32 ≤ x.size)
    (h : ∀ i < 32, fileAt d x (32 * k + i) = e.asBytes.getD i 0) : direntAt d x k = e := by
  have hbytes : fileSlice d x (32 * k) 32 = e.asBytes := by
    rw [fileSlice_eq_fileAt hx]
    apply List.ext_getElem (by simp)
    intro i hi hi'
    rw [DirEntry.length_asBytes] at hi'
    rw [List.getElem_map, List.getElem_range', Nat.one_mul, h i hi', List.getD_eq_getElem]
  rw [direntAt, hbytes, DirEntry.ofBytes_asBytes]

end entries

/-- A call on another file leaves the directory alone. -/
theorem Lists.done {id size : ℕ} {g : ℕ → UInt8} (h : Lists v d es)
    (hd : Done v d id x size g x' d') (hid : id ≠ 0) : Lists v d' es := by
  obtain ⟨r, hr, hdir, hsize, hes⟩ := h.root
  refine ⟨⟨r, ?_, hdir, hsize, ?_⟩, h.valid, h.names, fun e he => ?_⟩
  · rw [hd.inodes, Function.update_of_ne hid.symm, hr]
  · rw [← hes]
    exact direntsFrom_congr hsize.ge hsize.ge fun i _ => hd.others 0 r hid.symm hr i
  · obtain ⟨hne, hy⟩ := h.ids e he
    rw [hd.inodes]
    exact ⟨hne, inodes_isSome_update _ _ hy⟩

/-- The entries after one has been appended: the old ones are where they were, the new one
follows them. -/
theorem Lists.dirents_appended {xn : DiskInode} (h : Lists v d es) (hs : Sound v (v.fs.inodes d) [] d)
    (hc : Clean v (v.fs.inodes d) d) (hx : v.fs.inodes d 0 = some x)
    (hb : Born v d p xn d₂) (ha : Appended v d₂ 0 x (DirEntry.entryOf name p) x' d')
    (hused : v.fs.dataBitmap.used d' ≤ v.size) :
    x'.size = 32 * (es.length + 1) ∧ x'.isDir = true ∧
      direntsFrom d' x' 0 (es.length + 1) = entriesOf es ++ [DirEntry.entryOf name p] := by
  obtain ⟨r, hr, hdir, hsize, hes⟩ := h.root
  obtain rfl : x = r := by simpa [hx] using hr
  have hdiv : x.size / 32 * 32 = 32 * es.length := by omega
  have hbytes := (ha.clean (hb.clean hs hc) hused).2
  have hsize' : x'.size = 32 * (es.length + 1) := by
    rw [ha.size, hdiv]
    omega
  simp only [hdiv] at hbytes
  have hold : direntsFrom d' x' 0 es.length = entriesOf es := by
    rw [← hes]
    apply direntsFrom_congr hsize.ge (by omega)
    intro i hi
    rw [hbytes i, writtenAt, if_neg (by omega), hb.fileAt_eq hs hx]
  have hlast : direntAt d' x' es.length = DirEntry.entryOf name p := by
    apply direntAt_of_bytes (by omega)
    intro i hi
    rw [hbytes, writtenAt, DirEntry.length_asBytes, if_pos (by omega), Nat.add_sub_cancel_left]
  refine ⟨hsize', ?_, ?_⟩
  · rw [DiskInode.isDir, ha.type_]
    exact hdir
  · rw [direntsFrom, List.range'_concat, List.map_append, ← direntsFrom, hold, List.map_singleton,
      Nat.zero_add, Nat.one_mul, hlast]

/-- A new entry at the end of the directory. -/
theorem Lists.appended {xn : DiskInode} (h : Lists v d es) (hs : Sound v (v.fs.inodes d) [] d)
    (hc : Clean v (v.fs.inodes d) d) (hx : v.fs.inodes d 0 = some x)
    (hb : Born v d p xn d₂) (ha : Appended v d₂ 0 x (DirEntry.entryOf name p) x' d')
    (hused : v.fs.dataBitmap.used d' ≤ v.size) (hname : DirEntry.ValidName name)
    (hnew : name ∉ es.map Prod.fst) : Lists v d' (es ++ [(name, p)]) := by
  obtain ⟨hsize, hdir, hes⟩ := h.dirents_appended hs hc hx hb ha hused
  have hp : p ≠ 0 := by
    rintro rfl
    rw [hb.fresh] at hx
    cases hx
  refine ⟨⟨x', ?_, hdir, ?_, ?_⟩, fun e he => ?_, ?_, fun e he => ?_⟩
  · rw [ha.inodes, Function.update_self]
  · rw [hsize, List.length_append, List.length_singleton]
  · rw [List.length_append, List.length_singleton, hes, entriesOf, entriesOf, List.map_append,
      List.map_singleton]
  · rcases List.mem_append.mp he with he | he
    · exact h.valid e he
    · rw [List.mem_singleton.mp he]
      exact hname
  · rw [List.map_append, List.map_singleton, List.nodup_append]
    refine ⟨h.names, by simp, fun a hold b hlast => ?_⟩
    rw [List.mem_singleton.mp hlast]
    rintro rfl
    exact hnew hold
  · rw [ha.inodes, hb.inodes]
    rcases List.mem_append.mp he with he | he
    · obtain ⟨hne, hy⟩ := h.ids e he
      exact ⟨hne, inodes_isSome_update _ _ (inodes_isSome_update _ _ hy)⟩
    · rw [List.mem_singleton.mp he]
      exact ⟨hp, inodes_isSome_update _ _ ⟨xn, Function.update_self ..⟩⟩

theorem Lists.id_lt (h : Lists v d es) : ∀ e ∈ es, e.2 < 2 ^ 32 := by
  intro e he
  have hids := v.inodeIds
  obtain ⟨-, y, hy⟩ := h.ids e he
  have hlt := (Volume.inodes_eq_some hy).1
  rw [v.inodeBitmap_maximum] at hlt
  omega

/-- The scan of the root directory. -/
theorem Lists.lookup_root (h : Lists v d es) (hx : v.fs.inodes d 0 = some x) :
    x.isDir = true ∧ x.size = 32 * es.length ∧ direntsFrom d x 0 (x.size / 32) = entriesOf es ∧
    (∀ name p, (name, p) ∈ es →
      lookup name (direntsFrom d x 0 (x.size / 32)) = some (some p)) ∧
    ∀ name, name ∉ es.map Prod.fst → lookup name (direntsFrom d x 0 (x.size / 32)) = some none := by
  obtain ⟨r, hr, hdir, hsize, hes⟩ := h.root
  obtain rfl : x = r := by simpa [hx] using hr
  rw [← show x.size / 32 = es.length by omega] at hes
  rw [hes]
  exact ⟨hdir, hsize, rfl, fun name p hm => lookup_of_mem h.valid h.id_lt h.names hm,
    fun name hn => lookup_of_not_mem h.valid hn⟩

section root

variable (hs : Sound v (v.fs.inodes d) [] d)
include hs

theorem run_find_root (hx : v.fs.inodes d 0 = some x) (hdir : x.isDir = true) (name : String) :
    (Inode.find v.fs v.fs.rootInode name).run [] d =
      (lookup name (direntsFrom d x 0 (x.size / 32))).map fun r => (r.map (Inode.ofId v.fs), d) := by
  rw [Inode.find, EasyFileSystem.rootInode, run_readDiskInode hx, Prog.run_bind,
    run_findInodeId hs hx (heldBelow_inodeBlock hx) name hdir]
  cases lookup name (direntsFrom d x 0 (x.size / 32)) <;> rfl

theorem run_ls_root (hx : v.fs.inodes d 0 = some x) :
    v.fs.rootInode.ls.run [] d =
      ((direntsFrom d x 0 (x.size / 32)).mapM DirEntry.nameOf).map fun r => (r, d) := by
  rw [Inode.ls, EasyFileSystem.rootInode, run_readDiskInode hx, dirent_sz_eq,
    run_lsFrom hs hx (heldBelow_inodeBlock hx) _ _ _ (by rw [Nat.zero_add])]
  rfl

theorem Lists.run_find (h : Lists v d es) (hm : (name, p) ∈ es) :
    (Inode.find v.fs v.fs.rootInode name).run [] d = some (some (Inode.ofId v.fs p), d) := by
  obtain ⟨x, hx, -⟩ := h.root
  obtain ⟨hdir, -, -, hmem, -⟩ := h.lookup_root hx
  rw [run_find_root hs hx hdir, hmem name p hm]
  rfl

theorem Lists.run_find_none (h : Lists v d es) (hn : name ∉ es.map Prod.fst) :
    (Inode.find v.fs v.fs.rootInode name).run [] d = some (none, d) := by
  obtain ⟨x, hx, -⟩ := h.root
  obtain ⟨hdir, -, -, -, hnot⟩ := h.lookup_root hx
  rw [run_find_root hs hx hdir, hnot name hn]
  rfl

theorem Lists.run_ls (h : Lists v d es) :
    v.fs.rootInode.ls.run [] d = some (es.map Prod.fst, d) := by
  obtain ⟨x, hx, -⟩ := h.root
  obtain ⟨-, -, hes, -⟩ := h.lookup_root hx
  rw [run_ls_root hs hx, hes, mapM_nameOf_entriesOf h.valid]
  rfl

/-- A name that is listed is refused. -/
theorem Lists.run_create_listed (h : Lists v d es) (hn : name ∈ es.map Prod.fst) :
    (Inode.create v.fs v.fs.rootInode name).run [] d = some (none, d) := by
  obtain ⟨x, hx, -⟩ := h.root
  obtain ⟨hdir, -, -, hmem, -⟩ := h.lookup_root hx
  obtain ⟨⟨n, p⟩, he, rfl⟩ := List.mem_map.mp hn
  exact run_create_found hs hx hdir (hmem n p he)

/-- Another name is taken, if there is room for one more file. -/
theorem Lists.run_create_unlisted (h : Lists v d es) (hx : v.fs.inodes d 0 = some x) (hn : name ∉ es.map Prod.fst)
    (hlen : (DirEntry.strBytes name).length ≤ 28) (hend : 32 * es.length + 32 ≤ 16540 * 512)
    (hinode : ∃ k < v.fs.inodeBitmap.maximum, v.fs.inodeBitmap.isSet d k = false)
    (hfree : v.fs.dataBitmap.used d + blocksNeeded x (32 * es.length + 32) ≤ v.size) :
    ∃ p xn d₂ x' d', (Inode.create v.fs v.fs.rootInode name).run [] d = some (some (Inode.ofId v.fs p), d') ∧
      Born v d p xn d₂ ∧ Appended v d₂ 0 x (DirEntry.entryOf name p) x' d' ∧
      v.fs.dataBitmap.used d' = v.fs.dataBitmap.used d + blocksNeeded x (32 * es.length + 32) := by
  obtain ⟨hdir, hsize, -, -, hnot⟩ := h.lookup_root hx
  have hdiv : x.size / 32 * 32 + 32 = 32 * es.length + 32 := by omega
  have htotal := run_create_total hs hx hdir (hnot name hn) hlen (by rwa [hdiv]) hinode (by rwa [hdiv])
  rw [hdiv] at htotal
  exact htotal

end root

/-- A new inode is no file yet. -/
theorem Born.not_mem {xn : DiskInode} (h : Born v s.disk p xn d₂) (hinv : Invariant v s) :
    Inode.ofId v.fs p ∉ s.files := by
  intro hf
  obtain ⟨j, y, he, hy⟩ := hinv.files _ hf
  rw [← Inode.ofId_inj he, h.fresh] at hy
  cases hy

theorem mem_filesOf {fs : EasyFileSystem} {f : Inode} (h : f ∈ (filesOf fs es).map Prod.snd) :
    ∃ e ∈ es, f = Inode.ofId fs e.2 := by
  rw [filesOf, List.map_map, List.mem_map] at h
  obtain ⟨e, he, rfl⟩ := h
  exact ⟨e, he, rfl⟩

theorem names_filesOf (fs : EasyFileSystem) (es : List (String × ℕ)) :
    (filesOf fs es).map Prod.fst = es.map Prod.fst := by
  rw [filesOf, List.map_map]
  rfl

/-- What a state of the directory and the calls that led to it have to do with each
other. -/
structure Tracks (v : Volume) (s : State) (m : List (String × Inode)) (es : List (String × ℕ)) :
    Prop where
  inv : Invariant v s
  lists : Lists v s.disk es
  files : m = filesOf v.fs es

theorem Tracks.create {m : List (String × Inode)} {r : Option Inode} (h : Tracks v s m es)
    (hname : DirEntry.ValidName name)
    (hr : (Inode.create s.fs s.fs.rootInode name).run [] s.disk = some (r, d'))
    (hw : State.WithinArea v.totalBlocks ⟨s.fs, d', s.files ++ r.toList⟩) :
    ∃ es', Tracks v ⟨s.fs, d', s.files ++ r.toList⟩ (m ++ (r.map fun f => (name, f)).toList) es' := by
  obtain ⟨hinv, hlists, rfl⟩ := h
  obtain ⟨x, hx⟩ := hinv.root
  have hstep := hinv.step (c := .create name) trivial (step_create_of_run hr) hw
  replace hw := (withinArea_iff (by exact hinv.fs)).mp hw
  obtain ⟨-, -, -, hmem, -⟩ := hlists.lookup_root hx
  rw [hinv.fs, EasyFileSystem.rootInode] at hr
  rcases (run_create_some hinv.sound hx hr).2 with ⟨rfl, rfl, -⟩ | ⟨p, xn, d₂, x', rfl, hl, hb, ha⟩
  · exact ⟨es, hstep, hlists, by simp⟩
  · have hnew : name ∉ es.map Prod.fst := by
      intro hn
      obtain ⟨⟨n, q⟩, he, rfl⟩ := List.mem_map.mp hn
      rw [hmem n q he] at hl
      cases hl
    refine ⟨es ++ [(name, p)], hstep,
      hlists.appended hinv.sound hinv.clean hx hb ha hw hname hnew, ?_⟩
    rw [filesOf, filesOf, List.map_append]
    rfl

/-- The directory lists what `create` has returned, in every state reached. -/
theorem DirRun.tracks {totalBlocks inodeBitmapBlocks : ℕ} {m : List (String × Inode)}
    (htotal : totalBlocks < 2 ^ 32) (hids : 4096 * inodeBitmapBlocks ≤ 2 ^ 32)
    (h : DirRun totalBlocks inodeBitmapBlocks s m) :
    ∃ v es, v.totalBlocks = totalBlocks ∧ Tracks v s m es := by
  induction h with
  | init h =>
    obtain ⟨a, rfl, hf⟩ := run_create_fs_some h
    have hinv := Formatted.invariant (v := hf.laid.volume hids htotal) hf
    have hroot := congrFun (Formatted.inodes (v := hf.laid.volume hids htotal) hf) 0
    rw [Function.update_self] at hroot
    refine ⟨hf.laid.volume hids htotal, [], rfl, hinv, ⟨⟨rootInode, hroot, ?_, ?_, rfl⟩, ?_, ?_, ?_⟩,
      rfl⟩
    · rw [rootInode, DiskInode.isDir, DiskInode.type_initializeAs]
      rfl
    · exact DiskInode.size_initializeAs _ _
    all_goals simp
  | create h hname hr hw ih =>
    obtain ⟨v, es, rfl, ht⟩ := ih
    obtain ⟨es', ht'⟩ := ht.create hname hr hw
    exact ⟨v, es', rfl, ht'⟩
  | writeAt h hfile hc hs hw ih =>
    obtain ⟨v, es, rfl, ⟨hinv, hlists, rfl⟩⟩ := ih
    have hstep := hinv.step hc hs hw
    obtain ⟨e, he, rfl⟩ := mem_filesOf hfile
    obtain ⟨hne, y, hy⟩ := hlists.ids e he
    obtain ⟨r, d', hr, rfl⟩ := step_writeAt hs
    rw [hinv.fs] at hr
    obtain ⟨-, -, x', hd⟩ :=
      run_writeAt_some hinv.sound hy (List.length_pos_iff.mpr hc.2.1) hc.2.2 hr
    exact ⟨v, es, rfl, hstep, hlists.done hd hne, rfl⟩
  | clear h hfile hc hs hw ih =>
    obtain ⟨v, es, rfl, ⟨hinv, hlists, rfl⟩⟩ := ih
    have hstep := hinv.step hc hs hw
    obtain ⟨e, he, rfl⟩ := mem_filesOf hfile
    obtain ⟨hne, y, hy⟩ := hlists.ids e he
    obtain ⟨d', hr, rfl⟩ := step_clear hs
    obtain ⟨x', d₁, hr', hd⟩ := run_clear hinv.sound hy
    rw [hinv.fs] at hr
    obtain rfl : d₁ = d' := by simpa [hr'] using hr
    exact ⟨v, es, rfl, hstep, hlists.done hd hne, rfl⟩

end RCore.EasyFs
