import RCore.Proofs.EasyFs.Calls
import RCore.Proofs.EasyFs.Lookup

/-! `Inode::create`: a new inode, and a new entry at the end of the directory. -/

namespace RCore.EasyFs

open RCore.Lib Slot

variable {v : Volume} {held : List ℕ} {d d₁ d' : Disk} {id p : ℕ} {x x' : DiskInode}
  {newSize : ℕ} {vs : List U32}

namespace DiskInode

theorem foldl_setDirect (l : List ℕ) (x : DiskInode) (hl : ∀ i ∈ l, i < 28) :
    (l.foldl (fun x i => x.setDirect i 0) x).size = x.size := by
  induction l generalizing x with
  | nil => rfl
  | cons i l ih =>
    rw [List.foldl_cons, ih _ fun j hj => hl j (by simp [hj])]
    exact congrArg BitVec.toNat (field_splice_disjoint _ _ _ _ (by omega))

theorem size_initializeAs (x : DiskInode) (t : DiskInodeType) : (x.initializeAs t).size = 0 := by
  rw [initializeAs, size, setType, field_splice_disjoint _ _ _ _ (by omega), setIndirect2,
    field_splice_disjoint _ _ _ _ (by omega), setIndirect1,
    field_splice_disjoint _ _ _ _ (by omega)]
  exact (foldl_setDirect _ _ (by simp)).trans (size_setSize (by omega))

theorem type_initializeAs (x : DiskInode) (t : DiskInodeType) :
    (x.initializeAs t).type_ = t.toByte :=
  field_splice_self _ _ _ (by omega)

end DiskInode

/-- A directory as long as a file can be does not grow. -/
theorem run_increaseSize_none (hk : x.dataBlocks = 16540) (hmax : x.size ≤ 16540 * 512) :
    (Inode.increaseSize v.fs (16540 * 512 + 32) x).run held d = none := by
  cases h : (Inode.increaseSize v.fs (16540 * 512 + 32) x).run held d with
  | none => rfl
  | some r =>
    exfalso
    rw [Inode.increaseSize, if_neg (by omega)] at h
    obtain ⟨n, d₁, -, h⟩ := Prog.run_bind_eq_some h
    obtain ⟨vs, d₂, -, h⟩ := Prog.run_bind_eq_some h
    obtain ⟨r, d₃, h, -⟩ := Prog.run_bind_eq_some h
    rw [DiskInode.run_increaseSize_over (by omega) (by omega) (by decide)] at h
    cases h

/-- A new inode `p` has been taken, for an empty file. -/
structure Born (v : Volume) (d : Disk) (p : ℕ) (x : DiskInode) (d' : Disk) : Prop where
  lt : p < v.fs.inodeBitmap.maximum
  fresh : v.fs.inodes d p = none
  inodes : v.fs.inodes d' = Function.update (v.fs.inodes d) p (some x)
  size : x.size = 0
  type_ : x.type_ = DiskInodeType.file.toByte
  data : ∀ b, v.start ≤ b → d' b = d b
  bits : ∀ b, v.fs.dataBitmap.Owns b → d' b = d b

theorem Sound.insert {ino : Inodes} (hs : Sound v ino [] d) (hp : ino p = none)
    (hsize : x.size = 0) : Sound v (Function.update ino p (some x)) [] d := by
  constructor
  · have hown : own (Function.update ino p (some x)) [] d = own ino [] d := by
      funext o
      cases o with
      | none => rfl
      | some j =>
        by_cases hj : j = p
        · subst hj
          rw [own_some (Function.update_self ..), owned_of_size_zero hsize, own, hp]
          rfl
        · rw [own, own, Function.update_of_ne hj]
    rw [hown]
    exact hs.part
  · intro j y hy
    by_cases hj : j = p
    · subst hj
      rw [Function.update_self, Option.some.injEq] at hy
      rw [← hy, hsize]
      omega
    · rw [Function.update_of_ne hj] at hy
      exact hs.size_le j y hy

theorem Born.sound (h : Born v d p x d') (hs : Sound v (v.fs.inodes d) [] d) :
    Sound v (v.fs.inodes d') [] d' := by
  rw [h.inodes]
  exact (hs.insert h.fresh h.size).congr h.data h.bits

theorem Born.clean (h : Born v d p x d') (hs : Sound v (v.fs.inodes d) [] d)
    (hc : Clean v (v.fs.inodes d) d) : Clean v (v.fs.inodes d') d' := by
  rw [h.inodes]
  exact (hc.cleared h.size).congr (hs.insert h.fresh h.size) h.data h.bits

theorem Born.used (h : Born v d p x d') :
    v.fs.dataBitmap.used d' = v.fs.dataBitmap.used d :=
  Bitmap.used_congr fun _ hq => Bitmap.isSet_congr h.bits hq

theorem Born.fileAt_eq (h : Born v d p x d') (hs : Sound v (v.fs.inodes d) [] d) {j : ℕ}
    {y : DiskInode} (hy : v.fs.inodes d j = some y) (i : ℕ) : fileAt d' y i = fileAt d y i :=
  fileAt_congr (hs.size_le j y hy) (fun b hb => h.data b (hs.used hy hb).start_le) i

theorem Born.inodes_of_some (h : Born v d p x d') {j : ℕ} {y : DiskInode}
    (hy : v.fs.inodes d j = some y) : v.fs.inodes d' j = some y := by
  rw [h.inodes, Function.update_of_ne, hy]
  rintro rfl
  rw [h.fresh] at hy
  cases hy

/-- The inodes after a bit of their bitmap has been set. -/
theorem inodes_added (ha : v.fs.inodeBitmap.Added d d₁ p) :
    v.fs.inodes d₁ = Function.update (v.fs.inodes d) p (some (v.fs.inodeAt d₁ p)) := by
  funext j
  by_cases hj : j = p
  · subst hj
    rw [Function.update_self, EasyFileSystem.inodes, if_pos ⟨ha.lt, by rw [ha.bits j ha.lt]; simp⟩]
  · rw [Function.update_of_ne hj, EasyFileSystem.inodes, EasyFileSystem.inodes]
    by_cases hlt : j < v.fs.inodeBitmap.maximum
    · have hmem := v.inodeBlock_mem hlt
      have hout : ¬ v.fs.inodeBitmap.Owns (v.inodeBlock j) := by
        rw [Volume.inodeBitmap_owns]
        rw [Volume.InInodeArea] at hmem
        omega
      rw [ha.bits j hlt, Volume.inodeAt_eq, ha.frame _ hout, Volume.inodeAt_eq]
      simp [hj]
    · rw [if_neg fun h => hlt h.1, if_neg fun h => hlt h.1]

/-- The two steps that make a new inode: its bit, then its block. The other inodes, in use or
not, stay as they are. -/
theorem run_allocInode_exact :
    (∃ p d₁ d₂, v.fs.allocInode.run [] d = some (p, d₁) ∧
      (modifyAt (v.inodeBlock p) (v.inodeOffset p) 1024 fun (newInode : DiskInode) =>
        pure (newInode.initializeAs .file, ())).run [] d₁ = some ((), d₂) ∧
      Born v d p ((v.fs.inodeAt d p).initializeAs .file) d₂ ∧
      ∀ j < v.fs.inodeBitmap.maximum, j ≠ p → v.fs.inodeAt d₂ j = v.fs.inodeAt d j) ∨
    (v.fs.allocInode.run [] d = none ∧ ∀ k < v.fs.inodeBitmap.maximum,
      v.fs.inodeBitmap.isSet d k = true) := by
  have hids := v.inodeIds
  rcases v.fs.inodeBitmap.run_alloc [] d (by simp) with ⟨p, d₁, hr, ha, -⟩ | ⟨hr, hfull⟩
  · left
    have hp := ha.lt
    rw [v.inodeBitmap_maximum] at hp
    have hmem := v.inodeBlock_mem ha.lt
    have hlt := v.inodeBlock_lt_start ha.lt
    rw [Volume.InInodeArea] at hmem
    have harea : ∀ b, v.InInodeArea b → d₁ b = d b := by
      intro b hb
      rw [Volume.InInodeArea] at hb
      apply ha.frame
      rw [Volume.inodeBitmap_owns]
      omega
    have hat : v.fs.inodeAt d₁ p = v.fs.inodeAt d p := by
      rw [Volume.inodeAt_eq, harea _ (v.inodeBlock_mem ha.lt), Volume.inodeAt_eq]
    refine ⟨p, d₁, _, ?_, run_modifyAt (by simp) (v.inodeOffset_fits p) rfl, ?_, ?_⟩
    · rw [EasyFileSystem.allocInode, Prog.run_bind_of hr,
        Prog.run_bind_of (Prog.run_ofOption_some _ _ _), Nat.mod_eq_of_lt (by omega)]
      rfl
    · rw [← hat]
      refine ⟨ha.lt, ?_, ?_, DiskInode.size_initializeAs _ _, DiskInode.type_initializeAs _ _,
        ?_, ?_⟩
      · rw [EasyFileSystem.inodes, if_neg (by simp [ha.clear])]
      · rw [Volume.inodes_update (by rw [inodes_added ha]; simp) (fun _ _ => rfl)
          (fun _ _ => rfl), inodes_added ha, Function.update_idem]
        rfl
      · intro b hb
        rw [Function.update_of_ne (by omega), ha.frame]
        rw [Volume.inodeBitmap_owns]
        omega
      · intro b hb
        rw [Volume.dataBitmap_owns] at hb
        rw [Function.update_of_ne (by omega), ha.frame]
        rw [Volume.inodeBitmap_owns]
        omega
    · intro j hj hne
      have hj₁ := Volume.inodeAt_update (v := v) (d := d₁) p
        ((v.fs.inodeAt d₁ p).initializeAs .file) (fun _ _ => rfl) hj
      rw [if_neg hne] at hj₁
      refine hj₁.trans ?_
      rw [Volume.inodeAt_eq, harea _ (v.inodeBlock_mem hj), Volume.inodeAt_eq]
  · right
    refine ⟨?_, hfull⟩
    rw [EasyFileSystem.allocInode, Prog.run_bind_of hr]
    rfl

theorem run_allocInode :
    (∃ p d₁ x d₂, v.fs.allocInode.run [] d = some (p, d₁) ∧
      (modifyAt (v.inodeBlock p) (v.inodeOffset p) 1024 fun (newInode : DiskInode) =>
        pure (newInode.initializeAs .file, ())).run [] d₁ = some ((), d₂) ∧
      Born v d p x d₂) ∨
    (v.fs.allocInode.run [] d = none ∧ ∀ k < v.fs.inodeBitmap.maximum,
      v.fs.inodeBitmap.isSet d k = true) := by
  rcases run_allocInode_exact (v := v) (d := d) with ⟨p, d₁, d₂, ha, hinit, hb, -⟩ | hfull
  · exact Or.inl ⟨p, d₁, _, d₂, ha, hinit, hb⟩
  · exact Or.inr hfull

theorem run_readDiskInode {α : Type} {g : DiskInode → Fs α} (hx : v.fs.inodes d id = some x) :
    ((Inode.ofId v.fs id).readDiskInode g).run [] d = (g x).run [v.inodeBlock id] d := by
  obtain ⟨-, -, rfl⟩ := Volume.inodes_eq_some hx
  exact run_readAt (by simp) (v.inodeOffset_fits id)

theorem dirent_sz_eq : DIRENT_SZ = 32 := rfl

/-- What `create` appends to the directory. -/
def appendEntry (v : Volume) (name : String) (p : ℕ) (x : DiskInode) : Fs (DiskInode × Unit) := do
  let fileCount := x.size / DIRENT_SZ
  let newSize := (fileCount + 1) * DIRENT_SZ
  let x ← Inode.increaseSize v.fs (newSize % 2 ^ 32) x
  let dirent ← DirEntry.new name p
  let _ ← x.writeAt (fileCount * DIRENT_SZ) dirent.asBytes
  pure (x, ())

/-- The state of a directory after entry `e` has been appended. -/
abbrev Appended (v : Volume) (d : Disk) (id : ℕ) (x : DiskInode) (e : DirEntry) (x' : DiskInode)
    (d' : Disk) : Prop :=
  Done v d id x (x.size / 32 * 32 + 32) (writtenAt d x (x.size / 32 * 32) e.asBytes) x' d'

theorem run_appendEntry_of_grown {name : String} (hs : Sound v (v.fs.inodes d) [] d)
    (hx : v.fs.inodes d id = some x) (hlen : (DirEntry.strBytes name).length ≤ 28)
    (hend : x.size / 32 * 32 + 32 ≤ 16540 * 512)
    (hgrow : (Inode.increaseSize v.fs (x.size / 32 * 32 + 32) x).run [v.inodeBlock id] d =
      some (x', d₁)) :
    ∃ d', ((Inode.ofId v.fs id).modifyDiskInode (appendEntry v name p)).run [] d = some ((), d') ∧
      Appended v d id x (DirEntry.entryOf name p) x' d' ∧
      v.fs.dataBitmap.used d' =
        v.fs.dataBitmap.used d + blocksNeeded x (x.size / 32 * 32 + 32) := by
  obtain ⟨d₂, d', hr, rfl, hdone, hused⟩ := run_write_grown
    hs hx (by simp : 0 < (DirEntry.entryOf name p).asBytes.length) (by simpa using hend)
    (by simpa using hgrow)
  rw [DirEntry.length_asBytes] at hdone hused
  rw [Nat.max_eq_right (by omega)] at hdone
  have hbody : (appendEntry v name p x).run [v.inodeBlock id] d = some ((x', ()), d₂) := by
    rw [appendEntry, dirent_sz_eq, Nat.add_mul, Nat.one_mul, Nat.mod_eq_of_lt (by omega),
      Prog.run_bind_of hgrow,
      Prog.run_bind_of (DirEntry.run_new hlen), Prog.run_bind_of hr]
    rfl
  exact ⟨_, run_modifyDiskInode hx hbody, hdone, hused⟩

theorem run_appendEntry_some {name : String} (hs : Sound v (v.fs.inodes d) [] d)
    (hx : v.fs.inodes d id = some x)
    (h : ((Inode.ofId v.fs id).modifyDiskInode (appendEntry v name p)).run [] d =
      some ((), d')) :
    (DirEntry.strBytes name).length ≤ 28 ∧ x.size / 32 * 32 + 32 ≤ 16540 * 512 ∧
      v.fs.dataBitmap.used d' =
        v.fs.dataBitmap.used d + blocksNeeded x (x.size / 32 * 32 + 32) ∧
      ∃ x', Appended v d id x (DirEntry.entryOf name p) x' d' := by
  have hmax := hs.size_le id x hx
  obtain ⟨x₁, d₁, hbody, -⟩ := run_modifyDiskInode_some hx h
  rw [appendEntry, dirent_sz_eq] at hbody
  obtain ⟨x', d₂, hgrow, hbody⟩ := Prog.run_bind_eq_some hbody
  obtain ⟨e, d₃, hnew, -⟩ := Prog.run_bind_eq_some hbody
  obtain ⟨hlen, -, -⟩ := DirEntry.run_new_some hnew
  rw [Nat.add_mul, Nat.one_mul, Nat.mod_eq_of_lt (by omega)] at hgrow
  by_cases hend : x.size / 32 * 32 + 32 ≤ 16540 * 512
  · obtain ⟨d₄, hr, hdone, hused⟩ := run_appendEntry_of_grown (p := p) hs hx hlen hend hgrow
    obtain rfl : d₄ = d' := by simpa [hr] using h
    exact ⟨hlen, hend, hused, x', hdone⟩
  · -- the directory is as long as a file can be
    exfalso
    have hfull : x.size / 32 * 32 + 32 = 16540 * 512 + 32 := by omega
    have hk : x.dataBlocks = 16540 := by
      rw [dataBlocks_eq hmax]
      omega
    rw [hfull, run_increaseSize_none hk hmax] at hgrow
    cases hgrow

section create

variable {name : String}

/-- The scan for an existing entry of that name. -/
theorem run_createScan (name : String) (hs : Sound v (v.fs.inodes d) [] d) (hx : v.fs.inodes d id = some x)
    (hdir : x.isDir = true) :
    ((Inode.ofId v.fs id).readDiskInode fun x => do
      Prog.assert (x.isDir = true)
      Inode.findInodeId name x).run [] d =
        (lookup name (direntsFrom d x 0 (x.size / 32))).map fun r => (r, d) := by
  rw [run_readDiskInode hx, Prog.run_bind_of (Prog.run_assert hdir _ _)]
  exact run_findInodeId hs hx (heldBelow_inodeBlock hx) name hdir

/-- The name is there already: nothing happens. -/
theorem run_create_found (hs : Sound v (v.fs.inodes d) [] d) (hx : v.fs.inodes d id = some x)
    (hdir : x.isDir = true) {k : ℕ}
    (hl : lookup name (direntsFrom d x 0 (x.size / 32)) = some (some k)) :
    (Inode.create v.fs (Inode.ofId v.fs id) name).run [] d = some (none, d) := by
  have hscan := run_createScan name hs hx hdir
  rw [hl] at hscan
  rw [Inode.create, Prog.run_bind_of hscan]
  rfl

/-- The name is new: what is left of the call after the scan. -/
theorem run_create_new_exact (hs : Sound v (v.fs.inodes d) [] d) (hx : v.fs.inodes d id = some x)
    (hdir : x.isDir = true) (hl : lookup name (direntsFrom d x 0 (x.size / 32)) = some none) :
    (∃ p d₂, Born v d p ((v.fs.inodeAt d p).initializeAs .file) d₂ ∧
      (∀ j < v.fs.inodeBitmap.maximum, j ≠ p → v.fs.inodeAt d₂ j = v.fs.inodeAt d j) ∧
      (Inode.create v.fs (Inode.ofId v.fs id) name).run [] d =
        (((Inode.ofId v.fs id).modifyDiskInode (appendEntry v name p)).run [] d₂).map
          fun r => (some (Inode.ofId v.fs p), r.2)) ∨
    ((Inode.create v.fs (Inode.ofId v.fs id) name).run [] d = none ∧
      ∀ k < v.fs.inodeBitmap.maximum, v.fs.inodeBitmap.isSet d k = true) := by
  have hscan := run_createScan name hs hx hdir
  rw [hl] at hscan
  rcases run_allocInode_exact (v := v) (d := d) with ⟨p, d₁, d₂, ha, hinit, hb, hat⟩ | ⟨ha, hfull⟩
  · left
    refine ⟨p, d₂, hb, hat, ?_⟩
    rw [Inode.create, Prog.run_bind_of hscan]
    simp only [Option.isSome_none, Bool.false_eq_true, if_false]
    rw [Prog.run_bind_of ha]
    refine (Prog.run_bind_of hinit _).trans ?_
    rw [Prog.run_bind]
    change Option.bind (((Inode.ofId v.fs id).modifyDiskInode (appendEntry v name p)).run [] d₂) _ = _
    cases ((Inode.ofId v.fs id).modifyDiskInode (appendEntry v name p)).run [] d₂ <;> rfl
  · right
    refine ⟨?_, hfull⟩
    rw [Inode.create, Prog.run_bind_of hscan]
    simp only [Option.isSome_none, Bool.false_eq_true, if_false]
    rw [Prog.run_bind, ha]
    rfl

theorem run_create_new (hs : Sound v (v.fs.inodes d) [] d) (hx : v.fs.inodes d id = some x)
    (hdir : x.isDir = true) (hl : lookup name (direntsFrom d x 0 (x.size / 32)) = some none) :
    (∃ p xn d₂, Born v d p xn d₂ ∧
      (Inode.create v.fs (Inode.ofId v.fs id) name).run [] d =
        (((Inode.ofId v.fs id).modifyDiskInode (appendEntry v name p)).run [] d₂).map
          fun r => (some (Inode.ofId v.fs p), r.2)) ∨
    ((Inode.create v.fs (Inode.ofId v.fs id) name).run [] d = none ∧
      ∀ k < v.fs.inodeBitmap.maximum, v.fs.inodeBitmap.isSet d k = true) := by
  rcases run_create_new_exact hs hx hdir hl with ⟨p, d₂, hb, -, hr⟩ | hfull
  · exact Or.inl ⟨p, _, d₂, hb, hr⟩
  · exact Or.inr hfull

/-- `create` that gives a result either found the name, or made a new inode and
appended an entry for it. -/
theorem run_create_some (hs : Sound v (v.fs.inodes d) [] d) (hx : v.fs.inodes d id = some x)
    {r : Option Inode}
    (h : (Inode.create v.fs (Inode.ofId v.fs id) name).run [] d = some (r, d')) :
    x.isDir = true ∧
    ((r = none ∧ d' = d ∧ ∃ k, lookup name (direntsFrom d x 0 (x.size / 32)) = some (some k)) ∨
      ∃ p xn d₂ x', r = some (Inode.ofId v.fs p) ∧
        lookup name (direntsFrom d x 0 (x.size / 32)) = some none ∧
        Born v d p xn d₂ ∧ Appended v d₂ id x (DirEntry.entryOf name p) x' d') := by
  have hdir : x.isDir = true := by
    obtain ⟨found, d₁, hscan, -⟩ := Prog.run_bind_eq_some h
    rw [run_readDiskInode hx] at hscan
    by_contra hdir
    rw [Prog.run_bind, Prog.assert, if_neg hdir] at hscan
    cases hscan
  refine ⟨hdir, ?_⟩
  have hscan := run_createScan name hs hx hdir
  cases hl : lookup name (direntsFrom d x 0 (x.size / 32)) with
  | none =>
    rw [hl] at hscan
    rw [Inode.create, Prog.run_bind, hscan] at h
    cases h
  | some found =>
    cases found with
    | some k =>
      rw [run_create_found hs hx hdir hl] at h
      cases h
      exact Or.inl ⟨rfl, rfl, k, rfl⟩
    | none =>
      right
      rcases run_create_new hs hx hdir hl with ⟨p, xn, d₂, hb, hr⟩ | ⟨hr, -⟩
      · rw [hr, Option.map_eq_some_iff] at h
        obtain ⟨⟨u, d₃⟩, happ, he⟩ := h
        cases he
        obtain ⟨-, -, -, x', hdone⟩ :=
          run_appendEntry_some (hb.sound hs) (hb.inodes_of_some hx) happ
        exact ⟨p, xn, d₂, x', rfl, rfl, hb, hdone⟩
      · rw [hr] at h
        cases h

/-- `create` of a new name succeeds while inodes and blocks last and the directory
has room. -/
theorem run_create_total (hs : Sound v (v.fs.inodes d) [] d) (hx : v.fs.inodes d id = some x)
    (hdir : x.isDir = true) (hl : lookup name (direntsFrom d x 0 (x.size / 32)) = some none)
    (hlen : (DirEntry.strBytes name).length ≤ 28) (hend : x.size / 32 * 32 + 32 ≤ 16540 * 512)
    (hinode : ∃ k < v.fs.inodeBitmap.maximum, v.fs.inodeBitmap.isSet d k = false)
    (hfree : v.fs.dataBitmap.used d + blocksNeeded x (x.size / 32 * 32 + 32) ≤ v.size) :
    ∃ p xn d₂ x' d', (Inode.create v.fs (Inode.ofId v.fs id) name).run [] d =
        some (some (Inode.ofId v.fs p), d') ∧
      Born v d p xn d₂ ∧ Appended v d₂ id x (DirEntry.entryOf name p) x' d' ∧
      v.fs.dataBitmap.used d' =
        v.fs.dataBitmap.used d + blocksNeeded x (x.size / 32 * 32 + 32) := by
  rcases run_create_new hs hx hdir hl with ⟨p, xn, d₂, hb, hr⟩ | ⟨-, hfull⟩
  · have hx₂ := hb.inodes_of_some hx
    obtain ⟨x', d₁, hgrow⟩ := run_increaseSize_total (hb.sound hs) hx₂ (heldBelow_inodeBlock hx₂)
      hend (by rwa [hb.used])
    obtain ⟨d', hrun, happ, hused⟩ :=
      run_appendEntry_of_grown (p := p) (hb.sound hs) hx₂ hlen hend hgrow
    exact ⟨p, xn, d₂, x', d', by rw [hr, hrun]; rfl, hb, happ, by rw [hused, hb.used]⟩
  · obtain ⟨k, hk, hclear⟩ := hinode
    rw [hfull k hk] at hclear
    cases hclear

end create

end RCore.EasyFs
