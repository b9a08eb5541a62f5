import RCore.Proofs.EasyFs.CreateCall
import RCore.Proofs.EasyFs.Ownership
import RCore.Proofs.EasyFs.Transparency
import RCore.Sanity.EasyFs.Requests

/-! The lock discipline of the file system: no call asks for a block whose lock it
holds, or for so many blocks at once that the cache runs out of them. -/

namespace RCore.EasyFs

open RCore.Lib

section cached

variable {dev : ℕ} {s : CacheState} {a : Disk}

/-- Over the cache, a program that keeps to the discipline on the array is always served. -/
def StaysServed (dev : ℕ) {α : Type} (p : Fs α) : Prop :=
  ∀ n (s : CacheState) (a : Disk), p.Within n → s.handles.length + n ≤ 16 → Coherent dev s a →
    p.Always Event.Free (s.handles.map Prod.fst) a →
    ∀ e ∈ traceCached dev p (s.handles.map Prod.snd) s, e.Served dev

variable {α β : Type} {key : ℕ}

theorem StaysServed.read {body : Block → Fs β} {k : β → Fs α}
    (ihb : ∀ v, StaysServed dev (body v)) (ihk : ∀ b, StaysServed dev (k b)) :
    StaysServed dev (.read key body k) := by
  intro n s a hw hn h hfree
  obtain ⟨hpos, hwb, hwk⟩ := hw
  obtain ⟨p, s₁, c, hget, h₁, hh₁, -, -, hc, hcache, hiff⟩ := h.opened (by omega) key
  obtain ⟨hreq, hparts⟩ := hfree.of_read
  obtain ⟨hfb, hfk⟩ := hparts hreq
  have hp : p ∉ s.handles.map Prod.snd := fun hp => hreq (hiff.mp hp)
  intro e he
  simp only [traceCached, hget, if_neg hp, hc, hcache, List.mem_cons, List.mem_append] at he
  have hlen : s₁.handles.length + (n - 1) ≤ 16 := by rw [hh₁, List.length_cons]; omega
  rcases he with rfl | he | he
  · exact ⟨p, s₁, hget, hp⟩
  · have hb := ihb (a key) (n - 1) s₁ a (hwb _) hlen h₁
    rw [hh₁, List.map_cons, List.map_cons] at hb
    exact hb hfb e he
  · have hsim := simulates dev (body (a key)) (n - 1) s₁ a (hwb _) hlen h₁
    rw [hh₁, List.map_cons, List.map_cons] at hsim
    cases hr : (body (a key)).run (key :: s.handles.map Prod.fst) a with
    | none =>
      rw [hsim.1 hr] at he
      cases he
    | some r =>
      obtain ⟨s₂, hm⟩ := hsim.2 r.1 r.2 hr
      have hrun := hm.run
      rw [hh₁, List.map_cons] at hrun
      obtain ⟨h₃, hh₃, -⟩ := hm.coherent.closed (hm.handles.trans hh₁)
      simp only [hrun] at he
      have hk := ihk r.1 n _ _ (hwk r.1) (by rwa [hh₃]) h₃
      rw [hh₃] at hk
      exact hk (hfk r.1 r.2 hr) e he

theorem StaysServed.modify {body : Block → Fs (Block × β)} {k : β → Fs α}
    (ihb : ∀ v, StaysServed dev (body v)) (ihk : ∀ b, StaysServed dev (k b)) :
    StaysServed dev (.modify key body k) := by
  intro n s a hw hn h hfree
  obtain ⟨hpos, hwb, hwk⟩ := hw
  obtain ⟨p, s₁, c, hget, h₁, hh₁, -, -, hc, hcache, hiff⟩ := h.opened (by omega) key
  obtain ⟨hreq, hparts⟩ := hfree.of_modify
  obtain ⟨hfb, hfk⟩ := hparts hreq
  have hp : p ∉ s.handles.map Prod.snd := fun hp => hreq (hiff.mp hp)
  intro e he
  simp only [traceCached, hget, if_neg hp, hc, hcache, List.mem_cons, List.mem_append] at he
  have hh₁' : (s₁.getMut p).handles = (key, p) :: s.handles := hh₁
  have hlen : (s₁.getMut p).handles.length + (n - 1) ≤ 16 := by
    rw [hh₁', List.length_cons]
    omega
  rcases he with rfl | he | he
  · exact ⟨p, s₁, hget, hp⟩
  · have hb := ihb (a key) (n - 1) (s₁.getMut p) a (hwb _) hlen (h₁.getMut p)
    rw [hh₁', List.map_cons, List.map_cons] at hb
    exact hb hfb e he
  · have hsim := simulates dev (body (a key)) (n - 1) (s₁.getMut p) a (hwb _) hlen (h₁.getMut p)
    rw [hh₁', List.map_cons, List.map_cons] at hsim
    cases hr : (body (a key)).run (key :: s.handles.map Prod.fst) a with
    | none =>
      rw [hsim.1 hr] at he
      cases he
    | some r =>
      obtain ⟨⟨v, b⟩, a₂⟩ := r
      obtain ⟨s₂, hm⟩ := hsim.2 (v, b) a₂ hr
      have hrun := hm.run
      rw [hh₁', List.map_cons] at hrun
      obtain ⟨h₃, hh₃, -⟩ := hm.stored hh₁ hc
      simp only [hrun] at he
      have hk := ihk b n _ _ (hwk b) (by rwa [hh₃]) h₃
      rw [hh₃] at hk
      exact hk (hfk v b a₂ hr) e he

theorem StaysServed.sync {k : Fs α} (ih : StaysServed dev k) : StaysServed dev (.sync k) := by
  intro n s a hw hn h hfree
  obtain ⟨hnone, hk⟩ := hfree.of_sync
  obtain ⟨h₁, hh₁, -⟩ := h.syncAll
  have hlocked : ∀ e ∈ s.queue, e.2 ∉ s.handles.map Prod.snd := by
    intro e _
    rw [List.map_eq_nil_iff.mp hnone]
    simp
  intro e he
  rw [traceCached, if_neg (by push Not; exact hlocked), List.mem_cons] at he
  rcases he with rfl | he
  · exact hlocked
  · have hrest := ih n _ _ hw (by rwa [hh₁]) h₁
    rw [hh₁] at hrest
    exact hrest (hk hnone) e he

theorem staysServed (dev : ℕ) {α : Type} (p : Fs α) : StaysServed dev p := by
  induction p with
  | ret r =>
    intro n s a _ _ _ _ e he
    cases he
  | fail =>
    intro n s a _ _ _ _ e he
    cases he
  | read key body k ihb ihk => exact .read ihb ihk
  | modify key body k ihb ihk => exact .modify ihb ihk
  | sync k ih => exact ih.sync

end cached

section calls

variable {v : Volume} {held : List ℕ} {d d₁ : Disk} {ino : Inodes} {id p newSize : ℕ}
  {x : DiskInode} {vs : List U32}

theorem always_findFrom (hs : Sound v ino [] d) (hx : ino id = some x) (hheld : HeldBelow v held)
    (name : String) (n i : ℕ) (hn : i + n ≤ x.size / 32) :
    (Inode.findFrom name x n i).Always Event.Free held d := by
  induction n generalizing i with
  | zero => exact Prog.always_ret _
  | succ n ih =>
    have hread := run_readDirent hs hx hheld (i := i) (by omega)
    have hlen := Prog.run_assert (ν := Block) (length_fileSlice d x (32 * i) 32) held d
    refine Prog.always_bind_of hread (Prog.always_free_of_run hread) ?_
    refine Prog.always_bind_of hlen (Prog.always_assert _) ?_
    refine Prog.always_bind (DirEntry.always_name _) fun s d' hname => ?_
    rw [DirEntry.run_name, Option.map_eq_some_iff] at hname
    obtain ⟨s', -, he⟩ := hname
    cases he
    split_ifs
    · exact Prog.always_ret _
    · exact ih (i + 1) (by omega)

theorem always_findInodeId (hs : Sound v ino [] d) (hx : ino id = some x)
    (hheld : HeldBelow v held) (name : String) :
    (Inode.findInodeId name x).Always Event.Free held d := by
  refine Prog.always_bind (Prog.always_assert _) fun _ d' hr => ?_
  obtain rfl : d = d' := by
    have := Prog.run_assert (ν := Block) (Prog.run_assert_eq_some hr) held d
    simpa [this] using hr
  exact always_findFrom hs hx hheld name _ 0 (by rw [Nat.zero_add])

theorem always_lsFrom (hs : Sound v ino [] d) (hx : ino id = some x) (hheld : HeldBelow v held)
    (n i : ℕ) (acc : List String) (hn : i + n ≤ x.size / 32) :
    (Inode.lsFrom x n i acc).Always Event.Free held d := by
  induction n generalizing i acc with
  | zero => exact Prog.always_ret _
  | succ n ih =>
    have hread := run_readDirent hs hx hheld (i := i) (by omega)
    rw [Nat.mul_comm] at hread
    have hlen := Prog.run_assert (ν := Block) (length_fileSlice d x (i * 32) 32) held d
    refine Prog.always_bind_of hread (Prog.always_free_of_run hread) ?_
    refine Prog.always_bind_of hlen (Prog.always_assert _) ?_
    refine Prog.always_bind (DirEntry.always_name _) fun s d' hname => ?_
    rw [DirEntry.run_name, Option.map_eq_some_iff] at hname
    obtain ⟨s', -, he⟩ := hname
    cases he
    exact ih (i + 1) _ (by omega)

/-- A file as long as a file can be: the walk of `increase_size` ends at the index that is
out of bounds. -/
theorem always_increaseSize_full (hk : x.dataBlocks = 16540)
    (h1 : x.indirect1.toNat ∉ held) (h2 : x.indirect2.toNat ∉ held) :
    (x.increaseSize (16540 * 512 + 32) vs).Always Event.Free held d := by
  have htotal : DiskInode.dataBlocksOf (16540 * 512 + 32) = 16541 := rfl
  rw [DiskInode.increaseSize]
  simp only [DiskInode.dataBlocks_setSize (n := 16540 * 512 + 32) (by omega), hk, htotal]
  have hind1 : (x.setSize (16540 * 512 + 32)).indirect1 = x.indirect1 :=
    DiskInode.load_setSize (d := d) _ .ind1
  have hind2 : (x.setSize (16540 * 512 + 32)).indirect2 = x.indirect2 :=
    DiskInode.load_setSize (d := d) _ .ind2
  generalize x.setSize (16540 * 512 + 32) = y at *
  rw [← hind1] at h1
  rw [← hind2] at h2
  change (DiskInode.growIndirect1 y 16540 16541 vs).Always Event.Free held d
  refine Prog.always_bind_of (a := (y, vs)) (e := d) rfl (Prog.always_ret _) ?_
  have hopen1 := run_modifyBlock (d := d) (f := fun indirect1 =>
    DiskInode.fillIndirect1 0 indirect1 16512 vs) h1 rfl
  refine Prog.always_bind_of hopen1 (Prog.always_free_of_run hopen1) ?_
  rw [Function.update_eq_self]
  change (DiskInode.growIndirect2 y 16512 16513 vs).Always Event.Free held d
  refine Prog.always_bind_of (a := (y, vs)) (e := d) rfl (Prog.always_ret _) ?_
  refine Prog.always_bind (always_modifyAt h2 fun _ => ?_) fun _ _ _ => Prog.always_ret _
  change (DiskInode.fillIndirect2 128 1 1 (field (d y.indirect2.toNat) (8 * 0) 4096) 128 0 vs).Always
    Event.Free (y.indirect2.toNat :: held) d
  rw [DiskInode.fillIndirect2, if_pos (by omega)]
  cases vs with
  | nil => exact Prog.always_fail
  | cons u vs => exact Prog.always_fail

/-- `Inode::increase_size` never waits for a lock that is held, also where it fails. -/
theorem always_increaseSize (hs : Sound v ino [] d) (hx : ino id = some x)
    (hheld : HeldBelow v held)
    (hmax : newSize ≤ 16540 * 512 ∨ (newSize = 16540 * 512 + 32 ∧ x.dataBlocks = 16540)) :
    (Inode.increaseSize v.fs newSize x).Always Event.Free held d := by
  rw [Inode.increaseSize]
  split_ifs with hlt
  · exact Prog.always_ret _
  have hneed : (x.blocksNumNeeded newSize).run held d = some (blocksNeeded x newSize, d) :=
    Prog.run_bind_of (Prog.run_assert (Nat.le_of_not_lt hlt) _ _) _
  refine Prog.always_bind_of hneed (Prog.always_free_of_run hneed) ?_
  refine Prog.always_bind (EasyFileSystem.always_allocBlocks (P := Event.Free) hheld.bitmap _ _ _)
    fun vs d₁ halloc => ?_
  refine Prog.always_bind ?_ fun _ _ _ => Prog.always_ret _
  rcases hmax with hmax | ⟨rfl, hk⟩
  · obtain ⟨hlen, ha⟩ := alloced_of_run hheld.bitmap halloc
    obtain ⟨x', d', hrun, -⟩ := run_place (ha.taken hs) hx hheld (Nat.le_of_not_lt hlt) hmax hlen
    exact Prog.always_free_of_run hrun
  · have hmem : ∀ σ : Slot, σ.Ok → σ.index < 16540 → σ ∈ slotsUpTo x.dataBlocks := by
      intro σ hok hlt
      rw [hk]
      exact (mem_slotsUpTo (le_refl _) σ).mpr ⟨hok, hlt⟩
    exact always_increaseSize_full hk
      (hs.unlocked hx hheld .ind1 (hmem _ trivial (by simp only [Slot.index]; omega)))
      (hs.unlocked hx hheld .ind2 (hmem _ trivial (by simp only [Slot.index]; omega)))

/-- Appending an entry to a directory, whatever its name and however long it is. -/
theorem always_appendEntry (hs : Sound v (v.fs.inodes d) [] d) (hx : v.fs.inodes d id = some x)
    (name : String) (p : ℕ) :
    (appendEntry v name p x).Always Event.Free [v.inodeBlock id] d := by
  have hmax := hs.size_le id x hx
  have hheld := heldBelow_inodeBlock hx
  rw [appendEntry, dirent_sz_eq, Nat.add_mul, Nat.one_mul, Nat.mod_eq_of_lt (by omega)]
  have hlim : x.size / 32 * 32 + 32 ≤ 16540 * 512 ∨
      (x.size / 32 * 32 + 32 = 16540 * 512 + 32 ∧ x.dataBlocks = 16540) := by
    rw [dataBlocks_eq hmax]
    omega
  refine Prog.always_bind (always_increaseSize hs hx hheld hlim) fun x' d₁ hgrow => ?_
  refine Prog.always_bind (DirEntry.always_new _ _) fun e d₂ hnew => ?_
  obtain ⟨-, rfl, rfl⟩ := DirEntry.run_new_some hnew
  refine Prog.always_bind ?_ fun _ _ _ => Prog.always_ret _
  rcases hlim with hlim | ⟨hfull, hk⟩
  · have hend : x.size / 32 * 32 + (DirEntry.entryOf name p).asBytes.length ≤ 16540 * 512 := by
      simpa using hlim
    obtain ⟨d₂, d', hr, -⟩ := run_write_grown hs hx (by simp) hend (by simpa using hgrow)
    exact Prog.always_free_of_run hr
  · rw [hfull, run_increaseSize_none hk hmax] at hgrow
    cases hgrow

theorem always_readDiskInode {α : Type} {g : DiskInode → Fs α} (hx : v.fs.inodes d id = some x)
    (h : (g x).Always Event.Free [v.inodeBlock id] d) :
    ((Inode.ofId v.fs id).readDiskInode g).Always Event.Free [] d := by
  obtain ⟨-, -, rfl⟩ := Volume.inodes_eq_some hx
  exact always_readAt List.not_mem_nil fun _ => h

theorem always_modifyDiskInode {α : Type} {g : DiskInode → Fs (DiskInode × α)}
    (hx : v.fs.inodes d id = some x) (h : (g x).Always Event.Free [v.inodeBlock id] d) :
    ((Inode.ofId v.fs id).modifyDiskInode g).Always Event.Free [] d := by
  obtain ⟨-, -, rfl⟩ := Volume.inodes_eq_some hx
  exact always_modifyAt List.not_mem_nil fun _ => h

theorem always_find (hs : Sound v (v.fs.inodes d) [] d) (hx : v.fs.inodes d id = some x)
    (name : String) : (Inode.find v.fs (Inode.ofId v.fs id) name).Always Event.Free [] d :=
  always_readDiskInode hx (Prog.always_bind
    (always_findInodeId hs hx (heldBelow_inodeBlock hx) name) fun _ _ _ => Prog.always_ret _)

theorem always_ls (hs : Sound v (v.fs.inodes d) [] d) (hx : v.fs.inodes d id = some x) :
    (Inode.ofId v.fs id).ls.Always Event.Free [] d :=
  always_readDiskInode hx (always_lsFrom hs hx (heldBelow_inodeBlock hx) _ _ _
    (by rw [Nat.zero_add]))

/-- `create` on any inode: the scan, the new inode, and the new entry. -/
theorem always_create_file (hs : Sound v (v.fs.inodes d) [] d) (hx : v.fs.inodes d id = some x)
    (name : String) : (Inode.create v.fs (Inode.ofId v.fs id) name).Always Event.Free [] d := by
  refine Prog.always_bind (always_readDiskInode hx ?_) fun found d' hscan => ?_
  · refine Prog.always_bind (Prog.always_assert _) fun _ d' hr => ?_
    obtain rfl : d = d' := by
      have := Prog.run_assert (ν := Block) (Prog.run_assert_eq_some hr) [v.inodeBlock id] d
      simpa [this] using hr
    exact always_findInodeId hs hx (heldBelow_inodeBlock hx) name
  have hdir : x.isDir = true := by
    rw [run_readDiskInode hx] at hscan
    obtain ⟨_, _, hr, -⟩ := Prog.run_bind_eq_some hscan
    exact Prog.run_assert_eq_some hr
  obtain rfl : d = d' := by
    rw [run_createScan name hs hx hdir, Option.map_eq_some_iff] at hscan
    obtain ⟨r, -, he⟩ := hscan
    cases he
    rfl
  split_ifs
  · exact Prog.always_ret _
  refine Prog.always_bind (EasyFileSystem.always_allocInode fun _ _ => List.not_mem_nil)
    fun p d₁ ha => ?_
  rcases run_allocInode (v := v) (d := d) with ⟨q, d₁', xn, d₂, ha', hinit, hb⟩ | ⟨ha', -⟩
  · obtain ⟨rfl, rfl⟩ : q = p ∧ d₁' = d₁ := by simpa [ha'] using ha
    refine Prog.always_bind_of hinit
      (always_modifyAt List.not_mem_nil fun _ => Prog.always_ret _) ?_
    refine Prog.always_bind (always_modifyDiskInode (hb.inodes_of_some hx)
      (always_appendEntry (hb.sound hs) (hb.inodes_of_some hx) name q)) fun _ _ _ => ?_
    refine Prog.always_bind (Prog.always_sync rfl fun _ => Prog.always_ret _) fun _ _ _ => ?_
    exact Prog.always_ret _
  · rw [ha'] at ha
    cases ha

end calls

/-- A file of the file system in state `s`. -/
def State.Has (s : State) (file : Inode) (x : DiskInode) : Prop :=
  ∃ id, s.fs.inodes s.disk id = some x ∧ file = Inode.ofId s.fs id

/-- The calls on the file system in state `s`: on any inode that is in use, and to write
what a file can hold and the data area has room for. -/
def FsCall.On (totalBlocks : ℕ) (s : State) : FsCall → Prop
  | .format _ _ => True
  | .open_ => True
  | .find fs file _ => fs = s.fs ∧ ∃ x, s.Has file x
  | .create fs file _ => fs = s.fs ∧ ∃ x, s.Has file x
  | .ls file => ∃ x, s.Has file x
  | .readAt file _ _ => ∃ x, s.Has file x
  | .writeAt fs file offset buf => fs = s.fs ∧ buf ≠ [] ∧ offset + buf.length ≤ State.MAX_SIZE ∧
    ∃ x, s.Has file x ∧ s.fs.dataBitmap.used s.disk + blocksNeeded x (offset + buf.length) ≤
      s.dataAreaBlocks totalBlocks
  | .clear fs file => fs = s.fs ∧ ∃ x, s.Has file x

theorem Invariant.always_free {v : Volume} {s : State} (h : Invariant v s) (c : FsCall)
    (hc : c.On v.totalBlocks s) : c.prog.Always Event.Free [] s.disk := by
  have hs := h.sound
  rw [← h.fs] at hs
  cases c with
  | format totalBlocks inodeBitmapBlocks =>
    exact EasyFileSystem.always_create _ _ (fun _ => List.not_mem_nil) rfl
  | open_ =>
    change EasyFileSystem.open_.Always Event.Free [] s.disk
    refine always_readAt (P := Event.Free) List.not_mem_nil fun _ => ?_
    refine Prog.always_bind (Prog.always_assert _) fun _ _ _ => ?_
    exact Prog.always_bind (EasyFileSystem.always_checkedU32 _) fun _ _ _ => Prog.always_ret _
  | find fs file name =>
    obtain ⟨rfl, x, id, hx, rfl⟩ := hc
    rw [h.fs] at hx ⊢
    exact always_find h.sound hx name
  | create fs file name =>
    obtain ⟨rfl, x, id, hx, rfl⟩ := hc
    rw [h.fs] at hx ⊢
    exact always_create_file h.sound hx name
  | ls file =>
    obtain ⟨x, id, hx, rfl⟩ := hc
    rw [h.fs] at hx ⊢
    exact always_ls h.sound hx
  | readAt file offset len =>
    obtain ⟨x, id, hx, rfl⟩ := hc
    rw [h.fs] at hx ⊢
    have hk := dataBlocks_eq (h.sound.size_le id x hx)
    have hread : (x.readAt offset len).Always Event.Free [v.inodeBlock id] s.disk :=
      Prog.always_free_of_run (DiskInode.run_readAt offset len (h.sound.dataBlocks_le hx)
        (h.sound.unlocked hx (heldBelow_inodeBlock hx)) (by omega))
    change ((Inode.ofId v.fs id).readDiskInode fun x => x.readAt offset len).Always _ _ _
    exact always_readDiskInode hx hread
  | writeAt fs file offset buf =>
    obtain ⟨rfl, hne, hend, x, ⟨id, hx, rfl⟩, hfree⟩ := hc
    rw [dataAreaBlocks_eq h.fs, h.fs] at hfree
    rw [h.fs] at hx
    obtain ⟨x', d', hr, -⟩ := h.run_writeAt hx hne hend hfree
    rw [h.fs] at hr ⊢
    exact Prog.always_free_of_run hr
  | clear fs file =>
    obtain ⟨rfl, x, id, hx, rfl⟩ := hc
    rw [h.fs] at hx ⊢
    obtain ⟨x', d', hr, -⟩ := run_clear h.sound hx
    exact Prog.always_free_of_run hr

end RCore.EasyFs
