import RCore.Proofs.EasyFs.Chop

/-! What no file uses is zero: the slots past the end of a file, as far as the blocks they
lie in are there, and the padding of the inodes. -/

namespace RCore.EasyFs

open RCore.Lib Slot

variable {v : Volume} {held : List ℕ} {d d₁ d' : Disk} {ino : Inodes} {id : ℕ} {x x' : DiskInode}
  {n : ℕ} {vs : List U32}

/-- The slots that lie in the inode or in a block of the file and that the file does not use
are zero. -/
def Blank (d : Disk) (x : DiskInode) : Prop :=
  ∀ σ : Slot, σ.Ok → x.dataBlocks ≤ σ.index →
    (∀ β, σ.base = some β → β ∈ slotsUpTo x.dataBlocks) → load d x σ = 0

/-- The slots of the inode itself do not depend on the disk. -/
theorem load_inode {σ : Slot} (hσ : σ.base = none) (d d' : Disk) : load d x σ = load d' x σ := by
  cases σ <;> simp only [Slot.base, reduceCtorEq] at hσ <;> rfl

/-- The slots of the inode past the end of the file are zero. -/
def DiskInode.EndsBlank (x : DiskInode) : Prop :=
  ∀ d (σ : Slot), σ.Ok → σ.base = none → x.dataBlocks ≤ σ.index → load d x σ = 0

theorem Blank.endsBlank (h : Blank d x) : x.EndsBlank := by
  intro d' σ hok hσ hle
  rw [load_inode hσ d' d]
  exact h σ hok hle fun β hβ => by rw [hσ] at hβ; cases hβ

theorem Blank.congr (h : Blank d x) (hk : x.dataBlocks ≤ 16540)
    (hd : ∀ σ ∈ slotsUpTo x.dataBlocks, ∀ τ : Slot, τ.base = some σ →
      d' (load d x σ).toNat = d (load d x σ).toNat) : Blank d' x := by
  intro σ hok hle hb
  rw [← h σ hok hle hb]
  cases hσ : σ.base with
  | none => exact load_inode hσ d' d
  | some β =>
    have hβ := hb β hσ
    have hload : load d' x β = load d x β :=
      load_congr (closed_slotsUpTo hk)
        (fun τ hτ γ hγ => hd γ (mem_of_base hk hτ hγ) τ hγ) hβ
    rw [load_of_base hσ, load_of_base hσ, hload, hd β hβ σ hσ]

/-- A file whose blocks stay as they are keeps its blank slots. -/
theorem Blank.of_owned (h : Blank d x) (hk : x.dataBlocks ≤ 16540)
    (hd : ∀ b ∈ owned d x, d' b = d b) : Blank d' x :=
  h.congr hk fun _ hσ _ _ => hd _ (load_mem_owned hσ)

/-- An empty file. -/
theorem Blank.of_size_zero (hsize : x.size = 0)
    (h : ∀ σ : Slot, σ.base = none → σ.Ok → load d x σ = 0) : Blank d x := by
  intro σ hok _ hb
  have hk : x.dataBlocks = 0 := by rw [dataBlocks_eq (by omega), hsize]
  cases hσ : σ.base with
  | none => exact h σ hσ hok
  | some β =>
    have := hb β hσ
    rw [hk] at this
    cases this

/-- Writing bytes to the data blocks. -/
theorem Written.blank {start stop : ℕ} {f : ℕ → UInt8}
    (hw : Written d x x.dataBlocks start stop f d') (hk : x.dataBlocks ≤ 16540)
    (hnd : (owned d x).Nodup) (h : Blank d x) : Blank d' x := by
  refine h.congr hk fun σ hσ τ hτ => hw.frame _ fun k hlt he => ?_
  have := List.inj_on_of_nodup_map (nodup_owned.mp hnd) (dataSlot_mem hlt) hσ
    (BitVec.eq_of_toNat_eq he)
  exact base_ne_dataSlot hτ k this.symm

/-- New blocks that are zero leave the slots past the end blank. -/
theorem Room.blank (hroom : Room held d x x.dataBlocks vs) (hx : x.size ≤ n)
    (hn : n ≤ 16540 * 512) (hlen : vs.length = blocksNeeded x n)
    (hzero : ∀ b ∈ vs, d b.toNat = 0) (h : Blank d x) :
    Blank (placeBlocks d x n vs).1 (placeBlocks d x n vs).2 := by
  have hk := dataBlocks_eq (x := x) (by omega)
  have hkn := dataBlocksOf_eq hn
  have hslots := length_slots_placed hx hn
  have hblocks : (placeBlocks d x n vs).2.dataBlocks = DiskInode.dataBlocksOf n := by
    rw [DiskInode.dataBlocks, size_placeBlocks d x vs (by omega)]
  have hroom' := DiskInode.room_setSize (n := n) hroom
  have hst := hroom.stored_place hx hn hlen
  have hsplit := slotsUpTo_add x.dataBlocks (DiskInode.dataBlocksOf n - x.dataBlocks)
  rw [Nat.add_sub_cancel' (by omega)] at hsplit
  have hout : ∀ σ ∈ slotsFrom x.dataBlocks (DiskInode.dataBlocksOf n - x.dataBlocks),
      σ.Ok ∧ x.dataBlocks ≤ σ.index ∧ σ.index < DiskInode.dataBlocksOf n := by
    intro σ hσ
    obtain ⟨hok, hle, hlt⟩ := ok_of_mem_slotsFrom (by omega) hσ
    exact ⟨hok, hle, by omega⟩
  intro σ hok hle hb
  rw [hblocks] at hle hb
  have hnot : σ ∉ slotsFrom x.dataBlocks (DiskInode.dataBlocksOf n - x.dataBlocks) := by
    intro hσ
    have := (hout σ hσ).2.2
    omega
  cases hσ : σ.base with
  | none =>
    have hload : load (placeBlocks d x n vs).1 (placeBlocks d x n vs).2 σ = _ :=
      load_storeAll_inode (fun τ hτ => (hout τ hτ).1) hσ hok hnot vs d (x.setSize n)
    rw [hload, DiskInode.load_setSize, h σ hok (by omega) fun β hβ => by rw [hσ] at hβ; cases hβ]
  | some β =>
    have hnd : ((slotsUpTo (DiskInode.dataBlocksOf n)).map
        (load (placeBlocks d x n vs).1 (placeBlocks d x n vs).2)).Nodup := by
      rw [hsplit, hst.loads]
      exact hroom'.nodup
    have hβ := hb β hσ
    -- no new slot lies in the word of `σ`
    have hword : u32At ((placeBlocks d x n vs).1
        (load (placeBlocks d x n vs).1 (placeBlocks d x n vs).2 β).toNat) σ.pos =
        u32At (d (load (placeBlocks d x n vs).1 (placeBlocks d x n vs).2 β).toNat) σ.pos := by
      refine u32At_storeAll (closed_slotsUpTo (by omega)) (extends_slotsFrom (by omega))
        (hlen.trans hslots.symm) hroom'.nodup fun τ hτ γ hγ he hpos => ?_
      have hτ' : τ ∈ slotsUpTo (DiskInode.dataBlocksOf n) := by
        rw [hsplit]
        exact List.mem_append_right _ hτ
      have hγβ := List.inj_on_of_nodup_map hnd (mem_of_base (by omega) hτ' hγ) hβ
        (BitVec.eq_of_toNat_eq he)
      subst hγβ
      exact pos_ne hγ hσ (fun heq => hnot (heq ▸ hτ)) hpos
    rw [load_of_base hσ, hword]
    rw [hsplit, List.mem_append] at hβ
    rcases hβ with hβ | hβ
    · have hload : load (placeBlocks d x n vs).1 (placeBlocks d x n vs).2 β = load d x β :=
        (hst.load_eq hβ).trans (DiskInode.load_setSize n β)
      rw [hload, ← load_of_base hσ]
      refine h σ hok (by omega) fun γ hγ => ?_
      rw [hσ, Option.some.injEq] at hγ
      exact hγ ▸ hβ
    · have hmem : load (placeBlocks d x n vs).1 (placeBlocks d x n vs).2 β ∈ vs := by
        have hT := hst.loads
        rw [List.map_append] at hT
        have hmem := List.mem_map_of_mem
          (f := load (placeBlocks d x n vs).1 (placeBlocks d x n vs).2) hβ
        rwa [List.append_inj_right hT (by simp)] at hmem
      rw [hzero _ hmem]
      exact field_zero _ _

namespace DiskInode

theorem clearDirect_fst (n k : ℕ) (x : DiskInode) (bs : List U32) :
    (clearDirect n x k bs).1 = (List.range' k n).foldl (fun x i => x.setDirect i 0) x := by
  induction n generalizing k x bs with
  | zero => rfl
  | succ n ih => exact ih (k + 1) (x.setDirect k 0) _

/-- `initialize` clears everything but the padding, and sets the type. -/
theorem initializeAs_eq (x : DiskInode) (t : DiskInodeType) :
    ∃ y, Cleared 28 x 0 0 y ∧ x.initializeAs t = y.setType t := by
  obtain ⟨-, hy⟩ := clearDirect_cleared 28 x
  refine ⟨_, (hy.setIndirect1 0).setIndirect2 0, ?_⟩
  rw [Nat.min_self, clearDirect_fst, ← List.range_eq_range']
  rfl

theorem load_setType (x : DiskInode) (t : DiskInodeType) {σ : Slot} (hσ : σ.base = none)
    (hok : σ.Ok) : load d (x.setType t) σ = load d x σ := by
  cases σ with
  | direct i =>
    have hi : i < 28 := hok
    exact field_splice_disjoint _ _ _ _ (by omega)
  | ind1 => exact field_splice_disjoint _ _ _ _ (by omega)
  | ind2 => exact field_splice_disjoint _ _ _ _ (by omega)
  | word1 j => cases hσ
  | sub a => cases hσ
  | leaf a b => cases hσ

theorem load_initializeAs (x : DiskInode) (t : DiskInodeType) {σ : Slot} (hσ : σ.base = none)
    (hok : σ.Ok) : load d (x.initializeAs t) σ = 0 := by
  obtain ⟨y, hy, he⟩ := initializeAs_eq x t
  rw [he, load_setType y t hσ hok]
  cases σ with
  | direct i => exact (hy.direct i hok).trans (if_pos hok)
  | ind1 => exact hy.indirect1
  | ind2 => exact hy.indirect2
  | word1 j => cases hσ
  | sub a => cases hσ
  | leaf a b => cases hσ

theorem padding_initializeAs (x : DiskInode) (t : DiskInodeType) :
    (x.initializeAs t).padding = x.padding := by
  obtain ⟨y, hy, he⟩ := initializeAs_eq x t
  rw [he, ← hy.padding]
  exact field_splice_disjoint _ _ _ _ (by omega)

/-- A cleared inode whose unused slots were blank is blank all over. -/
theorem Cleared.load_eq_zero (h : x.EndsBlank)
    (hc : Cleared x.dataBlocks x (if 28 < x.dataBlocks then 0 else x.indirect1)
      (if 156 < x.dataBlocks then 0 else x.indirect2) x') {σ : Slot} (hσ : σ.base = none)
    (hok : σ.Ok) : load d x' σ = 0 := by
  have hblank := h d σ hok hσ
  cases σ with
  | direct i =>
    refine (hc.direct i hok).trans ?_
    split_ifs with hlt
    · rfl
    · exact hblank (Nat.le_of_not_lt hlt)
  | ind1 =>
    refine hc.indirect1.trans ?_
    split_ifs with hlt
    · rfl
    · exact hblank (Nat.le_of_not_lt hlt)
  | ind2 =>
    refine hc.indirect2.trans ?_
    split_ifs with hlt
    · rfl
    · exact hblank (Nat.le_of_not_lt hlt)
  | word1 j => cases hσ
  | sub a => cases hσ
  | leaf a b => cases hσ

end DiskInode

theorem padding_placeBlocks (d : Disk) (vs : List U32) (hx : x.size ≤ n) (hn : n ≤ 16540 * 512) :
    (placeBlocks d x n vs).2.padding = x.padding := by
  have hk := dataBlocks_eq (x := x) (by omega)
  have hkn := dataBlocksOf_eq hn
  have hok : ∀ σ ∈ slotsFrom x.dataBlocks (DiskInode.dataBlocksOf n - x.dataBlocks), σ.Ok :=
    fun σ hσ => (ok_of_mem_slotsFrom (by omega) hσ).1
  rw [placeBlocks, padding_storeAll hok, DiskInode.padding_setSize]

/-- What the inodes and blocks that no file uses look like. -/
structure Tidy (v : Volume) (d : Disk) : Prop where
  padding : ∀ j < v.fs.inodeBitmap.maximum, (v.fs.inodeAt d j).padding = 0
  type_ : ∀ j x, v.fs.inodes d j = some x → ∃ t : DiskInodeType, x.type_ = t.toByte
  blank : ∀ j x, v.fs.inodes d j = some x → Blank d x

/-- An inode goes back to its block. -/
theorem Tidy.commit {size : ℕ} (h : Tidy v d) (hs : Sound v (v.fs.inodes d) [] d)
    (hx : v.fs.inodes d id = some x) (hch : Changed v (v.fs.inodes d) id x size d x' d')
    (hpad : x'.padding = x.padding) (hblank : Blank d' x') :
    Tidy v (Function.update d' (v.inodeBlock id)
      (splice (d (v.inodeBlock id)) (8 * v.inodeOffset id) x')) := by
  obtain ⟨hlt, -, hat⟩ := Volume.inodes_eq_some hx
  have hst := v.inodeBlock_lt_start hlt
  have hino := Volume.inodes_update (x := x') (by rw [hx]; rfl : (v.fs.inodes d id).isSome)
    hch.inodeArea hch.inodeBits
  have hinode : ∀ j, j < v.fs.inodeBitmap.maximum → _ := fun j hj =>
    Volume.inodeAt_update id x' hch.inodeArea hj
  generalize hd'' : Function.update d' (v.inodeBlock id)
    (splice (d (v.inodeBlock id)) (8 * v.inodeOffset id) x') = d'' at *
  have hdata : ∀ b, v.start ≤ b → d'' b = d' b := by
    intro b hb
    rw [← hd'']
    exact Function.update_of_ne (by omega) _ _
  have hx' : Function.update (v.fs.inodes d) id (some x') id = some x' := Function.update_self ..
  refine ⟨fun j hj => ?_, fun j y hy => ?_, fun j y hy => ?_⟩
  · rw [hinode j hj]
    split_ifs
    · rw [hpad, ← hat, h.padding id hlt]
    · exact h.padding j hj
  · rw [hino] at hy
    by_cases hj : j = id
    · subst hj
      rw [Function.update_self, Option.some.injEq] at hy
      rw [← hy, hch.type_]
      exact h.type_ j x hx
    · rw [Function.update_of_ne hj] at hy
      exact h.type_ j y hy
  · rw [hino] at hy
    by_cases hj : j = id
    · subst hj
      rw [Function.update_self, Option.some.injEq] at hy
      subst hy
      exact hblank.of_owned (hch.sound.dataBlocks_le hx')
        fun b hb => hdata b (hch.sound.used hx' hb).start_le
    · rw [Function.update_of_ne hj] at hy
      refine (h.blank j y hy).of_owned (hs.dataBlocks_le hy) fun b hb => ?_
      rw [hdata b (hs.used hy hb).start_le, hch.others j y hj hy b hb]

/-- A new inode. -/
theorem Tidy.born {p : ℕ} (h : Tidy v d) (hs : Sound v (v.fs.inodes d) [] d)
    (hb : Born v d p ((v.fs.inodeAt d p).initializeAs .file) d')
    (hat : ∀ j < v.fs.inodeBitmap.maximum, j ≠ p → v.fs.inodeAt d' j = v.fs.inodeAt d j) :
    Tidy v d' := by
  have hp : v.fs.inodes d' p = some ((v.fs.inodeAt d p).initializeAs .file) := by
    rw [hb.inodes, Function.update_self]
  refine ⟨fun j hj => ?_, fun j y hy => ?_, fun j y hy => ?_⟩
  · by_cases hjp : j = p
    · subst hjp
      rw [(Volume.inodes_eq_some hp).2.2, DiskInode.padding_initializeAs, h.padding j hj]
    · rw [hat j hj hjp, h.padding j hj]
  · rw [hb.inodes] at hy
    by_cases hjp : j = p
    · subst hjp
      rw [Function.update_self, Option.some.injEq] at hy
      exact ⟨.file, by rw [← hy, DiskInode.type_initializeAs]⟩
    · rw [Function.update_of_ne hjp] at hy
      exact h.type_ j y hy
  · rw [hb.inodes] at hy
    by_cases hjp : j = p
    · subst hjp
      rw [Function.update_self, Option.some.injEq] at hy
      subst hy
      exact Blank.of_size_zero (DiskInode.size_initializeAs _ _)
        fun σ hσ hok => DiskInode.load_initializeAs _ _ hσ hok
    · rw [Function.update_of_ne hjp] at hy
      exact (h.blank j y hy).of_owned (hs.dataBlocks_le hy)
        fun b hb' => hb.data b (hs.used hy hb').start_le

/-- A file that grows inside the data area stays blank past its end. -/
theorem Blank.grown {newSize : ℕ} (h : Blank d x) (hs : Sound v ino [] d) (hc : Clean v ino d)
    (hx : ino id = some x) (hheld : HeldBelow v held) (hmax : newSize ≤ 16540 * 512)
    (hfree : v.fs.dataBitmap.used d + blocksNeeded x newSize ≤ v.size)
    (hgrow : (Inode.increaseSize v.fs newSize x).run held d = some (x', d₁)) :
    Blank d₁ x' ∧ x'.padding = x.padding := by
  have hsize := hs.size_le id x hx
  rw [run_increaseSize_exact hs hx hheld hmax, Option.map_eq_some_iff] at hgrow
  obtain ⟨⟨vs, e⟩, halloc, he⟩ := hgrow
  obtain ⟨hlen, hal⟩ := alloced_of_run hheld.bitmap halloc
  obtain ⟨rfl, rfl⟩ := Prod.mk.inj he
  have hs₁ := hal.taken hs
  have hused : v.fs.dataBitmap.used e ≤ v.size := by rw [hal.used, hlen]; exact hfree
  have hblank : Blank e x := h.of_owned (hs.dataBlocks_le hx)
    fun b hb => hal.frame b (not_bitmap_of_le (hs.used hx hb).start_le)
  rw [← blocksNeeded_max hsize] at hlen
  exact ⟨(room_of_sound hs₁ hx hheld).blank (by omega) (by omega) hlen (hal.zero hc hused) hblank,
    padding_placeBlocks e vs (by omega) (by omega)⟩

section calls

variable {offset : ℕ} {buf : List UInt8}

/-- A file that has been written to, up to the inode's going back to disk. -/
theorem Tidy.written {d₂ : Disk} {r : ℕ} (h : Tidy v d) (hs : Sound v (v.fs.inodes d) [] d)
    (hc : Clean v (v.fs.inodes d) d) (hx : v.fs.inodes d id = some x) (hpos : 0 < buf.length)
    (hend : offset + buf.length ≤ 16540 * 512)
    (hfree : v.fs.dataBitmap.used d + blocksNeeded x (offset + buf.length) ≤ v.size)
    (hgrow : (Inode.increaseSize v.fs (offset + buf.length) x).run [v.inodeBlock id] d =
      some (x', d₁))
    (hr : (x'.writeAt offset buf).run [v.inodeBlock id] d₁ = some (r, d₂)) :
    Tidy v (Function.update d₂ (v.inodeBlock id)
      (splice (d (v.inodeBlock id)) (8 * v.inodeOffset id) x')) := by
  have hheld := heldBelow_inodeBlock hx
  have hg := run_increaseSize_some hs hx hheld hend hgrow
  have hx' : Function.update (v.fs.inodes d) id (some x') id = some x' := Function.update_self ..
  obtain ⟨hblank, hpad⟩ := (h.blank id x hx).grown hs hc hx hheld hend hfree hgrow
  obtain ⟨d₃, hr', hw, hwrote⟩ := run_writeAt_written hs hheld hpos hg
  obtain rfl : d₃ = d₂ := by
    rw [hr', Option.some.injEq, Prod.mk.injEq] at hr
    exact hr.2
  exact h.commit hs hx hwrote.changed hpad
    (hw.blank (hg.changed.sound.dataBlocks_le hx') (hg.changed.sound.nodup hx') hblank)

theorem Tidy.writeAt {r : ℕ} (h : Tidy v d) (hs : Sound v (v.fs.inodes d) [] d)
    (hc : Clean v (v.fs.inodes d) d) (hx : v.fs.inodes d id = some x) (hpos : 0 < buf.length)
    (hend : offset + buf.length ≤ 16540 * 512)
    (hr : (Inode.writeAt v.fs (Inode.ofId v.fs id) offset buf).run [] d = some (r, d'))
    (hfree : v.fs.dataBitmap.used d' ≤ v.size) : Tidy v d' := by
  obtain ⟨-, hused, -⟩ := run_writeAt_some hs hx hpos hend hr
  obtain ⟨r₁, d₁, hm, hsync⟩ := Prog.run_bind_eq_some hr
  cases hsync
  obtain ⟨x₁, d₂, hbody, rfl⟩ := run_modifyDiskInode_some hx hm
  obtain ⟨x', d₃, hgrow, hbody⟩ := Prog.run_bind_eq_some hbody
  obtain ⟨r₂, d₄, hwrite, hret⟩ := Prog.run_bind_eq_some hbody
  cases hret
  rw [Nat.mod_eq_of_lt (by omega)] at hgrow
  exact h.written hs hc hx hpos hend (by omega) hgrow hwrite

theorem Tidy.clear (h : Tidy v d) (hs : Sound v (v.fs.inodes d) [] d)
    (hx : v.fs.inodes d id = some x)
    (hr : (Inode.clear v.fs (Inode.ofId v.fs id)).run [] d = some ((), d')) : Tidy v d' := by
  obtain ⟨x', d₁, -, hcl, -, hch, -, -, hr'⟩ := run_clear_parts hs hx
  rw [hr', Option.some.injEq, Prod.mk.injEq] at hr
  rw [← hr.2]
  refine h.commit hs hx hch hcl.padding (Blank.of_size_zero hcl.size fun σ hσ hok => ?_)
  exact hcl.load_eq_zero (h.blank id x hx).endsBlank hσ hok

theorem Tidy.create {name : String} {r : Option Inode} (h : Tidy v d)
    (hs : Sound v (v.fs.inodes d) [] d) (hc : Clean v (v.fs.inodes d) d)
    (hx : v.fs.inodes d id = some x)
    (hr : (Inode.create v.fs (Inode.ofId v.fs id) name).run [] d = some (r, d'))
    (hfree : v.fs.dataBitmap.used d' ≤ v.size) : Tidy v d' := by
  obtain ⟨hdir, hcase⟩ := run_create_some hs hx hr
  rcases hcase with ⟨-, rfl, -⟩ | ⟨-, -, -, -, -, hl, -, -⟩
  · exact h
  rcases run_create_new_exact hs hx hdir hl with ⟨p, d₂, hb, hat, hrun⟩ | ⟨hrun, -⟩
  · rw [hrun, Option.map_eq_some_iff] at hr
    obtain ⟨⟨u, d₃⟩, happ, he⟩ := hr
    cases he
    have hs₂ := hb.sound hs
    have hx₂ := hb.inodes_of_some hx
    obtain ⟨-, hend, hused, -⟩ := run_appendEntry_some hs₂ hx₂ happ
    obtain ⟨x₁, d₄, hbody, rfl⟩ := run_modifyDiskInode_some hx₂ happ
    rw [appendEntry, dirent_sz_eq] at hbody
    obtain ⟨x', d₅, hgrow, hentry⟩ := Prog.run_bind_eq_some hbody
    obtain ⟨e, d₆, hnew, hlast⟩ := Prog.run_bind_eq_some hentry
    obtain ⟨-, rfl, rfl⟩ := DirEntry.run_new_some hnew
    obtain ⟨r₂, d₇, hwrite, hret⟩ := Prog.run_bind_eq_some hlast
    cases hret
    rw [Nat.add_mul, Nat.one_mul, Nat.mod_eq_of_lt (by omega)] at hgrow
    have hlen := DirEntry.length_asBytes (DirEntry.entryOf name p)
    have hpos : 0 < (DirEntry.entryOf name p).asBytes.length := by omega
    have hend' : x.size / 32 * 32 + (DirEntry.entryOf name p).asBytes.length ≤ 16540 * 512 := by
      rw [hlen]
      exact hend
    have hfree' : v.fs.dataBitmap.used d₂ + blocksNeeded x
        (x.size / 32 * 32 + (DirEntry.entryOf name p).asBytes.length) ≤ v.size := by
      rw [hlen, ← hused]
      exact hfree
    refine (h.born hs hb hat).written hs₂ (hb.clean hs hc) hx₂ hpos hend' hfree' ?_ hwrite
    rw [hlen]
    exact hgrow
  · rw [hrun] at hr
    cases hr

end calls

/-- A formatted disk: its inodes are zero but for the root. -/
theorem Formatted.tidy (h : Formatted v.totalBlocks v.inodeBitmapBlocks v.areas d) : Tidy v d := by
  have hpos := h.pos
  have harea := v.inodeArea
  have htot := v.total
  have hroot : rootInode.padding = 0 :=
    (DiskInode.padding_initializeAs 0 .directory).trans (field_zero _ _)
  have hinodes : ∀ j y, v.fs.inodes d j = some y → y = rootInode := by
    intro j y hy
    rw [h.inodes] at hy
    by_cases hj : j = 0
    · subst hj
      rw [Function.update_self, Option.some.injEq] at hy
      exact hy.symm
    · rw [Function.update_of_ne hj] at hy
      cases hy
  refine ⟨fun j hj => ?_, fun j y hy => ?_, fun j y hy => ?_⟩
  · have hblock := v.inodeBlock_eq j
    have hoff := v.inodeOffset_eq j
    rw [v.inodeBitmap_maximum] at hj
    rw [v.inodeAt_eq]
    by_cases hfirst : j / 4 = 0
    · rw [hfirst, Nat.add_zero] at hblock
      rw [hblock, h.root (by omega)]
      by_cases hj0 : j = 0
      · subst hj0
        exact (congrArg DiskInode.padding (field_splice_self _ _ _ (by omega))).trans hroot
      · refine (congrArg DiskInode.padding (field_splice_disjoint _ _ _ _ (by omega))).trans ?_
        rw [field_zero]
        exact field_zero _ _
    · rw [h.zero _ (by omega) (by omega), field_zero]
      exact field_zero _ _
  · rw [hinodes j y hy]
    exact ⟨.directory, DiskInode.type_initializeAs _ _⟩
  · rw [hinodes j y hy]
    exact Blank.of_size_zero (DiskInode.size_initializeAs _ _)
      fun σ hσ hok => DiskInode.load_initializeAs _ _ hσ hok

/-- One call. -/
theorem Tidy.step {s s' : State} {c : Call} (h : Tidy v s.disk) (hinv : Invariant v s)
    (hc : s.Admissible c) (hs : s.step c = some s') (hw : s'.WithinArea v.totalBlocks) :
    Tidy v s'.disk := by
  have hused := (withinArea_iff (hinv.step hc hs hw).fs).mp hw
  cases c with
  | create name =>
    obtain ⟨r, d', hr, rfl⟩ := step_create hs
    obtain ⟨x, hx⟩ := hinv.root
    rw [hinv.fs] at hr
    exact h.create hinv.sound hinv.clean hx hr hused
  | writeAt file offset buf =>
    obtain ⟨hmem, hne, hend⟩ := hc
    obtain ⟨r, d', hr, rfl⟩ := step_writeAt hs
    obtain ⟨id, x, rfl, hx⟩ := hinv.files file hmem
    rw [hinv.fs] at hr
    exact h.writeAt hinv.sound hinv.clean hx (List.length_pos_iff.mpr hne) hend hr hused
  | clear file =>
    obtain ⟨d', hr, rfl⟩ := step_clear hs
    obtain ⟨id, x, rfl, hx⟩ := hinv.files file hc
    rw [hinv.fs] at hr
    exact h.clear hinv.sound hx hr

/-- A run of calls. -/
theorem Reachable.tidy {totalBlocks inodeBitmapBlocks : ℕ} {s : State} (htotal : totalBlocks < 2 ^ 32)
    (hids : 4096 * inodeBitmapBlocks ≤ 2 ^ 32) (h : Reachable totalBlocks inodeBitmapBlocks s) :
    ∃ v : Volume, v.totalBlocks = totalBlocks ∧ v.inodeBitmapBlocks = inodeBitmapBlocks ∧
      Invariant v s ∧ Tidy v s.disk := by
  induction h with
  | init h =>
    obtain ⟨a, rfl, hf⟩ := run_create_fs_some h
    exact ⟨hf.laid.volume hids htotal, rfl, rfl,
      Formatted.invariant (v := hf.laid.volume hids htotal) hf,
      Formatted.tidy (v := hf.laid.volume hids htotal) hf⟩
  | step h hc hs hw ih =>
    obtain ⟨v, rfl, rfl, hinv, htidy⟩ := ih
    exact ⟨v, rfl, rfl, hinv.step hc hs hw, htidy.step hinv hc hs hw⟩

end RCore.EasyFs
