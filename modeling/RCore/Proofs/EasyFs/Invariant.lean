import RCore.Lib.Partition
import RCore.Sanity.EasyFs.Volume

/-! The invariant of the file system. `Sound` says who owns which block, `Clean`
what free space looks like. Both are about a family of inodes that may differ from
the one on disk: while a call works on an inode it holds the new value in memory. -/

namespace RCore.EasyFs

open RCore.Lib Slot

variable {v : Volume} {d d' : Disk} {x : DiskInode}

/-- The blocks that hang on an inode, as far as its size requires. -/
def owned (d : Disk) (x : DiskInode) : List ℕ :=
  (ownedUpTo d x x.dataBlocks).map BitVec.toNat

theorem mem_owned {b : ℕ} :
    b ∈ owned d x ↔ ∃ σ ∈ slotsUpTo x.dataBlocks, (load d x σ).toNat = b := by
  simp [owned, ownedUpTo]

theorem load_mem_owned {σ : Slot} (h : σ ∈ slotsUpTo x.dataBlocks) :
    (load d x σ).toNat ∈ owned d x :=
  mem_owned.mpr ⟨σ, h, rfl⟩

theorem nodup_owned : (owned d x).Nodup ↔ (ownedUpTo d x x.dataBlocks).Nodup :=
  List.nodup_map_iff fun _ _ => BitVec.eq_of_toNat_eq

theorem dataBlocksOf_eq {n : ℕ} (h : n ≤ 16540 * 512) :
    DiskInode.dataBlocksOf n = (n + 511) / 512 := by
  change (n + 512 - 1) % 2 ^ 32 / 512 = _
  omega

theorem totalBlocks_eq (n : ℕ) :
    DiskInode.totalBlocks n = (slotsUpTo (DiskInode.dataBlocksOf n)).length := by
  rw [length_slotsUpTo, DiskInode.totalBlocks, indirect1_bound_eq, inode_indirect1_count_eq]
  simp only [gt_iff_lt]
  split_ifs <;> omega

theorem length_owned (d : Disk) (x : DiskInode) :
    (owned d x).length = DiskInode.totalBlocks x.size := by
  rw [totalBlocks_eq, owned, ownedUpTo, List.length_map, List.length_map, DiskInode.dataBlocks]

theorem dataBlocks_eq (h : x.size ≤ 16540 * 512) : x.dataBlocks = (x.size + 511) / 512 :=
  dataBlocksOf_eq h

/-- Nothing about a file changes when its blocks do not. -/
theorem owned_congr (hx : x.dataBlocks ≤ 16540) (h : ∀ b ∈ owned d x, d' b = d b) :
    (∀ σ ∈ slotsUpTo x.dataBlocks, load d' x σ = load d x σ) ∧ owned d' x = owned d x ∧
      ∀ i < 512 * x.dataBlocks, fileByte d' x i = fileByte d x i := by
  have hload : ∀ σ ∈ slotsUpTo x.dataBlocks, load d' x σ = load d x σ := by
    intro σ hσ
    apply load_congr (closed_slotsUpTo hx) _ hσ
    intro τ hτ β hβ
    exact h _ (load_mem_owned (mem_of_base hx hτ hβ))
  refine ⟨hload, ?_, fun i hi => ?_⟩
  · rw [owned, ownedUpTo, List.map_congr_left hload]
    rfl
  · have hmem := dataSlot_mem (show i / 512 < x.dataBlocks by omega)
    rw [fileByte, hload _ hmem, h _ (load_mem_owned hmem), fileByte]

/-- A block of the data area whose bit is set. -/
def Volume.Used (v : Volume) (d : Disk) (b : ℕ) : Prop :=
  ∃ p < v.fs.dataBitmap.maximum, v.fs.dataBitmap.isSet d p = true ∧ b = v.start + p

theorem Volume.Used.start_le {b : ℕ} (h : v.Used d b) : v.start ≤ b := by
  obtain ⟨p, -, -, rfl⟩ := h
  exact Nat.le_add_right _ _

theorem used_congr {b : ℕ} (hbits : ∀ b, v.fs.dataBitmap.Owns b → d' b = d b) :
    v.Used d' b ↔ v.Used d b := by
  constructor
  · rintro ⟨p, hp, hset, rfl⟩
    exact ⟨p, hp, by rwa [Bitmap.isSet_congr hbits hp] at hset, rfl⟩
  · rintro ⟨p, hp, hset, rfl⟩
    exact ⟨p, hp, by rwa [Bitmap.isSet_congr hbits hp], rfl⟩

abbrev Inodes := ℕ → Option DiskInode

/-- Who owns what: `some j` is inode `j`, and `none` a call that has allocated
blocks and not put them in place yet, or has still to free them. -/
def own (ino : Inodes) (loose : List ℕ) (d : Disk) : Option ℕ → List ℕ
  | none => loose
  | some j => (ino j).elim [] (owned d)

structure Sound (v : Volume) (ino : Inodes) (loose : List ℕ) (d : Disk) : Prop where
  part : Partition (own ino loose d) (v.Used d)
  size_le : ∀ j x, ino j = some x → x.size ≤ 16540 * 512

structure Clean (v : Volume) (ino : Inodes) (d : Disk) : Prop where
  in_area : ∀ p < v.fs.dataBitmap.maximum, v.fs.dataBitmap.isSet d p = true → p < v.size
  free_zero : ∀ p < v.size, v.fs.dataBitmap.isSet d p = false → d (v.start + p) = 0
  tail_zero : ∀ j x, ino j = some x → ∀ i, x.size ≤ i → i < 512 * x.dataBlocks →
    fileByte d x i = 0

section

variable {ino : Inodes} {loose : List ℕ} {j : ℕ}

theorem own_some (hj : ino j = some x) : own ino loose d (some j) = owned d x := by
  simp [own, hj]

theorem Sound.dataBlocks_le (h : Sound v ino loose d) (hj : ino j = some x) :
    x.dataBlocks ≤ 16540 := by
  have := h.size_le j x hj
  rw [dataBlocks_eq this]
  omega

theorem Sound.nodup (h : Sound v ino loose d) (hj : ino j = some x) : (owned d x).Nodup :=
  own_some hj ▸ h.part.nodup (some j)

theorem Sound.used (h : Sound v ino loose d) (hj : ino j = some x) {b : ℕ}
    (hb : b ∈ owned d x) : v.Used d b :=
  (h.part.mem b).mpr ⟨some j, by rwa [own_some hj]⟩

theorem Sound.loose_used (h : Sound v ino loose d) {b : ℕ} (hb : b ∈ loose) : v.Used d b :=
  (h.part.mem b).mpr ⟨none, hb⟩

theorem Sound.disjoint (h : Sound v ino loose d) {k : ℕ} {y : DiskInode} (hjk : j ≠ k)
    (hj : ino j = some x) (hk : ino k = some y) : (owned d x).Disjoint (owned d y) := by
  have := h.part.disjoint (some j) (some k) (by simpa using hjk)
  rwa [own_some hj, own_some hk] at this

theorem Sound.disjoint_loose (h : Sound v ino loose d) (hj : ino j = some x) :
    (owned d x).Disjoint loose := by
  have := h.part.disjoint (some j) none (by simp)
  rwa [own_some hj] at this

/-- The blocks of the files are where they were when none of them changes. -/
theorem Sound.own_congr (h : Sound v ino loose d)
    (hd : ∀ j x, ino j = some x → ∀ b ∈ owned d x, d' b = d b) (loose' : List ℕ) :
    own ino loose' d' = Function.update (own ino loose d) none loose' := by
  funext o
  cases o with
  | none => simp [own]
  | some j =>
    rw [Function.update_of_ne (by simp)]
    cases hj : ino j with
    | none => simp [own, hj]
    | some x =>
      rw [own_some hj, own_some hj, (owned_congr (h.dataBlocks_le hj) (hd j x hj)).2.1]

/-- The invariant does not depend on anything outside of the data area and its
bitmap. -/
theorem Sound.congr (h : Sound v ino loose d) (hd : ∀ b, v.start ≤ b → d' b = d b)
    (hbits : ∀ b, v.fs.dataBitmap.Owns b → d' b = d b) : Sound v ino loose d' := by
  refine ⟨?_, h.size_le⟩
  have hown : own ino loose d' = own ino loose d := by
    rw [h.own_congr (fun j x hj b hb => hd b (h.used hj hb).start_le) loose]
    exact Function.update_eq_self none _
  rw [hown]
  exact h.part.congr fun b => used_congr hbits

theorem Clean.congr (h : Clean v ino d) (hs : Sound v ino loose d)
    (hd : ∀ b, v.start ≤ b → d' b = d b)
    (hbits : ∀ b, v.fs.dataBitmap.Owns b → d' b = d b) : Clean v ino d' := by
  have hcov := v.bitmapCovers
  refine ⟨fun p hp hset => ?_, fun p hp hset => ?_, fun j x hj i hi hlt => ?_⟩
  · rw [Bitmap.isSet_congr hbits hp] at hset
    exact h.in_area p hp hset
  · have hmax : p < v.fs.dataBitmap.maximum := by
      rw [v.dataBitmap_maximum]
      exact Nat.lt_of_lt_of_le hp hcov
    rw [Bitmap.isSet_congr hbits hmax] at hset
    rw [hd _ (Nat.le_add_right _ _), h.free_zero p hp hset]
  · rw [(owned_congr (hs.dataBlocks_le hj) fun b hb => hd b (hs.used hj hb).start_le).2.2 i hlt,
      h.tail_zero j x hj i hi hlt]

end

end RCore.EasyFs
