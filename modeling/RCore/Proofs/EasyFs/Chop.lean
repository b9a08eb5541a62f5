import RCore.Proofs.EasyFs.Accounting
import RCore.Proofs.EasyFs.Discipline
import RCore.Proofs.EasyFs.Exact

/-! A sequential write chopped into pieces leaves the same disk as one write. -/

namespace RCore.EasyFs

open RCore.Lib Slot

variable {v : Volume} {held : List ℕ} {d d₁ e : Disk} {ino : Inodes} {id : ℕ} {x : DiskInode}
  {m n : ℕ} {u w vs : List U32}

theorem size_placeBlocks (d : Disk) (x : DiskInode) (vs : List U32) (hn : n < 2 ^ 32) :
    (placeBlocks d x n vs).2.size = n := by
  rw [placeBlocks, size_storeAll, DiskInode.size_setSize hn]

theorem length_slots_placed (hx : x.size ≤ n) (hn : n ≤ 16540 * 512) :
    (slotsFrom x.dataBlocks (DiskInode.dataBlocksOf n - x.dataBlocks)).length =
      blocksNeeded x n := by
  have hk := dataBlocks_eq (x := x) (by omega)
  have hkn := dataBlocksOf_eq hn
  exact length_slotsFrom_eq (by omega)

/-- Blocks are put in place in two steps as they are at once. -/
theorem placeBlocks_placeBlocks (d : Disk) (hm : x.size ≤ m) (hmn : m ≤ n)
    (hn : n ≤ 16540 * 512) (hu : u.length = blocksNeeded x m) :
    placeBlocks d x n (u ++ w) =
      placeBlocks (placeBlocks d x m u).1 (placeBlocks d x m u).2 n w := by
  have hk := dataBlocks_eq (x := x) (by omega)
  have hkm := dataBlocksOf_eq (n := m) (by omega)
  have hkn := dataBlocksOf_eq hn
  have hlen := length_slots_placed hm (by omega)
  have hblocks : (placeBlocks d x m u).2.dataBlocks = DiskInode.dataBlocksOf m := by
    rw [DiskInode.dataBlocks, size_placeBlocks d x u (by omega)]
  have hsplit : slotsFrom x.dataBlocks (DiskInode.dataBlocksOf n - x.dataBlocks) =
      slotsFrom x.dataBlocks (DiskInode.dataBlocksOf m - x.dataBlocks) ++
        slotsFrom (DiskInode.dataBlocksOf m)
          (DiskInode.dataBlocksOf n - DiskInode.dataBlocksOf m) := by
    have := slotsFrom_add x.dataBlocks (DiskInode.dataBlocksOf m - x.dataBlocks)
      (DiskInode.dataBlocksOf n - DiskInode.dataBlocksOf m)
    rwa [show x.dataBlocks + (DiskInode.dataBlocksOf m - x.dataBlocks) =
        DiskInode.dataBlocksOf m by omega, show DiskInode.dataBlocksOf m - x.dataBlocks +
        (DiskInode.dataBlocksOf n - DiskInode.dataBlocksOf m) =
        DiskInode.dataBlocksOf n - x.dataBlocks by omega] at this
  have hfirst : storeAll (d, x.setSize n)
      (slotsFrom x.dataBlocks (DiskInode.dataBlocksOf m - x.dataBlocks)) (u ++ w) =
      ((placeBlocks d x m u).1, (placeBlocks d x m u).2.setSize n) := by
    rw [← storeAll_take, hlen, ← hu, List.take_left, ← DiskInode.setSize_setSize m n,
      storeAll_setSize]
    rfl
  generalize placeBlocks d x m u = s at hblocks hfirst ⊢
  rw [placeBlocks, placeBlocks, hblocks, hsplit,
    storeAll_append _ (by rw [hlen, List.length_append]; omega), hfirst, hlen, ← hu,
    List.drop_left]

/-- Where the new blocks go depends on the blocks of the tree, and on no others. -/
theorem placeBlocks_congr {D : ℕ → Prop} (hroom : Room held d x x.dataBlocks vs)
    (hx : x.size ≤ n) (hn : n ≤ 16540 * 512) (hlen : vs.length = blocksNeeded x n)
    (he : ∀ c, ¬ D c → e c = d c)
    (hout : ∀ σ ∈ slotsUpTo (DiskInode.dataBlocksOf n), ∀ β, σ.base = some β →
      ¬ D (load (placeBlocks d x n vs).1 (placeBlocks d x n vs).2 β).toNat) :
    (placeBlocks e x n vs).2 = (placeBlocks d x n vs).2 ∧
    (∀ c, ¬ D c → (placeBlocks e x n vs).1 c = (placeBlocks d x n vs).1 c) ∧
    ∀ c, D c → (placeBlocks e x n vs).1 c = e c := by
  have hk := dataBlocks_eq (x := x) (by omega)
  have hkn := dataBlocksOf_eq hn
  have hslots := slotsUpTo_add x.dataBlocks (DiskInode.dataBlocksOf n - x.dataBlocks)
  rw [Nat.add_sub_cancel' (by omega)] at hslots
  rw [hslots] at hout
  exact storeAll_congr (closed_slotsUpTo (by omega)) (extends_slotsFrom (by omega))
    (hlen.trans (length_slots_placed hx hn).symm) (DiskInode.room_setSize (n := n) hroom).nodup
    he hout

/-- The data blocks of a file. -/
def IsData (d : Disk) (x : DiskInode) (c : ℕ) : Prop :=
  ∃ k < x.dataBlocks, (load d x (dataSlot k)).toNat = c

/-- A block that other slots lie in holds no data. -/
theorem not_isData_of_base (hn : x.dataBlocks ≤ 16540) (hnd : (owned d x).Nodup) {σ β : Slot}
    (hσ : σ ∈ slotsUpTo x.dataBlocks) (hβ : σ.base = some β) :
    ¬ IsData d x (load d x β).toNat := by
  rintro ⟨k, hk, he⟩
  have := List.inj_on_of_nodup_map (nodup_owned.mp hnd) (dataSlot_mem hk) (mem_of_base hn hσ hβ)
    (BitVec.eq_of_toNat_eq he)
  exact base_ne_dataSlot hβ k this.symm

/-- Two disks on which a file has the same bytes have the same data blocks of it. -/
theorem data_eq_of_fileByte (h : ∀ i < 512 * x.dataBlocks, fileByte e x i = fileByte d x i)
    (hload : ∀ k < x.dataBlocks, load e x (dataSlot k) = load d x (dataSlot k)) {c : ℕ}
    (hc : IsData d x c) : e c = d c := by
  obtain ⟨k, hk, rfl⟩ := hc
  apply eq_of_byteAt_eq (m := 512) rfl
  intro t ht
  have hbyte := h (512 * k + t) (by omega)
  rw [fileByte, fileByte, show (512 * k + t) / 512 = k by omega,
    show (512 * k + t) % 512 = t by omega, hload k hk] at hbyte
  exact hbyte

theorem Room.stored_place (hroom : Room held d x x.dataBlocks vs) (hx : x.size ≤ n)
    (hn : n ≤ 16540 * 512) (hlen : vs.length = blocksNeeded x n) :
    Stored d (x.setSize n) (slotsUpTo x.dataBlocks)
      (slotsFrom x.dataBlocks (DiskInode.dataBlocksOf n - x.dataBlocks)) vs
      (placeBlocks d x n vs).1 (placeBlocks d x n vs).2 := by
  have hk := dataBlocks_eq (x := x) (by omega)
  have hkn := dataBlocksOf_eq hn
  have hslots := length_slots_placed hx hn
  have hst := (DiskInode.room_setSize (n := n) hroom).stored
    (m := DiskInode.dataBlocksOf n - x.dataBlocks) (by omega) (by omega)
  rwa [List.take_of_length_le (by omega)] at hst

/-- The new blocks in their places, when all the blocks of the file are different. -/
theorem Room.placed (hroom : Room held d x x.dataBlocks vs) (hx : x.size ≤ n)
    (hn : n ≤ 16540 * 512) (hlen : vs.length = blocksNeeded x n) :
    Placed x d vs (placeBlocks d x n vs).2 (placeBlocks d x n vs).1 ∧
    (placeBlocks d x n vs).2.type_ = x.type_ ∧
    ∀ σ ∈ slotsUpTo x.dataBlocks,
      load (placeBlocks d x n vs).1 (placeBlocks d x n vs).2 σ = load d x σ := by
  have hk := dataBlocks_eq (x := x) (by omega)
  have hkn := dataBlocksOf_eq hn
  have hst := hroom.stored_place hx hn hlen
  refine ⟨placed_of_stored (by omega) hroom.nodup hst ?_, ?_, fun σ hσ => ?_⟩
  · have hsize : (placeBlocks d x n vs).2.size = n := size_placeBlocks d x vs (by omega)
    have : (placeBlocks d x n vs).2.dataBlocks = DiskInode.dataBlocksOf n := by
      rw [DiskInode.dataBlocks, hsize]
    exact this.trans (by omega)
  · exact hst.type_.trans (DiskInode.type_setSize n)
  · exact (hst.load_eq hσ).trans (DiskInode.load_setSize n σ)

/-- The blocks that a call has taken pass to its file. -/
theorem Sound.placed (hs : Sound v ino (vs.map BitVec.toNat) d) (hi : ino id = some x)
    (hheld : HeldBelow v held) (hx : x.size ≤ n) (hn : n ≤ 16540 * 512)
    (hlen : vs.length = blocksNeeded x n) :
    Sound v (Function.update ino id (some (placeBlocks d x n vs).2)) []
      (placeBlocks d x n vs).1 := by
  obtain ⟨hp, htype, -⟩ := (room_of_sound hs hi hheld).placed hx hn hlen
  have hmax : (placeBlocks d x n vs).2.size ≤ 16540 * 512 := by
    rw [size_placeBlocks d x vs (by omega)]
    exact hn
  exact (hp.changed hs hi hmax htype).sound

/-- What is left of the new blocks still has room after the first of them have been put
in place. -/
theorem Room.rest (hroom : Room held d x x.dataBlocks (u ++ w)) (hm : x.size ≤ m)
    (hmax : m ≤ 16540 * 512) (hu : u.length = blocksNeeded x m) :
    Room held (placeBlocks d x m u).1 (placeBlocks d x m u).2 (placeBlocks d x m u).2.dataBlocks
      w := by
  have hk := dataBlocks_eq (x := x) (by omega)
  have hkm := dataBlocksOf_eq hmax
  have hslots := length_slots_placed hm hmax
  have hblocks : (placeBlocks d x m u).2.dataBlocks = DiskInode.dataBlocksOf m := by
    rw [DiskInode.dataBlocks, size_placeBlocks d x u (by omega)]
  have hst := (DiskInode.room_setSize (n := m) hroom).store
    (m := DiskInode.dataBlocksOf m - x.dataBlocks) (by omega)
    (by rw [hslots, List.length_append]; omega)
  rw [← storeAll_take, hslots, ← hu, List.take_left, List.drop_left,
    Nat.add_sub_cancel' (by omega)] at hst
  rw [hblocks]
  exact hst

/-- What the allocator does later does not matter to the blocks that are put in place
before. -/
theorem placeBlocks_bitmap (hs : Sound v ino (vs.map BitVec.toNat) d) (hi : ino id = some x)
    (hheld : HeldBelow v held) (hx : x.size ≤ n) (hn : n ≤ 16540 * 512)
    (hlen : vs.length = blocksNeeded x n) (he : ∀ c, ¬ v.fs.dataBitmap.Owns c → e c = d c) :
    (placeBlocks e x n vs).2 = (placeBlocks d x n vs).2 ∧
    (∀ c, ¬ v.fs.dataBitmap.Owns c → (placeBlocks e x n vs).1 c = (placeBlocks d x n vs).1 c) ∧
    ∀ c, v.fs.dataBitmap.Owns c → (placeBlocks e x n vs).1 c = e c := by
  have hs' := hs.placed hi hheld hx hn hlen
  have hblocks : (placeBlocks d x n vs).2.dataBlocks = DiskInode.dataBlocksOf n := by
    rw [DiskInode.dataBlocks, size_placeBlocks d x vs (by omega)]
  have hkn := dataBlocksOf_eq hn
  refine placeBlocks_congr (room_of_sound hs hi hheld) hx hn hlen he fun σ hσ β hβ => ?_
  rw [← hblocks] at hσ
  have hmem : β ∈ slotsUpTo (placeBlocks d x n vs).2.dataBlocks := mem_of_base (by omega) hσ hβ
  exact not_bitmap_of_le (hs'.used (Function.update_self ..) (load_mem_owned hmem)).start_le

/-- What lies in the data blocks and in the block of the inode does not matter to the
blocks that are put in place. -/
theorem placeBlocks_data {ib : ℕ} (hroom : Room held d x x.dataBlocks vs) (hx : x.size ≤ n)
    (hn : n ≤ 16540 * 512) (hlen : vs.length = blocksNeeded x n)
    (hs : Sound v (Function.update ino id (some (placeBlocks d x n vs).2)) []
      (placeBlocks d x n vs).1) (hib : ib < v.start)
    (he : ∀ c, ¬ (c = ib ∨ IsData d x c) → e c = d c) :
    (placeBlocks e x n vs).2 = (placeBlocks d x n vs).2 ∧
    (∀ c, ¬ (c = ib ∨ IsData d x c) → (placeBlocks e x n vs).1 c = (placeBlocks d x n vs).1 c) ∧
    ∀ c, c = ib ∨ IsData d x c → (placeBlocks e x n vs).1 c = e c := by
  have hblocks : (placeBlocks d x n vs).2.dataBlocks = DiskInode.dataBlocksOf n := by
    rw [DiskInode.dataBlocks, size_placeBlocks d x vs (by omega)]
  have hk := dataBlocks_eq (x := x) (by omega)
  have hkn := dataBlocksOf_eq hn
  obtain ⟨-, -, hload⟩ := hroom.placed hx hn hlen
  have hx' : Function.update ino id (some (placeBlocks d x n vs).2) id =
    some (placeBlocks d x n vs).2 := Function.update_self ..
  refine placeBlocks_congr hroom hx hn hlen he fun σ hσ β hβ => ?_
  rw [← hblocks] at hσ
  have hmem : β ∈ slotsUpTo (placeBlocks d x n vs).2.dataBlocks := mem_of_base (by omega) hσ hβ
  rintro (he | ⟨k, hlt, he⟩)
  · have := (hs.used hx' (load_mem_owned hmem)).start_le
    omega
  · refine not_isData_of_base (by omega) (hs.nodup hx') hσ hβ ⟨k, by omega, ?_⟩
    rw [hload _ (dataSlot_mem hlt), he]

/-- The bytes that were written before the file grew are there after it has grown. -/
theorem fileByte_placed {y : DiskInode} {p d₂ e₃ e₆ : Disk} {ib a b : ℕ} {f : ℕ → UInt8}
    (hp : Placed y p w x d₂) (hload : ∀ σ ∈ slotsUpTo y.dataBlocks, load d₂ x σ = load p y σ)
    (hle : y.dataBlocks ≤ x.dataBlocks) (hnd : (owned d₂ x).Nodup) (hib : ib ∉ owned d₂ x)
    (hload₆ : ∀ k < x.dataBlocks, load e₆ x (dataSlot k) = load d₂ x (dataSlot k))
    (hin : ∀ c, IsData p y c → e₆ c = e₃ c)
    (hout : ∀ c, ¬ (c = ib ∨ IsData p y c) → e₆ c = d₂ c)
    (hload₃ : ∀ k < y.dataBlocks, load e₃ y (dataSlot k) = load p y (dataSlot k))
    (hbytes : ∀ i < 512 * y.dataBlocks,
      fileByte e₃ y i = if a ≤ i ∧ i < b then f i else fileByte p y i)
    (hb : b ≤ 512 * y.dataBlocks) {i : ℕ} (hi : i < 512 * x.dataBlocks) :
    fileByte e₆ x i = if a ≤ i ∧ i < b then f i else fileByte d₂ x i := by
  have hslot := dataSlot_mem (show i / 512 < x.dataBlocks by omega)
  by_cases hlow : i < 512 * y.dataBlocks
  · have hslot' := dataSlot_mem (show i / 512 < y.dataBlocks by omega)
    rw [hp.bytes i hi, if_pos hlow, ← hbytes i hlow, fileByte, hload₆ _ (by omega), hload _ hslot',
      hin _ ⟨i / 512, by omega, rfl⟩, fileByte, hload₃ _ (by omega)]
  · rw [if_neg (by omega), fileByte, hload₆ _ (by omega), hout, fileByte]
    rintro (he | ⟨k, hk, he⟩)
    · exact hib (he ▸ load_mem_owned hslot)
    · rw [← hload _ (dataSlot_mem hk)] at he
      have := List.inj_on_of_nodup_map (nodup_owned.mp hnd) (dataSlot_mem (by omega)) hslot
        (BitVec.eq_of_toNat_eq he)
      have := dataSlot_inj this
      omega

/-- The rest of the bytes, written to the file that has grown, and all of them at once. -/
theorem chopped_data_eq {y : DiskInode} {p d₂ d₃ e₃ e₆ e₇ : Disk} {ib a b c : ℕ}
    {f g h : ℕ → UInt8} (hp : Placed y p w x d₂)
    (hload : ∀ σ ∈ slotsUpTo y.dataBlocks, load d₂ x σ = load p y σ)
    (hle : y.dataBlocks ≤ x.dataBlocks) (hn : x.dataBlocks ≤ 16540) (hnd : (owned d₂ x).Nodup)
    (hib : ib ∉ owned d₂ x) (hin : ∀ c, IsData p y c → e₆ c = e₃ c)
    (hout : ∀ c, ¬ (c = ib ∨ IsData p y c) → e₆ c = d₂ c)
    (hload₃ : ∀ k < y.dataBlocks, load e₃ y (dataSlot k) = load p y (dataSlot k))
    (hbytes : ∀ i < 512 * y.dataBlocks,
      fileByte e₃ y i = if a ≤ i ∧ i < b then f i else fileByte p y i)
    (hw₂ : Written e₆ x x.dataBlocks b c g e₇) (hw : Written d₂ x x.dataBlocks a c h d₃)
    (hab : a ≤ b) (hb : b ≤ 512 * y.dataBlocks) (hbc : b ≤ c)
    (hf : ∀ i, a ≤ i → i < b → h i = f i) (hg : ∀ i, b ≤ i → i < c → h i = g i) {c' : ℕ}
    (hc' : c' ≠ ib) : e₇ c' = d₃ c' := by
  have hdata : ∀ c, IsData p y c → IsData d₂ x c := by
    rintro c ⟨k, hk, rfl⟩
    exact ⟨k, by omega, by rw [hload _ (dataSlot_mem hk)]⟩
  have hload₆ : ∀ σ ∈ slotsUpTo x.dataBlocks, load e₆ x σ = load d₂ x σ := by
    intro σ hσ
    refine load_congr (closed_slotsUpTo hn) (fun τ hτ β hβ => hout _ ?_) hσ
    rintro (he | he)
    · exact hib (he ▸ load_mem_owned (mem_of_base hn hτ hβ))
    · exact not_isData_of_base hn hnd hτ hβ (hdata _ he)
  by_cases hc : IsData d₂ x c'
  · have hd₃ : IsData d₃ x c' := by
      obtain ⟨k, hk, he⟩ := hc
      exact ⟨k, hk, by rw [hw.loads _ (dataSlot_mem hk), he]⟩
    refine data_eq_of_fileByte (fun i hi => ?_) (fun k hk => ?_) hd₃
    · rw [hw₂.bytes i hi, hw.bytes i hi, fileByte_placed hp hload hle hnd hib
        (fun k hk => hload₆ _ (dataSlot_mem hk)) hin hout hload₃ hbytes hb hi]
      by_cases hlow : i < b
      · by_cases hai : a ≤ i
        · rw [if_neg (by omega), if_pos ⟨hai, hlow⟩, if_pos ⟨hai, by omega⟩, hf i hai hlow]
        · rw [if_neg (by omega), if_neg (by omega), if_neg (by omega)]
      · by_cases hci : i < c
        · rw [if_pos ⟨by omega, hci⟩, if_pos ⟨by omega, hci⟩, hg i (by omega) hci]
        · rw [if_neg (by omega), if_neg (by omega), if_neg (by omega)]
    · rw [hw₂.loads _ (dataSlot_mem hk), hw.loads _ (dataSlot_mem hk), hload₆ _ (dataSlot_mem hk)]
  · rw [hw.frame c' fun k hk he => hc ⟨k, hk, he⟩, hw₂.frame c', hout c']
    · rintro (he | he)
      · exact hc' he
      · exact hc (hdata c' he)
    · intro k hk he
      exact hc ⟨k, hk, by rw [← hload₆ _ (dataSlot_mem hk), he]⟩

/-- Writing up to `b` and from there on, with the blocks taken in two steps, leaves all
blocks but that of the inode as writing at once does. -/
theorem chopped_eq {e₁ e₃ e₅ e₇ d₃ : Disk} {y : DiskInode} {ib a b c : ℕ} {f g h : ℕ → UInt8}
    (hs₁ : Sound v ino (u.map BitVec.toNat) e₁)
    (hs₂ : Sound v ino ((u ++ w).map BitVec.toNat) d₁) (hi : ino id = some x)
    (hheld : HeldBelow v held) (hib : ib < v.start) (hm : x.size ≤ m) (hmn : m ≤ n)
    (hn : n ≤ 16540 * 512) (hu : u.length = blocksNeeded x m)
    (huw : (u ++ w).length = blocksNeeded x n)
    (hd : ∀ c, ¬ v.fs.dataBitmap.Owns c → d₁ c = e₁ c)
    (hy : (placeBlocks e₁ x m u).2 = y)
    (hw₁ : Written (placeBlocks e₁ x m u).1 y y.dataBlocks a b f e₃)
    (hin : ∀ c, v.fs.dataBitmap.Owns c → e₅ c = d₁ c)
    (hout : ∀ c, ¬ v.fs.dataBitmap.Owns c → c ≠ ib → e₅ c = e₃ c)
    (hw₂ : Written (placeBlocks e₅ y n w).1 (placeBlocks e₅ y n w).2
      (placeBlocks e₅ y n w).2.dataBlocks b c g e₇)
    (hw : Written (placeBlocks d₁ x n (u ++ w)).1 (placeBlocks d₁ x n (u ++ w)).2
      (placeBlocks d₁ x n (u ++ w)).2.dataBlocks a c h d₃)
    (hab : a ≤ b) (hb : b ≤ m) (hbc : b ≤ c) (hf : ∀ i, a ≤ i → i < b → h i = f i)
    (hg : ∀ i, b ≤ i → i < c → h i = g i) :
    (placeBlocks e₅ y n w).2 = (placeBlocks d₁ x n (u ++ w)).2 ∧ ∀ c, c ≠ ib → e₇ c = d₃ c := by
  have hs₁' := hs₁.placed hi hheld hm (by omega) hu
  have hs₂' := hs₂.placed hi hheld (by omega) hn huw
  -- the first blocks in place, on the disk on which all blocks have been taken
  obtain ⟨hp₂, hpout, hpin⟩ := placeBlocks_bitmap hs₁ hi hheld hm (by omega) hu hd
  have hrest := (room_of_sound hs₂ hi hheld).rest hm (by omega) hu
  rw [placeBlocks_placeBlocks d₁ hm hmn hn hu] at hs₂' hw ⊢
  rw [hp₂, hy] at hs₂' hw hrest ⊢
  rw [hy] at hs₁'
  have hysize : y.size = m := by
    rw [← hy]
    exact size_placeBlocks e₁ x u (by omega)
  generalize (placeBlocks d₁ x m u).1 = p at *
  generalize (placeBlocks e₁ x m u).1 = e₂ at *
  have hlen : w.length = blocksNeeded y n := by
    have hmono := totalBlocks_mono hm (by omega)
    have hmono' := totalBlocks_mono hmn hn
    rw [List.length_append, hu] at huw
    simp only [blocksNeeded, hysize] at huw ⊢
    omega
  have hy' : Function.update ino id (some y) id = some y := Function.update_self ..
  have hky := hs₁'.dataBlocks_le hy'
  have hdown : ∀ c ∈ owned e₂ y, p c = e₂ c :=
    fun c hc => hpout c (not_bitmap_of_le (hs₁'.used hy' hc).start_le)
  obtain ⟨hpload, hpown, hpbytes⟩ := owned_congr hky hdown
  have he : ∀ c, ¬ (c = ib ∨ IsData p y c) → e₅ c = p c := by
    intro c hc
    rw [not_or] at hc
    by_cases hown : v.fs.dataBitmap.Owns c
    · rw [hin c hown, hpin c hown]
    · rw [hout c hown hc.1, hpout c hown, hw₁.frame c]
      intro k hk hkc
      exact hc.2 ⟨k, hk, by rw [hpload _ (dataSlot_mem hk), hkc]⟩
  obtain ⟨hz, hzout, hzin⟩ := placeBlocks_data hrest (by omega) hn hlen hs₂' hib he
  obtain ⟨hpl, -, hload⟩ := hrest.placed (by omega) hn hlen
  rw [hz] at hw₂
  refine ⟨hz, fun c' hc' => ?_⟩
  have hx' : Function.update ino id (some (placeBlocks p y n w).2) id =
    some (placeBlocks p y n w).2 := Function.update_self ..
  have hblocks : (placeBlocks p y n w).2.dataBlocks = DiskInode.dataBlocksOf n := by
    rw [DiskInode.dataBlocks, size_placeBlocks p y w (by omega)]
  have hkn := dataBlocksOf_eq hn
  have hk := dataBlocks_eq (x := y) (by omega)
  have hibout : ib ∉ owned (placeBlocks p y n w).1 (placeBlocks p y n w).2 := by
    intro hmem
    have := (hs₂'.used hx' hmem).start_le
    omega
  have hkeep : ∀ c, IsData p y c → (placeBlocks e₅ y n w).1 c = e₃ c := by
    intro c hc
    have hc₂ : c ∈ owned e₂ y := by
      obtain ⟨k, hk, rfl⟩ := hc
      rw [hpload _ (dataSlot_mem hk)]
      exact load_mem_owned (dataSlot_mem hk)
    have hstart := (hs₁'.used hy' hc₂).start_le
    rw [hzin c (Or.inr hc), hout c (not_bitmap_of_le hstart) (by omega)]
  have hload₃ : ∀ k < y.dataBlocks, load e₃ y (dataSlot k) = load p y (dataSlot k) := by
    intro k hk
    rw [hw₁.loads _ (dataSlot_mem hk), hpload _ (dataSlot_mem hk)]
  have hbytes : ∀ i < 512 * y.dataBlocks,
      fileByte e₃ y i = if a ≤ i ∧ i < b then f i else fileByte p y i := by
    intro i hi
    rw [hw₁.bytes i hi, hpbytes i hi]
  exact chopped_data_eq hpl hload (by omega) (by omega) (hs₂'.nodup hx') hibout hkeep hzout hload₃
    hbytes hw₂ hw hab (by omega) hbc hf hg hc'

section write

variable {offset : ℕ} {a b : List UInt8}

/-- The blocks that two writes need are those that one write needs. -/
theorem blocksNeeded_add {y : DiskInode} (hx : x.size ≤ 16540 * 512)
    (hy : y.size = max x.size m) (hmn : m ≤ n) (hn : n ≤ 16540 * 512) :
    blocksNeeded x n = blocksNeeded x m + blocksNeeded y n := by
  have h₁ := totalBlocks_mono (m := x.size) (n := y.size) (by omega) (by omega)
  have hmax : blocksNeeded x y.size = blocksNeeded x m := hy ▸ blocksNeeded_max hx
  rw [← hmax, blocksNeeded, blocksNeeded, blocksNeeded]
  by_cases hle : y.size ≤ n
  · have h₂ := totalBlocks_mono hle hn
    omega
  · have hxy : x.size = y.size := by omega
    rw [hxy]
    have h₂ := totalBlocks_mono (m := n) (n := y.size) (by omega) (by omega)
    omega

/-- Bytes that are written go to blocks of the file, and so not to the bitmap. -/
theorem Written.bitmap {y : DiskInode} {e₃ : Disk} {start stop c : ℕ} {f : ℕ → UInt8}
    (hw : Written e y y.dataBlocks start stop f e₃)
    (hs : Sound v (Function.update ino id (some y)) [] e) (hc : v.fs.dataBitmap.Owns c) :
    e₃ c = e c := by
  apply hw.frame
  intro k hk he
  have hmem := load_mem_owned (d := e) (dataSlot_mem hk)
  have := (hs.used (Function.update_self ..) hmem).start_le
  have := bitmap_lt_start hc
  omega

/-- What one write takes is what the first piece takes and then what the second one takes. -/
theorem run_allocBlocks_pieces (hx : x.size ≤ 16540 * 512) (hmn : m ≤ n)
    (hn : n ≤ 16540 * 512) {y : DiskInode} (hy : y.size = max x.size m)
    (h : (Inode.allocBlocks v.fs (blocksNeeded x m) []).run held d = some (u, d₁)) :
    (Inode.allocBlocks v.fs (blocksNeeded x n) []).run held d =
      ((Inode.allocBlocks v.fs (blocksNeeded y n) []).run held d₁).map fun r =>
        (u ++ r.1, r.2) := by
  rw [blocksNeeded_add hx hy hmn hn, Inode.run_allocBlocks_add, h, Option.bind_some]

/-- A write that found its blocks, with the bitmap it leaves: only the taking of the blocks has
changed it. -/
theorem run_writeAt_placed (hs : Sound v (v.fs.inodes d) [] d) (hx : v.fs.inodes d id = some x)
    (ha : 0 < a.length) (hend : offset + a.length ≤ 16540 * 512)
    (hn : n = max x.size (offset + a.length))
    (h : (Inode.allocBlocks v.fs (blocksNeeded x (offset + a.length)) []).run
      [v.inodeBlock id] d = some (u, d₁)) {y : DiskInode} (hy : (placeBlocks d₁ x n u).2 = y) :
    ∃ e₃ e₄ : Disk, e₄ = Function.update e₃ (v.inodeBlock id)
        (splice (d (v.inodeBlock id)) (8 * v.inodeOffset id) y) ∧
      (Inode.writeAt v.fs (Inode.ofId v.fs id) offset a).run [] d = some (a.length, e₄) ∧
      Written (placeBlocks d₁ x n u).1 y y.dataBlocks offset (offset + a.length)
        (fun i => a.getD (i - offset) 0) e₃ ∧
      v.fs.inodes e₄ id = some y ∧ Sound v (v.fs.inodes e₄) [] e₄ ∧
      ∀ c, v.fs.dataBitmap.Owns c → e₄ c = d₁ c := by
  have hheld := heldBelow_inodeBlock hx
  have hsize := hs.size_le id x hx
  obtain ⟨e₃, hrun, hw, hdone, hplaced⟩ := run_writeAt_exact hs hx ha hend h rfl
  rw [← hn, hy] at hrun hw hdone hplaced
  obtain ⟨hu, hal⟩ := alloced_of_run hheld.bitmap h
  have hu' : u.length = blocksNeeded x n := by rw [hu, hn, blocksNeeded_max hsize]
  obtain ⟨-, -, hbits⟩ := placeBlocks_bitmap (e := d₁) (hal.taken hs) hx hheld (by omega)
    (by omega) hu' fun _ _ => rfl
  refine ⟨e₃, _, rfl, hrun, hw, ?_, hdone.sound, ?_⟩
  · rw [hdone.inodes, Function.update_self]
  · intro c hc
    have hne : c ≠ v.inodeBlock id := fun he => hheld.bitmap c hc (List.mem_singleton.mpr he)
    rw [Function.update_of_ne hne, hw.bitmap hplaced hc, hbits c hc]

/-- Writing two pieces one after the other is writing them at once. -/
theorem run_writeAt_append (hs : Sound v (v.fs.inodes d) [] d) (hx : v.fs.inodes d id = some x)
    (ha : 0 < a.length) (hb : 0 < b.length)
    (hend : offset + (a.length + b.length) ≤ 16540 * 512) :
    ((Inode.writeAt v.fs (Inode.ofId v.fs id) offset a) >>= fun n =>
      Inode.writeAt v.fs (Inode.ofId v.fs id) (offset + a.length) b >>= fun m =>
        pure (n + m)).run [] d =
      (Inode.writeAt v.fs (Inode.ofId v.fs id) offset (a ++ b)).run [] d := by
  have hheld := heldBelow_inodeBlock hx
  have hsize := hs.size_le id x hx
  obtain ⟨hid, -, -⟩ := Volume.inodes_eq_some hx
  obtain ⟨n, hn⟩ : ∃ n, n = max x.size (offset + a.length) := ⟨_, rfl⟩
  have hall : offset + (a ++ b).length = offset + a.length + b.length := by
    rw [List.length_append, Nat.add_assoc]
  rw [Prog.run_bind]
  cases halloc : (Inode.allocBlocks v.fs (blocksNeeded x (offset + a.length)) []).run
      [v.inodeBlock id] d with
  | none =>
    have hneed := blocksNeeded_add (y := x.setSize n) (n := offset + (a ++ b).length) hsize
      (by rw [DiskInode.size_setSize (by omega), hn]) (by omega) (by omega)
    have hnone : (Inode.allocBlocks v.fs (blocksNeeded x (offset + (a ++ b).length)) []).run
        [v.inodeBlock id] d = none := by
      rw [hneed, Inode.run_allocBlocks_add, halloc, Option.bind_none]
    rw [run_writeAt_starved hs hx (by omega) halloc, run_writeAt_starved hs hx (by omega) hnone]
    rfl
  | some r =>
    obtain ⟨u, e₁⟩ := r
    obtain ⟨y, hy⟩ : ∃ y, (placeBlocks e₁ x n u).2 = y := ⟨_, rfl⟩
    have hysize : y.size = n := by rw [← hy, size_placeBlocks e₁ x u (by omega)]
    obtain ⟨e₃, e₄, he₄, hrun₁, hw₁, hy₄, hs₄, hbits₄⟩ :=
      run_writeAt_placed hs hx ha (by omega) hn halloc hy
    -- the blocks of both pieces, as one write takes them
    have hadd := run_allocBlocks_pieces (n := offset + a.length + b.length) hsize (by omega)
      (by omega) (hysize.trans hn) halloc
    rw [← hall] at hadd
    obtain ⟨hnone, hsome⟩ := Inode.run_allocBlocks_frame v.fs
      (blocksNeeded y (offset + (a ++ b).length)) [v.inodeBlock id] hbits₄
    rw [hrun₁, Option.bind_some, Prog.run_bind]
    cases halloc₂ : (Inode.allocBlocks v.fs (blocksNeeded y (offset + (a ++ b).length)) []).run
        [v.inodeBlock id] e₁ with
    | none =>
      rw [halloc₂] at hadd
      rw [run_writeAt_starved hs₄ hy₄ (by omega) (hall ▸ hnone halloc₂),
        run_writeAt_starved hs hx (by omega) hadd]
      rfl
    | some r =>
      obtain ⟨w, d₁⟩ := r
      simp only [halloc₂, Option.map_some] at hadd
      obtain ⟨e₅, hr₅, hin, hout⟩ := hsome w d₁ halloc₂
      obtain ⟨e₇, hrun₂, hw₂, -, -⟩ := run_writeAt_exact hs₄ hy₄ hb (by omega) (hall ▸ hr₅) rfl
      obtain ⟨d₃, hrun, hw, -, -⟩ := run_writeAt_exact hs hx (by omega) (by omega) hadd rfl
      obtain ⟨n₂, hn₂⟩ : ∃ n₂, n₂ = max x.size (offset + (a ++ b).length) := ⟨_, rfl⟩
      rw [← hn₂] at hrun hw
      rw [show max y.size (offset + a.length + b.length) = n₂ by omega] at hrun₂ hw₂
      obtain ⟨hu, hal⟩ := alloced_of_run hheld.bitmap halloc
      obtain ⟨huw, hal₂⟩ := alloced_of_run hheld.bitmap hadd
      have hframe : ∀ c, ¬ v.fs.dataBitmap.Owns c → d₁ c = e₁ c := by
        intro c hc
        rw [hal₂.frame c hc, hal.frame c hc]
      have hout' : ∀ c, ¬ v.fs.dataBitmap.Owns c → c ≠ v.inodeBlock id → e₅ c = e₃ c := by
        intro c hc hne
        rw [hout c hc, he₄, Function.update_of_ne hne]
      rw [hall] at hw
      have hf : ∀ i, offset ≤ i → i < offset + a.length →
          (a ++ b).getD (i - offset) 0 = a.getD (i - offset) 0 :=
        fun i _ hlt => List.getD_append _ _ _ _ (by omega)
      have hg : ∀ i, offset + a.length ≤ i → i < offset + a.length + b.length →
          (a ++ b).getD (i - offset) 0 = b.getD (i - (offset + a.length)) 0 := by
        intro i hle _
        rw [List.getD_append_right _ _ _ _ (by omega), Nat.sub_add_eq]
      obtain ⟨hz, hblocks⟩ := chopped_eq (hal.taken hs) (hal₂.taken hs) hx hheld
        (v.inodeBlock_lt_start hid) (by omega) (by omega) (by omega)
        (by rw [hu, hn, blocksNeeded_max hsize]) (by rw [huw, hn₂, blocksNeeded_max hsize]) hframe
        hy hw₁ hin hout' hw₂ hw (by omega) (by omega) (by omega) hf hg
      rw [hrun₂, hrun, hz, List.length_append, he₄, Function.update_self, splice_splice_self]
      -- outside the block of the inode the disks agree, and that block is written last
      have hdisk : ∀ z : Block, Function.update e₇ (v.inodeBlock id) z =
          Function.update d₃ (v.inodeBlock id) z := by
        intro z
        funext c
        rw [Function.update_apply, Function.update_apply]
        split_ifs with hc
        · rfl
        · exact hblocks c hc
      rw [Option.bind_some, ← hdisk]
      rfl

/-- A write in any number of pieces is one write. -/
theorem run_writePieces (hs : Sound v (v.fs.inodes d) [] d) (hx : v.fs.inodes d id = some x)
    (pieces : List (List UInt8)) (hne : pieces ≠ []) (hpos : ∀ piece ∈ pieces, piece ≠ [])
    (hend : offset + pieces.flatten.length ≤ 16540 * 512) :
    (Inode.writePieces v.fs (Inode.ofId v.fs id) offset pieces).run [] d =
      (Inode.writeAt v.fs (Inode.ofId v.fs id) offset pieces.flatten).run [] d := by
  induction pieces generalizing d x offset with
  | nil => exact absurd rfl hne
  | cons piece pieces ih =>
    have hp : 0 < piece.length := List.length_pos_iff.mpr (hpos piece List.mem_cons_self)
    rw [List.flatten_cons, List.length_append] at hend
    rw [Inode.writePieces, List.flatten_cons, Prog.run_bind]
    cases pieces with
    | nil =>
      rw [List.flatten_nil, List.append_nil]
      cases (Inode.writeAt v.fs (Inode.ofId v.fs id) offset piece).run [] d with
      | none => rfl
      | some r => rfl
    | cons next pieces =>
      have hrest : 0 < (next :: pieces).flatten.length := by
        rw [List.flatten_cons, List.length_append]
        exact Nat.add_pos_left (List.length_pos_iff.mpr (hpos next (by simp))) _
      rw [← run_writeAt_append hs hx hp hrest hend, Prog.run_bind]
      cases hr : (Inode.writeAt v.fs (Inode.ofId v.fs id) offset piece).run [] d with
      | none => rw [Option.bind_none, Option.bind_none]
      | some r =>
        obtain ⟨-, -, y, hdone⟩ := run_writeAt_some hs hx hp (by omega) hr
        have hy : v.fs.inodes r.2 id = some y := by rw [hdone.inodes, Function.update_self]
        rw [Option.bind_some, Option.bind_some, Prog.run_bind, Prog.run_bind,
          ih hdone.sound hy (by simp) (fun p hp => hpos p (List.mem_cons_of_mem _ hp)) (by omega)]

end write

end RCore.EasyFs
