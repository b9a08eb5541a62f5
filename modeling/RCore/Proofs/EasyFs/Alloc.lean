import RCore.Proofs.EasyFs.Invariant

/-! Taking blocks from the data bitmap and giving them back, one by one. -/

namespace RCore.EasyFs

open RCore.Lib

variable {v : Volume} {held : List ℕ} {d d' : Disk} {ino : Inodes} {loose : List ℕ}

/-- No block of the data bitmap is locked. -/
def BitmapFree (v : Volume) (held : List ℕ) : Prop := ∀ b, v.fs.dataBitmap.Owns b → b ∉ held

theorem bitmap_lt_start {b : ℕ} (h : v.fs.dataBitmap.Owns b) : b < v.start :=
  (v.dataBitmap_owns.mp h).2

theorem not_bitmap_of_le {b : ℕ} (h : v.start ≤ b) : ¬ v.fs.dataBitmap.Owns b :=
  fun hown => absurd (bitmap_lt_start hown) (by omega)

/-- A number that is added to the bitmap makes its block a used one. -/
theorem used_added {p : ℕ} (h : v.fs.dataBitmap.Added d d' p) (b : ℕ) :
    v.Used d' b ↔ b = v.start + p ∨ v.Used d b := by
  constructor
  · rintro ⟨q, hq, hset, rfl⟩
    rw [h.bits q hq, Bool.or_eq_true, decide_eq_true_eq] at hset
    rcases hset with rfl | hset
    · exact Or.inl rfl
    · exact Or.inr ⟨q, hq, hset, rfl⟩
  · rintro (rfl | ⟨q, hq, hset, rfl⟩)
    · exact ⟨p, h.lt, by rw [h.bits p h.lt]; simp, rfl⟩
    · exact ⟨q, hq, by rw [h.bits q hq, hset]; simp, rfl⟩

theorem not_used {p : ℕ} (h : v.fs.dataBitmap.isSet d p = false) : ¬ v.Used d (v.start + p) := by
  rintro ⟨q, -, hset, he⟩
  obtain rfl : p = q := by omega
  rw [h] at hset
  cases hset

theorem Sound.added {p : ℕ} (h : Sound v ino loose d) (ha : v.fs.dataBitmap.Added d d' p) :
    Sound v ino (loose ++ [v.start + p]) d' := by
  refine ⟨?_, h.size_le⟩
  have hframe : ∀ j x, ino j = some x → ∀ b ∈ owned d x, d' b = d b := by
    intro j x hj b hb
    exact ha.frame b (not_bitmap_of_le (h.used hj hb).start_le)
  rw [h.own_congr hframe]
  exact h.part.take (not_used ha.clear) none (used_added ha)

/-- What the loop over `alloc_data` has done when it ends with the new blocks `new`. -/
structure Alloced (v : Volume) (d : Disk) (new : List U32) (d' : Disk) : Prop where
  used : v.fs.dataBitmap.used d' = v.fs.dataBitmap.used d + new.length
  frame : ∀ b, ¬ v.fs.dataBitmap.Owns b → d' b = d b
  mono : ∀ p < v.fs.dataBitmap.maximum, v.fs.dataBitmap.isSet d p = true →
    v.fs.dataBitmap.isSet d' p = true
  fresh : ∀ b ∈ new, ∃ p < v.fs.dataBitmap.maximum, p < v.fs.dataBitmap.used d' ∧
    b.toNat = v.start + p ∧ v.fs.dataBitmap.isSet d p = false
  old : ∀ p < v.fs.dataBitmap.maximum, v.fs.dataBitmap.isSet d' p = true →
    v.fs.dataBitmap.isSet d p = true ∨ p < v.fs.dataBitmap.used d'
  sound : ∀ ino loose, Sound v ino loose d → Sound v ino (loose ++ new.map BitVec.toNat) d'

theorem Alloced.nil : Alloced v d [] d :=
  ⟨by simp, fun _ _ => rfl, fun _ _ h => h, by simp, fun _ _ h => Or.inl h, by simp⟩

theorem Alloced.cons {p : ℕ} {d₁ : Disk} {new : List U32} (ha : v.fs.dataBitmap.Added d d₁ p)
    (hp : ∀ k < p, v.fs.dataBitmap.isSet d k = true) (hlt : v.start + p < 2 ^ 32)
    (h : Alloced v d₁ new d') : Alloced v d (BitVec.ofNat 32 (v.start + p) :: new) d' := by
  have hused₁ := Bitmap.used_added ha
  have hused := h.used
  have hle := Bitmap.le_used ha.lt.le hp
  have htoNat : (BitVec.ofNat 32 (v.start + p)).toNat = v.start + p := by
    rw [BitVec.toNat_ofNat, Nat.mod_eq_of_lt hlt]
  constructor
  · rw [hused, hused₁, List.length_cons]
    omega
  · intro b hb
    rw [h.frame b hb, ha.frame b hb]
  · intro q hq hset
    exact h.mono q hq (by rw [ha.bits q hq, hset]; simp)
  · intro b hb
    rcases List.mem_cons.mp hb with rfl | hb
    · exact ⟨p, ha.lt, by omega, htoNat, ha.clear⟩
    · obtain ⟨q, hq, hlt, he, hclear⟩ := h.fresh b hb
      rw [ha.bits q hq, Bool.or_eq_false_iff] at hclear
      exact ⟨q, hq, hlt, he, hclear.2⟩
  · intro q hq hset
    rcases h.old q hq hset with hset | hlt
    · rw [ha.bits q hq, Bool.or_eq_true, decide_eq_true_eq] at hset
      rcases hset with rfl | hset
      · right; omega
      · exact Or.inl hset
    · exact Or.inr hlt
  · intro ino loose hs
    have := h.sound ino _ (hs.added ha)
    rw [List.append_assoc] at this
    rwa [List.map_cons, htoNat]

/-- The loop over `alloc_data`, when it gives a result. -/
theorem run_allocBlocks_some (hheld : BitmapFree v held) {n : ℕ} {acc vs : List U32}
    (h : (Inode.allocBlocks v.fs n acc).run held d = some (vs, d')) :
    ∃ new, vs = acc ++ new ∧ new.length = n ∧ Alloced v d new d' := by
  induction n generalizing acc d with
  | zero =>
    cases h
    exact ⟨[], by simp, rfl, Alloced.nil⟩
  | succ n ih =>
    obtain ⟨b, d₁, hr, hrest⟩ := Prog.run_bind_eq_some h
    obtain ⟨new, rfl, hlen, hal⟩ := ih hrest
    rcases Volume.run_allocData (d := d) hheld with ⟨p, d₂, hr', ha, hp, hlt⟩ | ⟨hr', -⟩
    · obtain ⟨rfl, rfl⟩ : v.start + p = b ∧ d₂ = d₁ := by simpa [hr'] using hr
      exact ⟨_ :: new, by simp, by simp [hlen], Alloced.cons ha hp hlt hal⟩
    · rw [hr'] at hr
      cases hr

theorem Alloced.taken {new : List U32} (h : Alloced v d new d') (hs : Sound v ino [] d) :
    Sound v ino (new.map BitVec.toNat) d' := by
  simpa using h.sound ino [] hs

/-- The blocks that a file gets. -/
theorem alloced_of_run (hheld : BitmapFree v held) {n : ℕ} {vs : List U32}
    (h : (Inode.allocBlocks v.fs n []).run held d = some (vs, d')) : vs.length = n ∧ Alloced v d vs d' := by
  obtain ⟨new, hvs, hlen, hal⟩ := run_allocBlocks_some hheld h
  rw [List.nil_append] at hvs
  exact hvs ▸ ⟨hlen, hal⟩

/-- The loop over `alloc_data` gives a result when enough blocks are free. -/
theorem run_allocBlocks_total (hheld : BitmapFree v held) {n : ℕ} (acc : List U32)
    (h : v.fs.dataBitmap.used d + n ≤ v.size) :
    ∃ vs d', (Inode.allocBlocks v.fs n acc).run held d = some (vs, d') := by
  induction n generalizing acc d with
  | zero => exact ⟨acc, d, rfl⟩
  | succ n ih =>
    rcases Volume.run_allocData (d := d) hheld with ⟨p, d₁, hr, ha, -, -⟩ | ⟨-, hfull⟩
    · obtain ⟨vs, d', hr'⟩ := ih (acc ++ [BitVec.ofNat 32 (v.start + p)])
        (d := d₁) (by rw [Bitmap.used_added ha]; omega)
      exact ⟨vs, d', by rw [Inode.allocBlocks, Prog.run_bind_of hr, hr']⟩
    · omega

/-- While the data area lasts, new blocks come out of it, all zero. -/
theorem Alloced.zero {new : List U32} (h : Alloced v d new d') (hc : Clean v ino d)
    (hused : v.fs.dataBitmap.used d' ≤ v.size) : ∀ b ∈ new, d' b.toNat = 0 := by
  intro b hb
  obtain ⟨p, -, hlt, he, hclear⟩ := h.fresh b hb
  rw [he, h.frame _ (not_bitmap_of_le (Nat.le_add_right _ _))]
  exact hc.free_zero p (by omega) hclear

theorem Alloced.clean {new : List U32} (h : Alloced v d new d') (hs : Sound v ino loose d)
    (hc : Clean v ino d) (hused : v.fs.dataBitmap.used d' ≤ v.size) : Clean v ino d' := by
  have hcov := v.bitmapCovers
  have hframe : ∀ b, v.start ≤ b → d' b = d b := fun b hb => h.frame b (not_bitmap_of_le hb)
  refine ⟨fun p hp hset => ?_, fun p hp hclear => ?_, fun j x hj i hi hlt => ?_⟩
  · rcases h.old p hp hset with hset | hlt
    · exact hc.in_area p hp hset
    · omega
  · rw [hframe _ (Nat.le_add_right _ _)]
    apply hc.free_zero p hp
    by_contra hset
    have hmax : p < v.fs.dataBitmap.maximum := by
      rw [v.dataBitmap_maximum]
      exact Nat.lt_of_lt_of_le hp hcov
    rw [h.mono p hmax (by simpa using hset)] at hclear
    cases hclear
  · rw [(owned_congr (hs.dataBlocks_le hj) fun b hb => hframe b (hs.used hj hb).start_le).2.2 i hlt,
      hc.tail_zero j x hj i hi hlt]

/-- What giving back blocks leaves alone: the rest of the disk, and the files. -/
structure Freed (v : Volume) (ino : Inodes) (d d' : Disk) : Prop where
  frame : ∀ b < v.start, ¬ v.fs.dataBitmap.Owns b → d' b = d b
  files : ∀ j x, ino j = some x → ∀ b ∈ owned d x, d' b = d b
  clean : Clean v ino d → Clean v ino d'

/-- The blocks `bs` have become zero, and the rest of the data area is as it was. -/
def Zeroed (v : Volume) (bs : List ℕ) (d d' : Disk) : Prop :=
  ∀ c, v.start ≤ c → d' c = if c ∈ bs then 0 else d c

theorem used_removed {p : ℕ} (h : v.fs.dataBitmap.Removed d d' p) (b : ℕ) :
    v.Used d' b ↔ b ≠ v.start + p ∧ v.Used d b := by
  constructor
  · rintro ⟨q, hq, hset, rfl⟩
    rw [h.bits q hq, Bool.and_eq_true, decide_eq_true_eq] at hset
    exact ⟨by omega, q, hq, hset.2, rfl⟩
  · rintro ⟨hne, q, hq, hset, rfl⟩
    exact ⟨q, hq, by rw [h.bits q hq, hset]; simpa using hne, rfl⟩

theorem run_deallocData (hheld : BitmapFree v held) {b : U32} {rest : List ℕ}
    (h : Sound v ino (b.toNat :: rest) d) (hb : b.toNat ∉ held) :
    ∃ d', (v.fs.deallocData b.toNat).run held d = some ((), d') ∧ Sound v ino rest d' ∧
      Freed v ino d d' ∧ Zeroed v [b.toNat] d d' := by
  obtain ⟨p, hp, hset, hbp⟩ := h.loose_used (List.mem_cons_self (a := b.toNat))
  -- the block is cleared first, then its bit
  set d₁ := Function.update d b.toNat 0 with hd₁
  have hclear : (modifyAt b.toNat 0 4096 fun _ => pure (0, ())).run held d = some ((), d₁) :=
    run_modifyBlock hb rfl
  have hbits : ∀ c, v.fs.dataBitmap.Owns c → d₁ c = d c := by
    intro c hc
    have := bitmap_lt_start hc
    exact Function.update_of_ne (by omega) _ _
  obtain ⟨d', hfree, hrem⟩ := v.fs.dataBitmap.run_dealloc hheld hp
    (by rw [Bitmap.isSet_congr hbits hp]; exact hset)
  have hfiles : ∀ j x, ino j = some x → ∀ c ∈ owned d x, d' c = d c := by
    intro j x hj c hc
    have hne : c ≠ b.toNat := by
      rintro rfl
      exact h.disjoint_loose hj hc List.mem_cons_self
    rw [hrem.frame c (not_bitmap_of_le (h.used hj hc).start_le), hd₁, Function.update_of_ne hne]
  refine ⟨d', ?_, ⟨?_, h.size_le⟩, ⟨?_, hfiles, ?_⟩, fun c hc => ?_⟩
  · have hsub : (checkedSub b.toNat v.start).run held d₁ = some (p, d₁) := by
      rw [checkedSub, Prog.run_bind_of (Prog.run_assert (by omega) _ _)]
      simp [hbp]
    rw [EasyFileSystem.deallocData, Prog.run_bind_of hclear]
    exact (Prog.run_bind_of hsub _).trans hfree
  · rw [h.own_congr hfiles]
    apply h.part.release [] rest rfl
    intro c
    rw [used_removed hrem, used_congr hbits, hbp]
  · intro c hc hown
    rw [hrem.frame c hown, hd₁, Function.update_of_ne (by omega)]
  · intro hcl
    refine ⟨fun q hq hs => ?_, fun q hq hs => ?_, fun j x hj i hi hlt => ?_⟩
    · rw [hrem.bits q hq, Bool.and_eq_true, Bitmap.isSet_congr hbits hq] at hs
      exact hcl.in_area q hq hs.2
    · have hmax : q < v.fs.dataBitmap.maximum := by
        rw [v.dataBitmap_maximum]
        exact Nat.lt_of_lt_of_le hq v.bitmapCovers
      rw [hrem.frame _ (not_bitmap_of_le (Nat.le_add_right _ _)), hd₁]
      by_cases hqp : q = p
      · rw [hbp, hqp, Function.update_self]
      · rw [Function.update_of_ne (by omega)]
        apply hcl.free_zero q hq
        rw [hrem.bits q hmax, Bitmap.isSet_congr hbits hmax] at hs
        simpa [hqp] using hs
    · rw [(owned_congr (h.dataBlocks_le hj) (hfiles j x hj)).2.2 i hlt,
        hcl.tail_zero j x hj i hi hlt]
  · rw [hrem.frame c (not_bitmap_of_le hc), hd₁, Function.update_apply]
    simp only [List.mem_singleton]

/-- The loop over `dealloc_data` gives all the loose blocks back. -/
theorem run_deallocBlocks (hheld : BitmapFree v held) (bs : List U32)
    (h : Sound v ino (bs.map BitVec.toNat) d) (hb : ∀ b ∈ bs, b.toNat ∉ held) :
    ∃ d', (Inode.deallocBlocks v.fs bs).run held d = some ((), d') ∧ Sound v ino [] d' ∧
      Freed v ino d d' ∧ Zeroed v (bs.map BitVec.toNat) d d' := by
  induction bs generalizing d with
  | nil => exact ⟨d, rfl, h, ⟨fun _ _ _ => rfl, fun _ _ _ _ _ => rfl, id⟩, fun _ _ => rfl⟩
  | cons b bs ih =>
    obtain ⟨d₁, hr, hs, hf, hz⟩ := run_deallocData hheld h (hb b (by simp))
    obtain ⟨d', hr', hs', hf', hz'⟩ := ih hs (fun c hc => hb c (by simp [hc]))
    refine ⟨d', by rw [Inode.deallocBlocks, Prog.run_bind_of hr, hr'], hs', ⟨?_, ?_, ?_⟩, fun c hc => ?_⟩
    · intro c hc hown
      rw [hf'.frame c hc hown, hf.frame c hc hown]
    · intro j x hj c hc
      have hown := (owned_congr (h.dataBlocks_le hj) (hf.files j x hj)).2.1
      rw [hf'.files j x hj c (by rwa [hown]), hf.files j x hj c hc]
    · exact fun hcl => hf'.clean (hf.clean hcl)
    · rw [hz' c hc, hz c hc]
      simp only [List.map_cons, List.mem_cons, List.mem_singleton]
      split_ifs <;> first | rfl | tauto

end RCore.EasyFs
