import RCore.Sanity.EasyFs.Walk

/-! The bytes of a file, and what the copy loops of `read_at` and `write_at` do to
them. -/

namespace RCore.EasyFs

open RCore.Lib Slot

/-- Byte `i` of a file. -/
def fileByte (d : Disk) (x : DiskInode) (i : ℕ) : UInt8 :=
  byteAt (d (load d x (dataSlot (i / 512))).toNat) (i % 512)

/-- The bytes `[start, start + len)` of a file. -/
def fileSlice (d : Disk) (x : DiskInode) (start len : ℕ) : List UInt8 :=
  (List.range' start len).map (fileByte d x)

theorem fileSlice_add (d : Disk) (x : DiskInode) (start m n : ℕ) :
    fileSlice d x start m ++ fileSlice d x (start + m) n = fileSlice d x start (m + n) := by
  simp [fileSlice, ← List.map_append]

@[simp] theorem length_fileSlice (d : Disk) (x : DiskInode) (start len : ℕ) :
    (fileSlice d x start len).length = len := by
  simp [fileSlice]

variable {held : List ℕ} {d d' : Disk} {x : DiskInode} {n : ℕ}

/-- The slots of a file do not change when the blocks they lie in do not. -/
theorem load_congr {S : List Slot} (hS : Closed S)
    (h : ∀ σ ∈ S, ∀ β, σ.base = some β → d' (load d x β).toNat = d (load d x β).toNat)
    {σ : Slot} (hσ : σ ∈ S) : load d' x σ = load d x σ := by
  induction hn : depth σ using Nat.strong_induction_on generalizing σ with
  | _ m ih =>
    cases hb : σ.base with
    | none => cases σ <;> simp only [Slot.base, reduceCtorEq] at hb <;> rfl
    | some β =>
      have hβ := hS.base σ hσ β hb
      rw [load_of_base hb, load_of_base hb, ih _ (hn ▸ depth_base hb) hβ rfl, h σ hσ β hb]

/-- A piece of one block of a file. -/
theorem slice_eq_fileSlice {start len : ℕ} (h : start % 512 + len ≤ 512) :
    slice (d (load d x (dataSlot (start / 512))).toNat) (start % 512) len =
      fileSlice d x start len := by
  rw [slice, fileSlice, List.range'_eq_map_range, List.map_map]
  apply List.map_congr_left
  intro i hi
  rw [List.mem_range] at hi
  rw [Function.comp_apply, fileByte, show (start + i) / 512 = start / 512 by omega,
    show (start + i) % 512 = start % 512 + i by omega]

namespace DiskInode

/-- The loop of `read_at` returns the bytes up to `stop`. -/
theorem run_readLoop {stop : ℕ} (fuel start : ℕ) (buf : List UInt8) (hn : n ≤ 16540)
    (hun : Unlocked held d x n) (hlt : start < stop) (hstop : stop ≤ 512 * n)
    (hfuel : stop - start ≤ fuel) :
    (readLoop x stop fuel start (start / 512) buf).run held d =
      some (buf ++ fileSlice d x start (stop - start), d) := by
  induction fuel generalizing start buf with
  | zero => omega
  | succ fuel ih =>
    have hid := run_getBlockId hn (k := start / 512) (by omega) hun
    obtain ⟨e, he⟩ : ∃ e, e = min ((start / 512 + 1) * 512) stop := ⟨_, rfl⟩
    have hsrc : (EasyFs.readAt (load d x (dataSlot (start / 512))).toNat 0 4096 fun b =>
        pure (slice b (start % 512) (e - start))).run held d =
          some (fileSlice d x start (e - start), d) := by
      rw [run_readBlock (hun _ (dataSlot_mem (by omega))), slice_eq_fileSlice (by omega)]
      rfl
    rw [readLoop, ← he, Prog.run_bind_of hid, Prog.run_bind_of hsrc]
    by_cases hlast : e = stop
    · rw [if_pos hlast, hlast]
      rfl
    · rw [if_neg hlast, show start / 512 + 1 = e / 512 by omega, ih e _ (by omega) (by omega),
        List.append_assoc, show stop - start = (e - start) + (stop - e) by omega, ← fileSlice_add,
        show start + (e - start) = e by omega]

/-- `read_at` returns the bytes from `offset` on that the file has and the buffer
can take. -/
theorem run_readAt (offset len : ℕ) (hn : n ≤ 16540) (hun : Unlocked held d x n)
    (hsize : x.size ≤ 512 * n) :
    (x.readAt offset len).run held d =
      some (fileSlice d x offset (min len (x.size - offset)), d) := by
  rw [readAt]
  by_cases h : offset ≥ min (offset + len) x.size
  · rw [if_pos h, show min len (x.size - offset) = 0 by omega]
    rfl
  · rw [if_neg h, run_readLoop _ _ _ hn hun (by omega) (by omega) (le_refl _), List.nil_append,
      show min (offset + len) x.size - offset = min len (x.size - offset) by omega]

end DiskInode

/-- The bytes `[start, stop)` of a file have become those that `f` gives, and
nothing else has changed. -/
structure Written (d : Disk) (x : DiskInode) (n start stop : ℕ) (f : ℕ → UInt8) (d' : Disk) :
    Prop where
  loads : ∀ σ ∈ slotsUpTo n, load d' x σ = load d x σ
  bytes : ∀ i < 512 * n, fileByte d' x i = if start ≤ i ∧ i < stop then f i else fileByte d x i
  frame : ∀ b, (∀ k < n, (load d x (dataSlot k)).toNat ≠ b) → d' b = d b

theorem Written.trans {d₁ d₂ : Disk} {a b c : ℕ} {f : ℕ → UInt8} (hab : a ≤ b) (hbc : b ≤ c)
    (h₁ : Written d x n a b f d₁) (h₂ : Written d₁ x n b c f d₂) : Written d x n a c f d₂ := by
  constructor
  · intro σ hσ
    rw [h₂.loads σ hσ, h₁.loads σ hσ]
  · intro i hi
    rw [h₂.bytes i hi, h₁.bytes i hi]
    split_ifs <;> first | rfl | omega
  · intro b' hb
    rw [h₂.frame b', h₁.frame b' hb]
    intro k hk
    rw [h₁.loads _ (dataSlot_mem hk)]
    exact hb k hk

/-- Copying into one data block of a file. -/
theorem written_block {start len : ℕ} {f : ℕ → UInt8} (src : List UInt8) (hn : n ≤ 16540)
    (hnd : (ownedUpTo d x n).Nodup) (hk : start / 512 < n) (hlen : src.length = len)
    (hfit : start % 512 + len ≤ 512) (hf : ∀ i < len, src.getD i 0 = f (start + i)) :
    Written d x n start (start + len) f
      (Function.update d (load d x (dataSlot (start / 512))).toNat
        (copyFromSlice (d (load d x (dataSlot (start / 512))).toNat) (start % 512) src)) := by
  have hne : ∀ σ ∈ slotsUpTo n, σ ≠ dataSlot (start / 512) →
      (load d x σ).toNat ≠ (load d x (dataSlot (start / 512))).toNat := by
    intro σ hσ h he
    exact h (List.inj_on_of_nodup_map hnd hσ (dataSlot_mem hk) (BitVec.eq_of_toNat_eq he))
  have hloads : ∀ σ ∈ slotsUpTo n, load (Function.update d
      (load d x (dataSlot (start / 512))).toNat (copyFromSlice
        (d (load d x (dataSlot (start / 512))).toNat) (start % 512) src)) x σ = load d x σ := by
    intro σ hσ
    apply load_congr (closed_slotsUpTo hn) _ hσ
    intro τ hτ β hβ
    exact Function.update_of_ne (hne β (mem_of_base hn hτ hβ) (base_ne_dataSlot hβ _)) _ _
  refine ⟨hloads, fun i hi => ?_, fun b hb => ?_⟩
  · rw [fileByte, hloads _ (dataSlot_mem (by omega))]
    by_cases hib : i / 512 = start / 512
    · rw [hib, Function.update_self, byteAt_copyFromSlice _ _ _ (by omega), hlen]
      by_cases hin : start ≤ i ∧ i < start + len
      · rw [if_pos (by omega), if_pos hin, hf _ (by omega)]
        congr 1
        omega
      · rw [if_neg (by omega), if_neg hin, fileByte, hib]
    · have hslot : dataSlot (i / 512) ≠ dataSlot (start / 512) := fun h => hib (dataSlot_inj h)
      rw [Function.update_of_ne (hne _ (dataSlot_mem (by omega)) hslot), if_neg (by omega), fileByte]
  · exact Function.update_of_ne (hb _ hk).symm _ _

theorem Written.nodup {start stop : ℕ} {f : ℕ → UInt8} (h : Written d x n start stop f d')
    (hnd : (ownedUpTo d x n).Nodup) : (ownedUpTo d' x n).Nodup := by
  rw [ownedUpTo, List.map_congr_left h.loads]
  exact hnd

theorem Written.unlocked {start stop : ℕ} {f : ℕ → UInt8} (h : Written d x n start stop f d')
    (hun : Unlocked held d x n) : Unlocked held d' x n := by
  intro σ hσ
  rw [h.loads σ hσ]
  exact hun σ hσ

namespace DiskInode

/-- The loop of `write_at` puts the bytes of the buffer up to `stop` in place. -/
theorem run_writeLoop (offset stop : ℕ) (buf : List UInt8) (fuel start : ℕ) (d : Disk)
    (hn : n ≤ 16540) (hnd : (ownedUpTo d x n).Nodup) (hun : Unlocked held d x n)
    (hoff : offset ≤ start) (hlt : start < stop) (hstop : stop ≤ 512 * n)
    (hbuf : stop - offset ≤ buf.length) (hfuel : stop - start ≤ fuel) :
    ∃ d', (writeLoop x buf stop fuel start (start / 512) (start - offset)).run held d =
        some (stop - offset, d') ∧
      Written d x n start stop (fun i => buf.getD (i - offset) 0) d' := by
  induction fuel generalizing start d with
  | zero => omega
  | succ fuel ih =>
    have hid := run_getBlockId hn (k := start / 512) (by omega) hun
    obtain ⟨e, he⟩ : ∃ e, e = min ((start / 512 + 1) * 512) stop := ⟨_, rfl⟩
    obtain ⟨src, hsrc⟩ : ∃ src, src = (buf.drop (start - offset)).take (e - start) := ⟨_, rfl⟩
    have hput := run_modifyBlock (d := d) (f := fun b => pure (copyFromSlice b (start % 512) src, ()))
      (hun _ (dataSlot_mem (by omega : start / 512 < n))) rfl
    have hlen : src.length = e - start := by
      rw [hsrc, List.length_take, List.length_drop]
      omega
    have hw := written_block (f := fun i => buf.getD (i - offset) 0) src hn hnd
      (by omega : start / 512 < n) hlen (by omega) (by
        intro i hi
        rw [hsrc, List.getD_eq_getElem?_getD, List.getElem?_take_of_lt hi, List.getElem?_drop,
          ← List.getD_eq_getElem?_getD, show start - offset + i = start + i - offset by omega])
    rw [Nat.add_sub_cancel' (by omega)] at hw
    rw [writeLoop, ← he, ← hsrc, Prog.run_bind_of hid, Prog.run_bind_of hput,
      show start - offset + (e - start) = e - offset by omega]
    by_cases hlast : e = stop
    · rw [if_pos hlast, ← hlast]
      exact ⟨_, rfl, hw⟩
    · rw [if_neg hlast, show start / 512 + 1 = e / 512 by omega]
      obtain ⟨d', hr, hw'⟩ := ih e _ (hw.nodup hnd) (hw.unlocked hun) (by omega) (by omega) (by omega)
      exact ⟨d', hr, hw.trans (by omega) (by omega) hw'⟩

/-- `write_at` inside the size of the file. -/
theorem run_writeAt {offset : ℕ} {buf : List UInt8} (hn : n ≤ 16540)
    (hnd : (ownedUpTo d x n).Nodup) (hun : Unlocked held d x n) (hpos : 0 < buf.length)
    (hend : offset + buf.length ≤ x.size) (hsize : x.size ≤ 512 * n) :
    ∃ d', (x.writeAt offset buf).run held d = some (buf.length, d') ∧
      Written d x n offset (offset + buf.length) (fun i => buf.getD (i - offset) 0) d' := by
  obtain ⟨d', hr, hw⟩ := run_writeLoop offset (offset + buf.length) buf
    (buf.length + 1) offset d hn hnd hun (le_refl _) (by omega) (by omega) (by omega) (by omega)
  refine ⟨d', ?_, hw⟩
  rw [Nat.sub_self, Nat.add_sub_cancel_left] at hr
  rw [writeAt, Nat.min_eq_left hend]
  rw [Prog.run_bind_of (Prog.run_assert (Nat.le_add_right _ _) _ _), Nat.add_sub_cancel_left]
  exact hr

/-- A file has no block past the last one that its tree can hold. -/
theorem run_getBlockId_none {k : ℕ} (hk : 16540 ≤ k) : (x.getBlockId k).run held d = none := by
  unfold getBlockId
  simp only [inode_direct_count_eq, indirect1_bound_eq, inode_indirect1_count_eq]
  rw [if_neg (by omega), if_neg (by omega), Prog.run_bind]
  by_cases hheld : x.indirect2.toNat ∈ held
  · simp [EasyFs.readAt, Prog.run, hheld]
  · rw [run_readBlock hheld, entry, inode_indirect1_count_eq, if_neg (by omega)]
    rfl

theorem run_entry_some {b : Block} {i : ℕ} {u : U32} (h : (entry b i).run held d = some (u, d')) : d' = d := by
  unfold entry at h
  split_ifs at h
  · cases h
    rfl
  · cases h

theorem run_readAt_entry_some {id i : ℕ} {u : U32}
    (h : (EasyFs.readAt id 0 4096 fun b => entry b i).run held d = some (u, d')) : d' = d := by
  obtain ⟨-, h⟩ := Prog.run_read_eq_some h
  rw [if_pos (by decide)] at h
  exact run_entry_some h

/-- `get_block_id` only reads. -/
theorem run_getBlockId_some {k : ℕ} {u : U32} (h : (x.getBlockId k).run held d = some (u, d')) : d' = d := by
  unfold getBlockId at h
  split_ifs at h
  · cases h
    rfl
  · exact run_readAt_entry_some h
  · obtain ⟨v, d₁, h₁, h₂⟩ := Prog.run_bind_eq_some h
    rw [run_readAt_entry_some h₂, run_readAt_entry_some h₁]

/-- The loop of `write_at` does not come to an end that lies past the last block. -/
theorem run_writeLoop_none {buf : List UInt8} {stop : ℕ} (hstop : 16540 * 512 < stop) (fuel start w : ℕ)
    (d : Disk) : (writeLoop x buf stop fuel start (start / 512) w).run held d = none := by
  induction fuel generalizing start w d with
  | zero => rfl
  | succ fuel ih =>
    unfold writeLoop
    by_cases hk : 16540 ≤ start / 512
    · rw [Prog.run_bind, run_getBlockId_none hk]
      rfl
    · have hend : min ((start / 512 + 1) * 512) stop = (start / 512 + 1) * 512 := by omega
      rw [Prog.run_bind]
      cases (x.getBlockId (start / 512)).run held d with
      | none => rfl
      | some r =>
        simp only [Option.bind_some, hend]
        rw [Prog.run_bind]
        cases (modifyAt r.1.toNat 0 4096 fun b => pure (copyFromSlice b (start % BLOCK_SZ)
          ((buf.drop w).take ((start / 512 + 1) * 512 - start)), ())).run held r.2 with
        | none => rfl
        | some r' =>
          simp only [Option.bind_some]
          rw [if_neg (by omega), ← ih ((start / 512 + 1) * 512) _ r'.2, Nat.mul_div_cancel _ (by omega)]

/-- `write_at` with any offset and buffer, when it returns: what fits into the file has been written. -/
theorem run_writeAt_some {offset r : ℕ} {buf : List UInt8} (hn : n ≤ 16540)
    (hnd : (ownedUpTo d x n).Nodup) (hun : Unlocked held d x n) (hsize : x.size ≤ 512 * n)
    (h : (x.writeAt offset buf).run held d = some (r, d')) :
    Written d x n offset (min (offset + buf.length) x.size) (fun i => buf.getD (i - offset) 0) d' := by
  unfold writeAt at h
  obtain ⟨u, d₁, hassert, h⟩ := Prog.run_bind_eq_some h
  have hle := Prog.run_assert_eq_some hassert
  rw [Prog.run_assert hle, Option.some.injEq, Prod.mk.injEq] at hassert
  obtain ⟨-, rfl⟩ := hassert
  generalize hstop : min (offset + buf.length) x.size = stop at *
  by_cases hlt : offset < stop
  · obtain ⟨d₂, hr, hw⟩ := run_writeLoop offset stop buf (stop - offset + 1) offset d hn hnd hun (le_refl _)
      hlt (by omega) (by omega) (by omega)
    rw [Nat.sub_self] at hr
    rw [hr, Option.some.injEq, Prod.mk.injEq] at h
    rw [← h.2]
    exact hw
  · -- nothing is written, to whatever block that is
    obtain rfl : offset = stop := by omega
    have hend : min ((offset / 512 + 1) * 512) offset = offset := by omega
    unfold writeLoop at h
    simp only [hend, Nat.sub_self, List.take_zero, copyFromSlice, if_true] at h
    obtain ⟨u, d₂, hget, hrest⟩ := Prog.run_bind_eq_some h
    obtain ⟨w, d₃, hput, hret⟩ := Prog.run_bind_eq_some hrest
    have hsame := run_modifyAt_pure_some hput
    rw [splice_field, Function.update_eq_self, run_getBlockId_some hget] at hsame
    cases hret
    subst hsame
    exact ⟨fun _ _ => rfl, fun i _ => by rw [if_neg (by omega)], fun _ _ => rfl⟩

end DiskInode

end RCore.EasyFs
