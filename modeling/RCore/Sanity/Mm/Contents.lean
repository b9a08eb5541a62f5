import RCore.Sanity.Mm.Supply

/-! What is read at the addresses of a memory set. -/

namespace RCore.Mm

open RCore.Lib

/-- The byte at a physical address. -/
def Machine.byte (m : Machine) (p : PhysAddr) : BitVec 8 := field (m.memory p.frame) (8 * (p.bits.toNat % 4096)) 8

/-- The flags of the page that a virtual address is in, and the byte that is there. -/
def MemorySet.read (ms : MemorySet) (m : Machine) (v : VirtAddr) : Option (MemFlags × BitVec 8) :=
  match ms.pt.query m v with
  | .ok (some (p, flags)) => some (flags, m.byte p)
  | _ => none

/-- The bytes of a frame after some are copied to it. -/
theorem field_copyFromSlice (frame : Frame) {off : ℕ} {data : List (BitVec 8)} (h : off + data.length ≤ 4096) (i : ℕ) :
    field (copyFromSlice frame off data) (8 * i) 8 =
      if off ≤ i ∧ i < off + data.length then data.getD (i - off) 0 else field frame (8 * i) 8 := by
  induction data generalizing frame off with
  | nil => exact (if_neg (by rw [List.length_nil]; omega)).symm
  | cons b data ih =>
    rw [List.length_cons] at h
    rw [copyFromSlice, ih _ (by omega), List.length_cons]
    by_cases hi : i = off
    · subst hi
      rw [if_neg (by omega), if_pos (by omega), field_splice_self _ _ _ (by omega), Nat.sub_self]
      rfl
    · rw [field_splice_disjoint _ _ _ _ (by omega)]
      by_cases hin : off + 1 ≤ i ∧ i < off + 1 + data.length
      · rw [if_pos hin, if_pos (by omega), show i - off = i - (off + 1) + 1 by omega]
        rfl
      · rw [if_neg hin, if_neg (by omega)]

namespace MapArea

variable {area area' : MapArea} {m m' : Machine} {others : Set ℕ} {v : VirtAddr} {e : MemFlags × BitVec 8}

/-- The byte at an offset of the area. -/
def byteAt (area : MapArea) (m : Machine) (g : ℕ) : BitVec 8 :=
  field (area.content m (area.addr (g / 4096))) (8 * (g % 4096)) 8

/-- What is to be read at an address in a page of the area. -/
def Shows (area : MapArea) (m : Machine) (v : VirtAddr) (e : MemFlags × BitVec 8) : Prop :=
  ∃ k < area.pages, v.page = (area.addr k).page ∧
    e = (area.flags, area.byteAt m (k * 4096 + v.bits.toNat % 4096))

theorem byteAt_congr (h : Same area area') (hcontent : area'.content m' = area.content m) :
    area'.byteAt m' = area.byteAt m := by
  funext g
  rw [byteAt, byteAt, hcontent, h.addr]

theorem shows_congr (h : Same area area') (hcontent : area'.content m' = area.content m) :
    area'.Shows m' v e ↔ area.Shows m v e := by
  rw [Shows, Shows, h.pages, h.flags, byteAt_congr h hcontent]
  simp only [h.addr]

/-! Writing data -/

/-- The page of a frame is overwritten. -/
theorem content_setFrame (ho : m.Owns others area.frames) {f : PhysFrame} (hf : area.frame v = some f) (frame : Frame) :
    area.content (m.setFrame f.startPaddr frame) = Function.update (area.content m) v frame := by
  funext u
  rw [Function.update_apply]
  split_ifs with hu
  · rw [hu, content_of_frame hf, Machine.setFrame_memory, if_pos f.number_eq]
  · cases hg : area.frame u with
    | none => rw [content_of_none hg, content_of_none hg]
    | some g =>
      rw [content_of_frame hg, content_of_frame hg, Machine.setFrame_memory, if_neg]
      intro hnumber
      have heq := List.inj_on_of_nodup_map ho.nodup (frame_eq_some.mp hg) (frame_eq_some.mp hf) hnumber
      exact hu (congrArg Prod.fst heq)

/-- What has been written so far. -/
structure Fills (area : MapArea) (m : Machine) (offset : ℕ) (data : List (BitVec 8)) (w : Writing) : Prop where
  start : w.start.toNat = offset + w.processed.toNat
  length : w.processed.toNat + w.remain.toNat = data.length
  bytes : ∀ g < area.size.toNat, w.area.byteAt w.machine g =
    if offset ≤ g ∧ g < offset + w.processed.toNat then data.getD (g - offset) 0 else area.byteAt m g

/-- A part of a list, and where it begins. -/
theorem getD_part {data : List (BitVec 8)} {p n i : ℕ} (hi : i < n) :
    ((data.drop p).take n).getD i 0 = data.getD (p + i) 0 := by
  rw [List.getD_eq_getElem?_getD, List.getD_eq_getElem?_getD, List.getElem?_take_of_lt hi, List.getElem?_drop]

theorem Fills.next {w : Writing} {offset : ℕ} {data : List (BitVec 8)} (hfits : area.Fits)
    (hin : offset + data.length ≤ area.size.toNat) (h : Writes area m others w) (hfills : Fills area m offset data w)
    (hpos : 0 < w.remain) : Ensures (w.next data) (Fills area m offset data) fun _ => True := by
  obtain ⟨n, hnpos, hn, hmin, hnext⟩ := next_eq data hpos
  have hstart := hfills.start
  have hlength := hfills.length
  have hlt : area.start.bits.toNat + area.size.toNat < 2 ^ 64 := hfits
  have hpages := area.pages_mul
  rw [hnext, h.same.addr]
  refine Ensures.result.bind fun v hv => ?_
  obtain ⟨rfl, -⟩ := new_eq_ok.mp hv
  refine (map_spec h.same.framed (addr_aligned _ _) h.owns).weaken.bind ?_
  rintro ⟨_, a, m'⟩ ⟨f, rfl, hsame, hf, -, -, hcontent, howns, -⟩
  have hsub : (w.remain - n).toNat = w.remain.toNat - n.toNat := BitVec.toNat_sub_of_le (BitVec.le_def.mpr hn)
  have hadd : (w.start + n).toNat = w.start.toNat + n.toNat := by
    rw [BitVec.toNat_add]
    omega
  have hadd' : (w.processed + n).toNat = w.processed.toNat + n.toNat := by
    rw [BitVec.toNat_add]
    omega
  refine Ensures.pure ⟨?_, ?_, fun g hg => ?_⟩
  · dsimp only
    rw [hadd, hadd']
    omega
  · dsimp only
    rw [hsub, hadd']
    omega
  · have hold := hfills.bytes g hg
    have hk : g / 4096 ≤ area.pages := by omega
    have hj : w.start.toNat / 4096 ≤ area.pages := by omega
    have haddr : ∀ k, a.addr k = area.addr k := (h.same.trans hsame).addr
    have hmem : m'.memory f.startPaddr.frame = w.area.content w.machine (area.addr (w.start.toNat / 4096)) := by
      rw [← hcontent]
      exact (content_of_frame hf m').symm
    rw [byteAt, h.same.addr] at hold
    dsimp only at howns hf hcontent ⊢
    rw [hadd', byteAt, haddr, content_setFrame howns hf, hcontent, hmem, Function.update_apply]
    have hpart : ((data.drop w.processed.toNat).take n.toNat).length = n.toNat := by
      rw [List.length_take, List.length_drop]
      omega
    by_cases hpage : g / 4096 = w.start.toNat / 4096
    · rw [hpage] at hold
      rw [hpage, if_pos rfl, field_copyFromSlice _ (by rw [hpart]; omega), hpart]
      by_cases hg' : w.start.toNat % 4096 ≤ g % 4096 ∧ g % 4096 < w.start.toNat % 4096 + n.toNat
      · rw [if_pos hg', if_pos (by omega), getD_part (by omega)]
        congr 1
        omega
      · rw [if_neg hg', hold]
        exact if_congr (by omega) rfl rfl
    · rw [if_neg fun he => hpage (addr_inj hfits hk hj he), hold]
      exact if_congr (by omega) rfl rfl

/-- Data is written to an area whose pages have valid addresses: nothing goes wrong as long as
there are frames, and no other byte of the area changes. -/
theorem writeData_bytes (hframed : area.Framed) (hwithin : area.Within) (ho : m.Owns others area.frames)
    (hfits : area.Fits) (hvalid : ∀ k < area.pages, VirtAddr.new (area.addr k).bits = .ok (area.addr k))
    {offset : Usize} {data : Slice} (hlt : offset.toNat < area.size.toNat)
    (hle : offset.toNat + data.val.length ≤ area.size.toNat) : Ensures (area.writeData m offset data)
      (fun r => Same area r.1 ∧ r.1.Within ∧ r.2.Owns others r.1.frames ∧ m.Keeps others r.2 ∧
        ∀ g < area.size.toNat, r.1.byteAt r.2 g =
          if offset.toNat ≤ g ∧ g < offset.toNat + data.val.length then data.val.getD (g - offset.toNat) 0
          else area.byteAt m g) (· = .noFrame) := by
  have hsize := size_le hfits fun k hk => ⟨_, hvalid k hk⟩
  have hlen := toNat_length data
  have hcond : offset < area.size ∧ offset + BitVec.ofNat 64 data.val.length ≤ area.size := by
    refine ⟨hlt, ?_⟩
    rw [BitVec.le_def, BitVec.toNat_add, hlen]
    omega
  have hfails : ∀ e, area.WriteFails e → e = .noFrame := by
    rintro e (he | he)
    · exact he
    · obtain ⟨k, hk, he⟩ := he hsize
      rw [hvalid k hk] at he
      cases he
  have hfirst : Fills area m offset.toNat data.val ⟨area, m, offset, BitVec.ofNat 64 data.val.length, 0⟩ := by
    refine ⟨rfl, (Nat.zero_add _).trans hlen, fun g hg => (if_neg ?_).symm⟩
    rintro ⟨hge, hlt⟩
    exact absurd hge (not_le_of_gt hlt)
  rw [writeData, if_pos hcond]
  refine Ensures.bind (whileM_spec (fun w => Writes area m others w ∧ Fills area m offset.toNat data.val w)
    (fun w => w.remain.toNat) (fun w _ hw => of_decide_eq_true hw) (fun w h hw => ?_)
    ⟨Writes.start hframed hwithin ho hcond.1 hcond.2, hfirst⟩ hlen.le) ?_
  · have hpos := of_decide_eq_true hw
    refine ((h.1.next hpos).fails_imp hfails).and (h.2.next hfits hle h.1 hpos) |>.mono ?_
    rintro w' ⟨⟨hw', hless⟩, hfills⟩
    exact ⟨⟨hw', hfills⟩, hless⟩
  · rintro w ⟨⟨hw, hfills⟩, hdone⟩
    refine Ensures.pure ⟨hw.same, hw.within, hw.owns, hw.keeps, fun g hg => ?_⟩
    have hzero : ¬ 0 < w.remain.toNat := of_decide_eq_false hdone
    have hlength := hfills.length
    rw [hfills.bytes g hg, show w.processed.toNat = data.val.length by omega]

/-- Nothing has been written to a new area. -/
theorem byteAt_of_frames (h : area.frames = []) (m : Machine) (g : ℕ) : area.byteAt m g = 0 := by
  have hnone : area.frame (area.addr (g / 4096)) = none := by
    rw [Option.eq_none_iff_forall_ne_some]
    intro f hf
    have := frame_mem hf
    rw [h] at this
    exact absurd this List.not_mem_nil
  rw [byteAt, content_of_none hnone, field_zero]

end MapArea

namespace MemorySet

variable {ms : MemorySet} {m m' : Machine} {others : Set ℕ} {area : MapArea} {v : VirtAddr} {e : MemFlags × BitVec 8}

/-- An address in a page of an area. -/
theorem Sound.read_page (h : ms.Sound m) (harea : area ∈ ms.areas.values) (hfits : area.Fits) {k : ℕ}
    (hk : k < area.pages) (hv : v.page = (area.addr k).page) :
    ms.read m v = some (area.flags, area.byteAt m (k * 4096 + v.bits.toNat % 4096)) := by
  obtain ⟨f, hf, hleaf⟩ := h.page_mem harea hfits hk
  have hmem : (v.page, f.startPaddr, area.flags) ∈ ms.mapped := by
    rw [hv]
    exact List.mem_flatMap.mpr ⟨area, harea, hleaf⟩
  have hstart := f.toNat_start
  have hoffset : v.pageOffset.toNat = v.bits.toNat % 4096 := toNat_pageOffset v.bits
  have hbits : (f.startPaddr.bits + v.pageOffset).toNat = f.startPaddr.bits.toNat + v.bits.toNat % 4096 := by
    rw [BitVec.toNat_add, hoffset]
    omega
  have hframe : PhysAddr.frame ⟨f.startPaddr.bits + v.pageOffset⟩ = f.number := by
    rw [PhysAddr.frame, PhysFrame.number_eq, PhysAddr.frame]
    dsimp only
    omega
  rw [read, h.leaves.query_mem hmem hstart.1, PhysFrame.alignDown_start]
  dsimp only
  rw [Machine.byte, MapArea.byteAt, hframe, hbits, show (k * 4096 + v.bits.toNat % 4096) / 4096 = k by omega,
    MapArea.content_of_frame hf, show (f.startPaddr.bits.toNat + v.bits.toNat % 4096) % 4096 =
      (k * 4096 + v.bits.toNat % 4096) % 4096 by omega]

/-- What is read is in a page of an area, and there is nothing else to read. -/
theorem Sound.read_eq_some (h : ms.Sound m) :
    ms.read m v = some e ↔ ∃ area ∈ ms.areas.values, area.Fits ∧ area.Shows m v e := by
  constructor
  · intro he
    by_cases hleaf : ∃ d, (v.page, d) ∈ ms.mapped
    · obtain ⟨d, hd⟩ := hleaf
      obtain ⟨area, harea, hfits, u, f, hf, hu, -⟩ := mem_mapped.mp hd
      obtain ⟨k, hk, rfl⟩ := (((h.inserted area harea).full hfits).keys u).mp (by rw [hf]; rfl)
      rw [h.read_page harea hfits hk hu.symm] at he
      exact ⟨area, harea, hfits, k, hk, hu.symm, (Option.some.inj he).symm⟩
    · rw [read, h.leaves.query_not_mem fun d hd => hleaf ⟨d, hd⟩] at he
      cases he
  · rintro ⟨area, harea, hfits, k, hk, hv, rfl⟩
    exact h.read_page harea hfits hk hv

/-- What is read depends on the frames of the set only. -/
theorem Sound.read_congr (h : ms.Sound m) (hm : ∀ f ∈ ms.frames, m'.memory f = m.memory f) (v : VirtAddr) :
    ms.read m' v = ms.read m v := by
  have hsound : ms.Sound m' := h.congr fun t ht => hm t (List.mem_append_left _ ht)
  ext e
  rw [hsound.read_eq_some, h.read_eq_some]
  refine exists_congr fun area => and_congr_right fun harea => and_congr_right fun _ => ?_
  refine MapArea.shows_congr (MapArea.Same.refl (h.inserted area harea).framed) ?_
  exact MapArea.content_congr fun f hf => hm f (List.mem_append_right _ (List.mem_flatMap.mpr ⟨area, harea, hf⟩))

/-- A new area shows what has been written to it, and the others what they did. -/
theorem Puts.read_eq_some {r : MemorySet × Machine} (h : ms.Sound m) (hputs : ms.Puts others area m r) :
    r.1.read r.2 v = some e ↔ area.Fits ∧ area.Shows m v e ∨ ms.read m v = some e := by
  obtain ⟨area', hsame, hcontent, hareas⟩ := hputs.areas
  rw [hputs.sound.read_eq_some, h.read_eq_some, hareas]
  have hnew : area'.Fits ∧ area'.Shows r.2 v e ↔ area.Fits ∧ area.Shows m v e :=
    and_congr hsame.fits_iff (MapArea.shows_congr hsame hcontent)
  have hold : ∀ a ∈ ms.areas.values, (a.Shows r.2 v e ↔ a.Shows m v e) := fun a ha =>
    MapArea.shows_congr (MapArea.Same.refl (h.inserted a ha).framed) (hputs.old a ha)
  constructor
  · rintro ⟨a, ha, hfits, hshows⟩
    rcases (values_put hputs.vacant).mp ha with rfl | ha
    · exact .inl (hnew.mp ⟨hfits, hshows⟩)
    · exact .inr ⟨a, ha, hfits, (hold a ha).mp hshows⟩
  · rintro (harea | ⟨a, ha, hfits, hshows⟩)
    · exact ⟨area', (values_put hputs.vacant).mpr (.inl rfl), hnew.mpr harea⟩
    · exact ⟨a, (values_put hputs.vacant).mpr (.inr ha), hfits, (hold a ha).mpr hshows⟩

/-- In a copy the same is read. -/
theorem Copies.read_eq {ms' : MemorySet} (h : ms.Sound m) (h' : ms'.Sound m')
    (hcopies : Copies ms.areas.values m ms' m') (v : VirtAddr) : ms'.read m' v = ms.read m v := by
  ext e
  rw [h'.read_eq_some, h.read_eq_some]
  constructor
  · rintro ⟨a', ha', hfits, hshows⟩
    obtain ⟨w, hw⟩ := mem_values.mp ha'
    obtain ⟨a, ha, hstart, -⟩ := hcopies.orig w a' hw
    obtain ⟨b, hb, hsame, hcontent⟩ := hcopies.copy a ha
    rw [hstart, hw] at hb
    obtain rfl := Option.some.inj hb
    exact ⟨a, ha, hsame.fits_iff.mp hfits, (MapArea.shows_congr hsame hcontent).mp hshows⟩
  · rintro ⟨a, ha, hfits, hshows⟩
    obtain ⟨a', ha', hsame, hcontent⟩ := hcopies.copy a ha
    exact ⟨a', mem_values.mpr ⟨_, ha'⟩, hsame.fits_iff.mpr hfits, (MapArea.shows_congr hsame hcontent).mpr hshows⟩

end MemorySet

end RCore.Mm
