import RCore.Sanity.Mm.MapArea

/-! A memory set maps exactly the pages of its areas, and owns its frames. An area whose end
is not an address is an exception: nothing is mapped for it. -/

namespace RCore.Mm

open RCore.Lib

namespace MapArea

variable {area : MapArea} {m : Machine} {others : Set ℕ} {pt : PageTable} {l : List (Page × PhysAddr × MemFlags)}

/-- An area that has been inserted. -/
structure Inserted (area : MapArea) : Prop where
  framed : area.Framed
  full : area.Fits → area.Full

/-- What is mapped for it. -/
def mapped (area : MapArea) : List (Page × PhysAddr × MemFlags) := if area.Fits then area.leaves else []

theorem Inserted.unmap (h : area.Inserted) (hl : pt.Leaves m (area.mapped ++ l))
    (ho : m.Owns others (pt.tables ++ area.frames)) : ∃ area' m', pt.unmapArea area m = .ok (area', m') ∧
      area'.Framed ∧ pt.Leaves m' l ∧ m'.Owns others (pt.tables ++ area'.frames) ∧ m.Keeps others m' := by
  by_cases hfits : area.Fits
  · rw [mapped, if_pos hfits] at hl
    obtain ⟨area', m', hunmap, hframed, hempty, hl', ho', hkeeps⟩ := unmapArea_spec (h.full hfits) hl ho
    refine ⟨area', m', hunmap, hframed, hl', ?_, hkeeps⟩
    rw [frames, hempty, List.map_nil, List.append_nil]
    exact ho'
  · rw [mapped, if_neg hfits] at hl
    exact ⟨area, m, unmapArea_of_not_fits hfits, h.framed, hl, ho, Machine.Keeps.refl _ _⟩

end MapArea

namespace MemorySet

def leaves (ms : MemorySet) : List (Page × PhysAddr × MemFlags) := ms.areas.values.flatMap MapArea.leaves

def areaFrames (areas : List MapArea) : List ℕ := areas.flatMap MapArea.frames

def frames (ms : MemorySet) : List ℕ := ms.pt.tables ++ areaFrames ms.areas.values

def mapped (ms : MemorySet) : List (Page × PhysAddr × MemFlags) := ms.areas.values.flatMap MapArea.mapped

structure Sound (ms : MemorySet) (m : Machine) : Prop where
  leaves : ms.pt.Leaves m ms.mapped
  start : ∀ e ∈ ms.areas.entries, e.2.start = e.1
  inserted : ∀ area ∈ ms.areas.values, area.Inserted

/-- All areas fit. -/
structure Ok (ms : MemorySet) (m : Machine) : Prop where
  leaves : ms.pt.Leaves m ms.leaves
  start : ∀ e ∈ ms.areas.entries, e.2.start = e.1
  full : ∀ area ∈ ms.areas.values, area.Full

variable {ms : MemorySet} {m m' : Machine} {others : Set ℕ} {area area' : MapArea}

theorem mapped_eq_leaves (h : ∀ area ∈ ms.areas.values, area.Fits) : ms.mapped = ms.leaves :=
  List.flatMap_congr fun area ha => if_pos (h area ha)

theorem Ok.sound (h : ms.Ok m) : ms.Sound m := by
  refine ⟨?_, h.start, fun area ha => ⟨(h.full area ha).framed, fun _ => h.full area ha⟩⟩
  rw [mapped_eq_leaves fun area ha => (h.full area ha).fits]
  exact h.leaves

theorem Sound.ok (h : ms.Sound m) (hfits : ∀ area ∈ ms.areas.values, area.Fits) : ms.Ok m := by
  refine ⟨?_, h.start, fun area ha => (h.inserted area ha).full (hfits area ha)⟩
  rw [← mapped_eq_leaves hfits]
  exact h.leaves

theorem Sound.congr (h : ms.Sound m) (hm : ∀ t ∈ ms.pt.tables, m'.memory t = m.memory t) : ms.Sound m' :=
  ⟨h.leaves.congr hm, h.start, h.inserted⟩

theorem Ok.congr (h : ms.Ok m) (hm : ∀ f ∈ ms.frames, m'.memory f = m.memory f) : ms.Ok m' :=
  ⟨h.leaves.congr fun t ht => hm t (List.mem_append_left _ ht), h.start, h.full⟩

theorem new_spec (ho : m.Owns others []) : Ensures (new m)
    (fun r => r.1.Ok r.2 ∧ r.2.Owns others r.1.frames ∧ m.Keeps others r.2 ∧ r.1.areas = .empty) (· = .noFrame) := by
  refine (PageTable.new_spec ho).bind ?_
  rintro ⟨pt, m'⟩ ⟨hvalid, howns, hkeeps⟩
  refine Ensures.pure ⟨⟨⟨_, hvalid, List.nodup_nil, fun page e => ?_⟩, fun e he => absurd he List.not_mem_nil,
    fun area ha => absurd ha List.not_mem_nil⟩, ?_, hkeeps, rfl⟩
  · exact iff_of_false (Option.some_ne_none e).symm List.not_mem_nil
  · exact howns.perm (List.Perm.of_eq (List.append_nil _).symm)

/-! What is mapped -/

theorem mem_mapped {page : Page} {e : PhysAddr × MemFlags} : (page, e) ∈ ms.mapped ↔ ∃ area ∈ ms.areas.values,
    area.Fits ∧ ∃ v f, area.frame v = some f ∧ v.page = page ∧ e = (f.startPaddr, area.flags) := by
  rw [mapped, List.mem_flatMap]
  refine exists_congr fun area => and_congr_right fun _ => ?_
  rw [MapArea.mapped]
  split_ifs with hfits
  · rw [MapArea.leaves, List.mem_map, and_iff_right hfits]
    constructor
    · rintro ⟨d, hd, hde⟩
      rw [Prod.mk.injEq] at hde
      exact ⟨d.1, d.2, MapArea.frame_eq_some.mpr hd, hde.1, hde.2.symm⟩
    · rintro ⟨v, f, hf, rfl, rfl⟩
      exact ⟨(v, f), MapArea.frame_eq_some.mp hf, rfl⟩
  · exact iff_of_false List.not_mem_nil fun h => hfits h.1

/-- An address that is mapped is in the page of an area, which has a frame. -/
theorem Sound.query_page (h : ms.Sound m) {v : VirtAddr} {paddr : PhysAddr} {flags : MemFlags}
    (hv : ms.pt.query m v = .ok (some (paddr, flags))) :
    ∃ area ∈ ms.areas.values, ∃ u f, area.frame u = some f ∧ u.page = v.page ∧ f.number = paddr.frame := by
  by_cases hleaf : ∃ e, (v.page, e) ∈ ms.mapped
  · obtain ⟨e, he⟩ := hleaf
    obtain ⟨area, harea, -, u, f, hf, hu, rfl⟩ := mem_mapped.mp he
    rw [h.leaves.query_mem he f.toNat_start.1, PhysFrame.alignDown_start, Except.ok.injEq, Option.some.injEq,
      Prod.mk.injEq] at hv
    refine ⟨area, harea, u, f, hf, hu, ?_⟩
    have hstart := f.toNat_start
    have hoffset : v.pageOffset.toNat = v.bits.toNat % 4096 := toNat_pageOffset v.bits
    rw [← hv.1, PhysAddr.frame, PhysFrame.number_eq, PhysAddr.frame]
    dsimp only
    rw [BitVec.toNat_add, hoffset]
    omega
  · rw [h.leaves.query_not_mem fun e he => hleaf ⟨e, he⟩] at hv
    cases hv

theorem Sound.query_frame (h : ms.Sound m) {v : VirtAddr} {paddr : PhysAddr} {flags : MemFlags}
    (hv : ms.pt.query m v = .ok (some (paddr, flags))) : paddr.frame ∈ areaFrames ms.areas.values := by
  obtain ⟨area, harea, u, f, hf, -, hframe⟩ := h.query_page hv
  rw [← hframe]
  exact List.mem_flatMap.mpr ⟨area, harea, List.mem_map.mpr ⟨_, MapArea.frame_eq_some.mp hf, rfl⟩⟩

theorem Sound.root_mem (h : ms.Sound m) : ms.pt.rootPaddr.frame ∈ ms.pt.tables := by
  obtain ⟨map, hvalid, -⟩ := h.leaves
  have hroot : Radix.walk link m.cell ms.pt.rootPaddr.frame [] = some ms.pt.rootPaddr.frame := rfl
  exact hvalid.tree.mem (by decide) hroot

/-! `insert` -/

theorem values_put (hget : ms.areas.get? area.start = none) {a : MapArea} :
    a ∈ (ms.areas.insert area.start area').values ↔ a = area' ∨ a ∈ ms.areas.values := by
  rw [OrdMap.values, ((OrdMap.insert_perm hget area').map Prod.snd).mem_iff, List.map_cons, List.mem_cons]
  rfl

/-- What becomes of a set when an area is put into it. -/
theorem Sound.put {pt : PageTable} (h : ms.Sound m) (hget : ms.areas.get? area.start = none)
    (hstart : area'.start = area.start) (hinserted : area'.Inserted)
    (hl : pt.Leaves m' (area'.mapped ++ ms.mapped)) : Sound ⟨pt, ms.areas.insert area.start area'⟩ m' := by
  have hperm := OrdMap.insert_perm hget area'
  refine ⟨hl.perm ?_, fun e he => ?_, fun a ha => ?_⟩
  · exact ((hperm.map Prod.snd).flatMap_right MapArea.mapped).symm
  · rcases List.mem_cons.mp (hperm.mem_iff.mp he) with rfl | he
    · exact hstart
    · exact h.start e he
  · rcases (values_put hget).mp ha with rfl | ha
    · exact hinserted
    · exact h.inserted a ha

theorem frames_put {pt : PageTable} (hget : ms.areas.get? area.start = none) :
    (frames ⟨pt, ms.areas.insert area.start area'⟩).Perm
      (pt.tables ++ area'.frames ++ areaFrames ms.areas.values) := by
  rw [List.append_assoc]
  refine List.Perm.append_left _ ?_
  exact ((OrdMap.insert_perm hget area').map Prod.snd).flatMap_right MapArea.frames

/-- The test on the size is true for every size that is a multiple of the page size. -/
theorem insert_test (area : MapArea) : 0 < ~~~area.size := by
  have haligned := (isAligned_iff area.size).mp area.size_aligned
  have hlt := area.size.isLt
  rw [BitVec.lt_def, BitVec.toNat_not]
  change 0 < _
  omega

/-- Nothing is mapped for an area whose end is not an address. -/
theorem insert_of_not_fits (hfits : ¬ area.Fits) (hget : ms.areas.get? area.start = none) :
    ms.insert area m = .ok ({ ms with areas := ms.areas.insert area.start area }, m) := by
  rw [insert, if_pos (insert_test area), hget]
  dsimp only
  rw [MapArea.mapArea_of_not_fits hfits]
  rfl

/-- Why an area cannot be inserted. -/
def InsertFails (ms : MemorySet) (area : MapArea) (e : Panic) : Prop :=
  e = .existed ∧ (ms.areas.get? area.start).isSome ∨ area.Fits ∧ area.MapFails ms.mapped e

/-- What becomes of a set and of the memory: the frames of the other areas are as they were,
and what has been written to the new one is in it. -/
structure Puts (others : Set ℕ) (ms : MemorySet) (area : MapArea) (m : Machine) (r : MemorySet × Machine) : Prop where
  sound : r.1.Sound r.2
  owns : r.2.Owns others r.1.frames
  keeps : m.Keeps others r.2
  vacant : ms.areas.get? area.start = none
  areas : ∃ area', MapArea.Same area area' ∧ area'.content r.2 = area.content m ∧
    r.1.areas = ms.areas.insert area.start area'
  old : ∀ a ∈ ms.areas.values, a.content r.2 = a.content m

theorem Sound.insert (h : ms.Sound m) (hframed : area.Framed) (hwithin : area.Fits → area.Within)
    (ho : m.Owns others (ms.frames ++ area.frames)) :
    Ensures (ms.insert area m) (ms.Puts others area m) (ms.InsertFails area) := by
  cases hget : ms.areas.get? area.start with
  | some a =>
    rw [MemorySet.insert, if_pos (insert_test area), hget]
    exact Ensures.throw (.inl ⟨rfl, by rw [hget]; rfl⟩)
  | none =>
    have hown : m.Owns others (ms.pt.tables ++ area.frames ++ areaFrames ms.areas.values) := by
      refine ho.perm ?_
      rw [frames, List.append_assoc, List.append_assoc]
      exact List.Perm.append_left _ List.perm_append_comm
    by_cases hfits : area.Fits
    · rw [MemorySet.insert, if_pos (insert_test area), hget]
      have hmap := MapArea.mapArea_spec hframed hfits (hwithin hfits) h.leaves hown.focus
      refine (hmap.fails_imp fun e he => .inr ⟨hfits, he⟩).bind ?_
      rintro ⟨pt', area', m'⟩ ⟨hsame, hfull, hcontent, hleaves, howns, hkeeps⟩
      have hmapped : area'.mapped = area'.leaves := if_pos hfull.fits
      refine Ensures.pure ⟨h.put hget hsame.start ⟨hfull.framed, fun _ => hfull⟩ (by rw [hmapped]; exact hleaves), ?_,
        hkeeps.mono Set.subset_union_left, hget, ⟨area', hsame, hcontent, rfl⟩, fun a ha => ?_⟩
      · exact (hown.unfocus howns).perm (frames_put hget).symm
      · exact MapArea.content_congr fun f hf => hkeeps f (.inr (List.mem_flatMap.mpr ⟨a, ha, hf⟩))
    · rw [insert_of_not_fits hfits hget]
      have hmapped : area.mapped = [] := if_neg hfits
      refine Ensures.ok ⟨h.put hget rfl ⟨hframed, fun hf => absurd hf hfits⟩ (by rw [hmapped]; exact h.leaves), ?_,
        Machine.Keeps.refl _ _, hget, ⟨area, MapArea.Same.refl hframed, rfl, rfl⟩, fun a ha => rfl⟩
      exact hown.perm (frames_put hget).symm

theorem insert_spec (h : ms.Ok m) (hframed : area.Framed) (hfits : area.Fits) (hwithin : area.Within)
    (ho : m.Owns others (ms.frames ++ area.frames)) : Ensures (ms.insert area m)
      (fun r => r.1.Ok r.2 ∧ r.2.Owns others r.1.frames ∧ m.Keeps others r.2) fun _ => True := by
  refine (h.sound.insert hframed (fun _ => hwithin) ho).weaken.mono ?_
  rintro ⟨ms', m'⟩ hputs
  obtain ⟨area', hsame, -, hareas⟩ := hputs.areas
  refine ⟨hputs.sound.ok fun a ha => ?_, hputs.owns, hputs.keeps⟩
  rw [hareas] at ha
  rcases (values_put hputs.vacant).mp ha with rfl | ha
  · exact hsame.fits_iff.mpr hfits
  · exact (h.full a ha).fits

theorem insert_root (ms : MemorySet) (area : MapArea) (m : Machine) :
    Ensures (ms.insert area m) (fun r => r.1.pt.rootPaddr = ms.pt.rootPaddr) fun _ => True := by
  rw [MemorySet.insert, if_pos (insert_test area)]
  cases ms.areas.get? area.start with
  | some a => exact Ensures.throw trivial
  | none => exact (MapArea.mapArea_root _ _ _).bind fun _ h => Ensures.pure h

/-! `clear` and `drop` -/

theorem unmapAreas_spec {pt : PageTable} {areas : List MapArea} {l : List (Page × PhysAddr × MemFlags)}
    (hl : pt.Leaves m (areas.flatMap MapArea.mapped ++ l)) (hins : ∀ area ∈ areas, area.Inserted)
    (ho : m.Owns others (pt.tables ++ areaFrames areas)) : ∃ areas' m', unmapAreas pt m areas = .ok (areas', m') ∧
      (∀ area ∈ areas', area.Framed) ∧ pt.Leaves m' l ∧ m'.Owns others (pt.tables ++ areaFrames areas') ∧
      m.Keeps others m' := by
  induction areas generalizing m others with
  | nil => exact ⟨[], m, rfl, fun area ha => absurd ha List.not_mem_nil, hl, ho, Machine.Keeps.refl _ _⟩
  | cons area areas ih =>
    rw [areaFrames, List.flatMap_cons, ← List.append_assoc] at ho
    rw [List.flatMap_cons, List.append_assoc] at hl
    obtain ⟨area₁, m₁, hunmap, hframed, hl₁, ho₁, hkeeps₁⟩ := (hins area List.mem_cons_self).unmap hl ho.focus
    -- the frames that the first area still has are left to others
    have ho₂ : m₁.Owns others (pt.tables ++ areaFrames areas ++ area₁.frames) := by
      refine (ho.unfocus ho₁).perm ?_
      rw [List.append_assoc, List.append_assoc]
      exact List.Perm.append_left _ List.perm_append_comm
    obtain ⟨areas', m', hm', hareas, hl', ho', hkeeps'⟩ :=
      ih hl₁ (fun a ha => hins a (List.mem_cons_of_mem _ ha)) ho₂.focus
    refine ⟨area₁ :: areas', m', ?_, fun a ha => ?_, hl', (ho₂.unfocus ho').perm ?_,
      (hkeeps₁.mono Set.subset_union_left).trans (hkeeps'.mono Set.subset_union_left)⟩
    · rw [unmapAreas, hunmap]
      change (unmapAreas pt m₁ areas >>= _) = _
      rw [hm']
      rfl
    · rcases List.mem_cons.mp ha with rfl | ha
      · exact hframed
      · exact hareas a ha
    · rw [List.append_assoc, areaFrames, areaFrames, List.flatMap_cons]
      exact List.Perm.append_left _ List.perm_append_comm

theorem dropAreas_spec {areas : List MapArea} (hframed : ∀ area ∈ areas, area.Framed)
    (ho : m.Owns others (areaFrames areas)) :
    ∃ m', areas.foldlM (fun m area => area.drop m) m = .ok m' ∧ m'.Owns others [] ∧ m'.memory = m.memory := by
  induction areas generalizing m with
  | nil => exact ⟨m, rfl, ho, rfl⟩
  | cons area areas ih =>
    rw [areaFrames, List.flatMap_cons] at ho
    obtain ⟨m₁, hdrop, ho₁, hmem₁⟩ := MapArea.drop_spec (hframed area List.mem_cons_self) ho.focus
    obtain ⟨m', hm', ho', hmem'⟩ := ih (fun a ha => hframed a (List.mem_cons_of_mem _ ha)) (ho.unfocus ho₁)
    refine ⟨m', ?_, ho', hmem'.trans hmem₁⟩
    rw [List.foldlM_cons, hdrop]
    exact hm'

theorem Sound.clear (h : ms.Sound m) (ho : m.Owns others ms.frames) :
    ∃ m', ms.clear m = .ok ({ ms with areas := .empty }, m') ∧ Ok { ms with areas := .empty } m' ∧
      m'.Owns others ms.pt.tables ∧ m.Keeps others m' := by
  have hl : ms.pt.Leaves m (ms.areas.values.flatMap MapArea.mapped ++ []) := by
    rw [List.append_nil]
    exact h.leaves
  obtain ⟨areas, m₁, hm₁, hareas, hl₁, ho₁, hkeeps⟩ := unmapAreas_spec hl h.inserted ho
  have hframes := ho₁.perm List.perm_append_comm
  obtain ⟨m', hm', ho', hmem⟩ := dropAreas_spec hareas hframes.focus
  refine ⟨m', ?_, ⟨hl₁.congr fun t _ => by rw [hmem], fun e he => absurd he List.not_mem_nil,
    fun a ha => absurd ha List.not_mem_nil⟩, hframes.unfocus ho', fun f hf => by rw [hmem, hkeeps f hf]⟩
  rw [MemorySet.clear, hm₁]
  change (areas.foldlM (fun m area => area.drop m) m₁ >>= _) = _
  rw [hm']
  rfl

theorem Sound.drop (h : ms.Sound m) (ho : m.Owns others ms.frames) :
    ∃ m', ms.drop m = .ok m' ∧ m'.Owns others [] ∧ m.Keeps others m' := by
  obtain ⟨m₁, hclear, -, ho₁, hkeeps⟩ := h.clear ho
  obtain ⟨m', hdrop, ho', hmem⟩ := MapArea.dropFrames_spec ho₁
  refine ⟨m', ?_, ho', fun f hf => by rw [hmem, hkeeps f hf]⟩
  rw [MemorySet.drop, hclear]
  change (ms.pt.drop m₁ >>= _) = _
  rw [PageTable.drop, hdrop]
  rfl

/-! `clone` -/

/-- The areas of a set are as large as those of the list, and where they are. -/
def Like (areas : List MapArea) (ms : MemorySet) : Prop :=
  ∀ area ∈ ms.areas.values, ∃ a ∈ areas, MapArea.Same a area

/-- The areas of a set are copies of those of the list. -/
structure Copies (areas : List MapArea) (m₀ : Machine) (ms : MemorySet) (m : Machine) : Prop where
  copy : ∀ a ∈ areas, ∃ a', ms.areas.get? a.start = some a' ∧ MapArea.Same a a' ∧ a'.content m = a.content m₀
  orig : ∀ v a', ms.areas.get? v = some a' → ∃ a ∈ areas, a.start = v ∧ MapArea.Same a a'

theorem mem_values {a : MapArea} : a ∈ ms.areas.values ↔ ∃ v, ms.areas.get? v = some a := by
  rw [OrdMap.values, List.mem_map]
  constructor
  · rintro ⟨e, he, rfl⟩
    exact ⟨e.1, OrdMap.get?_eq_some.mpr he⟩
  · rintro ⟨v, hv⟩
    exact ⟨(v, a), OrdMap.get?_eq_some.mp hv, rfl⟩

theorem Copies.like {areas : List MapArea} {m₀ : Machine} (h : Copies areas m₀ ms m) : Like areas ms := by
  intro a' ha'
  obtain ⟨v, hv⟩ := mem_values.mp ha'
  obtain ⟨a, ha, -, hsame⟩ := h.orig v a' hv
  exact ⟨a, ha, hsame⟩

/-- Each area starts where no other one does. -/
theorem Sound.start_ne (h : ms.Sound m) {l₁ l₂ : List MapArea} (hvalues : ms.areas.values = l₁ ++ area :: l₂)
    (harea' : area' ∈ l₁) : area'.start ≠ area.start := by
  have hstart : ms.areas.values.map MapArea.start = ms.areas.entries.map Prod.fst := by
    rw [OrdMap.values, List.map_map]
    exact List.map_congr_left fun e he => h.start e he
  have hnd := OrdMap.keys_nodup ms.areas
  rw [← hstart, hvalues, List.map_append, List.map_cons] at hnd
  intro heq
  refine List.disjoint_of_nodup_append hnd (List.mem_map_of_mem harea') ?_
  rw [heq]
  exact List.mem_cons_self

/-- A page of an area that fits is mapped. -/
theorem Sound.page_mem (h : ms.Sound m) (harea : area ∈ ms.areas.values) (hfits : area.Fits) {k : ℕ}
    (hk : k < area.pages) : ∃ f, area.frame (area.addr k) = some f ∧
      ((area.addr k).page, f.startPaddr, area.flags) ∈ area.mapped := by
  have hfull := (h.inserted area harea).full hfits
  obtain ⟨f, hf⟩ := Option.isSome_iff_exists.mp ((hfull.keys _).mpr ⟨k, hk, rfl⟩)
  refine ⟨f, hf, ?_⟩
  rw [MapArea.mapped, if_pos hfits]
  exact List.mem_map.mpr ⟨_, MapArea.frame_eq_some.mp hf, rfl⟩

theorem Sound.pages_nodup (h : ms.Sound m) : (∀ a ∈ ms.areas.values, (a.mapped.map Prod.fst).Nodup) ∧
    ms.areas.values.Pairwise fun a b => (a.mapped.map Prod.fst).Disjoint (b.mapped.map Prod.fst) := by
  obtain ⟨-, -, hnd, -⟩ := h.leaves
  rw [mapped, List.map_flatMap, List.nodup_flatMap] at hnd
  exact hnd

/-- The pages of an area have different numbers. -/
theorem Sound.page_ne (h : ms.Sound m) (harea : area ∈ ms.areas.values) (hfits : area.Fits) {j k : ℕ} (hjk : j < k)
    (hk : k < area.pages) : (area.addr j).page ≠ (area.addr k).page := by
  intro hpage
  obtain ⟨f, hf, -⟩ := h.page_mem harea hfits (hjk.trans hk)
  obtain ⟨g, hg, -⟩ := h.page_mem harea hfits hk
  have hnd := h.pages_nodup.1 area harea
  rw [MapArea.mapped, if_pos hfits, MapArea.leaves, List.map_map] at hnd
  have heq := List.inj_on_of_nodup_map hnd (MapArea.frame_eq_some.mp hf) (MapArea.frame_eq_some.mp hg) hpage
  have := MapArea.addr_inj hfits (hjk.trans hk).le hk.le (congrArg Prod.fst heq)
  omega

/-- And so have those of two areas. -/
theorem Sound.page_apart (h : ms.Sound m) {l₁ l₂ : List MapArea} (hvalues : ms.areas.values = l₁ ++ area :: l₂)
    (hfits : area.Fits) (harea' : area' ∈ l₁) (hfits' : area'.Fits) {j k : ℕ} (hj : j < area'.pages)
    (hk : k < area.pages) : (area'.addr j).page ≠ (area.addr k).page := by
  intro hpage
  have hmem : area ∈ ms.areas.values := by rw [hvalues]; simp
  have hmem' : area' ∈ ms.areas.values := by rw [hvalues]; simp [harea']
  obtain ⟨f, -, hf⟩ := h.page_mem hmem' hfits' hj
  obtain ⟨g, -, hg⟩ := h.page_mem hmem hfits hk
  have hpair := h.pages_nodup.2
  rw [hvalues, List.pairwise_append] at hpair
  refine hpair.2.2 area' harea' area List.mem_cons_self (List.mem_map_of_mem hf) ?_
  change (area'.addr j).page ∈ _
  rw [hpage]
  exact List.mem_map_of_mem hg

/-- A copy of an area can be inserted into the copy of a set, unless the frames run out. -/
theorem Copies.insertFails {ms₀ : MemorySet} {m₀ : Machine} {l₁ l₂ : List MapArea} {a : MapArea} {e : Panic}
    (h₀ : ms₀.Sound m₀) (hvalues : ms₀.areas.values = l₁ ++ area :: l₂) (h : ms.Sound m) (hcopies : Copies l₁ m₀ ms m)
    (hsame : MapArea.Same area a) (hfails : ms.InsertFails a e) : e = .noFrame := by
  have hmem : area ∈ ms₀.areas.values := by rw [hvalues]; simp
  rcases hfails with ⟨-, hsome⟩ | ⟨hfits, rfl | ⟨k, hk, hfail⟩⟩
  · -- no other area starts there
    obtain ⟨a', ha'⟩ := Option.isSome_iff_exists.mp hsome
    obtain ⟨b, hb, hstart, -⟩ := hcopies.orig _ a' ha'
    exact absurd (hstart.trans hsame.start) (h₀.start_ne hvalues hb)
  · rfl
  · have hfits := hsame.fits_iff.mp hfits
    rw [hsame.pages] at hk
    have hfull := (h₀.inserted area hmem).full hfits
    rcases hfail with hinvalid | ⟨rfl, hpage | ⟨j, hj, hpage⟩⟩
    · rw [hsame.addr, hfull.valid k hk] at hinvalid
      cases hinvalid
    · -- a page of another copy is one of another area
      obtain ⟨⟨page, d⟩, hd, rfl⟩ := List.mem_map.mp hpage
      obtain ⟨a', ha', hfits', v, f, hf, hv, -⟩ := mem_mapped.mp hd
      obtain ⟨w, hw⟩ := mem_values.mp ha'
      obtain ⟨b, hb, -, hsame'⟩ := hcopies.orig w a' hw
      obtain ⟨j, hj, rfl⟩ := (((h.inserted a' ha').full hfits').keys v).mp (by rw [hf]; rfl)
      rw [hsame'.pages] at hj
      rw [hsame'.addr, hsame.addr] at hv
      exact absurd hv (h₀.page_apart hvalues hfits hb (hsame'.fits_iff.mp hfits') hj hk)
    · rw [hsame.addr, hsame.addr] at hpage
      exact absurd hpage (h₀.page_ne hmem hfits hj hk)

theorem Copies.snoc {m₀ m₁ : Machine} {l : List MapArea} {a : MapArea} {r : MemorySet × Machine}
    (h : Copies l m₀ ms m₁) (hsame : MapArea.Same area a) (hcontent : a.content m₁ = area.content m₀)
    (hstart : ∀ b ∈ l, b.start ≠ area.start) (hputs : ms.Puts others a m₁ r) :
    Copies (l ++ [area]) m₀ r.1 r.2 := by
  obtain ⟨a', hsame', hcontent', hareas⟩ := hputs.areas
  have hget : ∀ v, r.1.areas.get? v = if v = area.start then some a' else ms.areas.get? v := fun v => by
    rw [hareas, OrdMap.get?_insert hputs.vacant, hsame.start]
  refine ⟨fun b hb => ?_, fun v b hb => ?_⟩
  · rcases List.mem_append.mp hb with hb | hb
    · obtain ⟨b', hb', hsb, hcb⟩ := h.copy b hb
      refine ⟨b', by rw [hget, if_neg (hstart b hb), hb'], hsb, ?_⟩
      rw [hputs.old b' (mem_values.mpr ⟨_, hb'⟩), hcb]
    · rw [List.mem_singleton.mp hb]
      exact ⟨a', by rw [hget, if_pos rfl], hsame.trans hsame', hcontent'.trans hcontent⟩
  · rw [hget] at hb
    split_ifs at hb with hv
    · rw [← Option.some.inj hb]
      exact ⟨area, by simp, hv.symm, hsame.trans hsame'⟩
    · obtain ⟨c, hc, hcv, hsc⟩ := h.orig v b hb
      exact ⟨c, List.mem_append_left _ hc, hcv, hsc⟩

/-- The areas are copied one after the other. -/
theorem Sound.cloneAreas {ms₀ : MemorySet} {m₀ : Machine} {l₁ l₂ : List MapArea} (h₀ : ms₀.Sound m₀)
    (hin : ∀ f ∈ areaFrames ms₀.areas.values, f ∈ others) (hvalues : ms₀.areas.values = l₁ ++ l₂) (h : ms.Sound m)
    (ho : m.Owns others ms.frames) (hkeeps : m₀.Keeps others m) (hcopies : Copies l₁ m₀ ms m) :
    Ensures (ms.cloneAreas m l₂)
      (fun r => r.1.Sound r.2 ∧ r.2.Owns others r.1.frames ∧ m₀.Keeps others r.2 ∧
        Copies ms₀.areas.values m₀ r.1 r.2) (· = .noFrame) := by
  induction l₂ generalizing ms m l₁ with
  | nil =>
    rw [List.append_nil] at hvalues
    exact Ensures.pure ⟨h, ho, hkeeps, hvalues ▸ hcopies⟩
  | cons area l₂ ih =>
    have hmem : area ∈ ms₀.areas.values := by rw [hvalues]; simp
    have harea := h₀.inserted area hmem
    have hframes : ∀ f ∈ area.frames, f ∈ others := fun f hf => hin f (List.mem_flatMap.mpr ⟨area, hmem, hf⟩)
    have hnil : m.Owns others ([] ++ ms.frames) := ho
    refine (MapArea.clone_spec harea.framed hnil.focus).bind ?_
    rintro ⟨a, m₁⟩ ⟨hsame, hkeys, hcontent, ho₁, hkeeps₁⟩
    dsimp only at hsame hkeys hcontent ho₁ hkeeps₁ ⊢
    have hcontent₁ : a.content m₁ = area.content m₀ := by
      rw [hcontent fun f hf => .inl (hframes f hf)]
      exact MapArea.content_congr fun f hf => hkeeps f (hframes f hf)
    have hwithin : a.Fits → a.Within := by
      intro hfits _ u g hu
      have hfull := harea.full (hsame.fits_iff.mp hfits)
      obtain ⟨k, hk, hu⟩ := (hfull.keys u).mp ((hkeys u).mp (by rw [hu]; rfl))
      exact ⟨k, by rw [hsame.pages]; exact hk, by rw [hsame.addr]; exact hu⟩
    -- what has been copied so far is not touched
    have hmem₁ : ∀ f ∈ ms.frames, m₁.memory f = m.memory f := fun f hf => hkeeps₁ f (.inr hf)
    have hsound : ms.Sound m₁ := h.congr fun t ht => hmem₁ t (List.mem_append_left _ ht)
    have hcopies₁ : Copies l₁ m₀ ms m₁ := by
      refine ⟨fun b hb => ?_, hcopies.orig⟩
      obtain ⟨b', hb', hsb, hcb⟩ := hcopies.copy b hb
      refine ⟨b', hb', hsb, Eq.trans (MapArea.content_congr fun f hf => hmem₁ f ?_) hcb⟩
      exact List.mem_append_right _ (List.mem_flatMap.mpr ⟨b', mem_values.mpr ⟨_, hb'⟩, hf⟩)
    have hinsert := hsound.insert hsame.framed hwithin ((hnil.unfocus ho₁).perm List.perm_append_comm)
    refine (hinsert.fails_imp fun e he => hcopies₁.insertFails h₀ hvalues hsound hsame he).bind fun r hputs => ?_
    have hstart : ∀ b ∈ l₁, b.start ≠ area.start := fun b hb => h₀.start_ne hvalues hb
    refine ih ?_ hputs.sound hputs.owns ?_ (hcopies₁.snoc hsame hcontent₁ hstart hputs)
    · rw [hvalues, List.append_assoc, List.singleton_append]
    · exact (hkeeps.trans (hkeeps₁.mono Set.subset_union_left)).trans hputs.keeps

theorem Sound.clone (h : ms.Sound m) (hin : ∀ f ∈ areaFrames ms.areas.values, f ∈ others) (ho : m.Owns others []) :
    Ensures (ms.clone m) (fun r => r.1.Sound r.2 ∧ r.2.Owns others r.1.frames ∧ m.Keeps others r.2 ∧
      Copies ms.areas.values m r.1 r.2) (· = .noFrame) := by
  refine (new_spec ho).bind ?_
  rintro ⟨ms', m₁⟩ ⟨hok, ho₁, hkeeps₁, hempty⟩
  refine h.cloneAreas hin (List.nil_append _).symm hok.sound ho₁ hkeeps₁ ⟨fun a ha => absurd ha List.not_mem_nil, ?_⟩
  intro v a ha
  rw [hempty] at ha
  cases ha

theorem clone_spec (h : ms.Ok m) (hin : ∀ f ∈ areaFrames ms.areas.values, f ∈ others) (ho : m.Owns others []) :
    Ensures (ms.clone m) (fun r => r.1.Ok r.2 ∧ r.2.Owns others r.1.frames ∧ m.Keeps others r.2) fun _ => True := by
  refine (h.sound.clone hin ho).weaken.mono ?_
  rintro r ⟨hsound, ho', hkeeps, hcopies⟩
  refine ⟨hsound.ok fun a ha => ?_, ho', hkeeps⟩
  obtain ⟨a₀, ha₀, hsame⟩ := hcopies.like a ha
  exact hsame.fits_iff.mpr (h.full a₀ ha₀).fits

end MemorySet

end RCore.Mm
