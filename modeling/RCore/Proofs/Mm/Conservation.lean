import RCore.Sanity.Mm.Sets

/-! No frame is lost and none has two owners, over all runs of operations on any number of
memory sets. -/

namespace RCore.Mm

open RCore.Lib

/-- The table `i` of a set, or a page of an area of it. -/
inductive Owner where
  | table (n i : ℕ)
  | page (n : ℕ) (start v : VirtAddr)

namespace Sets

def frameOf (s : Sets) : Owner → Option ℕ
  | .table n i => (s.set n).bind fun ms => ms.pt.intrmTables[i]?.map PhysFrame.number
  | .page n start v => (s.set n).bind fun ms =>
      (ms.areas.get? start).bind fun area => (area.frame v).map PhysFrame.number

/-- The frames in use are those of `m`, and one for each owner. The pages of the areas, and no
others, are mapped, each to its frame. The sets can be cleared and dropped; when all are gone
the frames in use are those of `m`. -/
structure Conserved (m : Machine) (s : Sets) : Prop where
  owned : ∀ f, f ∈ s.machine.outstanding ↔ f ∈ m.outstanding ∨ ∃ o, s.frameOf o = some f
  apart : ∀ o f, s.frameOf o = some f → f ∉ m.outstanding
  unique : ∀ o o' f, s.frameOf o = some f → s.frameOf o' = some f → o = o'
  pages : ∀ n ms start area, s.set n = some ms → ms.areas.get? start = some area →
    ∀ v, (area.frame v).isSome ↔ ∃ k < area.pages, v = area.addr k
  mapped : ∀ n ms start area v f, s.set n = some ms → ms.areas.get? start = some area → area.frame v = some f →
    ∀ u : VirtAddr, u.page = v.page →
      ms.pt.query s.machine u = .ok (some (⟨f.startPaddr.bits + u.pageOffset⟩, area.flags))
  unmapped : ∀ n ms, s.set n = some ms → ∀ u : VirtAddr, (∀ start area v, ms.areas.get? start = some area →
    (area.frame v).isSome → u.page ≠ v.page) → ms.pt.query s.machine u = .ok none
  clear : ∀ n ms, s.set n = some ms → ∃ r, ms.clear s.machine = .ok r
  drop : ∀ n ms, s.set n = some ms → ∃ r, ms.drop s.machine = .ok r
  restored : (∀ n, s.set n = none) → s.machine.outstanding = m.outstanding

/-- The end of every area is an address. -/
def Fits (s : Sets) : Prop := ∀ n ms start area, s.set n = some ms → ms.areas.get? start = some area → area.Fits

/-! The invariant -/

structure Inv (m : Machine) (s : Sets) : Prop where
  owns : s.machine.Owns m.outstanding (s.sets.flatMap setFrames)
  ok : ∀ ms, some ms ∈ s.sets → ms.Ok s.machine

variable {m m' : Machine} {s s' : Sets} {n : ℕ} {ms ms' : MemorySet} {o o' : Option MemorySet}

theorem inv_iff : s.Inv m ↔ s.Holds MemorySet.Ok m := ⟨fun h => ⟨h.owns, h.ok⟩, fun h => ⟨h.owns, h.sets⟩⟩

theorem Inv.replace (h : s.Inv m) (hn : s.sets[n]? = some o)
    (ho : m'.Owns (m.outstanding ∪ {f | f ∈ s.rest n}) (setFrames o'))
    (hk : s.machine.Keeps (m.outstanding ∪ {f | f ∈ s.rest n}) m') (hok : ∀ ms, o' = some ms → ms.Ok m') :
    Inv m ⟨m', s.sets.set n o'⟩ :=
  inv_iff.mpr ((inv_iff.mp h).replace hn (fun _ => MemorySet.Ok.congr) ho hk hok)

theorem Inv.append (h : s.Inv m) (ho : m'.Owns (m.outstanding ∪ {f | f ∈ s.sets.flatMap setFrames}) ms.frames)
    (hk : s.machine.Keeps (m.outstanding ∪ {f | f ∈ s.sets.flatMap setFrames}) m') (hok : ms.Ok m') :
    Inv m ⟨m', s.sets ++ [some ms]⟩ :=
  inv_iff.mpr ((inv_iff.mp h).append (fun _ => MemorySet.Ok.congr) ho hk hok)

theorem Inv.ok_set (h : s.Inv m) (hn : s.set n = some ms) : ms.Ok s.machine := (inv_iff.mp h).of_set hn

theorem Inv.focus (h : s.Inv m) (hn : s.set n = some ms) :
    s.machine.Owns (m.outstanding ∪ {f | f ∈ s.rest n}) ms.frames := (inv_iff.mp h).focus hn

theorem Inv.start (hm : m.Ok) : Inv m ⟨m, []⟩ := inv_iff.mpr (.start hm)

/-! Inserting an area -/

theorem writeAll_spec {area : MapArea} {others : Set ℕ} {writes : List (Usize × Slice)} (hframed : area.Framed)
    (hwithin : area.Within) (ho : m.Owns others area.frames) : Ensures (area.writeAll m writes)
      (fun r => MapArea.Same area r.1 ∧ r.1.Within ∧ r.2.Owns others r.1.frames ∧ m.Keeps others r.2)
      fun _ => True := by
  induction writes generalizing area m with
  | nil => exact Ensures.pure ⟨MapArea.Same.refl hframed, hwithin, ho, Machine.Keeps.refl _ _⟩
  | cons w writes ih =>
    refine (MapArea.writeData_spec hframed hwithin ho w.1 w.2).bind ?_
    rintro ⟨area₁, m₁⟩ ⟨hsame, hwithin₁, ho₁, hkeeps₁⟩
    refine (ih hsame.framed hwithin₁ ho₁).mono ?_
    rintro r ⟨hsame', hwithin', ho', hkeeps'⟩
    exact ⟨hsame.trans hsame', hwithin', ho', hkeeps₁.trans hkeeps'⟩

/-- The area before it is inserted has the frames that data was written to. -/
theorem prepared_spec {others : Set ℕ} (h : ms.Ok m) (ho : m.Owns others ms.frames) (start : VirtAddr) (size : Usize)
    (flags : MemFlags) (writes : List (Usize × Slice)) :
    Ensures (MapArea.newFramed start size flags >>= fun area => area.writeAll m writes)
      (fun r => ms.Ok r.2 ∧ r.1.Framed ∧ r.1.Within ∧ r.2.Owns others (ms.frames ++ r.1.frames) ∧ m.Keeps others r.2)
      fun _ => True := by
  refine (MapArea.newFramed_spec start size flags).weaken.bind ?_
  rintro area ⟨-, -, hframed, hframes, hwithin⟩
  have hnil : m.Owns others (area.frames ++ ms.frames) := by
    rw [hframes]
    exact ho
  refine (writeAll_spec hframed hwithin hnil.focus).mono ?_
  rintro ⟨area', m'⟩ ⟨hsame, hwithin', ho', hkeeps⟩
  exact ⟨h.congr fun f hf => hkeeps f (.inr hf), hsame.framed, hwithin',
    (hnil.unfocus ho').perm List.perm_append_comm, hkeeps.mono Set.subset_union_left⟩

/-- An area whose end is not an address has just been inserted, and nothing was mapped. -/
def Misfit (s : Sets) : Prop := ∃ (n : ℕ) (ms : MemorySet) (area : MapArea), ms.Ok s.machine ∧ ms.areas.get? area.start = none ∧ ¬ area.Fits ∧
  s.set n = some { ms with areas := ms.areas.insert area.start area }

theorem set_set (hn : s.set n = some ms) (o' : Option MemorySet) : set ⟨m', s.sets.set n o'⟩ n = o' := by
  obtain ⟨hlt, -⟩ := List.getElem?_eq_some_iff.mp (set_eq_some.mp hn)
  rw [Sets.set]
  dsimp only
  rw [List.getElem?_set_self hlt]
  rfl

theorem Inv.insert (h : s.Inv m) (hn : s.set n = some ms) (start : VirtAddr) (size : Usize) (flags : MemFlags)
    (writes : List (Usize × Slice)) :
    Ensures (s.step (.insert n start size flags writes)) (fun s' => s'.Inv m ∨ s'.Misfit) fun _ => True := by
  rw [step, hn]
  dsimp only
  rw [← bind_assoc]
  refine (prepared_spec (h.ok_set hn) (h.focus hn) start size flags writes).bind ?_
  rintro ⟨area, m₁⟩ ⟨hok, hframed, hwithin, ho, hkeeps⟩
  by_cases hfits : area.Fits
  · refine (MemorySet.insert_spec hok hframed hfits hwithin ho).bind ?_
    rintro ⟨ms', m'⟩ ⟨hok', ho', hkeeps'⟩
    refine Ensures.pure (.inl (h.replace (set_eq_some.mp hn) ho' (hkeeps.trans hkeeps') ?_))
    intro ms₁ hms₁
    rw [← Option.some.inj hms₁]
    exact hok'
  · cases hget : ms.areas.get? area.start with
    | some a =>
      dsimp only
      rw [MemorySet.insert, if_pos (MemorySet.insert_test area), hget]
      exact Ensures.throw trivial
    | none =>
      dsimp only
      rw [MemorySet.insert_of_not_fits hfits hget]
      exact Ensures.pure (.inr ⟨n, ms, area, hok, hget, hfits, set_set hn _⟩)

theorem Inv.step (h : s.Inv m) (op : SetOp) :
    Ensures (s.step op) (fun s' => s'.Inv m ∨ s'.Misfit) fun _ => True := by
  have hnil := (inv_iff.mp h).owns_nil
  cases op with
  | new =>
    refine (MemorySet.new_spec hnil).weaken.bind ?_
    rintro ⟨ms, m'⟩ ⟨hok, ho, hkeeps, -⟩
    exact Ensures.pure (.inl (h.append ho hkeeps hok))
  | insert n start size flags writes =>
    cases hn : s.set n with
    | some ms => exact h.insert hn start size flags writes
    | none =>
      rw [Sets.step, hn]
      exact Ensures.pure (.inl h)
  | clone n =>
    rw [Sets.step]
    cases hn : s.set n with
    | some ms =>
      refine (MemorySet.clone_spec (h.ok_set hn) (areaFrames_outstanding m hn) hnil).bind ?_
      rintro ⟨ms', m'⟩ ⟨hok, ho, hkeeps⟩
      exact Ensures.pure (.inl (h.append ho hkeeps hok))
    | none => exact Ensures.pure (.inl h)
  | clear n =>
    rw [Sets.step]
    cases hn : s.set n with
    | some ms =>
      obtain ⟨m', hm', hok, ho, hkeeps⟩ := (h.ok_set hn).sound.clear (h.focus hn)
      dsimp only
      rw [hm']
      have hframes : m'.Owns (m.outstanding ∪ {f | f ∈ s.rest n}) (setFrames (some { ms with areas := .empty })) :=
        ho.perm (List.Perm.of_eq (List.append_nil _).symm)
      refine Ensures.pure (.inl (h.replace (set_eq_some.mp hn) hframes hkeeps ?_))
      intro ms₁ hms₁
      rw [← Option.some.inj hms₁]
      exact hok
    | none => exact Ensures.pure (.inl h)
  | drop n =>
    rw [Sets.step]
    cases hn : s.set n with
    | some ms =>
      obtain ⟨m', hm', ho, hkeeps⟩ := (h.ok_set hn).sound.drop (h.focus hn)
      dsimp only
      rw [hm']
      refine Ensures.pure (.inl (h.replace (set_eq_some.mp hn) ho hkeeps ?_))
      intro _ hnone
      cases hnone
    | none => exact Ensures.pure (.inl h)

/-! What the invariant says about owners -/

/-- The owners of the frames of a set. -/
def setOwners (n : ℕ) (ms : MemorySet) : List (Owner × ℕ) :=
  ms.pt.intrmTables.zipIdx.map (fun e => (.table n e.2, e.1.number)) ++
    ms.areas.entries.flatMap fun a => a.2.entries.map fun e => (.page n a.1 e.1, e.2.number)

def owners (s : Sets) : List (Owner × ℕ) :=
  s.sets.zipIdx.flatMap fun e => e.1.elim [] (setOwners e.2)

theorem map_setOwners (n : ℕ) (ms : MemorySet) : (setOwners n ms).map Prod.snd = ms.frames := by
  rw [setOwners, List.map_append, List.map_map, List.map_flatMap]
  refine congrArg₂ _ ?_ ?_
  · change ms.pt.intrmTables.zipIdx.map (PhysFrame.number ∘ Prod.fst) = _
    rw [← List.map_map, List.zipIdx_map_fst, PageTable.tables]
  · rw [MemorySet.areaFrames, OrdMap.values, List.flatMap_map]
    refine List.flatMap_congr fun a _ => ?_
    rw [List.map_map]
    rfl

theorem map_owners (s : Sets) : s.owners.map Prod.snd = s.sets.flatMap setFrames := by
  rw [owners, List.map_flatMap]
  have helim : ∀ e : Option MemorySet × ℕ, (e.1.elim [] (setOwners e.2)).map Prod.snd = setFrames e.1 := by
    rintro ⟨o, n⟩
    cases o with
    | none => rfl
    | some ms => exact map_setOwners n ms
  simp only [helim]
  rw [← List.flatMap_map Prod.fst setFrames, List.zipIdx_map_fst]

theorem mem_setOwners_table {k i f : ℕ} :
    (.table k i, f) ∈ setOwners n ms ↔ k = n ∧ ms.pt.intrmTables[i]?.map PhysFrame.number = some f := by
  rw [setOwners, List.mem_append, List.mem_map, List.mem_flatMap, Option.map_eq_some_iff]
  constructor
  · rintro (⟨⟨g, j⟩, hg, he⟩ | ⟨a, -, he⟩)
    · rw [Prod.mk.injEq, Owner.table.injEq] at he
      obtain ⟨⟨rfl, rfl⟩, rfl⟩ := he
      exact ⟨rfl, g, List.mk_mem_zipIdx_iff_getElem?.mp hg, rfl⟩
    · obtain ⟨e, -, he⟩ := List.mem_map.mp he
      cases he
  · rintro ⟨rfl, g, hg, rfl⟩
    exact .inl ⟨(g, i), List.mk_mem_zipIdx_iff_getElem?.mpr hg, rfl⟩

theorem mem_setOwners_page {k f : ℕ} {start v : VirtAddr} : (.page k start v, f) ∈ setOwners n ms ↔
    k = n ∧ ((ms.areas.get? start).bind fun area => (area.frame v).map PhysFrame.number) = some f := by
  rw [setOwners, List.mem_append, List.mem_map, List.mem_flatMap, Option.bind_eq_some_iff]
  constructor
  · rintro (⟨e, -, he⟩ | ⟨a, ha, he⟩)
    · cases he
    · obtain ⟨e, hmem, he⟩ := List.mem_map.mp he
      rw [Prod.mk.injEq, Owner.page.injEq] at he
      obtain ⟨⟨rfl, rfl, rfl⟩, rfl⟩ := he
      exact ⟨rfl, a.2, OrdMap.get?_eq_some.mpr ha, Option.map_eq_some_iff.mpr ⟨e.2, MapArea.frame_eq_some.mpr hmem, rfl⟩⟩
  · rintro ⟨rfl, area, ha, hf⟩
    obtain ⟨g, hg, rfl⟩ := Option.map_eq_some_iff.mp hf
    exact .inr ⟨(start, area), OrdMap.get?_eq_some.mp ha,
      List.mem_map.mpr ⟨(v, g), MapArea.frame_eq_some.mp hg, rfl⟩⟩

theorem mem_owners (s : Sets) (o : Owner) (f : ℕ) : (o, f) ∈ s.owners ↔ s.frameOf o = some f := by
  have hset : (o, f) ∈ s.owners ↔ ∃ n ms, s.set n = some ms ∧ (o, f) ∈ setOwners n ms := by
    rw [owners, List.mem_flatMap]
    constructor
    · rintro ⟨⟨_ | ms, n⟩, hmem, ho⟩
      · exact absurd ho List.not_mem_nil
      · exact ⟨n, ms, set_eq_some.mpr (List.mk_mem_zipIdx_iff_getElem?.mp hmem), ho⟩
    · rintro ⟨n, ms, hn, ho⟩
      exact ⟨(some ms, n), List.mk_mem_zipIdx_iff_getElem?.mpr (set_eq_some.mp hn), ho⟩
  rw [hset]
  cases o with
  | table k i =>
    simp only [mem_setOwners_table, frameOf, Option.bind_eq_some_iff]
    constructor
    · rintro ⟨n, ms, hn, rfl, hf⟩
      exact ⟨ms, hn, hf⟩
    · rintro ⟨ms, hn, hf⟩
      exact ⟨k, ms, hn, rfl, hf⟩
  | page k start v =>
    simp only [mem_setOwners_page, frameOf, Option.bind_eq_some_iff]
    constructor
    · rintro ⟨n, ms, hn, rfl, hf⟩
      exact ⟨ms, hn, hf⟩
    · rintro ⟨ms, hn, hf⟩
      exact ⟨k, ms, hn, rfl, hf⟩

theorem mem_frames (s : Sets) (f : ℕ) : f ∈ s.sets.flatMap setFrames ↔ ∃ o, s.frameOf o = some f := by
  rw [← map_owners, List.mem_map]
  constructor
  · rintro ⟨e, he, rfl⟩
    exact ⟨e.1, (mem_owners s e.1 e.2).mp he⟩
  · rintro ⟨o, ho⟩
    exact ⟨(o, f), (mem_owners s o f).mpr ho, rfl⟩

/-! The property -/

/-- The pages that a set maps. -/
theorem mem_leaves {page : Page} {e : PhysAddr × MemFlags} : (page, e) ∈ ms.leaves ↔ ∃ start area v f,
    ms.areas.get? start = some area ∧ area.frame v = some f ∧ v.page = page ∧ e = (f.startPaddr, area.flags) := by
  rw [MemorySet.leaves, List.mem_flatMap]
  constructor
  · rintro ⟨area, harea, he⟩
    obtain ⟨a, ha, rfl⟩ := List.mem_map.mp harea
    obtain ⟨d, hd, hde⟩ := List.mem_map.mp he
    rw [Prod.mk.injEq] at hde
    exact ⟨a.1, a.2, d.1, d.2, OrdMap.get?_eq_some.mpr ha, MapArea.frame_eq_some.mpr hd, hde.1, hde.2.symm⟩
  · rintro ⟨start, area, v, f, harea, hf, rfl, rfl⟩
    exact ⟨area, List.mem_map.mpr ⟨_, OrdMap.get?_eq_some.mp harea, rfl⟩,
      List.mem_map.mpr ⟨_, MapArea.frame_eq_some.mp hf, rfl⟩⟩

theorem query_leaf {pt : PageTable} {l : List (Page × PhysAddr × MemFlags)} (hl : pt.Leaves m l) {u : VirtAddr}
    {f : PhysFrame} {flags : MemFlags} (hu : (u.page, f.startPaddr, flags) ∈ l) :
    pt.query m u = .ok (some (⟨f.startPaddr.bits + u.pageOffset⟩, flags)) := by
  rw [hl.query_mem hu f.toNat_start.1, PhysFrame.alignDown_start]

theorem Inv.area_full (h : s.Inv m) (hn : s.set n = some ms) {start : VirtAddr} {area : MapArea}
    (ha : ms.areas.get? start = some area) : area.Full :=
  (h.ok_set hn).full area (List.mem_map.mpr ⟨_, OrdMap.get?_eq_some.mp ha, rfl⟩)

theorem Inv.conserved (h : s.Inv m) : s.Conserved m where
  owned f := by
    rw [← mem_frames]
    exact h.owns.mem_live f
  apart o f hf := h.owns.apart f ((mem_frames s f).mpr ⟨o, hf⟩)
  unique o o' f ho ho' := by
    have hnd : (s.owners.map Prod.snd).Nodup := by
      rw [map_owners]
      exact h.owns.nodup
    exact congrArg Prod.fst
      (List.inj_on_of_nodup_map hnd ((mem_owners s o f).mpr ho) ((mem_owners s o' f).mpr ho') rfl)
  pages n ms start area hn ha := (h.area_full hn ha).keys
  mapped n ms start area v f hn ha hf u hu := by
    refine query_leaf (h.ok_set hn).leaves (mem_leaves.mpr ⟨start, area, v, f, ha, hf, hu.symm, rfl⟩)
  unmapped n ms hn u hu := by
    refine (h.ok_set hn).leaves.query_not_mem fun e he => ?_
    obtain ⟨start, area, v, f, ha, hf, hpage, -⟩ := mem_leaves.mp he
    exact hu start area v ha (by rw [hf]; rfl) hpage.symm
  clear n ms hn := by
    obtain ⟨m', hm', -⟩ := (h.ok_set hn).sound.clear (h.focus hn)
    exact ⟨_, hm'⟩
  drop n ms hn := by
    obtain ⟨m', hm', -⟩ := (h.ok_set hn).sound.drop (h.focus hn)
    exact ⟨_, hm'⟩
  restored hnone := by
    ext f
    rw [h.owns.mem_live, or_iff_left]
    intro hf
    obtain ⟨o, ho⟩ := (mem_frames s f).mp hf
    cases o with
    | table n i =>
      rw [frameOf, hnone] at ho
      cases ho
    | page n start v =>
      rw [frameOf, hnone] at ho
      cases ho

theorem Inv.fits (h : s.Inv m) : s.Fits := fun _ _ _ _ hn ha => (h.area_full hn ha).fits

theorem Misfit.not_fits (h : s.Misfit) : ¬ s.Fits := by
  obtain ⟨n, ms, area, -, hget, hnot, hn⟩ := h
  refine fun hfits => hnot (hfits n _ area.start area hn ?_)
  exact (OrdMap.get?_insert hget area area.start).trans (if_pos rfl)

/-- The first page of the area is not mapped, or it is mapped to the frame of another area. -/
theorem Misfit.not_conserved (h : s.Misfit) : ¬ s.Conserved m := by
  obtain ⟨n, ms, area, hok, hget, hnot, hn⟩ := h
  intro hc
  have hself : (ms.areas.insert area.start area).get? area.start = some area :=
    (OrdMap.get?_insert hget area area.start).trans (if_pos rfl)
  have hpos : 0 < area.pages := by
    have := area.pages_mul
    have := area.start.bits.isLt
    have hsum : ¬ area.start.bits.toNat + area.size.toNat < 2 ^ 64 := hnot
    omega
  have hsome := (hc.pages n _ area.start area hn hself area.start).mpr ⟨0, hpos, area.addr_zero.symm⟩
  obtain ⟨f, hf⟩ := Option.isSome_iff_exists.mp hsome
  have hquery := hc.mapped n _ area.start area area.start f hn hself hf area.start rfl
  by_cases hleaf : ∃ e, (area.start.page, e) ∈ ms.leaves
  · obtain ⟨e, he⟩ := hleaf
    obtain ⟨b, area', w, g, hb, hg, -, rfl⟩ := mem_leaves.mp he
    rw [query_leaf hok.leaves he, Except.ok.injEq, Option.some.injEq, Prod.mk.injEq, PhysAddr.mk.injEq] at hquery
    have hstart : g.startPaddr = f.startPaddr := congrArg PhysAddr.mk (add_right_cancel hquery.1)
    have hne : b ≠ area.start := by
      rintro rfl
      rw [hget] at hb
      cases hb
    have hb' : (ms.areas.insert area.start area).get? b = some area' := by
      rw [OrdMap.get?_insert hget, if_neg hne, hb]
    have howner := hc.unique (.page n area.start area.start) (.page n b w) f.number
      (by rw [frameOf, hn, Option.bind_some, hself, Option.bind_some, hf, Option.map_some])
      (by rw [frameOf, hn, Option.bind_some, hb', Option.bind_some, hg, Option.map_some, PhysFrame.number_eq,
        hstart, PhysFrame.number_eq])
    rw [Owner.page.injEq] at howner
    exact hne howner.2.1.symm
  · rw [hok.leaves.query_not_mem fun e he => hleaf ⟨e, he⟩] at hquery
    cases hquery

end Sets

theorem SetTrace.inv {m : Machine} {s : Sets} {states : List Sets} (hm : m.Ok) (h : SetTrace m s states)
    (hfit : ∀ r ∈ states, ¬ r.Misfit) : s.Inv m ∧ ∀ r ∈ states, r.Inv m := by
  induction h with
  | start =>
    refine ⟨.start hm, fun r hr => ?_⟩
    rw [List.mem_singleton.mp hr]
    exact .start hm
  | @step s s' states op h hs ih =>
    obtain ⟨hinv, hall⟩ := ih fun r hr => hfit r (List.mem_cons_of_mem _ hr)
    have hinv' : s'.Inv m := ((hinv.step op).post_of_ok hs).resolve_right (hfit s' List.mem_cons_self)
    refine ⟨hinv', fun r hr => ?_⟩
    rcases List.mem_cons.mp hr with rfl | hr
    · exact hinv'
    · exact hall r hr

/-- In a run of operations on memory sets the frames are conserved in every state exactly when
the end of every area, in every state, is an address. -/
theorem frame_conservation_iff {m : Machine} {s : Sets} {states : List Sets} (hm : m.Ok) (h : SetTrace m s states) :
    (∀ r ∈ states, r.Conserved m) ↔ ∀ r ∈ states, r.Fits := by
  constructor
  · intro hall r hr
    exact ((h.inv hm fun r hr hmis => hmis.not_conserved (hall r hr)).2 r hr).fits
  · intro hall r hr
    exact ((h.inv hm fun r hr hmis => hmis.not_fits (hall r hr)).2 r hr).conserved

/-- The states after some operations, if nothing panics. -/
def Sets.run (s : Sets) (states : List Sets) : List SetOp → Except Panic (Sets × List Sets)
  | [] => pure (s, states)
  | op :: ops => do
    let s' ← s.step op
    s'.run (s' :: states) ops

theorem SetTrace.run {m : Machine} {s : Sets} {states : List Sets} {ops : List SetOp} {r : Sets × List Sets}
    (h : SetTrace m s states) (hr : s.run states ops = .ok r) : SetTrace m r.1 r.2 := by
  induction ops generalizing s states with
  | nil =>
    rw [← Except.ok.inj hr]
    exact h
  | cons op ops ih =>
    rw [Sets.run] at hr
    cases hs : s.step op with
    | error e =>
      rw [hs] at hr
      cases hr
    | ok s' =>
      rw [hs] at hr
      exact ih (h.step hs) hr

/-- An allocator with 32 frames. -/
def frames32 : Machine := ⟨⟨0, 32, 0, []⟩, fun _ => 0⟩

theorem frames32_ok : frames32.Ok :=
  ⟨⟨le_rfl, by decide, fun _ h => absurd h List.not_mem_nil, List.nodup_nil⟩, by decide⟩

theorem exists_setTrace {ops : List SetOp} {test : Sets × List Sets → Bool}
    (h : (Sets.run ⟨frames32, []⟩ [⟨frames32, []⟩] ops).toOption.any test = true) :
    ∃ s states, SetTrace frames32 s states ∧ test (s, states) = true := by
  obtain ⟨r, hr, htest⟩ := (Option.any_eq_true ..).mp h
  cases hrun : Sets.run ⟨frames32, []⟩ [⟨frames32, []⟩] ops with
  | error e =>
    rw [hrun] at hr
    cases hr
  | ok r' =>
    rw [hrun] at hr
    obtain rfl := Option.some.inj hr
    exact ⟨_, _, SetTrace.start.run hrun, htest⟩

theorem Sets.fits_of_all {s : Sets}
    (h : (s.sets.all fun o => o.elim true fun ms => ms.areas.values.all fun area => area.Fits) = true) : s.Fits := by
  intro n ms start area hn ha
  have hms := List.all_eq_true.mp h _ (List.mem_of_getElem? (set_eq_some.mp hn))
  exact of_decide_eq_true (List.all_eq_true.mp hms area (List.mem_map.mpr ⟨_, OrdMap.get?_eq_some.mp ha, rfl⟩))

/-- A set with an area of two pages and a copy of it are made and dropped: no frame is in use
then. -/
theorem frame_conservation_iff_dropped : ∃ s states, SetTrace frames32 s states ∧ states.length = 7 ∧
    (∀ r ∈ states, r.Conserved frames32) ∧ s.machine.outstanding = frames32.outstanding := by
  have hrun : (Sets.run ⟨frames32, []⟩ [⟨frames32, []⟩] [.new,
      .insert 0 ⟨0x1000⟩ 0x2000 ⟨true, true, false, true, false⟩ [(8, ⟨[1, 2, 3], by decide⟩)],
      .clone 0, .clear 0, .drop 1, .drop 0]).toOption.any (fun r => r.2.length == 7 &&
        r.2.all (fun s => s.sets.all fun o => o.elim true fun ms => ms.areas.values.all fun area => area.Fits) &&
        r.1.sets == [none, none]) = true := by
    decide +kernel
  obtain ⟨s, states, h, htest⟩ := exists_setTrace hrun
  simp only [Bool.and_eq_true, beq_iff_eq] at htest
  obtain ⟨⟨hlen, hfits⟩, hsets⟩ := htest
  have hall := (frame_conservation_iff frames32_ok h).mpr fun r hr => Sets.fits_of_all (List.all_eq_true.mp hfits r hr)
  have hlast : s ∈ states := by
    cases h with
    | start => exact List.mem_singleton_self _
    | step h hs => exact List.mem_cons_self
  refine ⟨s, states, h, hlen, hall, (hall s hlast).restored fun n => ?_⟩
  rw [Sets.set, hsets]
  match n with
  | 0 => rfl
  | 1 => rfl
  | n + 2 => rfl

/-- The last page of the address space is inserted and not mapped. -/
theorem last_page_not_mapped : ∃ s states ms area, SetTrace frames32 s states ∧ s.set 0 = some ms ∧
    ms.areas.get? ⟨0xfffffffffffff000⟩ = some area ∧ area.size = 0x1000 ∧ area.frame ⟨0xfffffffffffff000⟩ = none ∧
    (ms.pt.query s.machine ⟨0xfffffffffffff000⟩).toOption = some none ∧ ¬ s.Conserved frames32 := by
  have hrun : (Sets.run ⟨frames32, []⟩ [⟨frames32, []⟩] [.new,
      .insert 0 ⟨0xfffffffffffff000⟩ 0x1000 ⟨true, true, false, true, false⟩ []]).toOption.any (fun r =>
        (r.1.set 0).any fun ms => (ms.areas.get? ⟨0xfffffffffffff000⟩).any fun area =>
          area.size == 0x1000 && area.start == ⟨0xfffffffffffff000⟩ && area.frame ⟨0xfffffffffffff000⟩ == none &&
          (ms.pt.query r.1.machine ⟨0xfffffffffffff000⟩).toOption == some none) = true := by
    decide +kernel
  obtain ⟨s, states, h, htest⟩ := exists_setTrace hrun
  obtain ⟨ms, hn, htest⟩ := (Option.any_eq_true ..).mp htest
  obtain ⟨area, ha, htest⟩ := (Option.any_eq_true ..).mp htest
  simp only [Bool.and_eq_true, beq_iff_eq] at htest
  obtain ⟨⟨⟨hsize, hstart⟩, hframe⟩, hquery⟩ := htest
  refine ⟨s, states, ms, area, h, hn, ha, hsize, hframe, hquery, fun hc => ?_⟩
  -- the area has a page, and no frame for it
  have hpos : 0 < area.pages := by
    rw [MapArea.pages, hsize]
    decide
  have hsome := (hc.pages 0 ms _ area hn ha area.start).mpr ⟨0, hpos, area.addr_zero.symm⟩
  rw [hstart, hframe] at hsome
  cases hsome

end RCore.Mm
