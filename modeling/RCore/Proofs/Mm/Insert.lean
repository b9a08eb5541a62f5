import Mathlib
import RCore.Proofs.Mm.Conservation
import RCore.Sanity.Mm.Supply

/-! Areas of any kind are inserted one after the other. -/

namespace RCore.Mm

open RCore.Lib

namespace MapArea

variable {area : MapArea} {m : Machine} {others : Set ℕ} {pt : PageTable} {l : List (Page × PhysAddr × MemFlags)}
  {j k : ℕ}

/-- The addresses of the pages. -/
def pageAddrs (area : MapArea) : Set VirtAddr := {v | ∃ k < area.pages, v = area.addr k}

/-- Their numbers, as the page table has them. -/
def pageList (area : MapArea) : List Page := (List.range area.pages).map fun k => (area.addr k).page

/-- Those that are mapped when the area is inserted: nothing is when its end is not an address. -/
def coveredPages (area : MapArea) : List Page := if area.Fits then area.pageList else []

theorem mem_pageList {page : Page} : page ∈ area.pageList ↔ ∃ k < area.pages, page = (area.addr k).page := by
  rw [pageList, List.mem_map]
  constructor
  · rintro ⟨k, hk, rfl⟩
    exact ⟨k, List.mem_range.mp hk, rfl⟩
  · rintro ⟨k, hk, rfl⟩
    exact ⟨k, List.mem_range.mpr hk, rfl⟩

/-- The keys of an area that has all its frames. -/
theorem Full.perm (h : area.Full) : (area.leaves.map Prod.fst).Perm area.pageList := by
  have hkeys : (area.entries.map Prod.fst).Perm ((List.range area.pages).map area.addr) := by
    refine (List.perm_ext_iff_of_nodup area.keys_nodup ?_).mpr fun u => ?_
    · refine List.Nodup.map_on (fun j hj k hk he => ?_) List.nodup_range
      exact addr_inj h.fits (List.mem_range.mp hj).le (List.mem_range.mp hk).le he
    · rw [mem_keys, h.keys, List.mem_map]
      constructor
      · rintro ⟨k, hk, rfl⟩
        exact ⟨k, List.mem_range.mpr hk, rfl⟩
      · rintro ⟨k, hk, rfl⟩
        exact ⟨k, List.mem_range.mp hk, rfl⟩
  rw [leaves, List.map_map, pageList]
  have hmap := hkeys.map VirtAddr.page
  rw [List.map_map, List.map_map] at hmap
  exact hmap

/-- What is mapped are physical addresses. -/
def LowLeaves (l : List (Page × PhysAddr × MemFlags)) : Prop := ∀ e ∈ l, e.2.1.bits.toNat < 2 ^ 40

/-! An area at an offset -/

/-- The first `k` pages are mapped. -/
structure Shifts (area : MapArea) (l : List (Page × PhysAddr × MemFlags)) (others : Set ℕ) (k : ℕ)
    (s : PageTable.Mapping) : Prop where
  vaddr : s.vaddr = (area.addr k).bits
  still : s.area = area
  valid : ∀ j < k, VirtAddr.new (area.addr j).bits = .ok (area.addr j)
  owns : s.machine.Owns others s.pt.tables
  leaves : ∃ done : List (Page × PhysAddr × MemFlags),
    (done.map Prod.fst).Perm ((List.range k).map fun j => (area.addr j).page) ∧ LowLeaves done ∧
      s.pt.Leaves s.machine (done ++ l)

theorem Shifts.next {s : PageTable.Mapping} {off : Usize} (hoff : area.mapper = .offset off) (hk : k < area.pages)
    (h : Shifts area l others k s) : Ensures s.next (Shifts area l others (k + 1)) (MapFails area l) := by
  obtain ⟨done, hdone, hlow, hleaves⟩ := h.leaves
  rw [PageTable.Mapping.next, h.vaddr, h.still]
  refine Ensures.cases.fails_imp (fun e he => .inr ⟨k, hk, .inl he⟩) |>.bind fun v hv => ?_
  obtain ⟨rfl, -⟩ := new_eq_ok.mp hv
  have hmap : area.map s.machine (area.addr k) = .ok (PhysAddr.new ((area.addr k).bits - off), area, s.machine) := by
    rw [MapArea.map, if_pos (addr_aligned area k), hoff]
    rfl
  change Ensures (area.map s.machine (area.addr k) >>= _) _ _
  rw [hmap]
  change Ensures (VirtAddr.new (area.addr k).bits >>= _) _ _
  rw [hv]
  refine ((hleaves.map_page h.owns (area.addr k) _ area.flags).fails_imp fun e he => ?_).bind ?_
  · refine he.imp_right ?_
    rintro ⟨he, hpage⟩
    refine ⟨k, hk, .inr ⟨he, ?_⟩⟩
    rw [List.map_append, List.mem_append, hdone.mem_iff, List.mem_map] at hpage
    refine hpage.symm.imp_right ?_
    rintro ⟨j, hj, hpage⟩
    exact ⟨j, List.mem_range.mp hj, hpage⟩
  · rintro ⟨pt', m'⟩ ⟨hleaves', ho', -⟩
    refine Ensures.pure ⟨(addr_succ area k).symm, rfl, fun j hj => ?_, ho', _ :: done, ?_, ?_, hleaves'⟩
    · rcases Nat.lt_succ_iff_lt_or_eq.mp hj with hj | rfl
      · exact h.valid j hj
      · exact hv
    · rw [List.map_cons, List.range_succ, List.map_append, List.map_singleton]
      exact (hdone.cons _).trans (List.perm_append_singleton _ _).symm
    · intro e he
      rcases List.mem_cons.mp he with rfl | he
      · dsimp only
        rw [toNat_new]
        exact Nat.mod_lt _ (by decide)
      · exact hlow e he

/-- What is true of an area of any kind when it has been mapped. -/
structure Mapped (area : MapArea) (l : List (Page × PhysAddr × MemFlags)) (others : Set ℕ)
    (r : PageTable × MapArea × Machine) : Prop where
  valid : area.Fits → ∀ k < area.pages, VirtAddr.new (area.addr k).bits = .ok (area.addr k)
  owns : r.2.2.Owns others (r.1.tables ++ r.2.1.frames)
  leaves : ∃ done : List (Page × PhysAddr × MemFlags),
    (done.map Prod.fst).Perm area.coveredPages ∧ LowLeaves done ∧ r.1.Leaves r.2.2 (done ++ l)

theorem mapArea_mapped (hwithin : area.Framed → area.Within) (hl : pt.Leaves m l)
    (ho : m.Owns others (pt.tables ++ area.frames)) : Ensures (pt.mapArea area m) (Mapped area l others)
      fun e => area.Fits ∧ area.MapFails l e := by
  by_cases hfits : area.Fits
  · have hcovered : area.coveredPages = area.pageList := if_pos hfits
    cases hmapper : area.mapper with
    | framed frames =>
      have hframed : area.Framed := ⟨frames, hmapper⟩
      refine ((mapArea_spec hframed hfits (hwithin hframed) hl ho).fails_imp fun e he => ⟨hfits, he⟩).mono ?_
      rintro r ⟨hsame, hfull, -, hleaves, howns, -⟩
      refine ⟨fun _ k hk => ?_, howns, r.2.1.leaves, ?_, fun e he => ?_, hleaves⟩
      · rw [← hsame.addr]
        exact hfull.valid k (by rwa [hsame.pages])
      · rw [hcovered]
        have hperm := hfull.perm
        rw [pageList, hsame.pages] at hperm
        simp only [hsame.addr] at hperm
        exact hperm
      · obtain ⟨d, -, rfl⟩ := List.mem_map.mp he
        exact d.2.toNat_start.1
    | offset off =>
      have hframes : area.frames = [] := by
        rw [frames, entries, hmapper]
        rfl
      rw [hframes, List.append_nil] at ho
      have hstart : Shifts area l others 0 ⟨pt, area, m, area.start.bits⟩ :=
        ⟨by rw [addr_zero], rfl, fun j hj => absurd hj (Nat.not_lt_zero j), ho, [], List.Perm.refl _,
          fun e he => absurd he List.not_mem_nil, hl⟩
      refine ((whileM_count (Shifts area l others) (fun k s hk h => ?_) (fun k s hk h => h.next hmapper hk)
        hstart).fails_imp fun e he => ⟨hfits, he⟩).bind fun s hs => ?_
      · rw [decide_eq_true_eq, h.vaddr]
        exact addr_lt_stop hfits hk
      · obtain ⟨done, hdone, hlow, hleaves⟩ := hs.leaves
        refine Ensures.pure ⟨fun _ => hs.valid, ?_, done, ?_, hlow, hleaves⟩
        · dsimp only
          rw [hs.still, hframes, List.append_nil]
          exact hs.owns
        · rw [hcovered]
          exact hdone
  · rw [mapArea_of_not_fits hfits]
    have hcovered : area.coveredPages = [] := if_neg hfits
    exact Ensures.ok ⟨fun h => absurd h hfits, ho, [], by rw [hcovered]; exact List.Perm.refl _,
      fun e he => absurd he List.not_mem_nil, hl⟩

/-- The pages of an area with valid addresses have different numbers. -/
theorem page_ne_of_valid (hfits : area.Fits) (hvalid : ∀ k < area.pages, VirtAddr.new (area.addr k).bits = .ok (area.addr k))
    (hjk : j < k) (hk : k < area.pages) : (area.addr j).page ≠ (area.addr k).page := by
  have hlt : area.start.bits.toNat + area.size.toNat < 2 ^ 64 := hfits
  have hsize := area.pages_mul
  have haligned := (isAligned_iff area.start.bits).mp area.start_aligned
  have haddr : ∀ i < area.pages, (area.addr i).bits.toNat = area.start.bits.toNat + i * 4096 :=
    fun i hi => toNat_addr hfits hi.le
  have hrange : ∀ i < area.pages, area.start.bits.toNat + i * 4096 < 2 ^ 48 ∨
      2 ^ 64 - 2 ^ 48 ≤ area.start.bits.toNat + i * 4096 := by
    intro i hi
    rw [← haddr i hi]
    exact (new_eq_ok.mp (hvalid i hi)).2
  have hfirst := hrange 0 (by omega)
  -- an area that starts in the lower half does not reach the end of it
  have hlow : area.start.bits.toNat < 2 ^ 48 → area.start.bits.toNat + k * 4096 < 2 ^ 48 := by
    intro hstart
    by_contra hnot
    have hmid := hrange ((2 ^ 48 - area.start.bits.toNat) / 4096) (by omega)
    omega
  rw [ne_eq, ← BitVec.toNat_inj, toNat_page, toNat_page, haddr j (by omega), haddr k hk]
  omega

end MapArea

namespace MemorySet

variable {ms : MemorySet} {m m' : Machine} {others : Set ℕ} {area : MapArea} {areas done todo : List MapArea}

/-- Areas are inserted one after the other. -/
def insertAll (ms : MemorySet) (m : Machine) : List MapArea → Except Panic (MemorySet × Machine)
  | [] => pure (ms, m)
  | area :: areas => do
    let (ms, m) ← ms.insert area m
    ms.insertAll m areas

/-- And the set is new. -/
def build (m : Machine) (areas : List MapArea) : Except Panic (MemorySet × Machine) := do
  let (ms, m) ← new m
  ms.insertAll m areas

theorem insertAll_append (ms : MemorySet) (m : Machine) (l₁ l₂ : List MapArea) :
    ms.insertAll m (l₁ ++ l₂) = (ms.insertAll m l₁ >>= fun r => r.1.insertAll r.2 l₂) := by
  induction l₁ generalizing ms m with
  | nil => rfl
  | cons area l₁ ih =>
    change (ms.insert area m >>= fun r => r.1.insertAll r.2 (l₁ ++ l₂)) = _
    simp only [ih]
    exact (bind_assoc _ _ _).symm

theorem build_append (m : Machine) (l₁ l₂ : List MapArea) :
    build m (l₁ ++ l₂) = (build m l₁ >>= fun r => r.1.insertAll r.2 l₂) := by
  change (new m >>= fun r => r.1.insertAll r.2 (l₁ ++ l₂)) = _
  simp only [insertAll_append]
  exact (bind_assoc _ _ _).symm

/-- The areas that have been inserted, and the pages that are mapped for them. -/
structure Filled (done : List MapArea) (ms : MemorySet) (m : Machine) : Prop where
  valid : ∀ a ∈ done, a.Fits → ∀ k < a.pages, VirtAddr.new (a.addr k).bits = .ok (a.addr k)
  starts : ∀ v, (ms.areas.get? v).isSome ↔ ∃ a ∈ done, a.start = v
  leaves : ∃ l, ms.pt.Leaves m l ∧ MapArea.LowLeaves l ∧ (l.map Prod.fst).Perm (done.flatMap MapArea.coveredPages)

/-- Why an area cannot be inserted, after some others. -/
def PutFails (done : List MapArea) (area : MapArea) (e : Panic) : Prop :=
  e = .noFrame ∨ (∃ a ∈ done, a.start = area.start) ∨ area.Fits ∧ ∃ k < area.pages,
    (∀ v, VirtAddr.new (area.addr k).bits ≠ .ok v) ∨ (area.addr k).page ∈ done.flatMap MapArea.coveredPages ∨
      ∃ j < k, (area.addr j).page = (area.addr k).page

theorem Filled.insert (h : Filled done ms m) (hwithin : area.Framed → area.Within)
    (ho : m.Owns others (ms.frames ++ area.frames)) : Ensures (ms.insert area m)
      (fun r => Filled (done ++ [area]) r.1 r.2 ∧ r.2.Owns others r.1.frames) (PutFails done area) := by
  obtain ⟨l, hl, hlow, hperm⟩ := h.leaves
  rw [MemorySet.insert, if_pos (insert_test area)]
  cases hget : ms.areas.get? area.start with
  | some a => exact Ensures.throw (.inr (.inl ((h.starts _).mp (by rw [hget]; rfl))))
  | none =>
    have hown : m.Owns others (ms.pt.tables ++ area.frames ++ areaFrames ms.areas.values) := by
      refine ho.perm ?_
      rw [frames, List.append_assoc, List.append_assoc]
      exact List.Perm.append_left _ List.perm_append_comm
    refine ((MapArea.mapArea_mapped hwithin hl hown.focus).fails_imp fun e he => ?_).bind ?_
    · obtain ⟨hfits, he | ⟨k, hk, he⟩⟩ := he
      · exact .inl he
      · refine .inr (.inr ⟨hfits, k, hk, ?_⟩)
        rcases he with he | ⟨-, hpage | hpage⟩
        · exact .inl fun v hv => by rw [he] at hv; cases hv
        · exact .inr (.inl (hperm.mem_iff.mp hpage))
        · exact .inr (.inr hpage)
    · rintro ⟨pt', area', m'⟩ ⟨hvalid, howns, new, hnew, hlow', hleaves⟩
      have hget' : ∀ v, ((ms.areas.insert area.start area').get? v).isSome ↔
          v = area.start ∨ (ms.areas.get? v).isSome := by
        intro v
        rw [OrdMap.get?_insert hget]
        split_ifs with hv
        · exact iff_of_true rfl (.inl hv)
        · exact (or_iff_right hv).symm
      refine Ensures.pure ⟨⟨fun a ha => ?_, fun v => ?_, new ++ l, hleaves, fun e he => ?_, ?_⟩, ?_⟩
      · rcases List.mem_append.mp ha with ha | ha
        · exact h.valid a ha
        · rw [List.mem_singleton.mp ha]
          exact hvalid
      · rw [hget', h.starts]
        constructor
        · rintro (rfl | ⟨a, ha, hv⟩)
          · exact ⟨area, by simp, rfl⟩
          · exact ⟨a, List.mem_append_left _ ha, hv⟩
        · rintro ⟨a, ha, rfl⟩
          rcases List.mem_append.mp ha with ha | ha
          · exact .inr ⟨a, ha, rfl⟩
          · exact .inl (by rw [List.mem_singleton.mp ha])
      · exact (List.mem_append.mp he).elim (hlow' e) (hlow e)
      · rw [List.map_append, List.flatMap_append, List.flatMap_singleton]
        exact (hnew.append hperm).trans List.perm_append_comm
      · exact (hown.unfocus howns).perm (frames_put hget).symm

/-- What the areas have to be like for all of them to be mapped: the addresses of the pages are
valid, and have different lower 48 bits. -/
structure Sane (areas : List MapArea) : Prop where
  valid : ∀ a ∈ areas, a.Fits → ∀ k < a.pages, ∃ v, VirtAddr.new (a.addr k).bits = .ok v
  apart : areas.Pairwise fun a b => a.coveredPages.Disjoint b.coveredPages
  covered : ∀ a ∈ areas, ∀ page ∈ a.pageList, ∃ b ∈ areas, page ∈ b.coveredPages

/-- Two areas that are not empty and have no page in common start at different addresses. -/
theorem start_ne_of_disjoint {a b : MapArea} (ha : a.size ≠ 0) (hb : b.size ≠ 0) (h : Disjoint a.pageAddrs b.pageAddrs) :
    a.start ≠ b.start := by
  have hpos : ∀ c : MapArea, c.size ≠ 0 → 0 < c.pages := by
    intro c hc
    have hmul := c.pages_mul
    have hne : c.size.toNat ≠ 0 := fun h => hc (BitVec.eq_of_toNat_eq h)
    omega
  intro heq
  refine Set.disjoint_left.mp h ⟨0, hpos a ha, a.addr_zero.symm⟩ ⟨0, hpos b hb, ?_⟩
  rw [b.addr_zero, heq]

theorem PutFails.not_sane {e : Panic} (hareas : areas = done ++ area :: todo) (hpos : ∀ a ∈ areas, a.size ≠ 0)
    (hdisj : areas.Pairwise fun a b => Disjoint a.pageAddrs b.pageAddrs) (hsane : Sane areas)
    (h : PutFails done area e) : e = .noFrame := by
  have hmem : area ∈ areas := by rw [hareas]; simp
  have hvalid : area.Fits → ∀ k < area.pages, VirtAddr.new (area.addr k).bits = .ok (area.addr k) := by
    intro hfits k hk
    obtain ⟨v, hv⟩ := hsane.valid area hmem hfits k hk
    rw [hv, (new_eq_ok.mp hv).1]
  rcases h with he | ⟨a, ha, hstart⟩ | ⟨hfits, k, hk, hinvalid | hpage | ⟨j, hj, hpage⟩⟩
  · exact he
  · rw [hareas, List.pairwise_append] at hdisj
    have hmem' : a ∈ areas := by rw [hareas]; simp [ha]
    exact absurd hstart (start_ne_of_disjoint (hpos a hmem') (hpos area hmem)
      (hdisj.2.2 a ha area List.mem_cons_self))
  · exact absurd (hvalid hfits k hk) (hinvalid _)
  · obtain ⟨a, ha, hpage⟩ := List.mem_flatMap.mp hpage
    have hapart := hsane.apart
    rw [hareas, List.pairwise_append] at hapart
    refine absurd hpage fun hpage => hapart.2.2 a ha area List.mem_cons_self hpage ?_
    rw [MapArea.coveredPages, if_pos hfits]
    exact MapArea.mem_pageList.mpr ⟨k, hk, rfl⟩
  · exact absurd hpage (MapArea.page_ne_of_valid hfits (hvalid hfits) hj hk)

/-- What is known when all areas have been inserted, and why that may fail. -/
theorem Filled.insertAll (hareas : areas = done ++ todo) (hwithin : ∀ a ∈ areas, a.Framed → a.Within)
    (h : Filled done ms m) (ho : m.Owns others (ms.frames ++ todo.flatMap MapArea.frames)) :
    Ensures (ms.insertAll m todo) (fun r => Filled areas r.1 r.2)
      fun e => ∃ l₁ a l₂, areas = l₁ ++ a :: l₂ ∧ PutFails l₁ a e := by
  induction todo generalizing ms m done with
  | nil =>
    rw [List.append_nil] at hareas
    rw [hareas]
    exact Ensures.pure h
  | cons area todo ih =>
    have hmem : area ∈ areas := by rw [hareas]; simp
    rw [List.flatMap_cons, ← List.append_assoc] at ho
    refine ((h.insert (hwithin area hmem) ho.focus).fails_imp fun e he => ⟨done, area, todo, hareas, he⟩).bind ?_
    rintro ⟨ms', m'⟩ ⟨hfilled, ho'⟩
    exact ih (by rw [hareas, List.append_assoc, List.singleton_append]) hfilled (ho.unfocus ho')

theorem Filled.nil (hempty : ms.areas = .empty) (h : ms.pt.Leaves m []) : Filled [] ms m := by
  refine ⟨fun a ha => absurd ha List.not_mem_nil, fun v => ?_, [], h, fun e he => absurd he List.not_mem_nil,
    List.Perm.refl _⟩
  rw [hempty]
  refine iff_of_false Bool.false_ne_true ?_
  rintro ⟨a, ha, -⟩
  exact absurd ha List.not_mem_nil

theorem build_spec (hwithin : ∀ a ∈ areas, a.Framed → a.Within) (ho : m.Owns others (areas.flatMap MapArea.frames)) :
    Ensures (build m areas) (fun r => Filled areas r.1 r.2)
      fun e => e = .noFrame ∨ ∃ l₁ a l₂, areas = l₁ ++ a :: l₂ ∧ PutFails l₁ a e := by
  have hnil : m.Owns others ([] ++ areas.flatMap MapArea.frames) := ho
  refine ((new_spec hnil.focus).fails_imp fun e he => .inl he).bind ?_
  rintro ⟨ms, m₁⟩ ⟨hok, ho₁, -, hempty⟩
  have hleaves : ms.pt.Leaves m₁ [] := by
    have := hok.leaves
    rwa [leaves, hempty] at this
  exact (Filled.insertAll rfl hwithin (.nil hempty hleaves) (hnil.unfocus ho₁)).fails_imp fun e he => .inr he

/-- The property: nothing panics, empty areas change nothing, and the pages of the areas, and no
others, are mapped in the end. -/
structure IgnoresEmpty (m : Machine) (areas : List MapArea) : Prop where
  returns : ∃ ms m', build m areas = .ok (ms, m') ∧
    ∀ v, (∃ e, ms.pt.query m' v = .ok (some e)) ↔ ∃ a ∈ areas, v.page ∈ a.pageList
  empty : ∀ l₁ a l₂, areas = l₁ ++ a :: l₂ → a.size = 0 → ∀ ms₁ m₁ ms₂ m₂, build m l₁ = .ok (ms₁, m₁) →
    ms₁.insert a m₁ = .ok (ms₂, m₂) → ms₂ = ms₁

/-- A page is mapped for an area that it is covered by. -/
theorem Filled.query_iff (h : Filled areas ms m) (v : VirtAddr) :
    (∃ e, ms.pt.query m v = .ok (some e)) ↔ ∃ a ∈ areas, v.page ∈ a.coveredPages := by
  obtain ⟨l, hl, hlow, hperm⟩ := h.leaves
  rw [← List.mem_flatMap, ← hperm.mem_iff, List.mem_map]
  constructor
  · rintro ⟨e, he⟩
    by_contra hnot
    rw [hl.query_not_mem fun d hd => hnot ⟨_, hd, rfl⟩] at he
    cases he
  · rintro ⟨⟨page, paddr, flags⟩, hd, rfl⟩
    exact ⟨_, hl.query_mem hd (hlow _ hd)⟩

theorem Filled.sane (h : Filled areas ms m)
    (hpages : ∀ v, (∃ e, ms.pt.query m v = .ok (some e)) ↔ ∃ a ∈ areas, v.page ∈ a.pageList) : Sane areas := by
  obtain ⟨l, ⟨-, -, hnd, -⟩, -, hperm⟩ := h.leaves
  refine ⟨fun a ha hfits k hk => ⟨_, h.valid a ha hfits k hk⟩, ?_, fun a ha page hpage => ?_⟩
  · exact (List.nodup_flatMap.mp (hperm.nodup_iff.mp hnd)).2
  · obtain ⟨k, hk, rfl⟩ := MapArea.mem_pageList.mp hpage
    exact (h.query_iff _).mp ((hpages _).mpr ⟨a, ha, hpage⟩)

/-- Every area that is inserted is one more in the set. -/
theorem insert_ne {r : MemorySet × Machine} (h : ms.insert area m = .ok r) : r.1 ≠ ms := by
  rw [MemorySet.insert, if_pos (insert_test area)] at h
  cases hget : ms.areas.get? area.start with
  | some a =>
    rw [hget] at h
    cases h
  | none =>
    rw [hget] at h
    dsimp only at h
    cases hmap : ms.pt.mapArea area m with
    | error e =>
      rw [hmap] at h
      cases h
    | ok r' =>
      rw [hmap] at h
      rw [← Except.ok.inj h]
      intro heq
      have hself : (ms.areas.insert area.start r'.2.1).get? area.start = some r'.2.1 :=
        (OrdMap.get?_insert hget r'.2.1 area.start).trans (if_pos rfl)
      have hareas : ms.areas.insert area.start r'.2.1 = ms.areas := congrArg MemorySet.areas heq
      rw [hareas, hget] at hself
      cases hself

/-- Areas with no page in common are inserted into a new set, and there are frames enough.
Nothing panics, empty areas are ignored and the pages of the areas are mapped exactly when no
area is empty, and the addresses are sane. -/
theorem insert_ignores_empty_iff (hwithin : ∀ a ∈ areas, a.Framed → a.Within)
    (ho : m.Owns others (areas.flatMap MapArea.frames))
    (hdisj : areas.Pairwise fun a b => Disjoint a.pageAddrs b.pageAddrs) (hframes : build m areas ≠ .error .noFrame) :
    IgnoresEmpty m areas ↔ (∀ a ∈ areas, a.size ≠ 0) ∧ Sane areas := by
  have hspec := build_spec hwithin ho
  constructor
  · rintro ⟨⟨ms, m', hok, hpages⟩, hempty⟩
    refine ⟨fun a ha hzero => ?_, (hspec.post_of_ok hok).sane hpages⟩
    -- the set before and after an empty area
    obtain ⟨l₁, l₂, rfl⟩ := List.append_of_mem ha
    rw [build_append] at hok
    cases h₁ : build m l₁ with
    | error e =>
      rw [h₁] at hok
      cases hok
    | ok r₁ =>
      rw [h₁] at hok
      change (r₁.1.insert a r₁.2 >>= fun r => r.1.insertAll r.2 l₂) = _ at hok
      cases h₂ : r₁.1.insert a r₁.2 with
      | error e =>
        rw [h₂] at hok
        cases hok
      | ok r₂ => exact insert_ne h₂ (hempty l₁ a l₂ rfl hzero _ _ _ _ h₁ h₂)
  · rintro ⟨hpos, hsane⟩
    have hfails : ∀ e, build m areas ≠ .error e := by
      intro e he
      have hnone : e = .noFrame := by
        rcases hspec.fails_of_error he with he | ⟨l₁, a, l₂, hareas, hput⟩
        · exact he
        · exact hput.not_sane hareas hpos hdisj hsane
      exact hframes (by rw [he, hnone])
    cases hok : build m areas with
    | error e => exact absurd hok (hfails e)
    | ok r =>
      refine ⟨⟨r.1, r.2, hok, fun v => ?_⟩, fun l₁ a l₂ hareas hzero => ?_⟩
      · rw [(hspec.post_of_ok hok).query_iff]
        constructor
        · rintro ⟨a, ha, hpage⟩
          rw [MapArea.coveredPages] at hpage
          split_ifs at hpage with hfits
          · exact ⟨a, ha, hpage⟩
          · exact absurd hpage List.not_mem_nil
        · rintro ⟨a, ha, hpage⟩
          exact hsane.covered a ha _ hpage
      · exact absurd hzero (hpos a (by rw [hareas]; simp))

theorem insertAll_takes (ms : MemorySet) (m : Machine) (areas : List MapArea) :
    m.Takes Prod.snd (areas.map fun a => a.pages * 4).sum (ms.insertAll m areas) := by
  induction areas generalizing ms m with
  | nil => exact Takes.pure le_rfl
  | cons area areas ih =>
    refine (Takes.bind (insert_takes ms area m) fun r _ => ih r.1 r.2).mono ?_
    rw [List.map_cons, List.sum_cons]

/-- There are frames enough when there are this many. -/
theorem build_ne_noFrame (h : 1 + (areas.map fun a => a.pages * 4).sum ≤ m.available) :
    build m areas ≠ .error .noFrame := by
  intro he
  have htakes : m.Takes Prod.snd (1 + (areas.map fun a => a.pages * 4).sum) (build m areas) :=
    (new_takes m).bind fun r _ => insertAll_takes r.1 r.2 areas
  have hless := Ensures.fails_of_error htakes he rfl
  omega

/-- An area of a page, an empty one at its start, and one at an offset. -/
def pageArea : MapArea :=
  ⟨⟨0x1000⟩, 0x1000, ⟨true, true, false, true, false⟩, .framed .empty, by decide, by decide⟩

def emptyArea : MapArea := ⟨⟨0x1000⟩, 0, ⟨true, true, false, true, false⟩, .framed .empty, by decide, by decide⟩

def offsetArea : MapArea :=
  ⟨⟨0x3000⟩, 0x1000, ⟨true, true, false, false, false⟩, .offset 0x1000, by decide, by decide⟩

/-- Two areas of a page each, one with frames of its own and one at an offset. -/
theorem insert_ignores_empty_iff_two : IgnoresEmpty frames32 [pageArea, offsetArea] := by
  have hpages : ∀ c ∈ [pageArea, offsetArea], c.pages = 1 := by decide
  have hstart : ∀ c ∈ [pageArea, offsetArea], ∀ k < c.pages, c.addr k = c.start := by
    intro c hc k hk
    rw [hpages c hc, Nat.lt_one_iff] at hk
    rw [hk, c.addr_zero]
  have hwithin : ∀ c ∈ [pageArea, offsetArea], c.Framed → c.Within := by
    intro c hc _ _ u g hu
    rcases List.mem_cons.mp hc with rfl | hc
    · cases hu
    · rw [List.mem_singleton.mp hc] at hu
      cases hu
  have ho : frames32.Owns frames32.outstanding ([pageArea, offsetArea].flatMap MapArea.frames) :=
    (Sets.Holds.start (K := Sound) frames32_ok).owns
  have hdisj : [pageArea, offsetArea].Pairwise fun a b => Disjoint a.pageAddrs b.pageAddrs := by
    refine List.pairwise_cons.mpr ⟨fun c hc => ?_, List.pairwise_singleton _ _⟩
    rw [List.mem_singleton.mp hc, Set.disjoint_left]
    rintro v ⟨j, hj, rfl⟩ ⟨k, hk, hv⟩
    rw [hstart pageArea (by simp) j hj, hstart offsetArea (by simp) k hk] at hv
    exact absurd hv (by decide)
  refine (insert_ignores_empty_iff hwithin ho hdisj (build_ne_noFrame (by decide))).mpr ⟨by decide, ?_, ?_, ?_⟩
  · intro c hc _ k hk
    have hlow : ∀ c ∈ [pageArea, offsetArea], c.start.bits.toNat < 2 ^ 48 := by decide
    rw [hstart c hc k hk]
    exact ⟨_, new_eq_ok.mpr ⟨rfl, .inl (hlow c hc)⟩⟩
  · refine List.pairwise_cons.mpr ⟨fun c hc => ?_, List.pairwise_singleton _ _⟩
    rw [List.mem_singleton.mp hc]
    intro page hpage hpage'
    obtain ⟨j, hj, rfl⟩ := MapArea.mem_pageList.mp hpage
    obtain ⟨k, hk, heq⟩ := MapArea.mem_pageList.mp hpage'
    rw [hstart pageArea (by simp) j hj, hstart offsetArea (by simp) k hk] at heq
    exact absurd heq (by decide)
  · intro c hc page hpage
    have hfits : ∀ c ∈ [pageArea, offsetArea], c.Fits := by decide
    exact ⟨c, hc, by rw [MapArea.coveredPages, if_pos (hfits c hc)]; exact hpage⟩

/-- An empty area, and one of a page that starts at the same address: the second one panics. The
empty one alone is not ignored either. -/
theorem empty_area_not_ignored : emptyArea.size = 0 ∧ emptyArea.start = pageArea.start ∧
    Disjoint emptyArea.pageAddrs pageArea.pageAddrs ∧ build frames32 [emptyArea, pageArea] = .error .existed ∧
    ¬ IgnoresEmpty frames32 [emptyArea, pageArea] ∧
    ∃ ms₁ m₁ ms₂ m₂, build frames32 [] = .ok (ms₁, m₁) ∧ ms₁.insert emptyArea m₁ = .ok (ms₂, m₂) ∧ ms₂ ≠ ms₁ := by
  have hrun : error? (build frames32 [emptyArea, pageArea]) = some .existed := by decide +kernel
  have hbuild := error_of_error? hrun
  have hone : ((build frames32 []).toOption.bind fun r => (r.1.insert emptyArea r.2).toOption).isSome = true := by
    decide +kernel
  obtain ⟨r₂, hone⟩ := Option.isSome_iff_exists.mp hone
  obtain ⟨r₁, h₁, h₂⟩ := Option.bind_eq_some_iff.mp hone
  refine ⟨rfl, rfl, ?_, hbuild, fun h => ?_, _, _, _, _, ok_of_toOption h₁, ok_of_toOption h₂,
    insert_ne (ok_of_toOption h₂)⟩
  · rw [Set.disjoint_left]
    rintro v ⟨k, hk, -⟩
    have hpages : emptyArea.pages = 0 := by decide
    omega
  · obtain ⟨ms, m, hok, -⟩ := h.returns
    rw [hbuild] at hok
    cases hok

end MemorySet

end RCore.Mm
