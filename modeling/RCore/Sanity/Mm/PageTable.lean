import RCore.Lib.Radix
import RCore.Sanity.Mm.Entry

/-! A page table is a tree of tables, and the entries at its lowest level are a map from
pages. -/

namespace RCore.Mm

open RCore.Lib RCore.Lib.Radix

/-- Bits 12 to 47 of an address. -/
abbrev Page := BitVec 36

def VirtAddr.page (v : VirtAddr) : Page := field v.bits 12 36

theorem toNat_page (v : VirtAddr) : v.page.toNat = v.bits.toNat / 4096 % 2 ^ 36 := by
  rw [VirtAddr.page, field, BitVec.extractLsb'_toNat, Nat.shiftRight_eq_div_pow]

theorem index_val (v : VirtAddr) (shift : ℕ) : (index v shift : ℕ) = v.bits.toNat / 2 ^ shift % 512 := by
  change ((v.bits >>> shift) &&& 511).toNat = _
  rw [BitVec.toNat_and, BitVec.toNat_ushiftRight, Nat.shiftRight_eq_div_pow,
    show (511 : BitVec 64).toNat = 2 ^ 9 - 1 from rfl, Nat.and_two_pow_sub_one_eq_mod]

/-- The way down to the table of the lowest level. -/
def indices (v : VirtAddr) : List (Fin ENTRY_COUNT) := [p4Index v, p3Index v, p2Index v]

theorem page_eq_iff (u v : VirtAddr) : u.page = v.page ↔ indices u = indices v ∧ p1Index u = p1Index v := by
  simp only [indices, List.cons.injEq, and_true, p4Index, p3Index, p2Index, p1Index, Fin.ext_iff, index_val,
    ← BitVec.toNat_inj, toNat_page]
  omega

/-- The table that an entry leads to. -/
def link (e : PageTableEntry) : Option ℕ :=
  if e.isPresent && !e.isBlock then some e.paddr.frame else none

theorem link_newTable {p : PhysAddr} (hp : p.frame < 2 ^ 28) : link (.newTable p) = some p.frame := by
  rw [link, PageTableEntry.newTable_isPresent, PageTableEntry.newTable_isBlock, if_pos (by rfl),
    PageTableEntry.newTable_paddr, Nat.mod_eq_of_lt hp]

theorem nextTableMut_spec {e : PageTableEntry} (he : e = 0 ∨ (link e).isSome) :
    ∃ p, nextTableMut e = .ok p ∧ p.map PhysAddr.frame = link e := by
  rcases he with rfl | he
  · exact ⟨none, rfl, rfl⟩
  · rw [link] at he ⊢
    split_ifs at he ⊢ with h
    · rw [Bool.and_eq_true, Bool.not_eq_true'] at h
      exact ⟨some e.paddr, by rw [nextTableMut, h.1, h.2]; rfl, rfl⟩
    · cases he

namespace Machine

def cell (m : Machine) (t : ℕ) (i : Fin ENTRY_COUNT) : PageTableEntry := field (m.memory t) (64 * i) 64

variable {m m' : Machine} {others : Set ℕ} {own : List ℕ}

theorem cell_setEntry (m : Machine) (p : PhysAddr) (i : Fin ENTRY_COUNT) (e : PageTableEntry) :
    (m.setEntry p i e).cell = store m.cell p.frame i e := by
  funext t j
  have hi : (i : ℕ) < 512 := i.isLt
  rw [store_apply, cell, setEntry, setFrame_memory]
  by_cases ht : t = p.frame
  · rw [if_pos ht]
    by_cases hji : j = i
    · rw [if_pos ⟨ht, hji⟩, hji, field_splice_self _ _ _ (by omega)]
    · have hne : (j : ℕ) ≠ i := fun h => hji (Fin.ext h)
      rw [if_neg fun h => hji h.2, field_splice_disjoint _ _ _ _ (by omega), ht]
      rfl
  · rw [if_neg ht, if_neg fun h => ht h.1]
    rfl

/-- What is in the frames of others is the same. -/
def Keeps (others : Set ℕ) (m m' : Machine) : Prop := ∀ f ∈ others, m'.memory f = m.memory f

theorem Keeps.refl (others : Set ℕ) (m : Machine) : Keeps others m m := fun _ _ => rfl

theorem Keeps.trans {m'' : Machine} (h : Keeps others m m') (h' : Keeps others m' m'') : Keeps others m m'' :=
  fun f hf => (h' f hf).trans (h f hf)

theorem Keeps.mono {others' : Set ℕ} (h : Keeps others m m') (hsub : others' ⊆ others) : Keeps others' m m' :=
  fun f hf => h f (hsub hf)

theorem Keeps.setFrame (ho : m.Owns others own) {p : PhysAddr} (hp : p.frame ∈ own) (frame : Frame) :
    Keeps others m (m.setFrame p frame) := by
  intro f hf
  rw [setFrame_memory, if_neg]
  rintro rfl
  exact ho.apart _ hp hf

end Machine

namespace PageTable

def tables (pt : PageTable) : List ℕ := pt.intrmTables.map PhysFrame.number

/-- The entry for a page that is mapped or not. -/
def word : Option (PhysAddr × MemFlags) → PageTableEntry
  | none => 0
  | some (paddr, flags) => .newPage paddr.alignDown flags false

theorem word_eq_zero {o : Option (PhysAddr × MemFlags)} : word o = 0 ↔ o = none := by
  cases o with
  | none => exact iff_of_true rfl rfl
  | some o => exact iff_of_false (PageTableEntry.newPage_ne_zero _ _) (fun h => by cases h)

/-- The tables of the page table are a tree whose leaves are the map. -/
structure Valid (pt : PageTable) (m : Machine) (map : Page → Option (PhysAddr × MemFlags)) : Prop where
  tree : Tree link 0 3 pt.rootPaddr.frame pt.tables m.cell
  leaf : ∀ v, Radix.entry link m.cell 0 pt.rootPaddr.frame (indices v) (p1Index v) = word (map v.page)

variable {pt : PageTable} {m m' : Machine} {map : Page → Option (PhysAddr × MemFlags)} {others : Set ℕ}
  {own : List ℕ} {path : List (Fin ENTRY_COUNT)} {p : PhysAddr}

theorem Valid.congr (h : pt.Valid m map) (hm : ∀ t ∈ pt.tables, m'.memory t = m.memory t) :
    pt.Valid m' map := by
  have hcell : ∀ t ∈ pt.tables, m'.cell t = m.cell t := fun t ht => by
    funext i
    rw [Machine.cell, Machine.cell, hm t ht]
  exact ⟨h.tree.congr hcell, fun v => (h.tree.entry_congr hcell le_rfl _).trans (h.leaf v)⟩

theorem new_spec (ho : m.Owns others own) : Ensures (PageTable.new m)
    (fun r => r.1.Valid r.2 (fun _ => none) ∧ r.2.Owns others (own ++ r.1.tables) ∧ m.Keeps others r.2)
    (· = .noFrame) := by
  refine (PhysFrame.allocZero_spec ho).bind ?_
  rintro ⟨f, m'⟩ ⟨-, howns, hzero, hkeep⟩
  have hcell : ∀ i, m'.cell f.number i = 0 := fun i => by
    rw [Machine.cell, hzero, field_zero]
  refine Ensures.pure ⟨⟨Tree.new rfl hcell, fun v => ?_⟩, howns,
    fun g hg => hkeep g ((ho.mem_live g).mpr (.inl hg))⟩
  have hwalk : walk link m'.cell f.number (indices v) = none := by
    rw [indices, walk, hcell]
    rfl
  change Radix.entry link m'.cell 0 f.number _ _ = 0
  rw [Radix.entry, hwalk]
  rfl

/-! The root stays -/

theorem nextTableMutOrCreate_root (pt : PageTable) (m : Machine) (table : PhysAddr) (i : Fin ENTRY_COUNT) :
    Ensures (pt.nextTableMutOrCreate m table i) (fun r => r.2.1.rootPaddr = pt.rootPaddr) fun _ => True := by
  refine Ensures.ite (fun _ => ?_) fun _ => ?_
  · have halloc : Ensures (pt.allocIntrmTable m) (fun r => r.2.1.rootPaddr = pt.rootPaddr) fun _ => True :=
      Ensures.result.bind fun _ _ => Ensures.pure rfl
    exact halloc.bind fun _ h => Ensures.pure h
  · exact Ensures.result.bind fun _ _ => Ensures.pure rfl

theorem getEntryMutOrCreate_root (pt : PageTable) (m : Machine) (v : VirtAddr) :
    Ensures (pt.getEntryMutOrCreate m v) (fun r => r.2.1.rootPaddr = pt.rootPaddr) fun _ => True := by
  refine (nextTableMutOrCreate_root pt m pt.rootPaddr (p4Index v)).bind ?_
  rintro ⟨_ | p3, pt₃, m₃⟩ h₃
  · exact Ensures.pure h₃
  refine (nextTableMutOrCreate_root pt₃ m₃ p3 (p3Index v)).bind ?_
  rintro ⟨_ | p2, pt₂, m₂⟩ h₂
  · exact Ensures.pure (h₂.trans h₃)
  refine (nextTableMutOrCreate_root pt₂ m₂ p2 (p2Index v)).bind ?_
  rintro ⟨_ | p1, pt₁, m₁⟩ h₁
  · exact Ensures.pure ((h₁.trans h₂).trans h₃)
  · exact Ensures.pure ((h₁.trans h₂).trans h₃)

theorem map_root (pt : PageTable) (m : Machine) (v : VirtAddr) (paddr : PhysAddr) (flags : MemFlags) :
    Ensures (pt.map m v paddr flags) (fun r => r.1.rootPaddr = pt.rootPaddr) fun _ => True := by
  refine (getEntryMutOrCreate_root pt m v).bind ?_
  rintro ⟨_ | ⟨table, i⟩, pt', m'⟩ h
  · exact Ensures.throw trivial
  · exact Ensures.ite (fun _ => Ensures.throw trivial) fun _ => Ensures.pure h

/-! Walking down -/

theorem nextTableMut_walk (h : pt.Valid m map)
    (hw : walk link m.cell pt.rootPaddr.frame path = some p.frame) (hlen : path.length < 3) (i : Fin ENTRY_COUNT) :
    ∃ r, nextTableMut (m.entry p i) = .ok r ∧
      r.map PhysAddr.frame = walk link m.cell pt.rootPaddr.frame (path ++ [i]) := by
  rw [walk_snoc, hw, Option.bind_some]
  exact nextTableMut_spec (h.tree.linked i hlen hw)

theorem getEntryMut_spec (h : pt.Valid m map) (v : VirtAddr) : ∃ r, pt.getEntryMut m v = .ok r ∧
    r.map (fun e => (e.1.frame, e.2)) =
      (walk link m.cell pt.rootPaddr.frame (indices v)).map fun t => (t, p1Index v) := by
  have hroot : walk link m.cell pt.rootPaddr.frame [] = some pt.rootPaddr.frame := rfl
  obtain ⟨r3, hr3, hw3⟩ := nextTableMut_walk h hroot (by decide) (p4Index v)
  rw [getEntryMut, hr3]
  cases r3 with
  | none =>
    refine ⟨none, rfl, ?_⟩
    rw [show indices v = [] ++ [p4Index v] ++ [p3Index v] ++ [p2Index v] from rfl, walk_snoc, walk_snoc, ← hw3]
    rfl
  | some p3 =>
    obtain ⟨r2, hr2, hw2⟩ := nextTableMut_walk h hw3.symm (by decide : 1 < 3) (p3Index v)
    change ∃ r, (nextTableMut (m.entry p3 (p3Index v)) >>= _) = _ ∧ _
    rw [hr2]
    cases r2 with
    | none =>
      refine ⟨none, rfl, ?_⟩
      rw [show indices v = [] ++ [p4Index v] ++ [p3Index v] ++ [p2Index v] from rfl, walk_snoc, ← hw2]
      rfl
    | some p2 =>
      obtain ⟨r1, hr1, hw1⟩ := nextTableMut_walk h hw2.symm (by decide : 2 < 3) (p2Index v)
      change ∃ r, (nextTableMut (m.entry p2 (p2Index v)) >>= _) = _ ∧ _
      rw [hr1]
      cases r1 with
      | none =>
        refine ⟨none, rfl, ?_⟩
        rw [show indices v = [] ++ [p4Index v] ++ [p3Index v] ++ [p2Index v] from rfl, ← hw1]
        rfl
      | some p1 =>
        refine ⟨some (p1, p1Index v), rfl, ?_⟩
        rw [show indices v = [] ++ [p4Index v] ++ [p3Index v] ++ [p2Index v] from rfl, ← hw1]
        rfl

/-- The entry for an address, if its table is there. -/
theorem getEntryMut_cases (h : pt.Valid m map) (v : VirtAddr) :
    (pt.getEntryMut m v = .ok none ∧ map v.page = none) ∨
    ∃ p, pt.getEntryMut m v = .ok (some (p, p1Index v)) ∧
      walk link m.cell pt.rootPaddr.frame (indices v) = some p.frame ∧ m.entry p (p1Index v) = word (map v.page) := by
  obtain ⟨r, hr, hmap⟩ := getEntryMut_spec h v
  have hleaf := h.leaf v
  rw [Radix.entry] at hleaf
  cases r with
  | none =>
    rw [Option.map_none, eq_comm, Option.map_eq_none_iff] at hmap
    rw [hmap] at hleaf
    exact .inl ⟨hr, word_eq_zero.mp hleaf.symm⟩
  | some e =>
    obtain ⟨p, i⟩ := e
    rw [Option.map_some, eq_comm, Option.map_eq_some_iff] at hmap
    obtain ⟨t, hw, ht⟩ := hmap
    rw [Prod.mk.injEq] at ht
    obtain ⟨rfl, rfl⟩ := ht
    rw [hw] at hleaf
    exact .inr ⟨p, hr, hw, hleaf⟩

/-! Walking down, with tables made on the way -/

/-- What is true of the tables on the way down, when `p` has been reached by `path`. -/
structure Reached (pt : PageTable) (m : Machine) (map : Page → Option (PhysAddr × MemFlags))
    (others : Set ℕ) (m₀ : Machine) (path : List (Fin ENTRY_COUNT)) (p : PhysAddr) : Prop where
  valid : pt.Valid m map
  owns : m.Owns others pt.tables
  keeps : m₀.Keeps others m
  walk : walk link m.cell pt.rootPaddr.frame path = some p.frame

theorem allocIntrmTable_spec (ho : m.Owns others own) : Ensures (pt.allocIntrmTable m)
    (fun r => ∃ f : PhysFrame, r.1 = f.startPaddr ∧
      r.2.1 = { pt with intrmTables := pt.intrmTables ++ [f] } ∧ f.number ∉ m.outstanding ∧
      r.2.2.Owns others (own ++ [f.number]) ∧ r.2.2.memory f.number = 0 ∧
      ∀ g ∈ m.outstanding, r.2.2.memory g = m.memory g)
    (· = .noFrame) :=
  (PhysFrame.allocZero_spec ho).bind fun r hr => Ensures.pure ⟨r.1, rfl, rfl, hr⟩

/-- A new table is linked. -/
theorem Reached.create {m₀ m₁ : Machine} {i : Fin ENTRY_COUNT} {f : PhysFrame}
    (h : Reached pt m map others m₀ path p) (hlen : path.length < 3) (hunused : m.entry p i = 0)
    (hnew : f.number ∉ m.outstanding) (howns : m₁.Owns others (pt.tables ++ [f.number]))
    (hzero : m₁.memory f.number = 0) (hmem : ∀ g ∈ m.outstanding, m₁.memory g = m.memory g) :
    Reached { pt with intrmTables := pt.intrmTables ++ [f] }
      (m₁.setEntry p i (.newTable f.startPaddr)) map others m₀ (path ++ [i]) f.startPaddr := by
  have hin : ∀ t ∈ pt.tables, t ∈ m.outstanding := fun t ht => h.owns.live_own ht
  have hown : p.frame ∈ pt.tables := h.valid.tree.mem hlen.le h.walk
  have hvalid : pt.Valid m₁ map := h.valid.congr fun t ht => hmem t (hin t ht)
  have hcell : m₁.cell p.frame = m.cell p.frame := by
    funext j
    rw [Machine.cell, Machine.cell, hmem _ (hin _ hown)]
  have hwalk : Radix.walk link m₁.cell pt.rootPaddr.frame path = some p.frame := by
    rw [← h.walk]
    refine h.valid.tree.walk_eq (fun t ht => ?_) hlen.le
    funext j
    rw [Machine.cell, Machine.cell, hmem _ (hin _ ht)]
  have hempty : m₁.cell p.frame i = 0 := by
    rw [hcell]
    exact hunused
  have hnot : f.number ∉ pt.tables := fun hf => hnew (hin _ hf)
  have hnone : ∀ j, m₁.cell f.number j = 0 := fun j => by
    rw [Machine.cell, hzero, field_zero]
  have hlink : link (.newTable f.startPaddr) = some f.number :=
    link_newTable (howns.sound.lt (howns.live_own (by simp [PhysFrame.number_eq])))
  have htables : tables { pt with intrmTables := pt.intrmTables ++ [f] } = pt.tables ++ [f.number] := by
    rw [tables, List.map_append]
    rfl
  refine ⟨⟨?_, fun v => ?_⟩, ?_, ?_, ?_⟩
  · rw [Machine.cell_setEntry, htables]
    exact hvalid.tree.store_link rfl hlen hwalk hempty hnot hnone hlink
  · rw [Machine.cell_setEntry, ← hvalid.leaf v]
    exact hvalid.tree.entry_store_link rfl hlen hwalk hempty hnot hnone hlink rfl
  · rw [htables]
    exact howns.setFrame _ _
  · refine h.keeps.trans (fun g hg => ?_)
    rw [← hmem g ((h.owns.mem_live g).mpr (.inl hg))]
    exact Machine.Keeps.setFrame howns (List.mem_append_left _ hown) _ g hg
  · rw [Machine.cell_setEntry]
    refine (hvalid.tree.walk_store_link rfl hlen hwalk hempty hnot hnone hlink (by simpa using hlen)).trans ?_
    exact if_pos rfl

theorem nextTableMutOrCreate_spec {m₀ : Machine} (h : Reached pt m map others m₀ path p) (hlen : path.length < 3)
    (i : Fin ENTRY_COUNT) : Ensures (pt.nextTableMutOrCreate m p i)
      (fun r => ∃ p', r.1 = some p' ∧ Reached r.2.1 r.2.2 map others m₀ (path ++ [i]) p')
      (· = .noFrame) := by
  refine Ensures.ite (fun hunused => ?_) fun hused => ?_
  · rw [PageTableEntry.isUnused, beq_iff_eq] at hunused
    refine (allocIntrmTable_spec h.owns).bind ?_
    rintro ⟨paddr, pt₁, m₁⟩ ⟨f, rfl, rfl, hnew, howns, hzero, hmem⟩
    exact Ensures.pure ⟨_, rfl, h.create hlen hunused hnew howns hzero hmem⟩
  · rw [PageTableEntry.isUnused, beq_iff_eq] at hused
    have hlink := (h.valid.tree.linked i hlen h.walk).resolve_left hused
    obtain ⟨r, hr, hw⟩ := nextTableMut_walk h.valid h.walk hlen i
    have hsome : (r.map PhysAddr.frame).isSome := by
      rw [hw, walk_snoc, h.walk]
      exact hlink
    rw [Option.isSome_map, Option.isSome_iff_exists] at hsome
    obtain ⟨p', rfl⟩ := hsome
    rw [hr]
    exact Ensures.pure ⟨p', rfl, h.valid, h.owns, h.keeps, hw.symm⟩

theorem getEntryMutOrCreate_spec (h : pt.Valid m map) (ho : m.Owns others pt.tables) (v : VirtAddr) :
    Ensures (pt.getEntryMutOrCreate m v)
      (fun r => ∃ p', r.1 = some (p', p1Index v) ∧ Reached r.2.1 r.2.2 map others m (indices v) p')
      (· = .noFrame) := by
  have hroot : Reached pt m map others m [] pt.rootPaddr := ⟨h, ho, Machine.Keeps.refl _ _, rfl⟩
  refine (nextTableMutOrCreate_spec hroot (by decide : 0 < 3) (p4Index v)).bind ?_
  rintro ⟨_, pt3, m3⟩ ⟨p3, rfl, h3⟩
  refine (nextTableMutOrCreate_spec h3 (by decide : 1 < 3) (p3Index v)).bind ?_
  rintro ⟨_, pt2, m2⟩ ⟨p2, rfl, h2⟩
  refine (nextTableMutOrCreate_spec h2 (by decide : 2 < 3) (p2Index v)).bind ?_
  rintro ⟨_, pt1, m1⟩ ⟨p1, rfl, h1⟩
  exact Ensures.pure ⟨p1, rfl, h1⟩

/-! The operations -/

/-- The entry of a page is written. -/
theorem Valid.store (h : pt.Valid m map) {v : VirtAddr}
    (hw : walk link m.cell pt.rootPaddr.frame (indices v) = some p.frame) (o : Option (PhysAddr × MemFlags)) :
    pt.Valid (m.setEntry p (p1Index v) (word o)) (Function.update map v.page o) := by
  refine ⟨?_, fun u => ?_⟩
  · rw [Machine.cell_setEntry]
    exact h.tree.store_leaf rfl hw
  · rw [Machine.cell_setEntry, h.tree.entry_store_leaf rfl hw le_rfl, Function.update_apply, h.leaf, apply_ite word]
    exact if_congr (page_eq_iff u v).symm rfl rfl

/-- A page that is mapped is found to be. -/
theorem map_spec (h : pt.Valid m map) (ho : m.Owns others pt.tables) (v : VirtAddr) (paddr : PhysAddr)
    (flags : MemFlags) : Ensures (pt.map m v paddr flags)
      (fun r => map v.page = none ∧ r.1.Valid r.2 (Function.update map v.page (some (paddr, flags))) ∧
        r.2.Owns others r.1.tables ∧ m.Keeps others r.2)
      (fun e => e = .noFrame ∨ (e = .mapped ∧ map v.page ≠ none)) := by
  have hget := getEntryMutOrCreate_spec h ho v
  rw [PageTable.map]
  cases hr : pt.getEntryMutOrCreate m v with
  | error e =>
    rw [hr] at hget
    exact Ensures.error (.inl hget)
  | ok r =>
    rw [hr] at hget
    obtain ⟨_, pt', m'⟩ := r
    obtain ⟨p, rfl, hvalid, howns, hkeeps, hw⟩ := hget
    have hown : p.frame ∈ pt'.tables := hvalid.tree.mem le_rfl hw
    have hleaf : m'.entry p (p1Index v) = word (map v.page) := by
      have hleaf := hvalid.leaf v
      rw [Radix.entry, hw] at hleaf
      exact hleaf
    have hunused : (m'.entry p (p1Index v)).isUnused = true ↔ map v.page = none := by
      rw [PageTableEntry.isUnused, hleaf, beq_iff_eq]
      exact word_eq_zero
    refine Ensures.ite (fun hused => ?_) fun hused => ?_
    · refine Ensures.throw (.inr ⟨rfl, fun hnone => ?_⟩)
      rw [hunused.mpr hnone] at hused
      cases hused
    · rw [Bool.not_eq_true', Bool.not_eq_false, hunused] at hused
      refine Ensures.pure ⟨hused, hvalid.store hw (some (paddr, flags)), ?_, hkeeps.trans ?_⟩
      · exact howns.setFrame _ _
      · exact Machine.Keeps.setFrame howns hown _

theorem unmap_spec (h : pt.Valid m map) (ho : m.Owns others pt.tables) {v : VirtAddr} (hv : map v.page ≠ none) :
    ∃ m', pt.unmap m v = .ok m' ∧ pt.Valid m' (Function.update map v.page none) ∧
      m'.Owns others pt.tables ∧ m.Keeps others m' := by
  rcases getEntryMut_cases h v with ⟨-, hnone⟩ | ⟨p, hget, hw, hentry⟩
  · exact absurd hnone hv
  · have hused : (m.entry p (p1Index v)).isUnused = false := by
      rw [PageTableEntry.isUnused, hentry, beq_eq_false_iff_ne]
      exact fun hz => hv (word_eq_zero.mp hz)
    refine ⟨m.setEntry p (p1Index v) .empty, ?_, h.store hw none, ho.setFrame _ _,
      Machine.Keeps.setFrame ho (h.tree.mem le_rfl hw) _⟩
    rw [unmap, hget]
    change (if (m.entry p (p1Index v)).isUnused = true then _ else _) = _
    rw [hused]
    rfl

/-- What the map says about an address. -/
def lookup (map : Page → Option (PhysAddr × MemFlags)) (v : VirtAddr) : Option (PhysAddr × MemFlags) :=
  (map v.page).map fun e => (⟨e.1.alignDown.bits + v.pageOffset⟩, e.2)

theorem query_spec (h : pt.Valid m map) {v : VirtAddr} (hmap : ∀ e, map v.page = some e → e.1.bits.toNat < 2 ^ 40) :
    pt.query m v = .ok (lookup map v) := by
  rcases getEntryMut_cases h v with ⟨hget, hnone⟩ | ⟨p, hget, -, hentry⟩
  · rw [query, hget, lookup, hnone]
    rfl
  · rw [query, hget]
    change (if (m.entry p (p1Index v)).isUnused = true then _ else _) = _
    rw [hentry, lookup]
    cases ho : map v.page with
    | none => rfl
    | some e =>
      obtain ⟨paddr, flags⟩ := e
      have hlt : paddr.bits.toNat < 2 ^ 40 := hmap _ ho
      have hused : (word (some (paddr, flags))).isUnused = false := by
        rw [PageTableEntry.isUnused, beq_eq_false_iff_ne]
        exact PageTableEntry.newPage_ne_zero _ _
      have hflags : (word (some (paddr, flags))).flags = .ok flags := PageTableEntry.newPage_flags _ _
      have haddr : PhysAddr.new ((word (some (paddr, flags))).paddr.bits + v.pageOffset) =
          ⟨paddr.alignDown.bits + v.pageOffset⟩ := PageTableEntry.newPage_offset hlt flags v
      rw [hused, hflags, haddr]
      rfl

/-! The map as a list -/

/-- The pages of the list are what the page table maps. -/
def Leaves (pt : PageTable) (m : Machine) (l : List (Page × PhysAddr × MemFlags)) : Prop :=
  ∃ map, pt.Valid m map ∧ (l.map Prod.fst).Nodup ∧ ∀ page e, map page = some e ↔ (page, e) ∈ l

namespace Leaves

variable {l l' : List (Page × PhysAddr × MemFlags)}

theorem perm (h : pt.Leaves m l) (hl : l.Perm l') : pt.Leaves m l' := by
  obtain ⟨map, hvalid, hnd, hmem⟩ := h
  exact ⟨map, hvalid, (hl.map _).nodup_iff.mp hnd, fun page e => (hmem page e).trans hl.mem_iff⟩

theorem congr (h : pt.Leaves m l) (hm : ∀ t ∈ pt.tables, m'.memory t = m.memory t) : pt.Leaves m' l := by
  obtain ⟨map, hvalid, hl⟩ := h
  exact ⟨map, hvalid.congr hm, hl⟩

theorem map_page (h : pt.Leaves m l) (ho : m.Owns others pt.tables) (v : VirtAddr) (paddr : PhysAddr)
    (flags : MemFlags) : Ensures (pt.map m v paddr flags)
      (fun r => r.1.Leaves r.2 ((v.page, paddr, flags) :: l) ∧ r.2.Owns others r.1.tables ∧ m.Keeps others r.2)
      (fun e => e = .noFrame ∨ (e = .mapped ∧ v.page ∈ l.map Prod.fst)) := by
  obtain ⟨map, hvalid, hnd, hmem⟩ := h
  have hspec := map_spec hvalid ho v paddr flags
  cases hr : pt.map m v paddr flags with
  | error e =>
    rw [hr] at hspec
    refine Ensures.error (hspec.imp_right fun ⟨he, hv⟩ => ⟨he, ?_⟩)
    obtain ⟨d, hd⟩ := Option.ne_none_iff_exists'.mp hv
    exact List.mem_map.mpr ⟨_, (hmem _ _).mp hd, rfl⟩
  | ok r =>
    rw [hr] at hspec
    obtain ⟨hnone, hvalid', ho', hkeeps⟩ := hspec
    have hnot : v.page ∉ l.map Prod.fst := by
      intro hv
      obtain ⟨e, he, hpage⟩ := List.mem_map.mp hv
      rw [← hpage, (hmem e.1 e.2).mpr he] at hnone
      cases hnone
    refine Ensures.ok ⟨⟨_, hvalid', List.nodup_cons.mpr ⟨hnot, hnd⟩, fun page e => ?_⟩, ho', hkeeps⟩
    rw [Function.update_apply, List.mem_cons, Prod.mk.injEq]
    split_ifs with hpage
    · rw [Option.some.injEq, ← hmem, hpage, hnone]
      simp [eq_comm]
    · rw [hmem]
      simp [hpage]

theorem unmap_page {v : VirtAddr} {e : PhysAddr × MemFlags} (h : pt.Leaves m ((v.page, e) :: l))
    (ho : m.Owns others pt.tables) :
    ∃ m', pt.unmap m v = .ok m' ∧ pt.Leaves m' l ∧ m'.Owns others pt.tables ∧ m.Keeps others m' := by
  obtain ⟨map, hvalid, hnd, hmem⟩ := h
  obtain ⟨hnot, hnd⟩ := List.nodup_cons.mp hnd
  have hv : map v.page ≠ none := by
    rw [(hmem v.page e).mpr List.mem_cons_self]
    exact Option.some_ne_none e
  obtain ⟨m', hm', hvalid', ho', hkeeps⟩ := unmap_spec hvalid ho hv
  refine ⟨m', hm', ⟨_, hvalid', hnd, fun page d => ?_⟩, ho', hkeeps⟩
  rw [Function.update_apply]
  split_ifs with hpage
  · refine iff_of_false not_false fun hd => hnot ?_
    rw [← hpage]
    exact List.mem_map.mpr ⟨_, hd, rfl⟩
  · rw [hmem, List.mem_cons, Prod.mk.injEq]
    simp [hpage]

/-- An address of a page of the list. -/
theorem query_mem (h : pt.Leaves m l) {v : VirtAddr} {paddr : PhysAddr} {flags : MemFlags}
    (hv : (v.page, paddr, flags) ∈ l) (hp : paddr.bits.toNat < 2 ^ 40) :
    pt.query m v = .ok (some (⟨paddr.alignDown.bits + v.pageOffset⟩, flags)) := by
  obtain ⟨map, hvalid, hnd, hmem⟩ := h
  have hsome := (hmem _ _).mpr hv
  rw [query_spec hvalid, lookup, hsome]
  · rfl
  · intro e he
    rw [hsome, Option.some.injEq] at he
    rw [← he]
    exact hp

theorem query_not_mem (h : pt.Leaves m l) {v : VirtAddr} (hv : ∀ e, (v.page, e) ∉ l) :
    pt.query m v = .ok none := by
  obtain ⟨map, hvalid, hnd, hmem⟩ := h
  have hnone : map v.page = none := by
    rw [Option.eq_none_iff_forall_ne_some]
    exact fun e he => hv e ((hmem _ _).mp he)
  rw [query_spec hvalid, lookup, hnone]
  · rfl
  · intro e he
    rw [hnone] at he
    cases he

end Leaves

end PageTable

end RCore.Mm
