import RCore.Sanity.Mm.PageTable

/-! A page table is a finite map, whatever happens to the rest of the memory. -/

namespace RCore.Mm

open RCore.Lib RCore.Lib.Radix

/-- A page table is made, pages are mapped and unmapped, and in between others use the
allocator and the memory, but not the frames of the table. The map says what has been mapped. -/
inductive TableRun : PageTable → Machine → (Page → Option (PhysAddr × MemFlags)) → Prop where
  | new {m m' : Machine} {pt : PageTable} (hm : m.Ok) (h : PageTable.new m = .ok (pt, m')) :
    TableRun pt m' fun _ => none
  | map {m m' : Machine} {pt pt' : PageTable} {map : Page → Option (PhysAddr × MemFlags)} {v : VirtAddr}
    {paddr : PhysAddr} {flags : MemFlags} (run : TableRun pt m map) (hv : map v.page = none)
    (hp : paddr.bits.toNat < 2 ^ 40) (h : pt.map m v paddr flags = .ok (pt', m')) :
    TableRun pt' m' (Function.update map v.page (some (paddr, flags)))
  | unmap {m m' : Machine} {pt : PageTable} {map : Page → Option (PhysAddr × MemFlags)} {v : VirtAddr}
    (run : TableRun pt m map) (hv : map v.page ≠ none) (h : pt.unmap m v = .ok m') :
    TableRun pt m' (Function.update map v.page none)
  | other {m m' : Machine} {pt : PageTable} {map : Page → Option (PhysAddr × MemFlags)}
    (run : TableRun pt m map) (hm : m'.Ok)
    (h : ∀ f ∈ pt.tables, f ∈ m'.outstanding ∧ m'.memory f = m.memory f) : TableRun pt m' map

namespace TableRun

variable {pt : PageTable} {m : Machine} {map : Page → Option (PhysAddr × MemFlags)}

theorem invariant (run : TableRun pt m map) : pt.Valid m map ∧ (∃ others, m.Owns others pt.tables) ∧
    ∀ page e, map page = some e → e.1.bits.toNat < 2 ^ 40 := by
  induction run with
  | @new m m' pt hm h =>
    have hnone : m.Owns m.outstanding [] :=
      ⟨hm, List.nodup_nil, fun _ hf => absurd hf List.not_mem_nil, fun f => by simp⟩
    have hspec := PageTable.new_spec hnone
    rw [h] at hspec
    exact ⟨hspec.1, ⟨_, hspec.2.1⟩, fun _ _ he => by cases he⟩
  | @map m m' pt pt' map v paddr flags run hv hp h ih =>
    obtain ⟨hvalid, ⟨others, ho⟩, hmap⟩ := ih
    have hspec := PageTable.map_spec hvalid ho v paddr flags
    rw [h] at hspec
    obtain ⟨-, hvalid', ho', -⟩ := hspec
    refine ⟨hvalid', ⟨others, ho'⟩, fun page e he => ?_⟩
    rw [Function.update_apply] at he
    split_ifs at he
    · rw [← Option.some.inj he]
      exact hp
    · exact hmap page e he
  | @unmap m m' pt map v run hv h ih =>
    obtain ⟨hvalid, ⟨others, ho⟩, hmap⟩ := ih
    obtain ⟨m₁, h₁, hvalid', ho', -⟩ := PageTable.unmap_spec hvalid ho hv
    rw [h, Except.ok.injEq] at h₁
    subst h₁
    refine ⟨hvalid', ⟨others, ho'⟩, fun page e he => ?_⟩
    rw [Function.update_apply] at he
    split_ifs at he
    exact hmap page e he
  | @other m m' pt map run hm h ih =>
    obtain ⟨hvalid, ⟨others, ho⟩, hmap⟩ := ih
    exact ⟨hvalid.congr fun f hf => (h f hf).2, ⟨_, Machine.owns_of_outstanding hm ho.nodup fun f hf => (h f hf).1⟩, hmap⟩

theorem query_update {pt' : PageTable} {m' : Machine} {v u : VirtAddr} {o : Option (PhysAddr × MemFlags)}
    (run : TableRun pt m map) (run' : TableRun pt' m' (Function.update map v.page o)) (hu : u.page ≠ v.page) :
    pt'.query m' u = pt.query m u := by
  obtain ⟨hvalid, -, hmap⟩ := run.invariant
  obtain ⟨hvalid', -, hmap'⟩ := run'.invariant
  rw [PageTable.query_spec hvalid (hmap _), PageTable.query_spec hvalid' (hmap' _), PageTable.lookup,
    Function.update_of_ne hu, PageTable.lookup]

end TableRun

/-- In every run, a query finds what has been mapped last. Mapping a page that is not mapped
fails only for want of a frame, unmapping one that is mapped never fails, and neither changes
the query of another page. Each table but the root is the target of exactly one entry of the
upper three levels. -/
theorem page_table_refines_map {pt : PageTable} {m : Machine} {map : Page → Option (PhysAddr × MemFlags)}
    (run : TableRun pt m map) :
    (∀ v, pt.query m v = .ok (PageTable.lookup map v)) ∧
    (∀ v paddr flags, map v.page = none → paddr.bits.toNat < 2 ^ 40 →
      Ensures (pt.map m v paddr flags)
        (fun r => ∀ u, u.page ≠ v.page → r.1.query r.2 u = pt.query m u) (· = .noFrame)) ∧
    (∀ v, map v.page ≠ none →
      ∃ m', pt.unmap m v = .ok m' ∧ ∀ u, u.page ≠ v.page → pt.query m' u = pt.query m u) ∧
    ∀ f ∈ pt.tables, f ≠ pt.rootPaddr.frame → ∃! e : ℕ × Fin ENTRY_COUNT,
      (∃ path : List (Fin ENTRY_COUNT), path.length < 3 ∧
        walk link m.cell pt.rootPaddr.frame path = some e.1) ∧ link (m.cell e.1 e.2) = some f := by
  obtain ⟨hvalid, ⟨others, ho⟩, hmap⟩ := run.invariant
  refine ⟨fun v => PageTable.query_spec hvalid (hmap _), fun v paddr flags hv hp => ?_, fun v hv => ?_,
    fun f hf hroot => hvalid.tree.existsUnique_link hf hroot⟩
  · cases h : pt.map m v paddr flags with
    | error e =>
      have hspec := PageTable.map_spec hvalid ho v paddr flags
      rw [h] at hspec
      rcases hspec with hspec | ⟨-, hmapped⟩
      · exact hspec
      · exact absurd hv hmapped
    | ok r => exact fun u hu => run.query_update (.map run hv hp h) hu
  · obtain ⟨m', h, -⟩ := PageTable.unmap_spec hvalid ho hv
    exact ⟨m', h, fun u hu => run.query_update (.unmap run hv h) hu⟩

theorem page_table_refines_map_two : ∃ pt m map, TableRun pt m map ∧
    map (VirtAddr.page ⟨0x1000⟩) = some (⟨0x40200000⟩, ⟨true, true, false, true, false⟩) ∧
    pt.query m ⟨0x1008⟩ = .ok (some (⟨0x40200008⟩, ⟨true, true, false, true, false⟩)) ∧
    pt.query m ⟨0x2000⟩ = .ok none := by
  have hok : Machine.Ok ⟨⟨0, 8, 0, []⟩, fun _ => 0⟩ :=
    ⟨⟨by decide, by decide, fun _ h => absurd h List.not_mem_nil, List.nodup_nil⟩, by decide⟩
  have hrun : (do
      let (pt, m) ← PageTable.new ⟨⟨0, 8, 0, []⟩, fun _ => 0⟩
      pt.map m ⟨0x1000⟩ ⟨0x40200000⟩ ⟨true, true, false, true, false⟩).isOk = true := by
    decide +kernel
  cases hnew : PageTable.new ⟨⟨0, 8, 0, []⟩, fun _ => 0⟩ with
  | error e =>
    rw [hnew] at hrun
    cases hrun
  | ok r =>
    rw [hnew] at hrun
    change (r.1.map r.2 ⟨0x1000⟩ ⟨0x40200000⟩ ⟨true, true, false, true, false⟩).isOk = true at hrun
    cases hmap : r.1.map r.2 ⟨0x1000⟩ ⟨0x40200000⟩ ⟨true, true, false, true, false⟩ with
    | error e =>
      rw [hmap] at hrun
      cases hrun
    | ok r' =>
      have run := TableRun.map (.new hok hnew) rfl (by decide) hmap
      exact ⟨_, _, _, run, rfl, (page_table_refines_map run).1 _, (page_table_refines_map run).1 _⟩

end RCore.Mm
