import RCore.Lib.Budget
import RCore.Sanity.Mm.MemorySet
import RCore.Spec.Os.Space

/-! How many frames the operations take. -/

namespace RCore.Mm

open RCore.Lib

/-- The frames that are left. -/
def Machine.available (m : Machine) : ℕ := m.allocator.availableSpace

/-- At most `n` frames are taken. -/
abbrev Machine.Takes {α : Type} (m : Machine) (left : α → Machine) (n : ℕ) (r : Except Panic α) : Prop :=
  Lib.Takes .noFrame m.available (fun a => (left a).available) n r

variable {m : Machine}

theorem new_error {va : Usize} {e : Panic} (h : VirtAddr.new va = .error e) : e ≠ .noFrame := by
  rw [VirtAddr.new] at h
  split_ifs at h
  cases h
  exact fun h => by cases h

theorem PhysFrame.alloc_takes (m : Machine) : m.Takes Prod.snd 1 (PhysFrame.alloc m) := by
  rw [PhysFrame.alloc]
  split
  · next value allocator halloc =>
    refine Takes.ok ?_
    rw [Machine.available, Machine.available, FreeListAllocator.availableSpace, FreeListAllocator.availableSpace]
    rw [FreeListAllocator.alloc] at halloc
    split at halloc
    · next value' freeList hfree =>
      obtain ⟨rfl, rfl⟩ := Prod.mk.inj (Option.some.inj halloc)
      rw [hfree, List.length_cons]
      dsimp only
      omega
    · split_ifs at halloc
      obtain ⟨rfl, rfl⟩ := Prod.mk.inj (Option.some.inj halloc)
      dsimp only
      omega
  · next halloc =>
    rw [FreeListAllocator.alloc] at halloc
    split at halloc
    · cases halloc
    · next hfree =>
      split_ifs at halloc with hfull
      intro _
      rw [Machine.available, FreeListAllocator.availableSpace, hfree, List.length_nil]
      omega

theorem PhysFrame.allocZero_takes (m : Machine) : m.Takes Prod.snd 1 (PhysFrame.allocZero m) :=
  Takes.bind (k := 0) (PhysFrame.alloc_takes m) fun r _ => Takes.pure (a := (r.1, r.2.setFrame r.1.startPaddr 0)) le_rfl

namespace PageTable

theorem new_takes (m : Machine) : m.Takes Prod.snd 1 (PageTable.new m) :=
  (PhysFrame.allocZero_takes m).bind fun _ _ => Takes.pure (n := 0) le_rfl

theorem nextTableMut_error {e : PageTableEntry} {err : Panic} (h : nextTableMut e = .error err) : err ≠ .noFrame := by
  rw [nextTableMut] at h
  split_ifs at h
  cases h
  exact fun h => by cases h

theorem nextTableMutOrCreate_takes (pt : PageTable) (m : Machine) (table : PhysAddr) (i : Fin ENTRY_COUNT) :
    m.Takes (fun r => r.2.2) 1 (pt.nextTableMutOrCreate m table i) := by
  refine Takes.ite (fun _ => ?_) fun _ => ?_
  · have halloc : m.Takes (fun r => r.2.2) 1 (pt.allocIntrmTable m) :=
      (PhysFrame.allocZero_takes m).bind fun _ _ => Takes.pure (n := 0) le_rfl
    exact halloc.bind fun _ _ => Takes.pure (n := 0) le_rfl
  · exact Takes.bind_free (fun _ he => nextTableMut_error he) fun _ _ => Takes.pure (Nat.le_add_right _ _)

/-- One table at each level. -/
theorem getEntryMutOrCreate_takes (pt : PageTable) (m : Machine) (v : VirtAddr) :
    m.Takes (fun r => r.2.2) 3 (pt.getEntryMutOrCreate m v) := by
  refine Takes.bind (k := 2) (nextTableMutOrCreate_takes pt m _ _) ?_
  rintro ⟨_ | p3, pt₃, m₃⟩ -
  · exact Takes.pure (Nat.le_add_right _ _)
  refine Takes.bind (k := 1) (nextTableMutOrCreate_takes pt₃ m₃ _ _) ?_
  rintro ⟨_ | p2, pt₂, m₂⟩ -
  · exact Takes.pure (Nat.le_add_right _ _)
  refine Takes.bind (k := 0) (nextTableMutOrCreate_takes pt₂ m₂ _ _) ?_
  rintro ⟨_ | p1, pt₁, m₁⟩ -
  · exact Takes.pure le_rfl
  · exact Takes.pure le_rfl

theorem map_takes (pt : PageTable) (m : Machine) (v : VirtAddr) (paddr : PhysAddr) (flags : MemFlags) :
    m.Takes Prod.snd 3 (pt.map m v paddr flags) := by
  refine Takes.bind (k := 0) (getEntryMutOrCreate_takes pt m v) ?_
  rintro ⟨_ | ⟨table, i⟩, pt', m'⟩ -
  · exact Takes.throw fun h => by cases h
  · exact Takes.ite (fun _ => Takes.throw fun h => by cases h) fun _ => Takes.pure le_rfl

end PageTable

namespace MapArea

theorem map_takes (area : MapArea) (m : Machine) (v : VirtAddr) : m.Takes (fun r => r.2.2) 1 (area.map m v) := by
  refine Takes.ite (fun _ => ?_) fun _ => Takes.throw fun h => by cases h
  cases area.mapper with
  | offset off => exact Takes.pure (Nat.le_add_right _ _)
  | framed frames =>
    dsimp only
    cases frames.get? v with
    | some f => exact Takes.pure (Nat.le_add_right _ _)
    | none => exact (PhysFrame.allocZero_takes m).bind fun _ _ => Takes.pure (n := 0) le_rfl

/-- A frame for each page, and tables. -/
theorem mapArea_takes (pt : PageTable) (area : MapArea) (m : Machine) :
    m.Takes (fun r => r.2.2) (area.pages * 4) (pt.mapArea area m) := by
  refine Takes.bind (k := 0) (Takes.whileM (fun s : PageTable.Mapping => s.machine.available) (n := 4)
    (fun s => ?_) area.pages ⟨pt, area, m, area.start.bits⟩) fun s _ => Takes.pure le_rfl
  refine Takes.bind_free (fun _ he => new_error he) fun v _ => ?_
  refine Takes.bind (k := 3) (map_takes s.area s.machine v) fun r _ => ?_
  refine Takes.bind_free (fun _ he => new_error he) fun v _ => ?_
  exact Takes.bind (k := 0) (PageTable.map_takes _ _ _ _ _) fun _ _ => Takes.pure le_rfl

theorem cloneFrames_takes (newFrames : OrdMap VirtAddr PhysFrame) (m : Machine) (l : List (VirtAddr × PhysFrame)) :
    m.Takes Prod.snd l.length (cloneFrames newFrames m l) := by
  induction l generalizing newFrames m with
  | nil => exact Takes.pure le_rfl
  | cons e l ih =>
    have hrest : ∀ r : PhysFrame × Machine, PhysFrame.alloc m = .ok r → r.2.Takes Prod.snd l.length
        (cloneFrames (newFrames.insert e.1 r.1) (r.2.setFrame r.1.startPaddr (r.2.memory e.2.startPaddr.frame)) l) :=
      fun _ _ => ih _ _
    exact (Takes.bind (PhysFrame.alloc_takes m) hrest).mono (Nat.add_comm 1 _).le

theorem clone_takes (area : MapArea) (m : Machine) : m.Takes Prod.snd area.entries.length (area.clone m) := by
  rw [clone, entries]
  cases area.mapper with
  | offset off => exact Takes.pure (Nat.le_add_right _ _)
  | framed frames => exact (cloneFrames_takes _ m _).bind fun _ _ => Takes.pure (n := 0) le_rfl

theorem clone_pages (area : MapArea) (m : Machine) :
    Ensures (area.clone m) (fun r => r.1.pages = area.pages) fun _ => True := by
  rw [clone]
  cases area.mapper with
  | offset off => exact Ensures.pure rfl
  | framed frames => exact Ensures.result.bind fun _ _ => Ensures.pure rfl

theorem map_pages (area : MapArea) (m : Machine) (v : VirtAddr) :
    Ensures (area.map m v) (fun r => r.2.1.pages = area.pages) fun _ => True := by
  refine Ensures.ite (fun _ => ?_) fun _ => Ensures.throw trivial
  cases area.mapper with
  | offset off => exact Ensures.pure rfl
  | framed frames =>
    dsimp only
    cases frames.get? v with
    | some f => exact Ensures.pure rfl
    | none => exact Ensures.result.bind fun _ _ => Ensures.pure rfl

theorem writeData_pages (area : MapArea) (m : Machine) (offset : Usize) (data : Slice) :
    Ensures (area.writeData m offset data) (fun r => r.1.pages = area.pages) fun _ => True := by
  refine Ensures.ite (fun _ => ?_) fun _ => Ensures.throw trivial
  refine (whileM_inv (fun w : Writing => w.area.pages = area.pages) (fun w hw => ?_) rfl).bind
    fun w hw => Ensures.pure hw
  exact Ensures.result.bind fun v _ => (map_pages w.area w.machine v).bind fun r hr => Ensures.pure (hr.trans hw)

/-- The pages that are left to write to. -/
def Writing.pages (w : Writing) : ℕ :=
  if w.remain.toNat = 0 then 0 else (w.start.toNat % 4096 + w.remain.toNat + 4095) / 4096

theorem Writing.next_takes {w : Writing} (data : List (BitVec 8)) (hpos : 0 < w.remain) :
    w.machine.Takes Writing.machine 1 (w.next data) := by
  obtain ⟨n, -, -, -, hnext⟩ := next_eq data hpos
  rw [hnext]
  refine Takes.bind_free (fun _ he => new_error he) fun v _ => ?_
  refine Takes.bind (k := 0) (map_takes w.area w.machine v) ?_
  rintro ⟨p, a, m'⟩ -
  exact Takes.pure le_rfl

theorem Writing.next_pages {w : Writing} {stop : ℕ} (data : List (BitVec 8)) (hpos : 0 < w.remain)
    (hstop : w.start.toNat + w.remain.toNat ≤ stop) (hlt : stop < 2 ^ 64) :
    Ensures (w.next data) (fun w' => w'.start.toNat + w'.remain.toNat ≤ stop ∧ w'.pages < w.pages) fun _ => True := by
  obtain ⟨n, hnpos, hn, hmin, hnext⟩ := next_eq data hpos
  rw [hnext]
  refine Ensures.result.bind fun v _ => Ensures.result.bind fun r _ => Ensures.pure ?_
  have hsub : (w.remain - n).toNat = w.remain.toNat - n.toNat := BitVec.toNat_sub_of_le (BitVec.le_def.mpr hn)
  have hadd : (w.start + n).toNat = w.start.toNat + n.toNat := by
    rw [BitVec.toNat_add]
    omega
  have hrem : w.remain.toNat ≠ 0 := by omega
  rw [Writing.pages, Writing.pages, if_neg hrem]
  dsimp only
  rw [hsub, hadd]
  refine ⟨by omega, ?_⟩
  split_ifs
  · omega
  · omega

/-- A frame for each page, at most. -/
theorem writeData_takes {area : MapArea} (hsize : area.size.toNat ≤ 2 ^ 63) (m : Machine) (offset : Usize)
    (data : Slice) : m.Takes Prod.snd area.pages (area.writeData m offset data) := by
  have hdata := data.property
  refine Takes.ite (fun hc => ?_) fun _ => Takes.throw fun h => by cases h
  obtain ⟨hlt, hin⟩ := hc
  rw [BitVec.lt_def] at hlt
  rw [BitVec.le_def, BitVec.toNat_add, toNat_length] at hin
  have hinv : offset.toNat + (BitVec.ofNat 64 data.val.length).toNat ≤ area.size.toNat := by
    rw [toNat_length]
    omega
  have hpages : (Writing.mk area m offset (BitVec.ofNat 64 data.val.length) 0).pages ≤ area.pages := by
    have := area.pages_mul
    rw [Writing.pages]
    split_ifs
    · exact Nat.zero_le _
    · dsimp only
      omega
  refine (Takes.bind (k := 0) (Takes.whileM_variant (fun w : Writing => w.machine.available)
    (fun w => w.start.toNat + w.remain.toNat ≤ area.size.toNat) Writing.pages (fun w h hw => ?_) (fun w h hw => ?_)
    (fun w h hw => Writing.next_takes _ (of_decide_eq_true hw)) _ hinv) fun w _ => Takes.pure le_rfl).mono hpages
  · have hpos : 0 < w.remain.toNat := of_decide_eq_true hw
    rw [Writing.pages, if_neg hpos.ne']
    omega
  · exact Writing.next_pages _ (of_decide_eq_true hw) h (by omega)

end MapArea

namespace MemorySet

theorem new_takes (m : Machine) : m.Takes Prod.snd 1 (MemorySet.new m) :=
  (PageTable.new_takes m).bind fun _ _ => Takes.pure (n := 0) le_rfl

theorem insert_takes (ms : MemorySet) (area : MapArea) (m : Machine) :
    m.Takes Prod.snd (area.pages * 4) (ms.insert area m) := by
  rw [MemorySet.insert, if_pos (insert_test area)]
  cases ms.areas.get? area.start with
  | some a => exact Takes.throw fun h => by cases h
  | none => exact (MapArea.mapArea_takes ms.pt area m).bind fun _ _ => Takes.pure (n := 0) le_rfl

/-- The frames that a copy of some areas takes. -/
def copySize (areas : List MapArea) : ℕ := (areas.map fun area => area.entries.length + area.pages * 4).sum

theorem cloneAreas_takes (ms : MemorySet) (m : Machine) (areas : List MapArea) :
    m.Takes Prod.snd (copySize areas) (ms.cloneAreas m areas) := by
  induction areas generalizing ms m with
  | nil => exact Takes.pure le_rfl
  | cons area areas ih =>
    refine (Takes.bind (MapArea.clone_takes area m) (k := area.pages * 4 + copySize areas) ?_).mono ?_
    · rintro ⟨a, m₁⟩ ha
      have hpages : a.pages = area.pages := (MapArea.clone_pages area m).post_of_ok ha
      rw [← hpages]
      refine Takes.bind (insert_takes ms a m₁) ?_
      rintro ⟨ms', m'⟩ -
      exact ih _ _
    · rw [copySize, copySize, List.map_cons, List.sum_cons]
      omega

theorem clone_takes (ms : MemorySet) (m : Machine) :
    m.Takes Prod.snd (1 + copySize ms.areas.values) (ms.clone m) :=
  (new_takes m).bind fun r _ => cloneAreas_takes r.1 r.2 _

end MemorySet

end RCore.Mm
