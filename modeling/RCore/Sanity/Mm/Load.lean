import RCore.Sanity.Mm.MemorySet
import RCore.Spec.Os.Space

/-! Loading a program puts areas into the memory set: one for each segment, and one for the
stack. -/

namespace RCore.Mm

open RCore.Lib

/-- The area of a segment: from the page of its first address to the end of that of its last
one. -/
structure Segment.Spans (ph : Segment) (area : MapArea) : Prop where
  start : area.start.bits = alignDown ph.virtualAddr PAGE_SIZE
  size : area.size = alignUp (ph.virtualAddr + ph.memSize) PAGE_SIZE - alignDown ph.virtualAddr PAGE_SIZE
  pos : 0 < area.size.toNat

/-- The area of a stack. -/
structure MapArea.IsStack (area : MapArea) (ustackBottom : ℕ) : Prop where
  start : area.start.bits = BitVec.ofNat 64 ustackBottom
  size : area.size = BitVec.ofNat 64 Os.USER_STACK_SIZE

namespace MemorySet

/-- An operation puts areas of which `P` is true into a set. -/
structure Inserts (others : Set ℕ) (ms : MemorySet) (m : Machine) (P : MapArea → Prop) (r : MemorySet × Machine) :
    Prop where
  sound : r.1.Sound r.2
  owns : r.2.Owns others r.1.frames
  keeps : m.Keeps others r.2
  root : r.1.pageTableRoot = ms.pageTableRoot
  areas : ∀ area ∈ r.1.areas.values, area ∈ ms.areas.values ∨ P area

variable {ms : MemorySet} {m m' : Machine} {others : Set ℕ} {P Q : MapArea → Prop} {r : MemorySet × Machine}

theorem Inserts.refl (h : ms.Sound m) (ho : m.Owns others ms.frames) : Inserts others ms m P (ms, m) :=
  ⟨h, ho, Machine.Keeps.refl _ _, rfl, fun _ ha => .inl ha⟩

theorem Inserts.trans {r' : MemorySet × Machine} (h : Inserts others ms m P r)
    (h' : Inserts others r.1 r.2 Q r') : Inserts others ms m (fun a => P a ∨ Q a) r' := by
  refine ⟨h'.sound, h'.owns, h.keeps.trans h'.keeps, h'.root.trans h.root, fun a ha => ?_⟩
  rcases h'.areas a ha with ha | ha
  · exact (h.areas a ha).imp_right .inl
  · exact .inr (.inr ha)

theorem Inserts.mono (h : Inserts others ms m P r) (himp : ∀ a, P a → Q a) : Inserts others ms m Q r :=
  ⟨h.sound, h.owns, h.keeps, h.root, fun a ha => (h.areas a ha).imp_right (himp a)⟩

theorem Sound.inserts {area : MapArea} (h : ms.Sound m) (hframed : area.Framed) (hwithin : area.Within)
    (ho : m.Owns others (ms.frames ++ area.frames)) (hP : ∀ a, MapArea.Same area a → P a) :
    Ensures (ms.insert area m) (Inserts others ms m P) (ms.InsertFails area) := by
  refine ((h.insert hframed (fun _ => hwithin) ho).and (insert_root ms area m)).mono ?_
  rintro ⟨ms', m'⟩ ⟨hputs, hroot⟩
  obtain ⟨area', hsame, -, hareas⟩ := hputs.areas
  refine ⟨hputs.sound, hputs.owns, hputs.keeps, hroot, fun a ha => ?_⟩
  rw [hareas] at ha
  rcases (values_put hputs.vacant).mp ha with rfl | ha
  · exact .inr (hP a hsame)
  · exact .inl ha

theorem loadSegment_spec (h : ms.Sound m) (ho : m.Owns others ms.frames) (ph : Segment) :
    Ensures (ms.loadSegment ph m) (Inserts others ms m ph.Spans) fun _ => True := by
  refine Ensures.result.bind fun v hv => Ensures.result.bind fun w hw => ?_
  obtain ⟨rfl, -⟩ := new_eq_ok.mp hv
  obtain ⟨rfl, -⟩ := new_eq_ok.mp hw
  refine (MapArea.newFramed_spec _ _ _).weaken.bind ?_
  rintro area ⟨hstart, hsize, hframed, hframes, hwithin⟩
  have hnil : m.Owns others (area.frames ++ ms.frames) := by
    rw [hframes]
    exact ho
  refine ((MapArea.writeData_spec hframed hwithin hnil.focus _ _).and (MapArea.writeData_lt ..)).bind ?_
  rintro ⟨area₁, m₁⟩ ⟨⟨hsame, hwithin₁, ho₁, hkeeps₁⟩, hlt⟩
  have hsound := h.congr fun t ht => hkeeps₁ t (.inr (List.mem_append_left _ ht))
  have hspans : ∀ a, MapArea.Same area₁ a → ph.Spans a := by
    intro a ha
    refine ⟨?_, ?_, ?_⟩
    · rw [ha.start, hsame.start, hstart]
      rfl
    · rw [ha.size, hsame.size, hsize]
      rfl
    · rw [ha.size, hsame.size]
      exact Nat.zero_lt_of_lt hlt
  refine (hsound.inserts hsame.framed hwithin₁ ((hnil.unfocus ho₁).perm List.perm_append_comm) hspans).weaken.mono
    fun r hr => ?_
  exact ⟨hr.sound, hr.owns, (hkeeps₁.mono Set.subset_union_left).trans hr.keeps, hr.root, hr.areas⟩

theorem loadSegments_spec {elf : List Segment} (h : ms.Sound m) (ho : m.Owns others ms.frames) :
    Ensures (ms.loadSegments m elf) (Inserts others ms m fun a => ∃ ph ∈ elf, ph.Spans a) fun _ => True := by
  induction elf generalizing ms m with
  | nil => exact Ensures.pure (.refl h ho)
  | cons ph elf ih =>
    refine (loadSegment_spec h ho ph).bind fun r hr => ?_
    refine (ih hr.sound hr.owns).mono fun r' hr' => (hr.trans hr').mono ?_
    rintro a (ha | ⟨ph', hph', ha⟩)
    · exact ⟨ph, List.mem_cons_self, ha⟩
    · exact ⟨ph', List.mem_cons_of_mem _ hph', ha⟩

/-- Why a stack cannot be inserted. -/
def StackFails (ms : MemorySet) (ustackBottom : ℕ) (e : Panic) : Prop :=
  VirtAddr.new (BitVec.ofNat 64 ustackBottom) = .error e ∨
    isAligned (BitVec.ofNat 64 ustackBottom) PAGE_SIZE = false ∨
    ∃ area : MapArea, area.IsStack ustackBottom ∧ ms.InsertFails area e

theorem insertStack_spec (h : ms.Sound m) (ho : m.Owns others ms.frames) (ustackBottom : ℕ) :
    Ensures (ms.insertStack ustackBottom m) (Inserts others ms m fun a => a.IsStack ustackBottom)
      (ms.StackFails ustackBottom) := by
  refine (Ensures.cases.fails_imp fun e he => .inl he).bind fun v hv => ?_
  obtain ⟨rfl, -⟩ := new_eq_ok.mp hv
  refine ((MapArea.newFramed_spec _ _ _).fails_imp fun e he => ?_).bind ?_
  · exact .inr (.inl (he.resolve_right (by decide)))
  rintro area ⟨hstart, hsize, hframed, hframes, hwithin⟩
  have hstack : area.IsStack ustackBottom := ⟨by rw [hstart], hsize⟩
  refine (h.inserts hframed hwithin ?_ fun a ha => ?_).fails_imp fun e he => .inr (.inr ⟨area, hstack, he⟩)
  · rw [hframes, List.append_nil]
    exact ho
  · exact ⟨by rw [ha.start, hstart], by rw [ha.size, hsize]⟩

theorem loadUser_spec (h : ms.Sound m) (ho : m.Owns others ms.frames) (elf : List Segment) :
    Ensures (ms.loadUser elf m)
      (Inserts others ms m fun a => (∃ ph ∈ elf, ph.Spans a) ∨ a.IsStack (Os.userStack 0).1) fun _ => True := by
  refine (loadSegments_spec h ho).bind fun r hr => ?_
  exact (insertStack_spec hr.sound hr.owns _).weaken.mono fun r' hr' => hr.trans hr'

end MemorySet

end RCore.Mm
