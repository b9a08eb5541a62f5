import RCore.Proofs.Mm.Conservation
import RCore.Sanity.Mm.Contents
import RCore.Sanity.Mm.Load

/-! A copy of a memory set has the same bytes at the same addresses, and no frame in common
with the set. -/

namespace RCore.Mm

open RCore.Lib

/-- A set that programs are loaded into and areas are inserted into, that is written to and may
be cleared. In between others use the allocator and the memory, but not the frames of the set. -/
inductive Built : MemorySet → Machine → Prop where
  | new {m m' : Machine} {ms : MemorySet} (hm : m.Ok) (h : MemorySet.new m = .ok (ms, m')) : Built ms m'
  | loadUser {m m' : Machine} {ms ms' : MemorySet} {elf : List Segment} (hb : Built ms m)
    (h : ms.loadUser elf m = .ok (ms', m')) : Built ms' m'
  | insert {m m₁ m' : Machine} {ms ms' : MemorySet} {area area₁ : MapArea} {start : VirtAddr} {size : Usize}
    {flags : MemFlags} {writes : List (Usize × Slice)} (hb : Built ms m)
    (hnew : MapArea.newFramed start size flags = .ok area) (hwrite : area.writeAll m writes = .ok (area₁, m₁))
    (h : ms.insert area₁ m₁ = .ok (ms', m')) : Built ms' m'
  | clear {m m' : Machine} {ms ms' : MemorySet} (hb : Built ms m) (h : ms.clear m = .ok (ms', m')) : Built ms' m'
  | store {m : Machine} {ms : MemorySet} {v : VirtAddr} {p : PhysAddr} {flags : MemFlags} (hb : Built ms m)
    (hv : ms.pt.query m v = .ok (some (p, flags))) (frame : Frame) : Built ms (m.setFrame p frame)
  | other {m m' : Machine} {ms : MemorySet} (hb : Built ms m) (hm : m'.Ok)
    (h : ∀ f ∈ ms.frames, f ∈ m'.outstanding ∧ m'.memory f = m.memory f) : Built ms m'

/-- What can be done with a set: a write to a page that it maps, `clear` and `drop`. -/
inductive Uses : Option MemorySet × Machine → Option MemorySet × Machine → Prop where
  | write {m : Machine} {ms : MemorySet} {v : VirtAddr} {p : PhysAddr} {flags : MemFlags}
    (hv : ms.pt.query m v = .ok (some (p, flags))) (frame : Frame) : Uses (some ms, m) (some ms, m.setFrame p frame)
  | clear {m m' : Machine} {ms ms' : MemorySet} (h : ms.clear m = .ok (ms', m')) : Uses (some ms, m) (some ms', m')
  | drop {m m' : Machine} {ms : MemorySet} (h : ms.drop m = .ok m') : Uses (some ms, m) (none, m')

/-- What becomes of two sets that are used. A set that has been dropped is `none`. -/
inductive Later (ms ms' : MemorySet) (m₀ : Machine) : Option MemorySet → Option MemorySet → Machine → Prop where
  | start : Later ms ms' m₀ (some ms) (some ms') m₀
  | first {a a' b : Option MemorySet} {m m' : Machine} (h : Later ms ms' m₀ a b m) (hu : Uses (a, m) (a', m')) :
    Later ms ms' m₀ a' b m'
  | second {a b b' : Option MemorySet} {m m' : Machine} (h : Later ms ms' m₀ a b m) (hu : Uses (b, m) (b', m')) :
    Later ms ms' m₀ a b' m'
  | other {a b : Option MemorySet} {m m' : Machine} (h : Later ms ms' m₀ a b m) (hm : m'.Ok)
    (hkept : ∀ f ∈ Sets.setFrames a ++ Sets.setFrames b, f ∈ m'.outstanding ∧ m'.memory f = m.memory f) :
    Later ms ms' m₀ a b m'

/-- What is read in a set, if it is there. -/
def readOf (o : Option MemorySet) (m : Machine) (v : VirtAddr) : Option (MemFlags × BitVec 8) :=
  o.bind fun ms => ms.read m v

def MapArea.shape (area : MapArea) : VirtAddr × Usize × MemFlags := (area.start, area.size, area.flags)

/-- A set and its copy: the areas, and what is read, are the same, and no frame is. Whatever
happens to them later, what is done with one does not change what is read in the other, and
both can be cleared and dropped. -/
structure MemorySet.Forked (ms : MemorySet) (m : Machine) (ms' : MemorySet) (m' : Machine) : Prop where
  areas : ∀ v, (ms'.areas.get? v).map MapArea.shape = (ms.areas.get? v).map MapArea.shape
  copied : ∀ v, ms'.read m' v = ms.read m v
  kept : ∀ v, ms.read m' v = ms.read m v
  apart : ∀ f ∈ ms'.frames, f ∉ ms.frames
  first : ∀ a b m₁ a' m₂, Later ms ms' m' a b m₁ → Uses (a, m₁) (a', m₂) → ∀ v, readOf b m₂ v = readOf b m₁ v
  second : ∀ a b m₁ b' m₂, Later ms ms' m' a b m₁ → Uses (b, m₁) (b', m₂) → ∀ v, readOf a m₂ v = readOf a m₁ v
  returns : ∀ a b m₁ x, Later ms ms' m' a b m₁ → a = some x ∨ b = some x →
    (∃ r, x.clear m₁ = .ok r) ∧ ∃ r, x.drop m₁ = .ok r

variable {m m' : Machine} {ms ms' : MemorySet} {a a' b : Option MemorySet} {others : Set ℕ}

/-! Ownership -/

/-- A page that is mapped is not a table. -/
theorem MemorySet.Sound.store {v : VirtAddr} {p : PhysAddr} {flags : MemFlags} (h : ms.Sound m)
    (ho : m.Owns others ms.frames) (hv : ms.pt.query m v = .ok (some (p, flags))) (frame : Frame) :
    ms.Sound (m.setFrame p frame) ∧ (m.setFrame p frame).Owns others ms.frames ∧ m.Keeps others (m.setFrame p frame) := by
  have hp := h.query_frame hv
  refine ⟨h.congr fun t ht => ?_, ho.setFrame p frame, .setFrame ho (List.mem_append_right _ hp) frame⟩
  rw [Machine.setFrame_memory, if_neg]
  rintro rfl
  exact List.disjoint_of_nodup_append ho.nodup ht hp

theorem Built.invariant (h : Built ms m) : ms.Sound m ∧ ∃ others, m.Owns others ms.frames := by
  induction h with
  | new hm h =>
    have hnil := Machine.owns_of_outstanding hm List.nodup_nil fun f hf => absurd hf List.not_mem_nil
    obtain ⟨hok, ho, -, -⟩ := (MemorySet.new_spec hnil).post_of_ok h
    exact ⟨hok.sound, _, ho⟩
  | loadUser hb h ih =>
    obtain ⟨hsound, others, ho⟩ := ih
    have hi := (MemorySet.loadUser_spec hsound ho _).post_of_ok h
    exact ⟨hi.sound, others, hi.owns⟩
  | insert hb hnew hwrite h ih =>
    obtain ⟨hsound, others, ho⟩ := ih
    obtain ⟨-, -, hframed, hframes, hwithin⟩ := (MapArea.newFramed_spec _ _ _).post_of_ok hnew
    have hnil := Owns.perm ho (List.Perm.of_eq (List.nil_append _).symm)
    rw [← hframes] at hnil
    obtain ⟨hsame, hwithin₁, ho₁, hkeeps₁⟩ := (Sets.writeAll_spec hframed hwithin hnil.focus).post_of_ok hwrite
    have hsound₁ := hsound.congr fun t ht => hkeeps₁ t (.inr (List.mem_append_left _ ht))
    have hputs := (hsound₁.insert hsame.framed (fun _ => hwithin₁)
      ((hnil.unfocus ho₁).perm List.perm_append_comm)).post_of_ok h
    exact ⟨hputs.sound, others, hputs.owns⟩
  | clear hb h ih =>
    obtain ⟨hsound, others, ho⟩ := ih
    obtain ⟨m₁, hm₁, hok, ho', -⟩ := hsound.clear ho
    rw [h] at hm₁
    obtain ⟨rfl, rfl⟩ := Prod.mk.inj (Except.ok.inj hm₁)
    exact ⟨hok.sound, others, ho'.perm (List.Perm.of_eq (List.append_nil _).symm)⟩
  | store hb hv frame ih =>
    obtain ⟨hsound, others, ho⟩ := ih
    obtain ⟨hsound', ho', -⟩ := hsound.store ho hv frame
    exact ⟨hsound', others, ho'⟩
  | other hb hm h ih =>
    obtain ⟨hsound, others, ho⟩ := ih
    exact ⟨hsound.congr fun t ht => (h t (List.mem_append_left _ ht)).2, _,
      Machine.owns_of_outstanding hm ho.nodup fun f hf => (h f hf).1⟩

/-! Using one of two sets -/

/-- What a set that may be gone keeps. -/
def SoundOf (o : Option MemorySet) (m : Machine) : Prop := ∀ ms, o = some ms → ms.Sound m

theorem SoundOf.congr (h : SoundOf a m) (hm : ∀ f ∈ Sets.setFrames a, m'.memory f = m.memory f) : SoundOf a m' := by
  rintro ms rfl
  exact (h ms rfl).congr fun t ht => hm t (List.mem_append_left _ ht)

theorem SoundOf.readOf_eq (h : SoundOf a m) (hm : ∀ f ∈ Sets.setFrames a, m'.memory f = m.memory f) (v : VirtAddr) :
    readOf a m' v = readOf a m v := by
  cases a with
  | none => rfl
  | some ms => exact (h ms rfl).read_congr hm v

theorem Uses.spec (hu : Uses (a, m) (a', m')) (h : SoundOf a m) (ho : m.Owns others (Sets.setFrames a)) :
    SoundOf a' m' ∧ m'.Owns others (Sets.setFrames a') ∧ m.Keeps others m' := by
  cases hu with
  | @write _ ms v p flags hv frame =>
    obtain ⟨hsound, ho', hkeeps⟩ := (h ms rfl).store ho hv frame
    refine ⟨?_, ho', hkeeps⟩
    rintro _ ⟨⟩
    exact hsound
  | @clear _ _ ms ms' hclear =>
    obtain ⟨m₁, hm₁, hok, ho', hkeeps⟩ := (h ms rfl).clear ho
    rw [hclear] at hm₁
    obtain ⟨rfl, rfl⟩ := Prod.mk.inj (Except.ok.inj hm₁)
    refine ⟨?_, ho'.perm (List.Perm.of_eq (List.append_nil _).symm), hkeeps⟩
    rintro _ ⟨⟩
    exact hok.sound
  | @drop _ _ ms hdrop =>
    obtain ⟨m₁, hm₁, ho', hkeeps⟩ := (h ms rfl).drop ho
    rw [hdrop] at hm₁
    obtain rfl := Except.ok.inj hm₁
    refine ⟨?_, ho', hkeeps⟩
    rintro _ ⟨⟩

/-- Two sets with frames of their own. -/
structure Apart (a b : Option MemorySet) (m : Machine) : Prop where
  first : SoundOf a m
  second : SoundOf b m
  owns : ∃ others, m.Owns others (Sets.setFrames a ++ Sets.setFrames b)

theorem Apart.symm (h : Apart a b m) : Apart b a m := by
  obtain ⟨others, ho⟩ := h.owns
  exact ⟨h.second, h.first, others, ho.perm List.perm_append_comm⟩

theorem Apart.uses (h : Apart a b m) (hu : Uses (a, m) (a', m')) :
    Apart a' b m' ∧ ∀ v, readOf b m' v = readOf b m v := by
  obtain ⟨others, ho⟩ := h.owns
  obtain ⟨hsound, ho', hkeeps⟩ := hu.spec h.first ho.focus
  have hkept : ∀ f ∈ Sets.setFrames b, m'.memory f = m.memory f := fun f hf => hkeeps f (.inr hf)
  exact ⟨⟨hsound, h.second.congr hkept, others, ho.unfocus ho'⟩, h.second.readOf_eq hkept⟩

theorem Apart.returns (h : Apart (some ms) b m) : (∃ r, ms.clear m = .ok r) ∧ ∃ r, ms.drop m = .ok r := by
  obtain ⟨others, ho⟩ := h.owns
  have hown : m.Owns (others ∪ {f | f ∈ Sets.setFrames b}) ms.frames := ho.focus
  obtain ⟨m₁, hclear, -⟩ := (h.first ms rfl).clear hown
  obtain ⟨m₂, hdrop, -⟩ := (h.first ms rfl).drop hown
  exact ⟨⟨_, hclear⟩, _, hdrop⟩

theorem Later.apart {m₀ : Machine} (h₀ : Apart (some ms) (some ms') m₀) (h : Later ms ms' m₀ a b m) : Apart a b m := by
  induction h with
  | start => exact h₀
  | first _ hu ih => exact (ih.uses hu).1
  | second _ hu ih => exact (ih.symm.uses hu).1.symm
  | other _ hm hkept ih =>
    obtain ⟨others, ho⟩ := ih.owns
    exact ⟨ih.first.congr fun f hf => (hkept f (List.mem_append_left _ hf)).2,
      ih.second.congr fun f hf => (hkept f (List.mem_append_right _ hf)).2, _,
      Machine.owns_of_outstanding hm ho.nodup fun f hf => (hkept f hf).1⟩

/-! Copies -/

theorem MemorySet.Copies.shape_eq (hcopies : Copies ms.areas.values m ms' m')
    (hstart : ∀ e ∈ ms.areas.entries, e.2.start = e.1) (v : VirtAddr) :
    (ms'.areas.get? v).map MapArea.shape = (ms.areas.get? v).map MapArea.shape := by
  have hshape : ∀ area area' : MapArea, MapArea.Same area area' → area'.shape = area.shape := fun area area' h => by
    rw [MapArea.shape, h.start, h.size, h.flags, MapArea.shape]
  cases hv : ms.areas.get? v with
  | some area =>
    obtain ⟨area', harea', hsame, -⟩ := hcopies.copy area (mem_values.mpr ⟨v, hv⟩)
    rw [hstart _ (OrdMap.get?_eq_some.mp hv)] at harea'
    rw [harea', Option.map_some, Option.map_some, hshape area area' hsame]
  | none =>
    cases hv' : ms'.areas.get? v with
    | none => rfl
    | some area' =>
      obtain ⟨area, harea, rfl, -⟩ := hcopies.orig v area' hv'
      obtain ⟨w, hw⟩ := mem_values.mp harea
      rw [hstart _ (OrdMap.get?_eq_some.mp hw), hw] at hv
      cases hv

/-- A set that has been built can be copied, unless there are fewer frames left than the copy
may take. -/
theorem fork_copies_memory (h : Built ms m) :
    (∀ e, ms.clone m = .error e → e = .noFrame ∧ m.available < 1 + MemorySet.copySize ms.areas.values) ∧
    ∀ ms' m', ms.clone m = .ok (ms', m') → ms.Forked m ms' m' := by
  obtain ⟨hsound, others, ho⟩ := h.invariant
  have hnil : m.Owns others ([] ++ ms.frames) := ho
  have hin : ∀ f ∈ MemorySet.areaFrames ms.areas.values, f ∈ others ∪ {f | f ∈ ms.frames} :=
    fun f hf => .inr (List.mem_append_right _ hf)
  have hclone := (hsound.clone hin hnil.focus).and_fails (ms.clone_takes m)
  refine ⟨fun e he => ?_, fun ms' m' hok => ?_⟩
  · obtain ⟨hfail, htakes⟩ := hclone.fails_of_error he
    exact ⟨hfail, htakes hfail⟩
  · obtain ⟨⟨hsound', ho', hkeeps, hcopies⟩, -⟩ := hclone.post_of_ok hok
    have hkept : ∀ f ∈ ms.frames, m'.memory f = m.memory f := fun f hf => hkeeps f (.inr hf)
    have happ : Apart (some ms) (some ms') m' := by
      refine ⟨?_, ?_, others, (hnil.unfocus ho').perm List.perm_append_comm⟩
      · rintro _ ⟨⟩
        exact hsound.congr fun t ht => hkept t (List.mem_append_left _ ht)
      · rintro _ ⟨⟩
        exact hsound'
    refine ⟨hcopies.shape_eq hsound.start, hcopies.read_eq hsound hsound', hsound.read_congr hkept,
      fun f hf hms => ho'.apart f hf (.inr hms), fun a b m₁ a' m₂ hl hu => ((hl.apart happ).uses hu).2,
      fun a b m₁ b' m₂ hl hu => ((hl.apart happ).symm.uses hu).2, fun a b m₁ x hl hx => ?_⟩
    rcases hx with rfl | rfl
    · exact (hl.apart happ).returns
    · exact (hl.apart happ).symm.returns

/-- A set with an area of two pages, and its copy. -/
theorem fork_copies_memory_two : ∃ ms m ms' m', Built ms m ∧ ms.clone m = .ok (ms', m') ∧ ms.Forked m ms' m' ∧
    ms'.read m' ⟨0x1009⟩ = some (⟨true, true, false, true, false⟩, 2) := by
  have hrun : ((MemorySet.new frames32).toOption.bind fun r =>
      (MapArea.newFramed ⟨0x1000⟩ 0x2000 ⟨true, true, false, true, false⟩).toOption.bind fun area =>
      (area.writeAll r.2 [(8, ⟨[1, 2, 3], by decide⟩)]).toOption.bind fun r₁ =>
      (r.1.insert r₁.1 r₁.2).toOption.bind fun r₂ => (r₂.1.clone r₂.2).toOption.bind fun r₃ =>
        r₃.1.read r₃.2 ⟨0x1009⟩) = some (⟨true, true, false, true, false⟩, 2) := by
    decide +kernel
  obtain ⟨r, hnew, hrun⟩ := Option.bind_eq_some_iff.mp hrun
  obtain ⟨area, harea, hrun⟩ := Option.bind_eq_some_iff.mp hrun
  obtain ⟨r₁, hwrite, hrun⟩ := Option.bind_eq_some_iff.mp hrun
  obtain ⟨r₂, hinsert, hrun⟩ := Option.bind_eq_some_iff.mp hrun
  obtain ⟨r₃, hclone, hread⟩ := Option.bind_eq_some_iff.mp hrun
  have hbuilt : Built r₂.1 r₂.2 := .insert (.new frames32_ok (ok_of_toOption hnew)) (ok_of_toOption harea)
    (ok_of_toOption hwrite) (ok_of_toOption hinsert)
  have hok := ok_of_toOption hclone
  exact ⟨_, _, _, _, hbuilt, hok, (fork_copies_memory hbuilt).2 _ _ hok, hread⟩

end RCore.Mm
