import RCore.Sanity.Mm.MemorySet

/-! Any number of memory sets over one allocator: one is replaced, or one is added, and what
is known of the others stays. -/

namespace RCore.Mm.Sets

open RCore.Lib

def setFrames : Option MemorySet → List ℕ
  | some ms => ms.frames
  | none => []

/-- The frames of all the sets but one. -/
def rest (s : Sets) (n : ℕ) : List ℕ := (s.sets.eraseIdx n).flatMap setFrames

/-- The frames in use are those of `m` and, each once, those of the sets; and `K` is true of
every set. -/
structure Holds (K : MemorySet → Machine → Prop) (m : Machine) (s : Sets) : Prop where
  owns : s.machine.Owns m.outstanding (s.sets.flatMap setFrames)
  sets : ∀ ms, some ms ∈ s.sets → K ms s.machine

variable {K : MemorySet → Machine → Prop} {m m' : Machine} {s : Sets} {n : ℕ} {ms : MemorySet}
  {o o' : Option MemorySet}

theorem set_eq_some : s.set n = some ms ↔ s.sets[n]? = some (some ms) := Option.join_eq_some_iff

theorem frames_perm {l : List (Option MemorySet)} (hn : l[n]? = some o) :
    (l.flatMap setFrames).Perm (setFrames o ++ (l.eraseIdx n).flatMap setFrames) := by
  obtain ⟨hlt, rfl⟩ := List.getElem?_eq_some_iff.mp hn
  exact ((List.getElem_cons_eraseIdx_perm hlt).flatMap_right setFrames).symm

/-- One set is replaced by what an operation makes of it. -/
theorem Holds.replace (h : s.Holds K m) (hn : s.sets[n]? = some o)
    (hK : ∀ ms, K ms s.machine → (∀ f ∈ ms.frames, m'.memory f = s.machine.memory f) → K ms m')
    (ho : m'.Owns (m.outstanding ∪ {f | f ∈ s.rest n}) (setFrames o'))
    (hk : s.machine.Keeps (m.outstanding ∪ {f | f ∈ s.rest n}) m') (hok : ∀ ms, o' = some ms → K ms m') :
    Holds K m ⟨m', s.sets.set n o'⟩ := by
  obtain ⟨hlt, -⟩ := List.getElem?_eq_some_iff.mp hn
  have hset : (s.sets.set n o')[n]? = some o' := List.getElem?_set_self hlt
  have hperm : (s.sets.set n o').Perm (o' :: s.sets.eraseIdx n) := by
    obtain ⟨hlt', hget⟩ := List.getElem?_eq_some_iff.mp hset
    have := (List.getElem_cons_eraseIdx_perm hlt').symm
    rwa [hget, List.eraseIdx_set_eq] at this
  refine ⟨?_, fun ms hms => ?_⟩
  · exact ((h.owns.perm (frames_perm hn)).unfocus ho).perm (hperm.flatMap_right setFrames).symm
  · rcases List.mem_cons.mp (hperm.mem_iff.mp hms) with hms | hms
    · exact hok ms hms.symm
    · refine hK ms (h.sets ms (List.mem_of_mem_eraseIdx hms)) fun f hf => hk f (.inr ?_)
      exact List.mem_flatMap.mpr ⟨_, hms, hf⟩

/-- A set is added. -/
theorem Holds.append (h : s.Holds K m)
    (hK : ∀ ms, K ms s.machine → (∀ f ∈ ms.frames, m'.memory f = s.machine.memory f) → K ms m')
    (ho : m'.Owns (m.outstanding ∪ {f | f ∈ s.sets.flatMap setFrames}) ms.frames)
    (hk : s.machine.Keeps (m.outstanding ∪ {f | f ∈ s.sets.flatMap setFrames}) m') (hok : K ms m') :
    Holds K m ⟨m', s.sets ++ [some ms]⟩ := by
  have hnil : s.machine.Owns m.outstanding ([] ++ s.sets.flatMap setFrames) := h.owns
  refine ⟨?_, fun ms' hms => ?_⟩
  · refine (hnil.unfocus ho).perm (List.perm_append_comm.trans ?_)
    rw [List.flatMap_append, List.flatMap_singleton]
    exact List.Perm.refl _
  · rcases List.mem_append.mp hms with hms | hms
    · refine hK ms' (h.sets ms' hms) fun f hf => hk f (.inr ?_)
      exact List.mem_flatMap.mpr ⟨_, hms, hf⟩
    · rw [Option.some.inj (List.mem_singleton.mp hms)]
      exact hok

theorem Holds.of_set (h : s.Holds K m) (hn : s.set n = some ms) : K ms s.machine :=
  h.sets ms (List.mem_of_getElem? (set_eq_some.mp hn))

/-- The frames of a set, and all the others. -/
theorem Holds.focus (h : s.Holds K m) (hn : s.set n = some ms) :
    s.machine.Owns (m.outstanding ∪ {f | f ∈ s.rest n}) ms.frames :=
  (h.owns.perm (frames_perm (set_eq_some.mp hn))).focus

/-- To a new set, the pages of a set are somebody else's. -/
theorem areaFrames_outstanding (m : Machine) (hn : s.set n = some ms) :
    ∀ f ∈ MemorySet.areaFrames ms.areas.values, f ∈ m.outstanding ∪ {f | f ∈ s.sets.flatMap setFrames} :=
  fun _ hf => .inr (List.mem_flatMap.mpr
    ⟨_, List.mem_of_getElem? (set_eq_some.mp hn), List.mem_append_right _ hf⟩)

/-- There is room for a new set. -/
theorem Holds.owns_nil (h : s.Holds K m) :
    s.machine.Owns (m.outstanding ∪ {f | f ∈ s.sets.flatMap setFrames}) [] := by
  have hnil : s.machine.Owns m.outstanding ([] ++ s.sets.flatMap setFrames) := h.owns
  exact hnil.focus

theorem Holds.start (hm : m.Ok) : Holds K m ⟨m, []⟩ := by
  refine ⟨⟨hm, List.nodup_nil, fun _ hf => absurd hf List.not_mem_nil, fun f => ?_⟩,
    fun ms hms => absurd hms List.not_mem_nil⟩
  exact (or_iff_left List.not_mem_nil).symm

/-- A write to a page of an area does not concern the tables. -/
theorem Holds.store (h : s.Holds MemorySet.Sound m) (hn : s.set n = some ms) {p : PhysAddr}
    (hp : p.frame ∈ MemorySet.areaFrames ms.areas.values) (frame : Frame) :
    Holds MemorySet.Sound m ⟨s.machine.setFrame p frame, s.sets⟩ := by
  have hown := h.focus hn
  have hmem : p.frame ∈ ms.frames := List.mem_append_right _ hp
  refine ⟨h.owns.setFrame p frame, fun ms' hms => (h.sets ms' hms).congr fun t ht => ?_⟩
  refine (Machine.setFrame_memory ..).trans (if_neg ?_)
  rintro rfl
  obtain ⟨n', hn'⟩ := List.mem_iff_getElem?.mp hms
  by_cases heq : n' = n
  · rw [heq, set_eq_some.mp hn, Option.some.injEq, Option.some.injEq] at hn'
    subst hn'
    exact List.disjoint_of_nodup_append hown.nodup ht hp
  · refine hown.apart _ hmem (.inr (List.mem_flatMap.mpr ⟨some ms', ?_, List.mem_append_left _ ht⟩))
    exact List.mem_eraseIdx_iff_getElem?.mpr ⟨n', heq, hn'⟩

end RCore.Mm.Sets
