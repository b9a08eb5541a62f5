import Mathlib.Tactic

/-! A lock that is handed to the first of those who wait for it, and is not free in
between. `granted` have called `lock` and have the lock once they are out of the queue;
`held` have returned with it. -/

namespace RCore.Lib

variable {α : Type}

def owners (queue : List α) (granted held : Set α) : Set α :=
  {t | t ∈ held ∨ t ∈ granted ∧ t ∉ queue}

structure Handoff (locked : Bool) (queue : List α) (granted held : Set α) : Prop where
  queued : ∀ t ∈ queue, t ∈ granted
  unique : (owners queue granted held).Subsingleton
  locked : locked = true ↔ (owners queue granted held).Nonempty

namespace Handoff

variable {locked : Bool} {queue queue' : List α} {granted granted' held held' : Set α} {t w : α}

theorem mem_owners : t ∈ owners queue granted held ↔ t ∈ held ∨ t ∈ granted ∧ t ∉ queue := Iff.rfl

/-- Someone has the lock, and nobody else. -/
theorem of_owner (hq : ∀ t ∈ queue, t ∈ granted) (h : owners queue granted held = {t}) :
    Handoff true queue granted held := by
  refine ⟨hq, ?_, ?_⟩
  · rw [h]
    exact Set.subsingleton_singleton
  · rw [h]
    simp

/-- The lock is free. -/
theorem of_empty (hq : ∀ t ∈ queue, t ∈ granted) (h : owners queue granted held = ∅) :
    Handoff false queue granted held := by
  refine ⟨hq, ?_, ?_⟩
  · rw [h]
    exact Set.subsingleton_empty
  · rw [h]
    simp

/-- Whoever has the lock has it still. -/
theorem of_owners_eq (h : Handoff locked queue granted held) (hq : ∀ t ∈ queue', t ∈ granted')
    (ho : owners queue' granted' held' = owners queue granted held) :
    Handoff locked queue' granted' held' :=
  ⟨hq, by rw [ho]; exact h.unique, by rw [ho]; exact h.locked⟩

theorem new : Handoff false ([] : List α) ∅ ∅ := by
  refine of_empty nofun ?_
  ext t
  simp [mem_owners]

theorem owners_eq_empty (h : Handoff false queue granted held) : owners queue granted held = ∅ := by
  rw [← Set.not_nonempty_iff_eq_empty, ← h.locked]
  decide

/-- Who has returned with the lock is the only one to have it. -/
theorem owners_eq (h : Handoff locked queue granted held) (ht : t ∈ owners queue granted held) :
    owners queue granted held = {t} :=
  Set.eq_singleton_iff_unique_mem.mpr ⟨ht, fun _ hu => h.unique hu ht⟩

/-- The lock is free, and is taken. -/
theorem take (h : Handoff false queue granted held) (t : α) :
    Handoff true queue granted (insert t held) := by
  refine of_owner (t := t) h.queued ?_
  ext u
  have hu := Set.ext_iff.mp h.owners_eq_empty u
  simp only [mem_owners, Set.mem_insert_iff, Set.mem_empty_iff_false, Set.mem_singleton_iff] at hu ⊢
  grind

/-- Someone waits for the lock. -/
theorem enqueue (h : Handoff locked queue granted held) (ht : t ∉ granted) :
    Handoff locked (queue ++ [t]) (insert t granted) held := by
  refine h.of_owners_eq (fun u hu => ?_) ?_
  · rcases List.mem_append.mp hu with hu | hu
    · exact .inr (h.queued u hu)
    · exact .inl (List.mem_singleton.mp hu)
  · ext u
    simp only [mem_owners, Set.mem_insert_iff, List.mem_append, List.mem_singleton]
    grind

/-- Someone returns who has been handed the lock. -/
theorem receive (h : Handoff locked queue granted held) (ht : t ∈ granted) (hq : t ∉ queue) :
    Handoff locked queue (granted \ {t}) (insert t held) := by
  refine h.of_owners_eq (fun u hu => ⟨h.queued u hu, ?_⟩) ?_
  · rintro rfl
    exact hq hu
  · ext u
    simp only [mem_owners, Set.mem_sdiff, Set.mem_insert_iff, Set.mem_singleton_iff]
    grind

/-- The lock is handed to the first of those who wait. -/
theorem pass (h : Handoff locked (w :: queue) granted held) (hnodup : (w :: queue).Nodup)
    (ht : t ∈ held) (hg : t ∉ granted) : Handoff true queue granted (held \ {t}) := by
  have hw : w ∈ granted := h.queued w List.mem_cons_self
  have hwq : w ∉ queue := (List.nodup_cons.mp hnodup).1
  refine of_owner (t := w) (fun u hu => h.queued u (List.mem_cons_of_mem _ hu)) ?_
  ext u
  have hu := Set.ext_iff.mp (h.owners_eq (.inl ht)) u
  simp only [mem_owners, Set.mem_sdiff, Set.mem_singleton_iff, List.mem_cons] at hu ⊢
  grind

/-- The lock is given back, and nobody waits for it. -/
theorem release (h : Handoff locked [] granted held) (ht : t ∈ held) (hg : t ∉ granted) :
    Handoff false [] granted (held \ {t}) := by
  refine of_empty nofun ?_
  ext u
  have hu := Set.ext_iff.mp (h.owners_eq (.inl ht)) u
  simp only [mem_owners, Set.mem_sdiff, Set.mem_singleton_iff, List.not_mem_nil,
    Set.mem_empty_iff_false] at hu ⊢
  grind

end Handoff

end RCore.Lib
