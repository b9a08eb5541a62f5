import Mathlib.Data.List.Nodup
import Mathlib.Data.Set.Insert
import Mathlib.Tactic

/-! Computations that own some of the cells in use. A computation may give back a cell it
owns and take one that is not in use; what the others have (`others`) stays in use, and is
never one of its own. -/

namespace RCore.Lib

variable {S A : Type*}

/-- In a sound state, `others` and the cells of `own`, each once, are what is in use. -/
structure Owns (sound : S → Prop) (live : S → Set A) (s : S) (others : Set A) (own : List A) : Prop where
  sound : sound s
  nodup : own.Nodup
  apart : ∀ a ∈ own, a ∉ others
  mem_live : ∀ a, a ∈ live s ↔ a ∈ others ∨ a ∈ own

namespace Owns

variable {sound : S → Prop} {live : S → Set A} {s s' : S} {others : Set A} {own own' rest : List A} {a : A}

theorem live_own (h : Owns sound live s others own) (ha : a ∈ own) : a ∈ live s :=
  (h.mem_live a).mpr (.inr ha)

theorem perm (h : Owns sound live s others own) (hp : own.Perm own') : Owns sound live s others own' :=
  ⟨h.sound, hp.nodup_iff.mp h.nodup, fun a ha => h.apart a (hp.mem_iff.mpr ha),
    fun a => by rw [h.mem_live, hp.mem_iff]⟩

/-- The same cells are in use. -/
theorem same (h : Owns sound live s others own) (hs : sound s') (hl : live s' = live s) :
    Owns sound live s' others own :=
  ⟨hs, h.nodup, h.apart, fun a => by rw [hl, h.mem_live]⟩

theorem take (h : Owns sound live s others own) (hs : sound s') (ha : a ∉ live s)
    (hl : live s' = insert a (live s)) : Owns sound live s' others (own ++ [a]) := by
  rw [h.mem_live, not_or] at ha
  refine ⟨hs, ?_, ?_, fun b => ?_⟩
  · exact h.nodup.append (List.nodup_singleton a) (by simpa using ha.2)
  · intro b hb
    rw [List.mem_append, List.mem_singleton] at hb
    rcases hb with hb | rfl
    · exact h.apart b hb
    · exact ha.1
  · rw [hl, Set.mem_insert_iff, h.mem_live, List.mem_append, List.mem_singleton]
    tauto

theorem give (h : Owns sound live s others (a :: own)) (hs : sound s') (hl : live s' = live s \ {a}) :
    Owns sound live s' others own := by
  obtain ⟨hnot, hnd⟩ := List.nodup_cons.mp h.nodup
  refine ⟨hs, hnd, fun b hb => h.apart b (List.mem_cons_of_mem a hb), fun b => ?_⟩
  rw [hl, Set.mem_sdiff, Set.mem_singleton_iff, h.mem_live, List.mem_cons]
  constructor
  · rintro ⟨hb | rfl | hb, hne⟩
    · exact .inl hb
    · exact absurd rfl hne
    · exact .inr hb
  · rintro (hb | hb)
    · refine ⟨.inl hb, ?_⟩
      rintro rfl
      exact h.apart b List.mem_cons_self hb
    · refine ⟨.inr (.inr hb), ?_⟩
      rintro rfl
      exact hnot hb

/-! A part of the cells is left to others for a while. -/

theorem focus (h : Owns sound live s others (own ++ rest)) :
    Owns sound live s (others ∪ {a | a ∈ rest}) own := by
  refine ⟨h.sound, h.nodup.of_append_left, fun a ha => ?_, fun a => ?_⟩
  · rintro (ho | hr)
    · exact h.apart a (List.mem_append_left _ ha) ho
    · exact List.disjoint_of_nodup_append h.nodup ha hr
  · rw [h.mem_live, List.mem_append, Set.mem_union, Set.mem_ofPred_eq]
    tauto

theorem unfocus (h : Owns sound live s others (own ++ rest))
    (h' : Owns sound live s' (others ∪ {a | a ∈ rest}) own') :
    Owns sound live s' others (own' ++ rest) := by
  have hno : ∀ a ∈ own', a ∉ others ∧ a ∉ rest := fun a ha => not_or.mp (h'.apart a ha)
  refine ⟨h'.sound, ?_, fun a ha => ?_, fun a => ?_⟩
  · exact h'.nodup.append h.nodup.of_append_right fun a ha => (hno a ha).2
  · rcases List.mem_append.mp ha with ha | ha
    · exact (hno a ha).1
    · exact h.apart a (List.mem_append_right _ ha)
  · rw [h'.mem_live, List.mem_append, Set.mem_union, Set.mem_ofPred_eq]
    tauto

end Owns

end RCore.Lib
