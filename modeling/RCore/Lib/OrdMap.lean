import Mathlib.Data.List.Nodup
import Mathlib.Order.Defs.LinearOrder
import Mathlib.Tactic

/-! Maps whose entries are kept in ascending order of the keys. -/

namespace RCore.Lib

variable {K V : Type*} [LinearOrder K]

structure OrdMap (K V : Type*) [LinearOrder K] where
  entries : List (K × V)
  sorted : entries.Pairwise fun a b => a.1 < b.1
deriving DecidableEq

namespace OrdMap

def empty : OrdMap K V := ⟨[], List.Pairwise.nil⟩

def get? (m : OrdMap K V) (k : K) : Option V := (m.entries.find? fun e => e.1 = k).map Prod.snd

def values (m : OrdMap K V) : List V := m.entries.map Prod.snd

/-- An entry goes in front of those with a greater key, and in the place of one with its key. -/
def insertEntry (k : K) (v : V) : List (K × V) → List (K × V)
  | [] => [(k, v)]
  | e :: l =>
    if k < e.1 then (k, v) :: e :: l
    else if k = e.1 then (k, v) :: l
    else e :: insertEntry k v l

theorem mem_insertEntry {k : K} {v : V} {l : List (K × V)} {e : K × V} (he : e ∈ insertEntry k v l) :
    e = (k, v) ∨ e ∈ l := by
  induction l with
  | nil => exact .inl (List.mem_singleton.mp he)
  | cons a l ih =>
    rw [insertEntry] at he
    split_ifs at he
    · exact List.mem_cons.mp he
    · rcases List.mem_cons.mp he with he | he
      · exact .inl he
      · exact .inr (List.mem_cons_of_mem a he)
    · rcases List.mem_cons.mp he with rfl | he
      · exact .inr List.mem_cons_self
      · exact (ih he).imp_right (List.mem_cons_of_mem a)

theorem sorted_insertEntry (k : K) (v : V) {l : List (K × V)} (h : l.Pairwise fun a b => a.1 < b.1) :
    (insertEntry k v l).Pairwise fun a b => a.1 < b.1 := by
  induction l with
  | nil => exact List.pairwise_singleton _ _
  | cons a l ih =>
    rw [List.pairwise_cons] at h
    rw [insertEntry]
    split_ifs with hlt heq
    · refine List.pairwise_cons.mpr ⟨fun e he => ?_, List.pairwise_cons.mpr h⟩
      rcases List.mem_cons.mp he with rfl | he
      · exact hlt
      · exact hlt.trans (h.1 e he)
    · exact List.pairwise_cons.mpr ⟨fun e he => heq ▸ h.1 e he, h.2⟩
    · refine List.pairwise_cons.mpr ⟨fun e he => ?_, ih h.2⟩
      rcases mem_insertEntry he with rfl | he
      · exact lt_of_le_of_ne (not_lt.mp hlt) (Ne.symm heq)
      · exact h.1 e he

def insert (m : OrdMap K V) (k : K) (v : V) : OrdMap K V :=
  ⟨insertEntry k v m.entries, sorted_insertEntry k v m.sorted⟩

def erase (m : OrdMap K V) (k : K) : OrdMap K V :=
  ⟨m.entries.filter fun e => e.1 ≠ k, m.sorted.filter _⟩

variable {m : OrdMap K V} {k k' : K} {v v' : V}

theorem keys_nodup (m : OrdMap K V) : (m.entries.map Prod.fst).Nodup :=
  List.pairwise_map.mpr (m.sorted.imp ne_of_lt)

theorem nodup (m : OrdMap K V) : m.entries.Nodup := m.keys_nodup.of_map

theorem get?_eq_some : m.get? k = some v ↔ (k, v) ∈ m.entries := by
  rw [get?, Option.map_eq_some_iff]
  constructor
  · rintro ⟨e, he, rfl⟩
    have hk := List.find?_some he
    rw [decide_eq_true_eq] at hk
    rw [← hk]
    exact List.mem_of_find?_eq_some he
  · intro h
    cases hf : m.entries.find? fun e => e.1 = k with
    | none => exact absurd (decide_eq_true rfl) (List.find?_eq_none.mp hf _ h)
    | some e =>
      have hk := List.find?_some hf
      rw [decide_eq_true_eq] at hk
      exact ⟨e, rfl, congrArg Prod.snd
        (List.inj_on_of_nodup_map m.keys_nodup (List.mem_of_find?_eq_some hf) h hk)⟩

theorem get?_eq_none : m.get? k = none ↔ ∀ v, (k, v) ∉ m.entries := by
  rw [Option.eq_none_iff_forall_ne_some]
  exact forall_congr' fun v => not_congr get?_eq_some

theorem insert_perm (h : m.get? k = none) (v : V) : (m.insert k v).entries.Perm ((k, v) :: m.entries) := by
  have hnot : ∀ e ∈ m.entries, k ≠ e.1 := fun e he hk => get?_eq_none.mp h e.2 (hk ▸ he)
  rw [insert]
  dsimp only
  generalize m.entries = l at hnot
  induction l with
  | nil => exact List.Perm.refl _
  | cons a l ih =>
    rw [insertEntry]
    split_ifs with hlt heq
    · exact List.Perm.refl _
    · exact absurd heq (hnot a List.mem_cons_self)
    · exact ((ih fun e he => hnot e (List.mem_cons_of_mem a he)).cons a).trans (List.Perm.swap _ _ _)

theorem erase_perm (h : m.get? k = some v) : m.entries.Perm ((k, v) :: (m.erase k).entries) := by
  have hmem := get?_eq_some.mp h
  refine (List.perm_ext_iff_of_nodup m.nodup ?_).mpr fun e => ?_
  · refine List.nodup_cons.mpr ⟨fun he => ?_, (m.erase k).nodup⟩
    exact absurd rfl (of_decide_eq_true (List.mem_filter.mp he).2)
  · rw [List.mem_cons, erase, List.mem_filter, decide_eq_true_eq]
    constructor
    · intro he
      by_cases hk : e.1 = k
      · exact .inl (List.inj_on_of_nodup_map m.keys_nodup he hmem hk)
      · exact .inr ⟨he, hk⟩
    · rintro (rfl | he)
      · exact hmem
      · exact he.1

theorem get?_insert (h : m.get? k = none) (v : V) (k' : K) :
    (m.insert k v).get? k' = if k' = k then some v else m.get? k' := by
  ext w
  rw [get?_eq_some, (insert_perm h v).mem_iff, List.mem_cons, Prod.mk.injEq, ← get?_eq_some]
  split_ifs with hk
  · rw [hk, h, Option.some.injEq]
    simp [eq_comm]
  · simp [hk]

theorem get?_erase (m : OrdMap K V) (k k' : K) :
    (m.erase k).get? k' = if k' = k then none else m.get? k' := by
  ext w
  rw [get?_eq_some, erase, List.mem_filter, decide_eq_true_eq, ← get?_eq_some]
  split_ifs with hk
  · simp [hk]
  · simp [hk]

end OrdMap

end RCore.Lib
