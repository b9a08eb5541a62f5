import Mathlib

/-! Finite partial maps from numbers, and tables that hold one. -/

namespace RCore.Lib

/-- A partial map that binds finitely many numbers. -/
@[ext] structure PartialMap (α : Type) where
  get : ℕ → Option α
  finite : {n | get n ≠ none}.Finite

namespace PartialMap

variable {α : Type} (m : PartialMap α)

theorem exists_unbound : ∃ n, m.get n = none := by
  by_contra h
  have huniv : {n | m.get n ≠ none} = Set.univ := Set.eq_univ_of_forall fun n hn => h ⟨n, hn⟩
  exact Set.infinite_univ (huniv ▸ m.finite)

open Classical in
/-- The smallest number that is not bound. -/
noncomputable def fresh : ℕ := Nat.find m.exists_unbound

def insert (n : ℕ) (a : α) : PartialMap α where
  get := Function.update m.get n (some a)
  finite := by
    refine (m.finite.insert n).subset fun i hi => ?_
    by_cases h : i = n
    · exact .inl h
    · rw [Set.mem_ofPred_eq, Function.update_of_ne h] at hi
      exact .inr hi

def erase (n : ℕ) : PartialMap α where
  get := Function.update m.get n none
  finite := by
    refine m.finite.subset fun i hi => ?_
    by_cases h : i = n
    · rw [h, Set.mem_ofPred_eq, Function.update_self] at hi
      exact absurd rfl hi
    · rwa [Set.mem_ofPred_eq, Function.update_of_ne h] at hi

/-- Binds the smallest number that is not bound. -/
noncomputable def push (a : α) : PartialMap α := m.insert m.fresh a

variable {m} {n : ℕ}

theorem fresh_eq (hn : m.get n = none) (hlt : ∀ i < n, m.get i ≠ none) : m.fresh = n := by
  classical
  exact (Nat.find_eq_iff m.exists_unbound).mpr ⟨hn, hlt⟩

/-- To unbind what is not bound does nothing. -/
theorem erase_of_unbound (hn : m.get n = none) : m.erase n = m := by
  ext1
  exact Function.update_eq_self_iff.mpr hn.symm

/-- The map that a table holds: the number `n` is bound to what is at place `n`. -/
def ofTable (table : List (Option α)) : PartialMap α where
  get n := table[n]?.join
  finite := by
    refine (Set.finite_Iio table.length).subset fun n hn => ?_
    by_contra hle
    rw [Set.mem_Iio, not_lt] at hle
    rw [Set.mem_ofPred_eq, List.getElem?_eq_none hle] at hn
    exact hn rfl

variable {table : List (Option α)}

theorem get_ofTable (table : List (Option α)) (n : ℕ) : (ofTable table).get n = table[n]?.join := rfl

theorem ofTable_set (hn : n < table.length) (x : Option α) :
    (ofTable (table.set n x)).get = Function.update (ofTable table).get n x := by
  funext i
  by_cases h : i = n
  · subst h
    rw [get_ofTable, List.getElem?_set_self hn, Function.update_self]
    rfl
  · rw [get_ofTable, List.getElem?_set_ne (Ne.symm h), Function.update_of_ne h]
    rfl

theorem ofTable_set_some (hn : n < table.length) (a : α) :
    ofTable (table.set n (some a)) = (ofTable table).insert n a := by
  ext1
  exact ofTable_set hn (some a)

theorem ofTable_set_none (hn : n < table.length) :
    ofTable (table.set n none) = (ofTable table).erase n := by
  ext1
  exact ofTable_set hn none

theorem ofTable_append (table : List (Option α)) (a : α) :
    ofTable (table ++ [some a]) = (ofTable table).insert table.length a := by
  ext1
  funext i
  change (table ++ [some a])[i]?.join = Function.update (ofTable table).get table.length (some a) i
  rcases lt_trichotomy i table.length with h | h | h
  · rw [List.getElem?_append_left h, Function.update_of_ne h.ne, get_ofTable]
  · rw [h, List.getElem?_append_right (Nat.le_refl _), Nat.sub_self, Function.update_self]
    rfl
  · rw [List.getElem?_eq_none (by rw [List.length_append, List.length_singleton]; omega),
      Function.update_of_ne h.ne', get_ofTable, List.getElem?_eq_none h.le]

/-- The smallest number that is not bound is the first place of the table that is free. -/
theorem fresh_ofTable (hn : table[n]? = some none) (hlt : ∀ i < n, table[i]?.join ≠ none) :
    (ofTable table).fresh = n :=
  fresh_eq (by rw [get_ofTable, hn]; rfl) hlt

/-- Without a free place it is the first one after the table. -/
theorem fresh_ofTable_full (h : ∀ i < table.length, table[i]?.join ≠ none) :
    (ofTable table).fresh = table.length :=
  fresh_eq (by rw [get_ofTable, List.getElem?_eq_none (Nat.le_refl _)]; rfl) h

end PartialMap

end RCore.Lib
