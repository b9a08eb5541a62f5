import Mathlib.Tactic

/-! Objects that are named by their places in a list, to which new ones are appended. -/

namespace RCore.Lib

variable {α β : Type*} {l : List α} {x y : α} {i j : ℕ} {q : α → List β}

theorem getElem?_snoc (l : List α) (x : α) (i : ℕ) :
    (l ++ [x])[i]? = if i = l.length then some x else l[i]? := by
  grind

theorem getElem?_snoc_cases (h : (l ++ [x])[i]? = some y) :
    l[i]? = some y ∨ i = l.length ∧ y = x := by
  rw [getElem?_snoc] at h
  split_ifs at h with hi
  · exact .inr ⟨hi, (Option.some.inj h).symm⟩
  · exact .inl h

theorem getElem?_snoc_of_some (h : l[i]? = some y) : (l ++ [x])[i]? = some y := by
  rw [List.getElem?_append_left (List.getElem?_eq_some_iff.mp h).1, h]

/-- What the list is mapped to changes along with it. -/
theorem map_modify {γ : Type*} {g : α → γ} {f : α → α} {e : γ → γ}
    (h : ∀ x, l[i]? = some x → g (f x) = e (g x)) : (l.modify i f).map g = (l.map g).modify i e := by
  refine List.ext_getElem? fun j => ?_
  rw [List.getElem?_map, List.getElem?_modify, List.getElem?_modify, List.getElem?_map]
  by_cases hj : i = j
  · subst hj
    cases hx : l[i]? with
    | none => rfl
    | some x => simp [h x hx]
  · simp [hj]

/-- A new object that has nothing changes nothing of what the others have. -/
theorem getD_map_snoc (h : q x = []) :
    ((l ++ [x])[i]?.map q).getD [] = (l[i]?.map q).getD [] := by
  rw [getElem?_snoc]
  split_ifs with hi
  · simp [hi, h]
  · rfl

theorem getD_map_set (h : l[i]? = some y) :
    ((l.set i x)[j]?.map q).getD [] = if j = i then q x else (l[j]?.map q).getD [] := by
  have hi := (List.getElem?_eq_some_iff.mp h).1
  split_ifs with hj
  · simp [hj, hi]
  · rw [List.getElem?_set_ne (Ne.symm hj)]

end RCore.Lib
