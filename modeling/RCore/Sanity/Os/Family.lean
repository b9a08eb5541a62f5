import RCore.Lib.Partition
import RCore.Sanity.Os.Sched

/-! Which process is the child of which, and what the functions that create, stop and
reap processes make of it. -/

namespace RCore.Os

open RCore.Lib

/-- The children of a process, if there is one. -/
def childrenOf (tree : ℕ → Option (List ℕ)) (pid : ℕ) : List ℕ := (tree pid).getD []

/-- No process is the child of two others, and children are there. As long as `x`, each
process but the idle and the root one is a child. -/
structure Family (x : Prop) (tree : ℕ → Option (List ℕ)) : Prop where
  part : Partition (childrenOf tree) fun c => ∃ q, c ∈ childrenOf tree q
  child : ∀ q c, c ∈ childrenOf tree q → (tree c).isSome ∧ 2 ≤ c
  parent : x → ∀ c, (tree c).isSome → 2 ≤ c → ∃ q, c ∈ childrenOf tree q
  root : (tree ROOT_PID).isSome

section trees

variable {x : Prop} {tree : ℕ → Option (List ℕ)} {p q c : ℕ} {l : List ℕ}

theorem childrenOf_update_some :
    childrenOf (Function.update tree p (some l)) = Function.update (childrenOf tree) p l := by
  funext q
  simp only [childrenOf, Function.update_apply]
  split_ifs <;> rfl

theorem childrenOf_update_none :
    childrenOf (Function.update tree p none) = Function.update (childrenOf tree) p [] := by
  funext q
  simp only [childrenOf, Function.update_apply]
  split_ifs <;> rfl

theorem isSome_update_some :
    (Function.update tree p (some l) q).isSome ↔ q = p ∨ (tree q).isSome := by
  rw [Function.update_apply]
  split_ifs with h <;> simp [h]

namespace Family

/-- A process has a new child. -/
theorem fork (h : Family x tree) (hp : (tree p).isSome) (hc : tree c = none) (hle : 2 ≤ c) :
    Family x (Function.update (Function.update tree c (some [])) p
      (some (childrenOf tree p ++ [c]))) := by
  have hown : childrenOf (Function.update (Function.update tree c (some [])) p
      (some (childrenOf tree p ++ [c]))) =
        Function.update (childrenOf tree) p (childrenOf tree p ++ [c]) := by
    have hnil : childrenOf tree c = [] := by rw [childrenOf, hc]; rfl
    rw [childrenOf_update_some, childrenOf_update_some, ← hnil, Function.update_eq_self]
  have hnew : ¬ ∃ q, c ∈ childrenOf tree q := by
    rintro ⟨q, hq⟩
    have := (h.child q c hq).1
    rw [hc] at this
    cases this
  have hpart := h.part.take hnew p (fun _ => Iff.rfl)
  have hmem : ∀ d, (∃ q, d ∈ Function.update (childrenOf tree) p (childrenOf tree p ++ [c]) q) ↔
      d = c ∨ ∃ q, d ∈ childrenOf tree q := fun d => (hpart.mem d).symm
  refine ⟨by rw [hown]; exact hpart.self, fun q d hd => ?_, fun hx d hd hle' => ?_, ?_⟩
  · rw [hown] at hd
    rw [isSome_update_some, isSome_update_some]
    rcases (hmem d).mp ⟨q, hd⟩ with rfl | ⟨r, hr⟩
    · exact ⟨.inr (.inl rfl), hle⟩
    · exact ⟨.inr (.inr (h.child r d hr).1), (h.child r d hr).2⟩
  · rw [hown, hmem]
    rw [isSome_update_some, isSome_update_some] at hd
    rcases hd with rfl | rfl | hd
    · exact .inr (h.parent hx d hp hle')
    · exact .inl rfl
    · exact .inr (h.parent hx d hd hle')
  · rw [isSome_update_some, isSome_update_some]
    exact .inr (.inr h.root)

/-- The children of a process become children of the root process. -/
theorem stop (h : Family x tree) (hp : (tree p).isSome) (hne : p ≠ ROOT_PID) :
    Family x (Function.update (Function.update tree ROOT_PID
      (some (childrenOf tree ROOT_PID ++ childrenOf tree p))) p (some [])) := by
  have hpart := h.part.transfer hne.symm
  have hown : childrenOf (Function.update (Function.update tree ROOT_PID
      (some (childrenOf tree ROOT_PID ++ childrenOf tree p))) p (some [])) =
        Function.update (Function.update (childrenOf tree) ROOT_PID
          (childrenOf tree ROOT_PID ++ childrenOf tree p)) p [] := by
    rw [childrenOf_update_some, childrenOf_update_some]
  have hsome : ∀ q, (Function.update (Function.update tree ROOT_PID
      (some (childrenOf tree ROOT_PID ++ childrenOf tree p))) p (some []) q).isSome ↔
        (tree q).isSome := by
    intro q
    rw [isSome_update_some, isSome_update_some]
    constructor
    · rintro (rfl | rfl | hq)
      exacts [hp, h.root, hq]
    · exact fun hq => .inr (.inr hq)
  refine ⟨by rw [hown]; exact hpart.self, fun q d hd => ?_, fun hx d hd hle => ?_, ?_⟩
  · rw [hown] at hd
    obtain ⟨r, hr⟩ := (hpart.mem d).mpr ⟨q, hd⟩
    rw [hsome]
    exact h.child r d hr
  · rw [hsome] at hd
    rw [hown]
    exact (hpart.mem d).mp (h.parent hx d hd hle)
  · rw [hsome]
    exact h.root

/-- A child is reaped. As long as `x` it has no children itself. -/
theorem reap (h : Family x tree) (hc : c ∈ childrenOf tree p) (hx : x → childrenOf tree c = []) :
    Family x (Function.update (Function.update tree p (some ((childrenOf tree p).erase c)))
      c none) := by
  obtain ⟨l₁, l₂, -, hl, herase⟩ := List.exists_erase_eq hc
  obtain ⟨-, hle⟩ := h.child p c hc
  have hown : childrenOf (Function.update (Function.update tree p
      (some ((childrenOf tree p).erase c))) c none) =
        Function.update (Function.update (childrenOf tree) p (l₁ ++ l₂)) c [] := by
    rw [childrenOf_update_none, childrenOf_update_some, herase]
  have hpart₁ := h.part.release l₁ l₂ hl fun _ => Iff.rfl
  have hpart := hpart₁.discard c fun _ => Iff.rfl
  have hp : (tree p).isSome := by
    rw [childrenOf] at hc
    cases htree : tree p with
    | none =>
      rw [htree] at hc
      cases hc
    | some l => rfl
  have hsome : ∀ q, (Function.update (Function.update tree p
      (some ((childrenOf tree p).erase c))) c none q).isSome ↔ q ≠ c ∧ (tree q).isSome := by
    intro q
    rw [Function.update_apply]
    split_ifs with hq
    · simp [hq]
    · rw [isSome_update_some]
      exact ⟨fun hs => ⟨hq, hs.elim (fun he => he ▸ hp) id⟩, fun hs => .inr hs.2⟩
  refine ⟨by rw [hown]; exact hpart.self, fun q d hd => ?_, fun hx' d hd hle' => ?_, ?_⟩
  · rw [hown] at hd
    obtain ⟨⟨hdc, r, hr⟩, -⟩ := (hpart.mem d).mpr ⟨q, hd⟩
    rw [hsome]
    exact ⟨⟨hdc, (h.child r d hr).1⟩, (h.child r d hr).2⟩
  · rw [hsome] at hd
    rw [hown]
    refine (hpart.mem d).mp ⟨⟨hd.1, h.parent hx' d hd.2 hle'⟩, ?_⟩
    by_cases hcp : c = p
    · subst hcp
      rw [hx hx'] at hc
      cases hc
    · rw [Function.update_of_ne hcp, hx hx']
      simp
  · rw [hsome]
    exact ⟨fun he => absurd (he ▸ hle : 2 ≤ ROOT_PID) (by decide), h.root⟩

end Family

end trees

namespace Kernel

variable {k : Kernel} {pid : ℕ} {p : Process} {g : Process → Process}

theorem tree_eq (h : k.procs[pid]? = some (some p)) : k.tree pid = some p.children := by
  rw [tree, h]

theorem childrenOf_eq (h : k.procs[pid]? = some (some p)) :
    childrenOf k.tree pid = p.children := by
  rw [childrenOf, tree_eq h]
  rfl

theorem getElem?_modifyProc (k : Kernel) (pid q : ℕ) (g : Process → Process) :
    (k.modifyProc pid g).procs[q]? =
      if q = pid then k.procs[q]?.map (Option.map g) else k.procs[q]? := by
  rw [modifyProc, List.getElem?_modify]
  by_cases h : q = pid
  · simp [h]
  · simp [h, Ne.symm h]

theorem tree_modifyProc_eq (h : k.procs[pid]? = some (some p)) :
    (k.modifyProc pid g).tree = Function.update k.tree pid (some (g p).children) := by
  funext q
  rw [tree, getElem?_modifyProc, Function.update_apply]
  split_ifs with hq
  · rw [hq, h]
    rfl
  · rfl

theorem tree_reparent {root : Process} (hr : k.procs[ROOT_PID]? = some (some root))
    (hp : k.procs[pid]? = some (some p)) (hne : pid ≠ ROOT_PID) :
    (k.reparent pid p.children).tree = Function.update (Function.update k.tree ROOT_PID
      (some (childrenOf k.tree ROOT_PID ++ childrenOf k.tree pid))) pid (some []) := by
  rw [reparent, tree_modifyProc_eq (p := p), tree_modifyProc_eq hr, childrenOf_eq hr, childrenOf_eq hp]
  rw [getElem?_modifyProc, if_neg hne, hp]

theorem getElem?_newProcess (k : Kernel) (p : Process) (tf : TrapFrame) (c : Cont) (q : ℕ) :
    (k.newProcess p tf c).procs[q]? = if q = k.procs.length then
      some (some { p with tasks := [(0, k.tasks.length)], tidAllocator := 1 }) else k.procs[q]? := by
  rw [newProcess, getElem?_snoc]

theorem tree_newProcess (k : Kernel) (p : Process) (tf : TrapFrame) (c : Cont) :
    (k.newProcess p tf c).tree = Function.update k.tree k.procs.length (some p.children) := by
  funext q
  rw [tree, getElem?_newProcess, Function.update_apply]
  split_ifs <;> rfl

theorem tree_set_none (h : pid < k.procs.length) :
    { k with procs := k.procs.set pid none }.tree = Function.update k.tree pid none := by
  funext q
  rw [tree, Function.update_apply]
  split_ifs with hq
  · simp [hq, h]
  · simp only [tree, List.getElem?_set_ne (Ne.symm hq)]

end Kernel

end RCore.Os
