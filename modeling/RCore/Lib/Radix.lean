import Mathlib.Data.List.Induction
import Mathlib.Logic.Function.Basic
import Mathlib.Tactic

/-! Radix trees stored in tables of words. A word of a table may be a link to another table
(`child`); a path of indices leads from the root down to a table, and each table can be
reached in one way only. -/

namespace RCore.Lib.Radix

variable {T I W : Type*}

section walks

variable (child : W → Option T)

/-- The table that a path leads to. -/
def walk (cell : T → I → W) : T → List I → Option T
  | t, [] => some t
  | t, i :: path => (child (cell t i)).bind fun t' => walk cell t' path

/-- The word at an index of the table that a path leads to, if there is one. -/
def entry (cell : T → I → W) (empty : W) (root : T) (path : List I) (i : I) : W :=
  ((walk child cell root path).map (cell · i)).getD empty

variable {child} {cell cell' : T → I → W} {root t : T}

theorem walk_snoc (path : List I) (i : I) : walk child cell t (path ++ [i]) =
    (walk child cell t path).bind fun t' => child (cell t' i) := by
  induction path generalizing t with
  | nil => simp [walk]
  | cons j path ih => simp only [List.cons_append, walk, ih, Option.bind_assoc]

/-- A walk looks only at the words it passes. -/
theorem walk_congr {path : List I} (h : ∀ p i s, p ++ [i] <+: path → walk child cell root p = some s →
    cell' s i = cell s i) : walk child cell' root path = walk child cell root path := by
  induction path using List.reverseRecOn with
  | nil => rfl
  | append_singleton path i ih =>
    have ih := ih fun p j s hp => h p j s (hp.trans (List.prefix_append _ _))
    rw [walk_snoc, walk_snoc, ih]
    cases hw : walk child cell root path with
    | none => rfl
    | some s => rw [Option.bind_some, Option.bind_some, h path i s (List.prefix_refl _) hw]

end walks

/-- The tables `own` hang together under `root`, on `depth` levels below it. -/
structure Tree (child : W → Option T) (empty : W) (depth : ℕ) (root : T) (own : List T)
    (cell : T → I → W) : Prop where
  injective : ∀ {p q : List I} {t : T}, p.length ≤ depth → q.length ≤ depth →
    walk child cell root p = some t → walk child cell root q = some t → p = q
  linked : ∀ {p : List I} {t : T} (i : I), p.length < depth → walk child cell root p = some t →
    cell t i = empty ∨ (child (cell t i)).isSome
  mem_own : ∀ t, t ∈ own ↔ ∃ p : List I, p.length ≤ depth ∧ walk child cell root p = some t

namespace Tree

variable {child : W → Option T} {empty w : W} {depth : ℕ} {root t t' : T} {own : List T}
  {cell cell' : T → I → W} {p q : List I} {i j : I}

/-- A table with nothing in it. -/
theorem new (hempty : child empty = none) (hcell : ∀ i, cell root i = empty) :
    Tree child empty depth root [root] cell := by
  have hnone : ∀ (i : I) (p : List I), walk child cell root (i :: p) = none := fun i p => by
    rw [walk, hcell, hempty, Option.bind_none]
  have hnil : ∀ {p : List I} {t : T}, walk child cell root p = some t → p = [] := by
    intro p t h
    cases p with
    | nil => rfl
    | cons i p =>
      rw [hnone] at h
      cases h
  refine ⟨fun _ _ hp hq => by rw [hnil hp, hnil hq], fun i _ hp => .inl ?_, fun t => ?_⟩
  · rw [hnil hp, walk, Option.some.injEq] at hp
    rw [← hp, hcell]
  · rw [List.mem_singleton]
    constructor
    · rintro rfl
      exact ⟨[], Nat.zero_le _, rfl⟩
    · rintro ⟨p, -, hp⟩
      rw [hnil hp, walk, Option.some.injEq] at hp
      exact hp.symm

theorem mem (h : Tree child empty depth root own cell) (hp : p.length ≤ depth)
    (hw : walk child cell root p = some t) : t ∈ own :=
  (h.mem_own t).mpr ⟨p, hp, hw⟩

/-- What is not one of its tables does not matter. -/
theorem walk_eq (h : Tree child empty depth root own cell) (hc : ∀ t ∈ own, cell' t = cell t)
    (hq : q.length ≤ depth) : walk child cell' root q = walk child cell root q := by
  refine walk_congr fun p i s hp hs => ?_
  have hlt : p.length < q.length := by simpa using hp.length_le
  rw [hc s (h.mem (hlt.le.trans hq) hs)]

theorem congr (h : Tree child empty depth root own cell) (hc : ∀ t ∈ own, cell' t = cell t) :
    Tree child empty depth root own cell' := by
  refine ⟨fun hp hq hwp hwq => ?_, fun i hp hw => ?_, fun t => (h.mem_own t).trans ?_⟩
  · rw [h.walk_eq hc hp] at hwp
    rw [h.walk_eq hc hq] at hwq
    exact h.injective hp hq hwp hwq
  · rw [h.walk_eq hc hp.le] at hw
    rw [hc _ (h.mem hp.le hw)]
    exact h.linked i hp hw
  · exact exists_congr fun p => and_congr_right fun hp => by rw [h.walk_eq hc hp]

theorem entry_congr (h : Tree child empty depth root own cell) (hc : ∀ t ∈ own, cell' t = cell t)
    (hq : q.length ≤ depth) (j : I) :
    entry child cell' empty root q j = entry child cell empty root q j := by
  rw [entry, entry, h.walk_eq hc hq]
  cases hw : walk child cell root q with
  | none => rfl
  | some s => rw [Option.map_some, Option.map_some, hc s (h.mem hq hw)]

/-- Each table but the root is the target of exactly one word of the others. -/
theorem existsUnique_link (h : Tree child empty depth root own cell) (ht : t ∈ own) (hroot : t ≠ root) :
    ∃! link : T × I, (∃ p : List I, p.length < depth ∧ walk child cell root p = some link.1) ∧
      child (cell link.1 link.2) = some t := by
  obtain ⟨path, hlen, hpath⟩ := (h.mem_own t).mp ht
  induction path using List.reverseRecOn with
  | nil => exact absurd (Option.some.inj hpath).symm hroot
  | append_singleton p i ih =>
    have hp : p.length < depth := by simpa using hlen
    obtain ⟨s, hs, hchild⟩ := Option.bind_eq_some_iff.mp ((walk_snoc p i).symm.trans hpath)
    refine ⟨(s, i), ⟨⟨p, hp, hs⟩, hchild⟩, ?_⟩
    rintro ⟨s', i'⟩ ⟨⟨p', hp', hs'⟩, hchild'⟩
    have hpath' : walk child cell root (p' ++ [i']) = some t := by
      rw [walk_snoc, hs', Option.bind_some, hchild']
    obtain ⟨rfl, hii⟩ := List.append_inj' (h.injective (by simpa using hp') hlen hpath' hpath) rfl
    rw [Prod.mk.injEq]
    exact ⟨Option.some.inj (hs'.symm.trans hs), List.singleton_inj.mp hii⟩

end Tree

variable [DecidableEq T] [DecidableEq I]

/-- A word is stored. -/
def store (cell : T → I → W) (t : T) (i : I) (w : W) : T → I → W :=
  Function.update cell t (Function.update (cell t) i w)

theorem store_apply (cell : T → I → W) (t s : T) (i j : I) (w : W) :
    store cell t i w s j = if s = t ∧ j = i then w else cell s j := by
  rw [store, Function.update_apply]
  split_ifs with hs hsj hsj
  · rw [hsj.2, Function.update_self]
  · rw [Function.update_of_ne fun hj => hsj ⟨hs, hj⟩, hs]
  · exact absurd hsj.1 hs
  · rfl

namespace Tree

variable {child : W → Option T} {empty w : W} {depth : ℕ} {root t t' : T} {own : List T}
  {cell cell' : T → I → W} {p q : List I} {i j : I}

/-! Storing a word at the lowest level -/

section leaf

variable (h : Tree child empty depth root own cell) (hp : p.length = depth)
  (ht : walk child cell root p = some t)
include h hp ht

theorem walk_store_leaf (hq : q.length ≤ depth) :
    walk child (store cell t i w) root q = walk child cell root q := by
  refine walk_congr fun r j s hr hs => ?_
  have hlt : r.length < q.length := by simpa using hr.length_le
  rw [store_apply, if_neg]
  -- the table is on a higher level than the one that is written to
  rintro ⟨rfl, -⟩
  have hrp := congrArg List.length (h.injective (by omega) hp.le hs ht)
  omega

theorem store_leaf : Tree child empty depth root own (store cell t i w) := by
  have hwalk : ∀ {q : List I}, q.length ≤ depth →
      walk child (store cell t i w) root q = walk child cell root q := h.walk_store_leaf hp ht
  refine ⟨fun hq hr hwq hwr => ?_, fun {q s} j hq hw => ?_, fun s => (h.mem_own s).trans ?_⟩
  · rw [hwalk hq] at hwq
    rw [hwalk hr] at hwr
    exact h.injective hq hr hwq hwr
  · rw [hwalk hq.le] at hw
    rw [store_apply, if_neg]
    · exact h.linked j hq hw
    · rintro ⟨rfl, -⟩
      have hqp := congrArg List.length (h.injective hq.le hp.le hw ht)
      omega
  · exact exists_congr fun q => and_congr_right fun hq => by rw [hwalk hq]

theorem entry_store_leaf (hq : q.length ≤ depth) : entry child (store cell t i w) empty root q j =
    if q = p ∧ j = i then w else entry child cell empty root q j := by
  rw [entry, entry, h.walk_store_leaf hp ht hq]
  cases hw : walk child cell root q with
  | none =>
    rw [if_neg]
    · rfl
    · rintro ⟨rfl, -⟩
      rw [ht] at hw
      cases hw
  | some s =>
    rw [Option.map_some, Option.map_some, Option.getD_some, Option.getD_some, store_apply]
    refine if_congr (and_congr_left fun _ => ?_) rfl rfl
    constructor
    · rintro rfl
      exact h.injective hq hp.le hw ht
    · rintro rfl
      rw [ht] at hw
      exact (Option.some.inj hw).symm

end leaf

/-! Linking a new table -/

section link

variable (h : Tree child empty depth root own cell) (hempty : child empty = none)
  (hp : p.length < depth) (ht : walk child cell root p = some t) (hi : cell t i = empty)
  (hnew : t' ∉ own) (hcell : ∀ j, cell t' j = empty) (hw : child w = some t')
include h hempty hp ht hi hnew hcell hw

theorem walk_store_link (hq : q.length ≤ depth) : walk child (store cell t i w) root q =
    if q = p ++ [i] then some t' else walk child cell root q := by
  have hne : t' ≠ t := fun he => hnew (he ▸ h.mem hp.le ht)
  induction q using List.reverseRecOn with
  | nil => rw [if_neg (by simp)]; rfl
  | append_singleton r j ih =>
    have hr : r.length < depth := by simpa using hq
    rw [walk_snoc, ih hr.le, walk_snoc]
    by_cases hri : r = p ++ [i]
    · -- below the new table there is nothing, and there was nothing in its place
      have hnone : walk child cell root r = none := by
        rw [hri, walk_snoc, ht, Option.bind_some, hi, hempty]
      rw [if_pos hri, Option.bind_some, store_apply, if_neg (fun he => hne he.1), hcell, hempty, hnone,
        if_neg (by simp [hri]), Option.bind_none]
    · rw [if_neg hri]
      cases hs : walk child cell root r with
      | none =>
        rw [if_neg]
        · rfl
        · intro he
          rw [(List.append_inj' he rfl).1, ht] at hs
          cases hs
      | some s =>
        rw [Option.bind_some, Option.bind_some, store_apply]
        by_cases hsj : s = t ∧ j = i
        · obtain ⟨rfl, rfl⟩ := hsj
          rw [if_pos ⟨rfl, rfl⟩, hw, if_pos]
          rw [h.injective hr.le hp.le hs ht]
        · rw [if_neg hsj, if_neg]
          intro he
          obtain ⟨rfl, hji⟩ := List.append_inj' he rfl
          exact hsj ⟨Option.some.inj (hs.symm.trans ht), List.singleton_inj.mp hji⟩

theorem store_link : Tree child empty depth root (own ++ [t']) (store cell t i w) := by
  have hwalk : ∀ {q : List I}, q.length ≤ depth → walk child (store cell t i w) root q =
      if q = p ++ [i] then some t' else walk child cell root q :=
    fun hq => h.walk_store_link hempty hp ht hi hnew hcell hw hq
  have hlen : (p ++ [i]).length ≤ depth := by simpa using hp
  -- the new table is reached through the new link only
  have hold : ∀ {q : List I}, q.length ≤ depth → walk child cell root q ≠ some t' :=
    fun hq hs => hnew (h.mem hq hs)
  refine ⟨fun {q r s} hq hr hwq hwr => ?_, fun {q s} j hq hs => ?_, fun s => ?_⟩
  · rw [hwalk hq] at hwq
    rw [hwalk hr] at hwr
    split_ifs at hwq with hqi
    · split_ifs at hwr with hri
      · rw [hqi, hri]
      · exact absurd (hwr.trans hwq.symm) (hold hr)
    · split_ifs at hwr with hri
      · exact absurd (hwq.trans hwr.symm) (hold hq)
      · exact h.injective hq hr hwq hwr
  · rw [hwalk hq.le] at hs
    rw [store_apply]
    split_ifs at hs with hqi
    · have hne : ¬ (s = t ∧ j = i) := by
        rintro ⟨rfl, -⟩
        rw [Option.some.injEq] at hs
        exact hnew (hs ▸ h.mem hp.le ht)
      rw [if_neg hne, ← Option.some.inj hs, hcell]
      exact .inl rfl
    · split_ifs with hsj
      · exact .inr (by rw [hw]; rfl)
      · exact h.linked j hq hs
  · rw [List.mem_append, List.mem_singleton]
    constructor
    · rintro (hs | rfl)
      · obtain ⟨q, hq, hs⟩ := (h.mem_own s).mp hs
        refine ⟨q, hq, ?_⟩
        rw [hwalk hq, if_neg, hs]
        rintro rfl
        rw [walk_snoc, ht, Option.bind_some, hi, hempty] at hs
        cases hs
      · exact ⟨p ++ [i], hlen, by rw [hwalk hlen, if_pos rfl]⟩
    · rintro ⟨q, hq, hs⟩
      rw [hwalk hq] at hs
      split_ifs at hs
      · exact .inr (Option.some.inj hs).symm
      · exact .inl (h.mem hq hs)

theorem entry_store_link (hq : q.length = depth) : entry child (store cell t i w) empty root q j =
    entry child cell empty root q j := by
  rw [entry, entry, h.walk_store_link hempty hp ht hi hnew hcell hw hq.le]
  split_ifs with hqi
  · have hne : t' ≠ t := fun he => hnew (he ▸ h.mem hp.le ht)
    have hnone : walk child cell root q = none := by
      rw [hqi, walk_snoc, ht, Option.bind_some, hi, hempty]
    rw [Option.map_some, Option.getD_some, store_apply, if_neg (fun he => hne he.1), hcell, hnone]
    rfl
  · cases hs : walk child cell root q with
    | none => rfl
    | some s =>
      have hne : ¬ (s = t ∧ j = i) := by
        rintro ⟨rfl, -⟩
        have := congrArg List.length (h.injective hq.le hp.le hs ht)
        omega
      rw [Option.map_some, Option.map_some, store_apply, if_neg hne]

end link

end Tree

end RCore.Lib.Radix
