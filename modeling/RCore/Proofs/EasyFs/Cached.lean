import RCore.Sanity.EasyFs.BlockCache

/-! The file system cannot tell the cache from a plain array of blocks: a program run
over the cache does what it does on the array. -/

namespace RCore.EasyFs

open RCore.Lib

variable {dev : ℕ} {s : CacheState} {a : Disk}

/-- A block is asked for while fewer than 16 handles are outstanding. Its lock is held
already exactly when it has been opened before. -/
theorem Coherent.opened (h : Coherent dev s a) (hroom : s.handles.length ≤ 15) (key : ℕ) :
    ∃ p s' c, s.getBlockCache key dev = some (p, s') ∧ Coherent dev s' a ∧
      s'.handles = (key, p) :: s.handles ∧ (∀ x ∈ s.handles, s'.arcs x.2 = s.arcs x.2) ∧
      (s.Clean → s'.Clean) ∧ s'.arcs p = some c ∧ c.cache = a key ∧
      (p ∈ s.handles.map Prod.snd ↔ key ∈ s.handles.map Prod.fst) := by
  obtain ⟨p, s', hget, hcoh, hhandles, harcs, hclean⟩ :=
    h.getBlockCache fun _ : ∀ e ∈ s.queue, e.1 ≠ key => hroom
  have hhandle : (key, p) ∈ s'.handles := by rw [hhandles]; simp
  obtain ⟨c, hc, -, hcache⟩ := hcoh.handle hhandle
  have hin : (key, p) ∈ s'.queue := hcoh.handles _ hhandle
  have hsub : ∀ x ∈ s.handles, x ∈ s'.queue := fun x hx =>
    hcoh.handles x (by rw [hhandles]; exact List.mem_cons_of_mem _ hx)
  refine ⟨p, s', c, hget, hcoh, hhandles, harcs, hclean, hc, hcache, fun hp => ?_, fun hk => ?_⟩
  · obtain ⟨x, hx, hxp⟩ := List.mem_map.mp hp
    have := hcoh.eq_of_snd (hsub x hx) hin hxp
    exact List.mem_map.mpr ⟨x, hx, by rw [this]⟩
  · obtain ⟨x, hx, hxk⟩ := List.mem_map.mp hk
    have := hcoh.eq_of_fst (hsub x hx) hin hxk
    exact List.mem_map.mpr ⟨x, hx, by rw [this]⟩

/-- A block is closed again: the handles are what they were before it was opened. -/
theorem Coherent.closed {t : CacheState} {b : Disk} {x : ℕ × ℕ} {l : List (ℕ × ℕ)}
    (h : Coherent dev t b) (hhandles : t.handles = x :: l) :
    Coherent dev (t.release x) b ∧ (t.release x).handles = l ∧ (t.release x).arcs = t.arcs := by
  have hx : (x.1, x.2) ∈ t.handles := by rw [hhandles]; simp
  refine ⟨h.release hx, ?_, ?_⟩
  · rw [release_eq h.shared hx]
    simp [hhandles]
  · rw [release_eq h.shared hx]

/-- What running a program over the cache has to do with running it on the array. -/
structure Matches (dev : ℕ) {α : Type} (p : Fs α) (s : CacheState) (r : α) (a' : Disk)
    (s' : CacheState) : Prop where
  run : runCached dev p (s.handles.map Prod.snd) s = some (r, s')
  coherent : Coherent dev s' a'
  handles : s'.handles = s.handles
  locked : ∀ x ∈ s.handles, s'.arcs x.2 = s.arcs x.2
  settled : ∀ c c', p.Settles c c' → (c = true → s.Clean) → c' = true → s'.Clean

/-- The end of a closure that has been given a block to modify. The block was locked all
the while, so it is still marked as modified. -/
theorem Matches.stored {α : Type} {q : Fs (Block × α)} {s₁ s₂ : CacheState} {key p : ℕ}
    {l : List (ℕ × ℕ)} {c : BlockCache} {v : Block} {b : α} {a₂ : Disk}
    (hm : Matches dev q (s₁.getMut p) (v, b) a₂ s₂) (hh : s₁.handles = (key, p) :: l)
    (hc : s₁.arcs p = some c) :
    Coherent dev ((s₂.store p v).release (key, p)) (Function.update a₂ key v) ∧
      ((s₂.store p v).release (key, p)).handles = l ∧
      ((s₂.store p v).release (key, p)).arcs = (s₂.store p v).arcs := by
  have hh₂ : s₂.handles = (key, p) :: l := hm.handles.trans hh
  have hmod : ∀ c', s₂.arcs p = some c' → c'.modified = true := by
    intro c' hc'
    have harc := hm.locked (key, p) (by rw [show (s₁.getMut p).handles = _ from hh]; simp)
    rw [hc', getMut_arcs, if_pos rfl, hc, Option.map_some, Option.some.injEq] at harc
    rw [harc]
  have hhandle : (key, p) ∈ s₂.handles := by rw [hh₂]; simp
  exact (hm.coherent.store hhandle hmod v).closed (x := (key, p)) (l := l) hh₂

/-- Over the cache, with no more than 16 blocks open at once, those included that are
open at the start, a program gives what it gives on the array. -/
def Simulates (dev : ℕ) {α : Type} (p : Fs α) : Prop :=
  ∀ n (s : CacheState) (a : Disk), p.Within n → s.handles.length + n ≤ 16 → Coherent dev s a →
    (p.run (s.handles.map Prod.fst) a = none →
      runCached dev p (s.handles.map Prod.snd) s = none) ∧
    ∀ r a', p.run (s.handles.map Prod.fst) a = some (r, a') → ∃ s', Matches dev p s r a' s'

section nodes

variable {α β : Type} {key : ℕ}

theorem Simulates.read {body : Block → Fs β} {k : β → Fs α}
    (ihb : ∀ v, Simulates dev (body v)) (ihk : ∀ b, Simulates dev (k b)) :
    Simulates dev (.read key body k) := by
  intro n s a hw hn h
  obtain ⟨hpos, hwb, hwk⟩ := hw
  obtain ⟨p, s₁, c, hget, h₁, hh₁, harcs₁, hclean₁, hc, hcache, hiff⟩ := h.opened (by omega) key
  simp only [Prog.run, runCached, hget]
  by_cases hheld : key ∈ s.handles.map Prod.fst
  · rw [if_pos hheld, if_pos (hiff.mpr hheld)]
    exact ⟨fun _ => rfl, fun r a' hr => by cases hr⟩
  rw [if_neg hheld, if_neg fun hp => hheld (hiff.mp hp), hc]
  simp only [hcache]
  have hbody := ihb (a key) (n - 1) s₁ a (hwb _) (by rw [hh₁, List.length_cons]; omega) h₁
  simp only [hh₁, List.map_cons] at hbody
  cases hr : (body (a key)).run (key :: s.handles.map Prod.fst) a with
  | none =>
    rw [hbody.1 hr]
    exact ⟨fun _ => rfl, fun r a' hr => by cases hr⟩
  | some res =>
    obtain ⟨b, a₂⟩ := res
    obtain ⟨s₂, hm⟩ := hbody.2 b a₂ hr
    have hrun := hm.run
    rw [hh₁, List.map_cons] at hrun
    obtain ⟨h₃, hh₃, harcs₃⟩ := hm.coherent.closed (hm.handles.trans hh₁)
    have hk := ihk b n _ _ (hwk b) (by rwa [hh₃]) h₃
    rw [hh₃] at hk
    simp only [hrun]
    refine ⟨hk.1, fun r a' hr' => ?_⟩
    obtain ⟨s', hm'⟩ := hk.2 r a' hr'
    refine ⟨s', ?_, hm'.coherent, hm'.handles.trans hh₃, fun x hx => ?_, ?_⟩
    · simp only [runCached, hget]
      rw [if_neg fun hp => hheld (hiff.mp hp), hc]
      simp only [hcache, hrun]
      rw [← hm'.run, hh₃]
    · rw [hm'.locked x (by rwa [hh₃]), harcs₃, hm.locked x (by rw [hh₁]; simp [hx]), harcs₁ x hx]
    · rintro c₁ c₂ ⟨m, hb, hk'⟩ hstart hend
      refine hm'.settled m c₂ (hk' b) (fun hmid => ?_) hend
      intro q c' hq
      rw [harcs₃] at hq
      exact hm.settled c₁ m (hb _) (fun hc₁ => hclean₁ (hstart hc₁)) hmid q c' hq

theorem Simulates.modify {body : Block → Fs (Block × β)} {k : β → Fs α}
    (ihb : ∀ v, Simulates dev (body v)) (ihk : ∀ b, Simulates dev (k b)) :
    Simulates dev (.modify key body k) := by
  intro n s a hw hn h
  obtain ⟨hpos, hwb, hwk⟩ := hw
  obtain ⟨p, s₁, c, hget, h₁, hh₁, harcs₁, -, hc, hcache, hiff⟩ := h.opened (by omega) key
  simp only [Prog.run, runCached, hget]
  by_cases hheld : key ∈ s.handles.map Prod.fst
  · rw [if_pos hheld, if_pos (hiff.mpr hheld)]
    exact ⟨fun _ => rfl, fun r a' hr => by cases hr⟩
  have hfree : p ∉ s.handles.map Prod.snd := fun hp => hheld (hiff.mp hp)
  have hne : ∀ x ∈ s.handles, x.2 ≠ p := fun x hx hxp => hfree (List.mem_map.mpr ⟨x, hx, hxp⟩)
  rw [if_neg hheld, if_neg hfree, hc]
  simp only [hcache]
  have hbody := ihb (a key) (n - 1) (s₁.getMut p) a (hwb _)
    (by change s₁.handles.length + _ ≤ 16; rw [hh₁, List.length_cons]; omega) (h₁.getMut p)
  have hh₁' : (s₁.getMut p).handles = (key, p) :: s.handles := hh₁
  simp only [hh₁', List.map_cons] at hbody
  cases hr : (body (a key)).run (key :: s.handles.map Prod.fst) a with
  | none =>
    rw [hbody.1 hr]
    exact ⟨fun _ => rfl, fun r a' hr => by cases hr⟩
  | some res =>
    obtain ⟨⟨v, b⟩, a₂⟩ := res
    obtain ⟨s₂, hm⟩ := hbody.2 (v, b) a₂ hr
    have hrun := hm.run
    rw [hh₁', List.map_cons] at hrun
    obtain ⟨h₃, hh₃, harcs₃⟩ := hm.stored hh₁ hc
    have hk := ihk b n _ _ (hwk b) (by rwa [hh₃]) h₃
    rw [hh₃] at hk
    simp only [hrun]
    refine ⟨hk.1, fun r a' hr' => ?_⟩
    obtain ⟨s', hm'⟩ := hk.2 r a' hr'
    refine ⟨s', ?_, hm'.coherent, hm'.handles.trans hh₃, fun x hx => ?_, ?_⟩
    · simp only [runCached, hget]
      rw [if_neg hfree, hc]
      simp only [hcache, hrun]
      rw [← hm'.run, hh₃]
    · rw [hm'.locked x (by rwa [hh₃]), harcs₃, store_arcs, if_neg (hne x hx),
        hm.locked x (by rw [hh₁']; simp [hx]), getMut_arcs, if_neg (hne x hx), harcs₁ x hx]
    · intro c₁ c₂ hp _ hend
      exact hm'.settled false c₂ (hp b) (fun hf => by cases hf) hend

theorem Simulates.sync {k : Fs α} (ih : Simulates dev k) : Simulates dev (.sync k) := by
  intro n s a hw hn h
  simp only [Prog.run, runCached]
  by_cases hnone : s.handles = []
  · obtain ⟨h₁, hh₁, hclean⟩ := h.syncAll
    have hk := ih n _ _ hw (by rwa [hh₁]) h₁
    rw [hh₁] at hk
    rw [if_pos (by rw [hnone]; rfl), if_neg (by rw [hnone]; simp)]
    refine ⟨hk.1, fun r a' hr => ?_⟩
    obtain ⟨s', hm⟩ := hk.2 r a' hr
    refine ⟨s', ?_, hm.coherent, hm.handles.trans hh₁, fun x hx => ?_, ?_⟩
    · rw [runCached, if_neg (by rw [hnone]; simp), ← hm.run, hh₁]
    · rw [hnone] at hx
      cases hx
    · intro c c' hp _ hend
      exact hm.settled true c' hp (fun _ => hclean) hend
  · obtain ⟨x, l, hx⟩ := List.exists_cons_of_ne_nil hnone
    have hxin : x ∈ s.handles := by rw [hx]; simp
    rw [if_neg (by rw [hx]; simp), if_pos ⟨x, h.handles x hxin, List.mem_map_of_mem hxin⟩]
    exact ⟨fun _ => rfl, fun r a' hr => by cases hr⟩

end nodes

theorem simulates (dev : ℕ) {α : Type} (p : Fs α) : Simulates dev p := by
  induction p with
  | ret r =>
    refine fun n s a _ _ h => ⟨(fun hr => by cases hr), fun r' a' hr => ?_⟩
    cases hr
    exact ⟨s, rfl, h, rfl, fun _ _ => rfl, fun c c' hp hc hc' => hc (hp hc')⟩
  | fail => exact fun n s a _ _ _ => ⟨fun _ => rfl, fun r a' hr => by cases hr⟩
  | read key body k ihb ihk => exact .read ihb ihk
  | modify key body k ihb ihk => exact .modify ihb ihk
  | sync k ih => exact ih.sync

end RCore.EasyFs
