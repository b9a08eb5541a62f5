import Mathlib.Data.List.Nodup
import RCore.Spec.EasyFs.BlockCache

/-! One cache for all devices: the blocks in memory are those in the queue, one for each block
id, and together with the devices they hold an array of blocks for each device. Every operation
of the manager keeps it so, whichever devices the blocks in memory are of. -/

namespace RCore.EasyFs

open RCore.Lib

variable {s s' : CacheState} {blocks : Devices} {dev id p : ℕ}

/-- The cache holds the arrays `blocks`. -/
structure Shared (s : CacheState) (blocks : Devices) : Prop where
  queued : ∀ e ∈ s.queue, ∃ c, s.arcs e.2 = some c ∧ c.blockId = e.1
  live : ∀ p c, s.arcs p = some c → (c.blockId, p) ∈ s.queue ∧
    c.cache = blocks c.blockDevice c.blockId ∧
    (c.modified = false → s.devices c.blockDevice c.blockId = c.cache)
  ids : (s.queue.map Prod.fst).Nodup
  length : s.queue.length ≤ 16
  handles : ∀ h ∈ s.handles, h ∈ s.queue
  fresh : ∀ p, s.next ≤ p → s.arcs p = none
  uncached : ∀ dev id, (∀ p c, s.arcs p = some c → c.blockId = id → c.blockDevice ≠ dev) →
    s.devices dev id = blocks dev id

/-- No block in memory differs from its device. -/
def CacheState.Clean (s : CacheState) : Prop := ∀ p c, s.arcs p = some c → c.modified = false

/-- An empty cache holds what the devices hold. -/
theorem shared_new (devices : Devices) : Shared (.new devices) devices := by
  constructor <;> simp [CacheState.new]

theorem clean_new (devices : Devices) : (CacheState.new devices).Clean := by
  simp [CacheState.Clean, CacheState.new]

namespace Shared

theorem eq_of_fst (h : Shared s blocks) {e e' : ℕ × ℕ} (he : e ∈ s.queue) (he' : e' ∈ s.queue)
    (heq : e.1 = e'.1) : e = e' :=
  List.inj_on_of_nodup_map h.ids he he' heq

theorem eq_of_snd (h : Shared s blocks) {e e' : ℕ × ℕ} (he : e ∈ s.queue) (he' : e' ∈ s.queue)
    (heq : e.2 = e'.2) : e = e' := by
  obtain ⟨c, hc, hid⟩ := h.queued e he
  obtain ⟨c', hc', hid'⟩ := h.queued e' he'
  rw [heq, hc', Option.some.injEq] at hc
  exact h.eq_of_fst he he' (by rw [← hid, ← hid', hc])

theorem addresses (h : Shared s blocks) : (s.queue.map Prod.snd).Nodup :=
  (List.Nodup.of_map _ h.ids).map_on fun _ he _ he' heq => h.eq_of_snd he he' heq

/-- There is one block in memory for each id. -/
theorem eq_of_blockId (h : Shared s blocks) {q : ℕ} {c c' : BlockCache} (hc : s.arcs p = some c)
    (hc' : s.arcs q = some c') (heq : c.blockId = c'.blockId) : p = q :=
  congrArg Prod.snd (h.eq_of_fst (h.live p c hc).1 (h.live q c' hc').1 heq)

/-- An entry of the queue is referred to by the queue, once, and by its handles. -/
theorem strongCount_eq (h : Shared s blocks) {e : ℕ × ℕ} (he : e ∈ s.queue) :
    s.strongCount e.2 = 1 + s.handles.countP fun x => x.2 == e.2 := by
  have hone := List.count_eq_one_of_mem h.addresses (List.mem_map_of_mem he)
  rw [List.count, List.countP_map] at hone
  rw [CacheState.strongCount, ← hone]
  rfl

/-- The devices hold the arrays when nothing is left to be written back. -/
theorem devices_eq (h : Shared s blocks) (hclean : s.Clean) : s.devices = blocks := by
  funext dev id
  by_cases hq : ∃ p c, s.arcs p = some c ∧ c.blockId = id ∧ c.blockDevice = dev
  · obtain ⟨p, c, hc, rfl, rfl⟩ := hq
    obtain ⟨-, hcache, hdev⟩ := h.live p c hc
    rw [hdev (hclean p c hc), hcache]
  · exact h.uncached dev id fun p c hc hid hdev => hq ⟨p, c, hc, hid, hdev⟩

/-- What a handle is good for. -/
theorem handle (h : Shared s blocks) (hp : (id, p) ∈ s.handles) :
    ∃ c, s.arcs p = some c ∧ c.blockId = id ∧ c.cache = blocks c.blockDevice id := by
  obtain ⟨c, hc, hid⟩ := h.queued _ (h.handles _ hp)
  simp only at hc hid
  exact ⟨c, hc, hid, by rw [(h.live p c hc).2.1, hid]⟩

end Shared

/-- Writing a block back changes its place on its device and nothing else. -/
theorem sync_devices {c : BlockCache} (devices : Devices)
    (hclean : c.modified = false → devices c.blockDevice c.blockId = c.cache) (dev id : ℕ) :
    (c.sync devices).2 dev id =
      if c.blockId = id ∧ c.blockDevice = dev then c.cache else devices dev id := by
  rw [BlockCache.sync]
  cases hm : c.modified with
  | true =>
    simp only [if_true]
    by_cases hdev : dev = c.blockDevice
    · subst hdev
      simp only [Function.update_self, Function.update_apply, and_true, eq_comm]
    · rw [Function.update_of_ne hdev, if_neg fun hboth => hdev hboth.2.symm]
  | false =>
    simp only [Bool.false_eq_true, if_false]
    split_ifs with hboth
    · rw [← hboth.1, ← hboth.2, hclean hm]
    · rfl

theorem sync_fst (c : BlockCache) (devices : Devices) :
    (c.sync devices).1 = { c with modified := false } := by
  cases c with
  | mk cache blockId blockDevice modified => cases modified <;> rfl

section release

/-- A handle that goes leaves the block in the queue. -/
theorem release_eq (h : Shared s blocks) (hp : (id, p) ∈ s.handles) :
    s.release (id, p) = { s with handles := s.handles.erase (id, p) } := by
  have hpos : 0 < s.queue.countP fun e => e.2 == p :=
    List.countP_pos_iff.mpr ⟨(id, p), h.handles _ hp, by simp⟩
  rw [CacheState.release, CacheState.dropArc, if_neg]
  simp only [CacheState.strongCount]
  omega

theorem Shared.release (h : Shared s blocks) (hp : (id, p) ∈ s.handles) :
    Shared (s.release (id, p)) blocks := by
  rw [release_eq h hp]
  exact ⟨h.queued, h.live, h.ids, h.length, fun x hx => h.handles x (List.mem_of_mem_erase hx),
    h.fresh, h.uncached⟩

end release

section get

/-- What leaving the queue does to an entry that only the queue refers to. -/
theorem substitute_eq (h : Shared s blocks) (hs : s.substitute = some s') :
    ∃ l₁ e l₂ c, s.queue = l₁ ++ e :: l₂ ∧ s.arcs e.2 = some c ∧ c.blockId = e.1 ∧
      (∀ x ∈ s.handles, x.2 ≠ e.2) ∧
      s' = { s with
        devices := (c.sync s.devices).2
        arcs := Function.update s.arcs e.2 none
        queue := l₁ ++ l₂ } := by
  rw [CacheState.substitute, Option.map_eq_some_iff] at hs
  obtain ⟨e, hfind, hs⟩ := hs
  obtain ⟨hone, l₁, l₂, hq, hfirst⟩ := List.find?_eq_some_iff_append.mp hfind
  have he : e ∈ s.queue := List.mem_of_find?_eq_some hfind
  obtain ⟨c, hc, hid⟩ := h.queued e he
  have hcount := h.strongCount_eq he
  rw [beq_iff_eq] at hone
  have hnone : s.handles.countP (fun x => x.2 == e.2) = 0 := by omega
  have herase : s.queue.eraseP (fun e => s.strongCount e.2 == 1) = l₁ ++ l₂ := by
    rw [hq, List.eraseP_append_right _ (by simpa using hfirst), List.eraseP_cons_of_pos]
    simpa using hone
  have hzero : (l₁ ++ l₂).countP (fun x => x.2 == e.2) = 0 := by
    have haddr := List.count_eq_one_of_mem h.addresses (List.mem_map_of_mem he)
    rw [List.count, List.countP_map, hq, List.countP_append, List.countP_cons] at haddr
    simp only [Function.comp_apply, BEq.rfl, if_true] at haddr
    rw [List.countP_append]
    change _ + List.countP ((fun x => x == e.2) ∘ Prod.snd) l₂ = 0
    change List.countP ((fun x => x == e.2) ∘ Prod.snd) l₁ + _ = 0
    omega
  refine ⟨l₁, e, l₂, c, hq, hc, hid, fun x hx heq => ?_, ?_⟩
  · rw [List.countP_eq_zero] at hnone
    exact hnone x hx (by simpa using heq)
  · rw [herase, CacheState.dropArc, if_pos (by simp only [CacheState.strongCount]; omega)] at hs
    simp only [hc] at hs
    exact hs.symm

/-- An entry leaves the queue: it is written back if need be. -/
theorem Shared.substitute (h : Shared s blocks) (hs : s.substitute = some s') :
    Shared s' blocks ∧ s'.handles = s.handles ∧ s'.queue.length < s.queue.length ∧
      (∀ e ∈ s'.queue, e ∈ s.queue) ∧ (∀ x ∈ s.handles, s'.arcs x.2 = s.arcs x.2) ∧
      ∀ p c, s'.arcs p = some c → s.arcs p = some c := by
  obtain ⟨l₁, e, l₂, c, hq, hc, hid, hfree, rfl⟩ := substitute_eq h hs
  have he : e ∈ s.queue := by rw [hq]; simp
  have hlen : (l₁ ++ l₂).length < s.queue.length := by rw [hq]; simp
  have hsub : ∀ x ∈ l₁ ++ l₂, x ∈ s.queue := by
    intro x hx
    rw [hq]
    rcases List.mem_append.mp hx with hx | hx <;> simp [hx]
  have hmem : ∀ x ∈ s.queue, x ≠ e → x ∈ l₁ ++ l₂ := by
    intro x hx hne
    rw [hq] at hx
    simpa [hne] using hx
  have hne : ∀ x ∈ l₁ ++ l₂, x ≠ e := by
    rintro x hx rfl
    have hnd := List.Nodup.of_map _ h.ids
    rw [hq, List.nodup_middle, List.nodup_cons] at hnd
    exact hnd.1 hx
  have hback : ∀ q c', Function.update s.arcs e.2 none q = some c' → q ≠ e.2 ∧ s.arcs q = some c' := by
    intro q c' hq'
    rw [Function.update_apply] at hq'
    split_ifs at hq' with hqe
    exact ⟨hqe, hq'⟩
  obtain ⟨-, hcache, hclean⟩ := h.live _ _ hc
  have hsync := sync_devices s.devices hclean
  refine ⟨⟨fun x hx => ?_, fun q c' hq' => ?_, ?_, ?_, fun x hx => ?_, fun q hle => ?_,
    fun dev k hk => ?_⟩, rfl, hlen, hsub, fun x hx => ?_, fun q c' hq' => (hback q c' hq').2⟩
  · obtain ⟨c', hc', hid'⟩ := h.queued x (hsub x hx)
    refine ⟨c', ?_, hid'⟩
    simp only
    rw [Function.update_of_ne, hc']
    exact fun heq => hne x hx (h.eq_of_snd (hsub x hx) he heq)
  · obtain ⟨hqe, hq'⟩ := hback q c' hq'
    obtain ⟨hin, hcache', hclean'⟩ := h.live q c' hq'
    refine ⟨hmem _ hin fun heq => hqe (by rw [← heq]), hcache', fun hm => ?_⟩
    simp only [hsync]
    rw [if_neg fun hboth => hqe (h.eq_of_blockId hq' hc hboth.1.symm), hclean' hm]
  · have hnd := h.ids
    rw [hq, List.map_append, List.map_cons, List.nodup_middle, List.nodup_cons] at hnd
    rw [List.map_append]
    exact hnd.2
  · exact hlen.le.trans h.length
  · exact hmem x (h.handles x hx) fun heq => hfree x hx (by rw [heq])
  · simp only [Function.update_apply]
    split_ifs
    · rfl
    · exact h.fresh q hle
  · simp only [hsync]
    split_ifs with hboth
    · rw [hcache, hboth.1, hboth.2]
    · apply h.uncached dev k
      intro q c' hq' hid' hdev'
      by_cases hqe : q = e.2
      · rw [hqe, hc, Option.some.injEq] at hq'
        rw [← hq'] at hid' hdev'
        exact hboth ⟨hid', hdev'⟩
      · refine hk q c' ?_ hid' hdev'
        simp only
        rw [Function.update_of_ne hqe, hq']
  · exact Function.update_of_ne (hfree x hx) _ _

/-- With no more than 15 handles one of 16 entries has none. -/
theorem Shared.exists_substitute (h : Shared s blocks) (hfull : s.queue.length = 16)
    (hroom : s.handles.length ≤ 15) : ∃ s', s.substitute = some s' := by
  rw [← Option.isSome_iff_exists, CacheState.substitute, Option.isSome_map, List.find?_isSome]
  by_contra hno
  push Not at hno
  have hsub : s.queue.map Prod.snd ⊆ s.handles.map Prod.snd := by
    intro p hp
    obtain ⟨e, he, rfl⟩ := List.mem_map.mp hp
    have hne := hno e he
    rw [h.strongCount_eq he, Ne, beq_iff_eq] at hne
    obtain ⟨x, hx, heq⟩ := List.countP_pos_iff.mp
      (show 0 < s.handles.countP fun x => x.2 == e.2 by omega)
    exact List.mem_map.mpr ⟨x, hx, by simpa using heq⟩
  have := (h.addresses.subperm hsub).length_le
  rw [List.length_map, List.length_map] at this
  omega

/-- A block that is not cached is loaded. -/
theorem Shared.load (h : Shared s blocks) (hid : ∀ e ∈ s.queue, e.1 ≠ id)
    (hlen : s.queue.length < 16) (dev : ℕ) : Shared (s.load id dev) blocks := by
  have hdisk : s.devices dev id = blocks dev id :=
    h.uncached dev id fun p c hc heq => absurd heq (hid _ (h.live p c hc).1)
  have hlive : ∀ e ∈ s.queue, e.2 ≠ s.next := by
    intro e he heq
    obtain ⟨c, hc, -⟩ := h.queued e he
    rw [heq, h.fresh _ (le_refl _)] at hc
    cases hc
  refine ⟨fun e he => ?_, fun q c hq => ?_, ?_, ?_, fun x hx => ?_, fun q hle => ?_, fun dev' k hk => ?_⟩
  · rcases List.mem_append.mp he with he | he
    · obtain ⟨c, hc, hid⟩ := h.queued e he
      exact ⟨c, by simp only [CacheState.load]; rw [Function.update_of_ne (hlive e he), hc], hid⟩
    · rw [List.mem_singleton.mp he]
      exact ⟨_, Function.update_self .., rfl⟩
  · simp only [CacheState.load] at hq ⊢
    by_cases hn : q = s.next
    · rw [hn, Function.update_self, Option.some.injEq] at hq
      subst hq
      exact ⟨by simp [BlockCache.new, hn], hdisk, fun _ => rfl⟩
    · rw [Function.update_of_ne hn] at hq
      obtain ⟨hin, hrest⟩ := h.live q c hq
      exact ⟨List.mem_append_left _ hin, hrest⟩
  · simp only [CacheState.load, List.map_append, List.map_singleton, List.nodup_append]
    refine ⟨h.ids, by simp, fun x hx y hy => ?_⟩
    obtain ⟨e, he, rfl⟩ := List.mem_map.mp hx
    rw [List.mem_singleton.mp hy]
    exact hid e he
  · simp only [CacheState.load, List.length_append, List.length_singleton]
    omega
  · simp only [CacheState.load] at hx ⊢
    rcases List.mem_cons.mp hx with rfl | hx
    · simp
    · exact List.mem_append_left _ (h.handles x hx)
  · simp only [CacheState.load] at hle ⊢
    rw [Function.update_of_ne (by omega)]
    exact h.fresh q (by omega)
  · apply h.uncached dev' k
    intro q c hq
    refine hk q c ?_
    simp only [CacheState.load]
    rw [Function.update_of_ne, hq]
    rintro rfl
    rw [h.fresh _ (le_refl _)] at hq
    cases hq

/-- There is a block for every request, as long as no more than 15 handles are outstanding when it
is not cached. -/
theorem Shared.exists_getBlockCache (h : Shared s blocks)
    (hroom : (∀ e ∈ s.queue, e.1 ≠ id) → s.handles.length ≤ 15) (dev : ℕ) :
    ∃ p s', s.getBlockCache id dev = some (p, s') := by
  rw [CacheState.getBlockCache]
  cases hfind : s.queue.find? fun e => e.1 == id with
  | some e => exact ⟨_, _, rfl⟩
  | none =>
    have hid : ∀ e ∈ s.queue, e.1 ≠ id := by simpa using hfind
    dsimp only
    split_ifs with hfull
    · obtain ⟨t, ht⟩ := h.exists_substitute hfull (hroom hid)
      rw [ht]
      exact ⟨_, _, rfl⟩
    · exact ⟨_, _, rfl⟩

/-- The place in the queue for a block that is not cached, which may have to be made. -/
theorem Shared.make_room {t : CacheState} (h : Shared s blocks)
    (ht : (if s.queue.length = 16 then s.substitute else some s) = some t) :
    Shared t blocks ∧ t.handles = s.handles ∧ t.queue.length < 16 ∧ (∀ e ∈ t.queue, e ∈ s.queue) ∧
      (∀ x ∈ s.handles, t.arcs x.2 = s.arcs x.2) ∧ ∀ p c, t.arcs p = some c → s.arcs p = some c := by
  have hle := h.length
  split_ifs at ht with hfull
  · obtain ⟨hshared, hhandles, hlen, hrest⟩ := h.substitute ht
    exact ⟨hshared, hhandles, by omega, hrest⟩
  · cases ht
    exact ⟨h, rfl, by omega, fun _ he => he, fun _ _ => rfl, fun _ _ hc => hc⟩

/-- `get_block_cache`: the block that is returned is the one in the queue with that id, of whichever
device, or is loaded from the device that is asked for. -/
theorem Shared.getBlockCache (h : Shared s blocks) (hg : s.getBlockCache id dev = some (p, s')) :
    Shared s' blocks ∧ s'.handles = (id, p) :: s.handles ∧ (∀ x ∈ s.handles, s'.arcs x.2 = s.arcs x.2) ∧
      (∀ q c, s'.arcs q = some c → s.arcs q = some c ∨ c.blockDevice = dev ∧ c.modified = false) ∧
      ((id, p) ∈ s.queue ∧ s'.arcs = s.arcs ∨
        (∀ e ∈ s.queue, e.1 ≠ id) ∧ ∃ c, s'.arcs p = some c ∧ c.blockDevice = dev) := by
  rw [CacheState.getBlockCache] at hg
  cases hfind : s.queue.find? fun e => e.1 == id with
  | some e =>
    have he := List.mem_of_find?_eq_some hfind
    obtain rfl : e.1 = id := by simpa using List.find?_some hfind
    rw [hfind] at hg
    cases hg
    refine ⟨⟨h.queued, h.live, h.ids, h.length, fun x hx => ?_, h.fresh, h.uncached⟩, rfl, fun _ _ => rfl,
      fun _ _ hc => .inl hc, .inl ⟨he, rfl⟩⟩
    rcases List.mem_cons.mp hx with rfl | hx
    · exact he
    · exact h.handles x hx
  | none =>
    have hid : ∀ e ∈ s.queue, e.1 ≠ id := by simpa using hfind
    rw [hfind] at hg
    obtain ⟨t, ht, heq⟩ := Option.map_eq_some_iff.mp hg
    cases heq
    obtain ⟨hshared, hhandles, hlen, hsub, harcs, hback⟩ := h.make_room ht
    have hnew : ∀ x ∈ s.handles, x.2 ≠ t.next := by
      intro x hx heq
      obtain ⟨c, hc, -⟩ := hshared.queued x (hshared.handles x (by rwa [hhandles]))
      rw [heq, hshared.fresh _ (le_refl _)] at hc
      cases hc
    refine ⟨hshared.load (fun e he => hid e (hsub e he)) hlen dev, by rw [← hhandles]; rfl, fun x hx => ?_,
      fun q c hq => ?_, .inr ⟨hid, _, Function.update_self .., rfl⟩⟩
    · simp only [CacheState.load]
      rw [Function.update_of_ne (hnew x hx), harcs x hx]
    · simp only [CacheState.load, Function.update_apply] at hq
      split_ifs at hq with hqn
      · cases hq
        exact .inr ⟨rfl, rfl⟩
      · exact .inl (hback q c hq)

end get

section modify

/-- A change to one block in memory that keeps its place, and to the devices. -/
theorem Shared.adjusted {blocks' : Devices} {f : BlockCache → BlockCache} (h : Shared s blocks)
    (hqueue : s'.queue = s.queue) (hhandles : s'.handles = s.handles) (hnext : s'.next = s.next)
    (harcs : ∀ q, s'.arcs q = if q = p then (s.arcs p).map f else s.arcs q)
    (hf : ∀ c, (f c).blockId = c.blockId ∧ (f c).blockDevice = c.blockDevice)
    (hlive : ∀ q c, s'.arcs q = some c → c.cache = blocks' c.blockDevice c.blockId ∧
      (c.modified = false → s'.devices c.blockDevice c.blockId = c.cache))
    (huncached : ∀ dev id, (∀ q c, s.arcs q = some c → c.blockId = id → c.blockDevice ≠ dev) →
      s'.devices dev id = blocks' dev id) : Shared s' blocks' := by
  refine ⟨fun e he => ?_, fun q c hq => ⟨?_, hlive q c hq⟩, by rw [hqueue]; exact h.ids,
    by rw [hqueue]; exact h.length, fun x hx => ?_, fun q hle => ?_, fun dev id hnot => ?_⟩
  · rw [hqueue] at he
    obtain ⟨c, hc, hid⟩ := h.queued e he
    rw [harcs]
    split_ifs with hep
    · exact ⟨f c, by rw [← hep, hc]; rfl, (hf c).1.trans hid⟩
    · exact ⟨c, hc, hid⟩
  · rw [harcs] at hq
    split_ifs at hq with hqp
    · obtain ⟨c', hc', rfl⟩ := Option.map_eq_some_iff.mp hq
      rw [hqueue, (hf c').1, hqp]
      exact (h.live p c' hc').1
    · rw [hqueue]
      exact (h.live q c hq).1
  · rw [hhandles] at hx
    rw [hqueue]
    exact h.handles x hx
  · rw [hnext] at hle
    rw [harcs]
    split_ifs with hqp
    · rw [← hqp, h.fresh q hle]
      rfl
    · exact h.fresh q hle
  · refine huncached dev id fun q c hq => ?_
    have hq' := harcs q
    split_ifs at hq' with hqp
    · rw [← hqp, hq, Option.map_some] at hq'
      have hnot' := hnot q _ hq'
      rw [(hf c).1, (hf c).2] at hnot'
      exact hnot'
    · exact hnot q c (hq'.trans hq)

theorem getMut_arcs (s : CacheState) (p q : ℕ) : (s.getMut p).arcs q =
    if q = p then (s.arcs p).map fun c => { c with modified := true } else s.arcs q := by
  simp only [CacheState.getMut, CacheState.adjust, Function.update_apply]

theorem store_arcs (s : CacheState) (p q : ℕ) (v : Block) : (s.store p v).arcs q =
    if q = p then (s.arcs p).map fun c => { c with cache := v } else s.arcs q := by
  simp only [CacheState.store, CacheState.adjust, Function.update_apply]

/-- Marking a block as modified does not change what the cache holds. -/
theorem Shared.getMut (h : Shared s blocks) (p : ℕ) : Shared (s.getMut p) blocks := by
  refine h.adjusted rfl rfl rfl (getMut_arcs s p) (fun _ => ⟨rfl, rfl⟩) (fun q c hq => ?_) h.uncached
  rw [getMut_arcs] at hq
  split_ifs at hq with hqp
  · obtain ⟨c', hc', rfl⟩ := Option.map_eq_some_iff.mp hq
    exact ⟨(h.live p c' hc').2.1, fun hm => by cases hm⟩
  · exact (h.live q c hq).2

/-- Storing to a block that is marked as modified stores to the array of its device. -/
theorem Shared.store {c : BlockCache} (h : Shared s blocks) (hc : s.arcs p = some c) (hm : c.modified = true)
    (v : Block) : Shared (s.store p v)
      (Function.update blocks c.blockDevice (Function.update (blocks c.blockDevice) c.blockId v)) := by
  refine h.adjusted rfl rfl rfl (fun q => store_arcs s p q v) (fun _ => ⟨rfl, rfl⟩)
    (fun q c' hq => ?_) fun dev k hk => ?_
  · rw [store_arcs] at hq
    split_ifs at hq with hqp
    · rw [hc, Option.map_some, Option.some.injEq] at hq
      subst hq
      simp only [Function.update_self, hm, Bool.true_eq_false, false_implies, and_self]
    · obtain ⟨-, hcache, hclean⟩ := h.live q c' hq
      refine ⟨?_, hclean⟩
      have hne : c'.blockId ≠ c.blockId := fun heq => hqp (h.eq_of_blockId hq hc heq)
      rw [hcache, Function.update_apply]
      split_ifs with hdev
      · rw [Function.update_of_ne hne, hdev]
      · rfl
  · have hne := hk p c hc
    rw [Function.update_apply]
    split_ifs with hdev
    · rw [Function.update_of_ne fun heq => hne heq.symm hdev.symm, ← hdev]
      exact h.uncached dev k hk
    · exact h.uncached dev k hk

end modify

section sync

theorem syncOne_arcs (s : CacheState) (p q : ℕ) : (s.syncOne p).arcs q =
    if q = p then (s.arcs p).map fun c => { c with modified := false } else s.arcs q := by
  rw [CacheState.syncOne]
  cases hc : s.arcs p with
  | none =>
    split_ifs with hqp
    · rw [hqp, hc]
      rfl
    · rfl
  | some c =>
    simp only [Function.update_apply, sync_fst, Option.map_some]

theorem syncOne_queue (s : CacheState) (p : ℕ) :
    (s.syncOne p).queue = s.queue ∧ (s.syncOne p).handles = s.handles ∧
      (s.syncOne p).next = s.next := by
  rw [CacheState.syncOne]
  cases s.arcs p <;> simp

theorem Shared.syncOne (h : Shared s blocks) (p : ℕ) : Shared (s.syncOne p) blocks := by
  cases hc : s.arcs p with
  | none =>
    rw [CacheState.syncOne, hc]
    exact h
  | some c =>
    obtain ⟨hqueue, hhandles, hnext⟩ := syncOne_queue s p
    obtain ⟨-, hcache, hclean⟩ := h.live p c hc
    have hsync : ∀ dev k, (s.syncOne p).devices dev k =
        if c.blockId = k ∧ c.blockDevice = dev then c.cache else s.devices dev k := by
      rw [CacheState.syncOne, hc]
      exact sync_devices s.devices hclean
    refine h.adjusted hqueue hhandles hnext (syncOne_arcs s p) (fun _ => ⟨rfl, rfl⟩)
      (fun q c' hq => ?_) fun dev k hk => ?_
    · rw [syncOne_arcs] at hq
      split_ifs at hq with hqp
      · rw [hc, Option.map_some, Option.some.injEq] at hq
        subst hq
        exact ⟨hcache, fun _ => by simp only [hsync, and_self, if_true]⟩
      · obtain ⟨-, hcache', hclean'⟩ := h.live q c' hq
        refine ⟨hcache', fun hm => ?_⟩
        rw [hsync, if_neg, hclean' hm]
        exact fun hboth => hqp (h.eq_of_blockId hq hc hboth.1.symm)
    · rw [hsync, if_neg fun hboth => hk p c hc hboth.1 hboth.2]
      exact h.uncached dev k hk

/-- The loop of `block_cache_sync_all`. -/
theorem Shared.syncEach (l : List (ℕ × ℕ)) (h : Shared s blocks) :
    Shared (l.foldl (fun s e => s.syncOne e.2) s) blocks ∧
      (l.foldl (fun s e => s.syncOne e.2) s).queue = s.queue ∧
      (l.foldl (fun s e => s.syncOne e.2) s).handles = s.handles ∧
      (∀ q, q ∉ l.map Prod.snd → (l.foldl (fun s e => s.syncOne e.2) s).arcs q = s.arcs q) ∧
      ∀ q, q ∈ l.map Prod.snd → (l.foldl (fun s e => s.syncOne e.2) s).arcs q =
        (s.arcs q).map fun c => { c with modified := false } := by
  induction l generalizing s with
  | nil => exact ⟨h, rfl, rfl, fun _ _ => rfl, fun _ hq => by cases hq⟩
  | cons e l ih =>
    obtain ⟨hshared, hqueue, hhandles, hframe, hclean⟩ := ih (h.syncOne e.2)
    obtain ⟨hqueue', hhandles', -⟩ := syncOne_queue s e.2
    refine ⟨hshared, hqueue.trans hqueue', hhandles.trans hhandles', fun q hq => ?_, fun q hin => ?_⟩
    · rw [List.map_cons, List.mem_cons, not_or] at hq
      rw [List.foldl_cons, hframe q hq.2, syncOne_arcs, if_neg hq.1]
    · rw [List.foldl_cons]
      by_cases hl : q ∈ l.map Prod.snd
      · rw [hclean q hl, syncOne_arcs]
        split_ifs with hqe
        · rw [hqe, Option.map_map]
          rfl
        · rfl
      · -- synced at the head of the list, and not touched since
        obtain rfl : q = e.2 := by simpa [hl] using hin
        rw [hframe _ hl, syncOne_arcs, if_pos rfl]

/-- `block_cache_sync_all` leaves nothing to be written back. -/
theorem Shared.syncAll (h : Shared s blocks) :
    Shared s.syncAll blocks ∧ s.syncAll.handles = s.handles ∧ s.syncAll.Clean ∧
      ∀ q, s.syncAll.arcs q = (s.arcs q).map fun c => { c with modified := false } := by
  obtain ⟨hshared, hqueue, hhandles, hframe, hclean⟩ := h.syncEach s.queue
  have harcs : ∀ q, s.syncAll.arcs q = (s.arcs q).map fun c => { c with modified := false } := by
    intro q
    by_cases hq : q ∈ s.queue.map Prod.snd
    · exact hclean q hq
    · have hnone : s.arcs q = none := by
        cases hc : s.arcs q with
        | none => rfl
        | some c => exact absurd (List.mem_map_of_mem (h.live q c hc).1) hq
      rw [hnone]
      exact (hframe q hq).trans hnone
  refine ⟨hshared, hhandles, fun q c hq => ?_, harcs⟩
  rw [harcs] at hq
  obtain ⟨c', -, rfl⟩ := Option.map_eq_some_iff.mp hq
  rfl

/-- The devices after `block_cache_sync_all`. -/
theorem Shared.syncAll_devices (h : Shared s blocks) : s.syncAll.devices = blocks := by
  obtain ⟨hshared, -, hclean, -⟩ := h.syncAll
  exact hshared.devices_eq hclean

end sync

end RCore.EasyFs
