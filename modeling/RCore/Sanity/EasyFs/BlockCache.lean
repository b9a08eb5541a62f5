import RCore.Sanity.EasyFs.Shared

/-! The block cache with one device in use is coherent: the blocks in memory and the device hold
a plain array of blocks. Every operation of the manager keeps it so. -/

namespace RCore.EasyFs

open RCore.Lib

variable {dev : ℕ} {s s' : CacheState} {a : Disk} {blocks : Devices} {id p : ℕ}

/-- The cache of device `dev` holds the array `a`. -/
structure Coherent (dev : ℕ) (s : CacheState) (a : Disk) : Prop where
  queued : ∀ e ∈ s.queue, ∃ c, s.arcs e.2 = some c ∧ c.blockId = e.1
  live : ∀ p c, s.arcs p = some c → (c.blockId, p) ∈ s.queue ∧ c.blockDevice = dev ∧
    c.cache = a c.blockId ∧ (c.modified = false → s.devices dev c.blockId = c.cache)
  ids : (s.queue.map Prod.fst).Nodup
  length : s.queue.length ≤ 16
  handles : ∀ h ∈ s.handles, h ∈ s.queue
  fresh : ∀ p, s.next ≤ p → s.arcs p = none
  uncached : ∀ id, (∀ e ∈ s.queue, e.1 ≠ id) → s.devices dev id = a id

/-- All blocks in memory are of the device. -/
def CacheState.Of (s : CacheState) (dev : ℕ) : Prop := ∀ p c, s.arcs p = some c → c.blockDevice = dev

/-- What the cache holds for one device, if the blocks in memory are of that device. -/
theorem Shared.coherent (h : Shared s blocks) (hof : s.Of dev) : Coherent dev s (blocks dev) := by
  refine ⟨h.queued, fun p c hc => ?_, h.ids, h.length, h.handles, h.fresh, fun id hid => ?_⟩
  · obtain rfl := hof p c hc
    obtain ⟨hin, hrest⟩ := h.live p c hc
    exact ⟨hin, rfl, hrest⟩
  · exact h.uncached dev id fun p c hc heq => absurd heq (hid _ (h.live p c hc).1)

namespace Coherent

theorem of (h : Coherent dev s a) : s.Of dev := fun p c hc => (h.live p c hc).2.1

/-- The other devices hold what they hold. -/
theorem shared (h : Coherent dev s a) : Shared s (Function.update s.devices dev a) := by
  refine ⟨h.queued, fun p c hc => ?_, h.ids, h.length, h.handles, h.fresh, fun dev' id hnot => ?_⟩
  · obtain ⟨hin, hdev, hcache, hclean⟩ := h.live p c hc
    rw [hdev, Function.update_self]
    exact ⟨hin, hcache, hclean⟩
  · rw [Function.update_apply]
    split_ifs with hdev
    · rw [hdev]
      refine h.uncached id fun e he heq => ?_
      obtain ⟨c, hc, hid⟩ := h.queued e he
      exact hnot e.2 c hc (hid.trans heq) ((h.of e.2 c hc).trans hdev.symm)
    · rfl

/-- From the arrays of all devices back to that of the one. -/
theorem of_shared (h : Shared s' (Function.update s.devices dev a)) (hof : s'.Of dev) : Coherent dev s' a := by
  have hcoh := h.coherent hof
  rwa [Function.update_self] at hcoh

theorem eq_of_fst (h : Coherent dev s a) {e e' : ℕ × ℕ} (he : e ∈ s.queue) (he' : e' ∈ s.queue)
    (heq : e.1 = e'.1) : e = e' :=
  h.shared.eq_of_fst he he' heq

theorem eq_of_snd (h : Coherent dev s a) {e e' : ℕ × ℕ} (he : e ∈ s.queue) (he' : e' ∈ s.queue)
    (heq : e.2 = e'.2) : e = e' :=
  h.shared.eq_of_snd he he' heq

/-- The device holds the array when nothing is left to be written back. -/
theorem device_eq (h : Coherent dev s a) (hc : s.Clean) : s.devices dev = a := by
  have hdev := congrFun (h.shared.devices_eq hc) dev
  rwa [Function.update_self] at hdev

/-- What a handle is good for. -/
theorem handle (h : Coherent dev s a) (hp : (id, p) ∈ s.handles) :
    ∃ c, s.arcs p = some c ∧ c.blockId = id ∧ c.cache = a id := by
  obtain ⟨c, hc, hid, hcache⟩ := h.shared.handle hp
  rw [h.of p c hc, Function.update_self] at hcache
  exact ⟨c, hc, hid, hcache⟩

theorem release (h : Coherent dev s a) (hp : (id, p) ∈ s.handles) :
    Coherent dev (s.release (id, p)) a := by
  refine of_shared (h.shared.release hp) ?_
  rw [release_eq h.shared hp]
  exact h.of

/-- `get_block_cache`: there is a block for every request, as long as no more than 15
handles are outstanding when it is not cached. -/
theorem getBlockCache (h : Coherent dev s a)
    (hroom : (∀ e ∈ s.queue, e.1 ≠ id) → s.handles.length ≤ 15) :
    ∃ p s', s.getBlockCache id dev = some (p, s') ∧ Coherent dev s' a ∧
      s'.handles = (id, p) :: s.handles ∧ (∀ x ∈ s.handles, s'.arcs x.2 = s.arcs x.2) ∧
      (s.Clean → s'.Clean) := by
  obtain ⟨p, s', hg⟩ := h.shared.exists_getBlockCache hroom dev
  obtain ⟨hshared, hhandles, hframe, harcs, -⟩ := h.shared.getBlockCache hg
  refine ⟨p, s', hg, of_shared hshared fun q c hq => ?_, hhandles, hframe, fun hc q c hq => ?_⟩
  · rcases harcs q c hq with hq | hq
    · exact h.of q c hq
    · exact hq.1
  · rcases harcs q c hq with hq | hq
    · exact hc q c hq
    · exact hq.2

/-- Marking a block as modified does not change what the cache holds. -/
theorem getMut (h : Coherent dev s a) (p : ℕ) : Coherent dev (s.getMut p) a := by
  refine of_shared (h.shared.getMut p) fun q c hq => ?_
  rw [getMut_arcs] at hq
  split_ifs at hq
  · obtain ⟨c', hc', rfl⟩ := Option.map_eq_some_iff.mp hq
    exact h.of p c' hc'
  · exact h.of q c hq

/-- Storing to a block that is marked as modified stores to the array. -/
theorem store (h : Coherent dev s a) (hp : (id, p) ∈ s.handles)
    (hm : ∀ c, s.arcs p = some c → c.modified = true) (v : Block) :
    Coherent dev (s.store p v) (Function.update a id v) := by
  obtain ⟨c, hc, rfl, -⟩ := h.handle hp
  have hshared := h.shared.store hc (hm c hc) v
  rw [h.of p c hc, Function.update_self, Function.update_idem] at hshared
  refine of_shared hshared fun q c' hq => ?_
  rw [store_arcs] at hq
  split_ifs at hq
  · obtain ⟨c', hc', rfl⟩ := Option.map_eq_some_iff.mp hq
    exact h.of p c' hc'
  · exact h.of q c' hq

/-- `block_cache_sync_all` leaves nothing to be written back. -/
theorem syncAll (h : Coherent dev s a) :
    Coherent dev s.syncAll a ∧ s.syncAll.handles = s.handles ∧ s.syncAll.Clean := by
  obtain ⟨hshared, hhandles, hclean, harcs⟩ := h.shared.syncAll
  refine ⟨of_shared hshared fun q c hq => ?_, hhandles, hclean⟩
  rw [harcs] at hq
  obtain ⟨c', hc', rfl⟩ := Option.map_eq_some_iff.mp hq
  exact h.of q c' hc'

end Coherent

/-- An empty cache holds what the device holds. -/
theorem coherent_new (devices : Devices) : Coherent dev (.new devices) (devices dev) :=
  (shared_new devices).coherent fun _ _ hc => by cases hc

end RCore.EasyFs
