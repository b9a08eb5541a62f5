import RCore.Sanity.EasyFs.Shared
import RCore.Spec.EasyFs.Devices

/-! Devices that share the block cache manager. It looks for a block by its number alone, so two
devices are kept apart exactly as long as no number is asked for while the other device's block
of that number is cached. -/

namespace RCore.EasyFs

open RCore.Lib

namespace DeviceState

variable {s s' : DeviceState} {h : Handle} {id dev : ℕ} {f : Block → Block}

/-- What holds of the manager and the handles. -/
structure Ok (s : DeviceState) : Prop where
  shared : Shared s.cache s.blocks
  handles : s.cache.handles.Perm (s.handles.map fun h => (h.blockId, h.arc))
  asked : ∀ h ∈ s.handles, ∃ c, s.cache.arcs h.arc = some c ∧ c.blockDevice = h.blockDevice

theorem ok_new (devices : Devices) : (new devices).Ok :=
  ⟨shared_new devices, .nil, fun _ hh => absurd hh List.not_mem_nil⟩

theorem Ok.mem (hok : s.Ok) (hh : h ∈ s.handles) : (h.blockId, h.arc) ∈ s.cache.handles :=
  hok.handles.mem_iff.mpr (List.mem_map_of_mem (f := fun h : Handle => (h.blockId, h.arc)) hh)

/-- What a handle of a device is good for. -/
theorem Ok.handle (hok : s.Ok) (hh : h ∈ s.handles) : ∃ c, s.cache.arcs h.arc = some c ∧
    c.blockDevice = h.blockDevice ∧ c.blockId = h.blockId ∧ c.cache = s.blocks h.blockDevice h.blockId := by
  obtain ⟨c, hc, hid, hcache⟩ := hok.shared.handle (hok.mem hh)
  obtain ⟨c', hc', hdev⟩ := hok.asked h hh
  rw [hc, Option.some.injEq] at hc'
  subst hc'
  exact ⟨c, hc, hdev, hid, hdev ▸ hcache⟩

theorem Ok.apart (hok : s.Ok) : s.Apart := by
  refine ⟨fun h hh => ?_, hok.shared.syncAll_devices⟩
  obtain ⟨c, hc, -, -, hcache⟩ := hok.handle hh
  exact ⟨c, hc, hcache⟩

theorem step_get (hs : s.step (.get id dev) = some s') :
    ∃ p cache, s.cache.getBlockCache id dev = some (p, cache) ∧
      s' = { s with cache, handles := ⟨dev, id, p⟩ :: s.handles } := by
  simp only [step, Option.bind_eq_bind, Option.bind_eq_some_iff] at hs
  obtain ⟨⟨p, cache⟩, hg, hs⟩ := hs
  exact ⟨p, cache, hg, (Option.some.inj hs).symm⟩

theorem step_modify (hs : s.step (.modify h f) = some s') :
    h ∈ s.handles ∧ ∃ c, s.cache.arcs h.arc = some c ∧
      s' = { s with
        cache := (s.cache.getMut h.arc).store h.arc (f c.cache)
        blocks := Function.update s.blocks h.blockDevice
          (Function.update (s.blocks h.blockDevice) h.blockId (f (s.blocks h.blockDevice h.blockId))) } := by
  rw [step] at hs
  split_ifs at hs with hh
  simp only [Option.bind_eq_bind, Option.bind_eq_some_iff] at hs
  obtain ⟨c, hc, hs⟩ := hs
  exact ⟨hh, c, hc, (Option.some.inj hs).symm⟩

/-- A modification goes to the device of the block in memory, whichever was asked for. -/
theorem shared_modify {c : BlockCache} {blocks : Devices} {cache : CacheState} {p : ℕ}
    (hshared : Shared cache blocks) (hc : cache.arcs p = some c) (v : Block) :
    Shared ((cache.getMut p).store p v)
      (Function.update blocks c.blockDevice (Function.update (blocks c.blockDevice) c.blockId v)) := by
  have hmut : (cache.getMut p).arcs p = some { c with modified := true } := by
    rw [getMut_arcs, if_pos rfl, hc]
    rfl
  exact (hshared.getMut p).store hmut rfl v

theorem modify_device {cache : CacheState} {p q : ℕ} {v : Block} {c : BlockCache} (hc : cache.arcs q = some c) :
    ∃ c', ((cache.getMut p).store p v).arcs q = some c' ∧ c'.blockDevice = c.blockDevice := by
  rw [store_arcs, getMut_arcs, if_pos rfl, getMut_arcs]
  split_ifs with hqp
  · rw [← hqp, hc]
    exact ⟨_, rfl, rfl⟩
  · exact ⟨c, hc, rfl⟩

theorem Ok.get (hok : s.Ok) (hserves : s.Serves id dev) (hs : s.step (.get id dev) = some s') : s'.Ok := by
  obtain ⟨p, cache, hg, rfl⟩ := step_get hs
  obtain ⟨hshared, hhandles, hframe, -, hfound⟩ := hok.shared.getBlockCache hg
  refine ⟨hshared, ?_, fun h hh => ?_⟩
  · dsimp only
    rw [hhandles, List.map_cons]
    exact hok.handles.cons _
  · rcases List.mem_cons.mp hh with rfl | hh
    · rcases hfound with ⟨hin, harcs⟩ | ⟨-, hloaded⟩
      · obtain ⟨c, hc, hdev⟩ := hserves _ hin rfl
        exact ⟨c, (congrFun harcs p).trans hc, hdev⟩
      · exact hloaded
    · obtain ⟨c, hc, hdev⟩ := hok.asked h hh
      exact ⟨c, (hframe _ (hok.mem hh)).trans hc, hdev⟩

theorem Ok.modify (hok : s.Ok) (hs : s.step (.modify h f) = some s') : s'.Ok := by
  obtain ⟨hh, c, hc, rfl⟩ := step_modify hs
  obtain ⟨c', hc', hdev, hid, hcache⟩ := hok.handle hh
  rw [hc, Option.some.injEq] at hc'
  subst hc'
  refine ⟨?_, hok.handles, fun h' hh' => ?_⟩
  · have hshared := shared_modify hok.shared hc (f c.cache)
    rw [hdev, hid] at hshared
    dsimp only
    rw [← hcache]
    exact hshared
  · obtain ⟨c', hc', hdev'⟩ := hok.asked h' hh'
    obtain ⟨c'', hc'', hsame⟩ := modify_device (p := h.arc) (v := f c.cache) hc'
    exact ⟨c'', hc'', hsame.trans hdev'⟩

theorem Ok.release (hok : s.Ok) (hs : s.step (.release h) = some s') : s'.Ok := by
  rw [step] at hs
  split_ifs at hs with hh
  cases hs
  refine ⟨hok.shared.release (hok.mem hh), ?_, fun h' hh' => ?_⟩
  · rw [release_eq hok.shared (hok.mem hh)]
    have hperm := (List.perm_cons_erase hh).map fun h : Handle => (h.blockId, h.arc)
    have herase := (hok.handles.trans hperm).erase (h.blockId, h.arc)
    rwa [List.map_cons, List.erase_cons_head] at herase
  · rw [release_eq hok.shared (hok.mem hh)]
    exact hok.asked h' (List.mem_of_mem_erase hh')

theorem Ok.syncAll (hok : s.Ok) (hs : s.step .syncAll = some s') : s'.Ok := by
  cases hs
  obtain ⟨hshared, hhandles, -, harcs⟩ := hok.shared.syncAll
  refine ⟨hshared, hhandles.symm ▸ hok.handles, fun h hh => ?_⟩
  obtain ⟨c, hc, hdev⟩ := hok.asked h hh
  exact ⟨{ c with modified := false }, by rw [harcs, hc]; rfl, hdev⟩

end DeviceState

open DeviceState

variable {s : DeviceState}

theorem DeviceRun.ok (h : DeviceRun s) : s.Ok := by
  induction h with
  | init devices => exact ok_new devices
  | get h hserves hs ih => exact ih.get hserves hs
  | modify h hs ih => exact ih.modify hs
  | release h hs ih => exact ih.release hs
  | syncAll h hs ih => exact ih.syncAll hs

theorem complement_ne (b : Block) : ~~~b ≠ b := by
  intro heq
  have hbit := congrArg (fun b : Block => b.getLsbD 0) heq
  simp at hbit

/-- The devices are apart in every state reached, as long as no block is asked for while a block of
the same number of another device is cached; and the handle that is returned for such a block does
not read what it should, or what is modified through it goes to the other device. -/
theorem devices_apart_iff (h : DeviceRun s) : s.Apart ∧
    ∀ id dev s₁, s.step (.get id dev) = some s₁ →
      ((s₁.Apart ∧ ∀ handle f s₂, s₁.handles.head? = some handle → s₁.step (.modify handle f) = some s₂ → s₂.Apart) ↔
        s.Serves id dev) := by
  have hok := h.ok
  refine ⟨hok.apart, fun id dev s₁ hs => ⟨?_, fun hserves => ?_⟩⟩
  · rintro ⟨⟨hreads, -⟩, hmodify⟩ e he rfl
    obtain ⟨c, hc, hid⟩ := hok.shared.queued e he
    refine ⟨c, hc, ?_⟩
    obtain ⟨p, cache, hg, rfl⟩ := step_get hs
    obtain ⟨hshared, -, -, -, ⟨hin, harcs⟩ | ⟨hnot, -⟩⟩ := hok.shared.getBlockCache hg
    · obtain rfl : p = e.2 := congrArg Prod.snd (hok.shared.eq_of_fst hin he rfl)
      have hc₁ : cache.arcs e.2 = some c := (congrFun harcs e.2).trans hc
      -- the complement of a block is another block
      have hstep : step { s with cache, handles := ⟨dev, e.1, e.2⟩ :: s.handles }
          (.modify ⟨dev, e.1, e.2⟩ fun b => ~~~b) = some { s with
            cache := (cache.getMut e.2).store e.2 (~~~c.cache)
            handles := ⟨dev, e.1, e.2⟩ :: s.handles
            blocks := Function.update s.blocks dev (Function.update (s.blocks dev) e.1 (~~~s.blocks dev e.1)) } := by
        rw [step, if_pos List.mem_cons_self]
        dsimp only
        rw [hc₁]
        rfl
      have hdevices := (hmodify _ _ _ rfl hstep).2
      rw [(shared_modify hshared hc₁ (~~~c.cache)).syncAll_devices] at hdevices
      by_contra hdev
      have hblock := congrFun (congrFun hdevices c.blockDevice) c.blockId
      rw [Function.update_self, Function.update_self] at hblock
      dsimp only at hblock
      rw [Function.update_of_ne hdev, ← (hok.shared.live e.2 c hc).2.1] at hblock
      exact complement_ne _ hblock
    · exact absurd rfl (hnot e he)
  · have hok₁ := hok.get hserves hs
    exact ⟨hok₁.apart, fun handle f s₂ _ hs₂ => (hok₁.modify hs₂).apart⟩

/-- The first block that is asked for. -/
theorem devices_apart_iff_first : ∃ s₁, (DeviceState.new fun _ _ => 0).step (.get 5 1) = some s₁ ∧ s₁.Apart := by
  obtain ⟨s₁, hs⟩ : ∃ s₁, (DeviceState.new fun _ _ => 0).step (.get 5 1) = some s₁ := ⟨_, rfl⟩
  have hserves : (DeviceState.new fun _ _ => 0).Serves 5 1 := fun e he => absurd he List.not_mem_nil
  exact ⟨s₁, hs, (((devices_apart_iff (.init _)).2 5 1 s₁ hs).mpr hserves).1⟩

/-- Device 0 has zeros, and the others have not. -/
def zeroFirst : Devices := fun dev _ => if dev = 0 then 0 else 1

/-- Block 5 of device 0 is cached when block 5 of device 1 is asked for: the handle reads 0, where
the block of device 1 is 1, and what is written through it gets to device 0 and not to device 1. -/
theorem devices_mixed_up :
    (∃ s c, [.get 5 0, .get 5 1].foldlM DeviceState.step (.new zeroFirst) = some s ∧
      s.handles.head? = some ⟨1, 5, 0⟩ ∧ s.cache.arcs 0 = some c ∧ c.cache = 0 ∧ s.blocks 1 5 = 1) ∧
    ∃ s, [.get 5 0, .get 5 1, .modify ⟨1, 5, 0⟩ fun _ => 7, .syncAll].foldlM DeviceState.step (.new zeroFirst) = some s ∧
      s.cache.devices 0 5 = 7 ∧ s.blocks 0 5 = 0 ∧ s.cache.devices 1 5 = 1 ∧ s.blocks 1 5 = 7 :=
  ⟨⟨_, _, rfl, rfl, rfl, rfl, rfl⟩, _, rfl, rfl, rfl, rfl, rfl⟩

end RCore.EasyFs
