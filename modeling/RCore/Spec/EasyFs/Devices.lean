import RCore.Spec.EasyFs.BlockCache

/-! Several devices behind the one block cache manager. Beside the manager stand the handles, with
the device that each was asked for, and the blocks that each device should have. -/

namespace RCore.EasyFs

open RCore.Lib

/-- What `get_block_cache` was asked for, and the `Arc` that it returned. -/
structure Handle where
  blockDevice : ℕ
  blockId : ℕ
  arc : ℕ
deriving DecidableEq

structure DeviceState where
  cache : CacheState
  /-- The handles that have not gone out of scope. -/
  handles : List Handle
  /-- The blocks of the devices, with the modifications made through the handles for them. -/
  blocks : Devices

inductive DeviceEvent where
  | get (blockId blockDevice : ℕ)
  | modify (h : Handle) (f : Block → Block)
  | release (h : Handle)
  | syncAll

namespace DeviceState

/-- Nothing is cached. -/
def new (devices : Devices) : DeviceState := ⟨.new devices, [], devices⟩

/-- What an event does, if it can happen. -/
def step (s : DeviceState) : DeviceEvent → Option DeviceState
  | .get blockId blockDevice => do
    let (p, cache) ← s.cache.getBlockCache blockId blockDevice
    pure { s with cache, handles := ⟨blockDevice, blockId, p⟩ :: s.handles }
  | .modify h f =>
    if h ∈ s.handles then do
      let c ← s.cache.arcs h.arc
      pure { s with
        cache := (s.cache.getMut h.arc).store h.arc (f c.cache)
        blocks := Function.update s.blocks h.blockDevice
          (Function.update (s.blocks h.blockDevice) h.blockId (f (s.blocks h.blockDevice h.blockId))) }
    else none
  | .release h =>
    if h ∈ s.handles then
      some { s with cache := s.cache.release (h.blockId, h.arc), handles := s.handles.erase h }
    else none
  | .syncAll => some { s with cache := s.cache.syncAll }

/-- Every handle reads the block of the device that it was asked for, and what the devices hold
after `block_cache_sync_all` is their blocks. -/
def Apart (s : DeviceState) : Prop :=
  (∀ h ∈ s.handles, ∃ c, s.cache.arcs h.arc = some c ∧ c.cache = s.blocks h.blockDevice h.blockId) ∧
    s.cache.syncAll.devices = s.blocks

/-- If a block of that number is cached, it is of that device. -/
def Serves (s : DeviceState) (blockId blockDevice : ℕ) : Prop :=
  ∀ e ∈ s.cache.queue, e.1 = blockId → ∃ c, s.cache.arcs e.2 = some c ∧ c.blockDevice = blockDevice

end DeviceState

/-- The states that events lead to, if no block is asked for while a block of the same number of
another device is cached. -/
inductive DeviceRun : DeviceState → Prop
  | init (devices : Devices) : DeviceRun (.new devices)
  | get {s s' : DeviceState} {id dev : ℕ} (h : DeviceRun s) (hserves : s.Serves id dev)
      (hs : s.step (.get id dev) = some s') : DeviceRun s'
  | modify {s s' : DeviceState} {handle : Handle} {f : Block → Block} (h : DeviceRun s)
      (hs : s.step (.modify handle f) = some s') : DeviceRun s'
  | release {s s' : DeviceState} {handle : Handle} (h : DeviceRun s)
      (hs : s.step (.release handle) = some s') : DeviceRun s'
  | syncAll {s s' : DeviceState} (h : DeviceRun s) (hs : s.step .syncAll = some s') : DeviceRun s'

end RCore.EasyFs
