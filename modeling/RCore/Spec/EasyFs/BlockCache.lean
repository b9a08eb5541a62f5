import RCore.Spec.EasyFs.Vfs

/-! `block_cache.rs`: the blocks that are kept in memory between the file system and
its devices, and the file system run through them. -/

namespace RCore.EasyFs

open RCore.Lib

/-- Devices are known by a number. Every block that is asked for is there. -/
abbrev Devices := ℕ → Disk

/-- Cached block inside memory. -/
structure BlockCache where
  cache : Block
  blockId : ℕ
  blockDevice : ℕ
  modified : Bool

namespace BlockCache

/-- Load a new BlockCache from disk. -/
def new (blockId blockDevice : ℕ) (devices : Devices) : BlockCache :=
  ⟨devices blockDevice blockId, blockId, blockDevice, false⟩

/-- What `sync` makes of the block, and of the devices. -/
def sync (c : BlockCache) (devices : Devices) : BlockCache × Devices :=
  if c.modified then
    ({ c with modified := false }, Function.update devices c.blockDevice
      (Function.update (devices c.blockDevice) c.blockId c.cache))
  else (c, devices)

end BlockCache

/-- Use a block cache of 16 blocks. -/
abbrev BLOCK_CACHE_SIZE : ℕ := 16

/-- The block cache manager, and what it works on. An `Arc` is the address of a block
in memory. -/
structure CacheState where
  devices : Devices
  /-- The blocks in memory that have not been dropped. -/
  arcs : ℕ → Option BlockCache
  /-- The next address to be given out. -/
  next : ℕ
  queue : List (ℕ × ℕ)
  /-- The handles outside of the queue: the block that was asked for, and the `Arc`
  that was returned. -/
  handles : List (ℕ × ℕ)

namespace CacheState

/-- Nothing is cached. -/
def new (devices : Devices) : CacheState := ⟨devices, fun _ => none, 0, [], []⟩

/-- `Arc::strong_count` -/
def strongCount (s : CacheState) (p : ℕ) : ℕ :=
  s.queue.countP (fun e => e.2 == p) + s.handles.countP (fun h => h.2 == p)

/-- The end of a reference that has just been taken out: with the last one the block
is dropped, and synced. -/
def dropArc (s : CacheState) (p : ℕ) : CacheState :=
  if s.strongCount p = 0 then
    match s.arcs p with
    | some c => { s with devices := (c.sync s.devices).2, arcs := Function.update s.arcs p none }
    | none => s
  else s

/-- `substitute`: the first entry that only the queue refers to leaves it. Without one
the manager panics: Run out of BlockCache! -/
def substitute (s : CacheState) : Option CacheState :=
  (s.queue.find? fun e => s.strongCount e.2 == 1).map fun e =>
    { s with queue := s.queue.eraseP fun e => s.strongCount e.2 == 1 }.dropArc e.2

/-- Load block into mem and push back. -/
def load (s : CacheState) (blockId blockDevice : ℕ) : CacheState :=
  { s with
    arcs := Function.update s.arcs s.next (some (BlockCache.new blockId blockDevice s.devices))
    next := s.next + 1
    queue := s.queue ++ [(blockId, s.next)]
    handles := (blockId, s.next) :: s.handles }

/-- Get the block cache corresponding to the given block id and block device. -/
def getBlockCache (s : CacheState) (blockId blockDevice : ℕ) : Option (ℕ × CacheState) :=
  match s.queue.find? fun e => e.1 == blockId with
  | some e => some (e.2, { s with handles := (blockId, e.2) :: s.handles })
  | none =>
    (if s.queue.length = BLOCK_CACHE_SIZE then s.substitute else some s).map fun s =>
      (s.next, s.load blockId blockDevice)

/-- A handle goes out of scope. -/
def release (s : CacheState) (h : ℕ × ℕ) : CacheState :=
  { s with handles := s.handles.erase h }.dropArc h.2

/-- A change to a block in memory. -/
def adjust (s : CacheState) (p : ℕ) (f : BlockCache → BlockCache) : CacheState :=
  { s with arcs := Function.update s.arcs p ((s.arcs p).map f) }

/-- `get_mut` marks the block as modified before it is written to. -/
def getMut (s : CacheState) (p : ℕ) : CacheState :=
  s.adjust p fun c => { c with modified := true }

/-- What a closure leaves behind in the block it has opened. -/
def store (s : CacheState) (p : ℕ) (v : Block) : CacheState :=
  s.adjust p fun c => { c with cache := v }

/-- `cache.lock().sync()` -/
def syncOne (s : CacheState) (p : ℕ) : CacheState :=
  match s.arcs p with
  | some c =>
    { s with devices := (c.sync s.devices).2, arcs := Function.update s.arcs p (c.sync s.devices).1 }
  | none => s

/-- Sync all block cache to block device. -/
def syncAll (s : CacheState) : CacheState := s.queue.foldl (fun s e => s.syncOne e.2) s

end CacheState

/-- Calls of the manager for device `dev`, with the plain array of blocks that the
device and the modifications made through the handles amount to. No more than 15
handles are outstanding when a block is asked for that is not cached. -/
inductive CacheRun (dev : ℕ) : CacheState → Disk → Prop
  | init (devices : Devices) : CacheRun dev (.new devices) (devices dev)
  | get {s s' : CacheState} {a : Disk} {id p : ℕ} (h : CacheRun dev s a)
      (hroom : (∀ e ∈ s.queue, e.1 ≠ id) → s.handles.length ≤ 15)
      (hg : s.getBlockCache id dev = some (p, s')) : CacheRun dev s' a
  | modify {s : CacheState} {a : Disk} {id p : ℕ} {c : BlockCache} (h : CacheRun dev s a)
      (hp : (id, p) ∈ s.handles) (hc : s.arcs p = some c) (f : Block → Block) :
      CacheRun dev ((s.getMut p).store p (f c.cache)) (Function.update a id (f (a id)))
  | release {s : CacheState} {a : Disk} {id p : ℕ} (h : CacheRun dev s a)
      (hp : (id, p) ∈ s.handles) : CacheRun dev (s.release (id, p)) a
  | syncAll {s : CacheState} {a : Disk} (h : CacheRun dev s a) : CacheRun dev s.syncAll a

/-- Run over the cached blocks of device `dev`. Each block that is opened is asked for,
locked, and released at the end; `locked` are those whose lock is held. A lock that
is held already is waited for in vain. -/
def runCached (dev : ℕ) : {α : Type} → Fs α → List ℕ → CacheState → Option (α × CacheState)
  | _, .ret a, _, s => some (a, s)
  | _, .fail, _, _ => none
  | _, .read key body k, locked, s =>
    match s.getBlockCache key dev with
    | none => none
    | some (p, s) =>
      if p ∈ locked then none
      else match s.arcs p with
        | none => none
        | some c => match runCached dev (body c.cache) (p :: locked) s with
          | none => none
          | some (b, s) => runCached dev (k b) locked (s.release (key, p))
  | _, .modify key body k, locked, s =>
    match s.getBlockCache key dev with
    | none => none
    | some (p, s) =>
      if p ∈ locked then none
      else match s.arcs p with
        | none => none
        | some c => match runCached dev (body c.cache) (p :: locked) (s.getMut p) with
          | none => none
          | some ((v, b), s) => runCached dev (k b) locked ((s.store p v).release (key, p))
  | _, .sync k, locked, s =>
    if ∃ e ∈ s.queue, e.2 ∈ locked then none else runCached dev k locked s.syncAll

/-- A request to the manager, or a `block_cache_sync_all`, as the manager meets it: with
the locks that the caller holds. -/
inductive CacheEvent where
  | request (blockId : ℕ) (locked : List ℕ) (s : CacheState)
  | sync (locked : List ℕ) (s : CacheState)

/-- The manager does not run out of blocks, and no lock is waited for that the caller
holds. -/
def CacheEvent.Served (dev : ℕ) : CacheEvent → Prop
  | .request blockId locked s => ∃ p s', s.getBlockCache blockId dev = some (p, s') ∧ p ∉ locked
  | .sync locked s => ∀ e ∈ s.queue, e.2 ∉ locked

/-- What the manager meets during `runCached`, up to where it ends. -/
def traceCached (dev : ℕ) : {α : Type} → Fs α → List ℕ → CacheState → List CacheEvent
  | _, .ret _, _, _ => []
  | _, .fail, _, _ => []
  | _, .read key body k, locked, s =>
    .request key locked s :: match s.getBlockCache key dev with
    | none => []
    | some (p, s) =>
      if p ∈ locked then []
      else match s.arcs p with
        | none => []
        | some c => traceCached dev (body c.cache) (p :: locked) s ++
          match runCached dev (body c.cache) (p :: locked) s with
          | none => []
          | some (b, s) => traceCached dev (k b) locked (s.release (key, p))
  | _, .modify key body k, locked, s =>
    .request key locked s :: match s.getBlockCache key dev with
    | none => []
    | some (p, s) =>
      if p ∈ locked then []
      else match s.arcs p with
        | none => []
        | some c => traceCached dev (body c.cache) (p :: locked) (s.getMut p) ++
          match runCached dev (body c.cache) (p :: locked) (s.getMut p) with
          | none => []
          | some ((v, b), s) => traceCached dev (k b) locked ((s.store p v).release (key, p))
  | _, .sync k, locked, s =>
    .sync locked s :: if ∃ e ∈ s.queue, e.2 ∈ locked then [] else traceCached dev k locked s.syncAll

/-- The calls of the file system. -/
inductive FsCall where
  | format (totalBlocks inodeBitmapBlocks : ℕ)
  | open_
  | find (fs : EasyFileSystem) (file : Inode) (name : String)
  | create (fs : EasyFileSystem) (file : Inode) (name : String)
  | ls (file : Inode)
  | readAt (file : Inode) (offset len : ℕ)
  | writeAt (fs : EasyFileSystem) (file : Inode) (offset : ℕ) (buf : List UInt8)
  | clear (fs : EasyFileSystem) (file : Inode)

namespace FsCall

/-- What a call returns. -/
def Result : FsCall → Type
  | .format _ _ => EasyFileSystem
  | .open_ => EasyFileSystem
  | .find _ _ _ => Option Inode
  | .create _ _ _ => Option Inode
  | .ls _ => List String
  | .readAt _ _ _ => List UInt8
  | .writeAt _ _ _ _ => ℕ
  | .clear _ _ => Unit

def prog : (c : FsCall) → Fs c.Result
  | .format totalBlocks inodeBitmapBlocks => EasyFileSystem.create totalBlocks inodeBitmapBlocks
  | .open_ => EasyFileSystem.open_
  | .find fs file name => file.find fs name
  | .create fs file name => file.create fs name
  | .ls file => file.ls
  | .readAt file offset len => file.readAt offset len
  | .writeAt fs file offset buf => file.writeAt fs offset buf
  | .clear fs file => file.clear fs

end FsCall

/-- Calls of the file system that return, through the cache of device `dev`, next to
the same calls on a plain array. -/
inductive FsRun (dev : ℕ) : CacheState → Disk → Prop
  | init (devices : Devices) : FsRun dev (.new devices) (devices dev)
  | call {s s' : CacheState} {a a' : Disk} {c : FsCall} {r r' : c.Result} (h : FsRun dev s a)
      (hc : runCached dev c.prog [] s = some (r, s')) (hp : c.prog.run [] a = some (r', a')) :
      FsRun dev s' a'

end RCore.EasyFs
