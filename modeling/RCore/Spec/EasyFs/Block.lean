import RCore.Lib.Bits
import RCore.Lib.Prog

/-! Blocks, and the typed views through which the file system opens them. A
block is its bytes read as one little-endian number, so that casting a cached
block to `&DiskInode` or `&[u32; 128]` at a byte offset is taking a run of its
bits. -/

namespace RCore.EasyFs

open RCore.Lib

/-- Use a block size of 512 bytes. -/
abbrev BLOCK_SZ : ℕ := 512

abbrev Block := BitVec 4096

/-- A plain array of blocks. -/
abbrev Disk := ℕ → Block

abbrev U32 := BitVec 32

/-- What the file system does to blocks: one node of the tree for each
`get_block_cache(id, device).lock()` with the closure that runs under the lock. -/
abbrev Fs := Prog ℕ Block

/-- Byte `i` of a value in memory. A `DataBlock` is `[u8; BLOCK_SZ]`. -/
def byteAt {n : ℕ} (b : BitVec n) (i : ℕ) : UInt8 := UInt8.ofBitVec (field b (8 * i) 8)

def setByte {n : ℕ} (b : BitVec n) (i : ℕ) (v : UInt8) : BitVec n := splice b (8 * i) v.toBitVec

/-- `b[off..off + src.len()].copy_from_slice(src)` -/
def copyFromSlice {n : ℕ} (b : BitVec n) (off : ℕ) : List UInt8 → BitVec n
  | [] => b
  | v :: src => copyFromSlice (setByte b off v) (off + 1) src

/-- The bytes `b[off..off + len]`. -/
def slice (b : Block) (off len : ℕ) : List UInt8 :=
  (List.range len).map fun i => byteAt b (off + i)

/-- An `IndirectBlock` is `[u32; BLOCK_SZ / 4]`. -/
def u32At (b : Block) (i : ℕ) : U32 := field b (32 * i) 32

def setU32 (b : Block) (i : ℕ) (v : U32) : Block := splice b (32 * i) v

/-- A `BitmapBlock` is `[u64; 64]`. -/
def u64At (b : Block) (i : ℕ) : BitVec 64 := field b (64 * i) 64

def setU64 (b : Block) (i : ℕ) (v : BitVec 64) : Block := splice b (64 * i) v

/-- `get_block_cache(id, device).lock().read(offset, f)` for an `f` that takes a
value of `w` bits. `get_ref` asserts that the value lies inside the block. -/
def readAt {α : Type} (id offset w : ℕ) (f : BitVec w → Fs α) : Fs α :=
  .read id (fun b => if 8 * offset + w ≤ 4096 then f (field b (8 * offset) w) else .fail) .ret

/-- `get_block_cache(id, device).lock().modify(offset, f)`: `f` gives the value
it leaves behind, and its result. -/
def modifyAt {α : Type} (id offset w : ℕ) (f : BitVec w → Fs (BitVec w × α)) : Fs α :=
  .modify id (fun b =>
    if 8 * offset + w ≤ 4096 then do
      let r ← f (field b (8 * offset) w)
      pure (splice b (8 * offset) r.1, r.2)
    else .fail) .ret

/-- `block_cache_sync_all()` -/
def blockCacheSyncAll : Fs Unit := .sync (.ret ())

end RCore.EasyFs
