import Mathlib.Data.Finset.Basic
import RCore.Spec.EasyFs.Block

/-! `bitmap.rs`, and the set of numbers that a bitmap on disk stands for. -/

namespace RCore.EasyFs

open RCore.Lib

/-- Number of bits in a block. -/
abbrev BLOCK_BITS : ℕ := BLOCK_SZ * 8

structure Bitmap where
  startBlockId : ℕ
  blocks : ℕ
deriving DecidableEq

/-- Decompose bits into (block_pos, bits64_pos, inner_pos). -/
def decomposition (bit : ℕ) : ℕ × ℕ × ℕ :=
  (bit / BLOCK_BITS, bit % BLOCK_BITS / 64, bit % BLOCK_BITS % 64)

/-- `u64::trailing_ones` -/
def trailingOnes (x : BitVec 64) : ℕ :=
  ((List.range 64).find? fun i => !x.getLsbD i).getD 64

namespace Bitmap

/-- The closure of `alloc`: the first word that is not `u64::MAX`, and in it the
lowest clear bit, which is set. -/
def allocInBlock (b : Block) : Option (ℕ × Block) :=
  ((List.range 64).find? fun i => u64At b i != BitVec.allOnes 64).map fun bits64Pos =>
    let innerPos := trailingOnes (u64At b bits64Pos)
    (bits64Pos * 64 + innerPos,
      setU64 b bits64Pos (u64At b bits64Pos ||| (1#64 <<< innerPos)))

/-- The loop of `alloc`, with `n` blocks to go from block `blockId` on. -/
def allocFrom (start : ℕ) : ℕ → ℕ → Fs (Option ℕ)
  | 0, _ => pure none
  | n + 1, blockId => do
    let pos ← modifyAt (blockId + start) 0 4096 fun b =>
      match allocInBlock b with
      | some (p, b') => pure (b', some (blockId * BLOCK_BITS + p))
      | none => pure (b, none)
    if pos.isSome then pure pos else allocFrom start n (blockId + 1)

/-- Allocate a new block from a block device. -/
def alloc (m : Bitmap) : Fs (Option ℕ) := allocFrom m.startBlockId m.blocks 0

/-- Deallocate a block. -/
def dealloc (m : Bitmap) (bit : ℕ) : Fs Unit :=
  let (blockPos, bits64Pos, innerPos) := decomposition bit
  modifyAt (blockPos + m.startBlockId) 0 4096 fun b => do
    Prog.assert (u64At b bits64Pos &&& (1#64 <<< innerPos) ≠ 0)
    pure (setU64 b bits64Pos (u64At b bits64Pos - (1#64 <<< innerPos)), ())

/-- Get the max number of allocatable blocks. -/
def maximum (m : Bitmap) : ℕ := m.blocks * BLOCK_BITS

/-- Number `k` is in the set. -/
def isSet (m : Bitmap) (d : Disk) (k : ℕ) : Bool :=
  (d (m.startBlockId + k / BLOCK_BITS)).getLsbD (k % BLOCK_BITS)

/-- How many numbers are in the set. -/
def used (m : Bitmap) (d : Disk) : ℕ := (List.range m.maximum).countP (m.isSet d)

/-- The set that the bitmap stands for. -/
def members (m : Bitmap) (d : Disk) : Finset ℕ :=
  (Finset.range m.maximum).filter fun k => m.isSet d k = true

end Bitmap

/-- Calls of `alloc` and `dealloc` from disk `d₁` on, with the set that they amount to. -/
inductive BitmapRun (m : Bitmap) (d₁ : Disk) : Disk → Finset ℕ → Prop
  | init : BitmapRun m d₁ d₁ (m.members d₁)
  | alloc {d d' : Disk} {S : Finset ℕ} {r : Option ℕ} (h : BitmapRun m d₁ d S)
      (hr : m.alloc.run [] d = some (r, d')) :
      BitmapRun m d₁ d' (r.elim S fun p => insert p S)
  | dealloc {d d' : Disk} {S : Finset ℕ} {bit : ℕ} (h : BitmapRun m d₁ d S)
      (hbit : bit < m.maximum) (hr : (m.dealloc bit).run [] d = some ((), d')) :
      BitmapRun m d₁ d' (S.erase bit)

end RCore.EasyFs
