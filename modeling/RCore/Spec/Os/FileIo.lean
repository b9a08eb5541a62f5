import RCore.Spec.EasyFs.System
import RCore.Spec.Mm.Uaccess
import RCore.Spec.Os.Syscall

/-! `sys_write` and `sys_read` with the bytes that they move between user memory and a file,
and the files: `OSInode` (`fs/inode.rs`), the console (`fs/stdio.rs`) and pipes. -/

namespace RCore.Os

open RCore.Mm

/-- A file that has been opened. -/
structure OSInode where
  readable : Bool
  writable : Bool
  offset : ℕ
  inode : EasyFs.Inode
deriving DecidableEq

namespace OSInode

/-- `File::write`. There is no result if the call of `write_at` panics. -/
def write (fs : EasyFs.EasyFileSystem) (buf : List UInt8) (s : OSInode × EasyFs.Disk) :
    Option (ℕ × OSInode × EasyFs.Disk) := do
  let (size, disk) ← (EasyFs.Inode.writeAt fs s.1.inode s.1.offset buf).run [] s.2
  some (size, { s.1 with offset := s.1.offset + size }, disk)

/-- `File::read`: the bytes that are read into a buffer of `len` bytes. -/
def read (len : ℕ) (s : OSInode × EasyFs.Disk) : Option (List UInt8 × OSInode × EasyFs.Disk) := do
  let (bytes, disk) ← (s.1.inode.readAt s.1.offset len).run [] s.2
  some (bytes, { s.1 with offset := s.1.offset + bytes.length }, disk)

/-- `read_all`, with the bytes that have been read. The first argument bounds the rounds of the
loop. -/
def readAll : ℕ → List UInt8 → OSInode × EasyFs.Disk → Option (List UInt8 × OSInode × EasyFs.Disk)
  | 0, _, _ => none
  | n + 1, v, s => do
    let (bytes, s) ← read 512 s
    if bytes.length = 0 then some (v, s) else readAll n (v ++ bytes) s

end OSInode

/-- `File::write` of `Stdout`, with what has been printed. -/
def Stdout.write (buf : List UInt8) (printed : List (List UInt8)) : Option (ℕ × List (List UInt8)) :=
  if (ByteArray.mk buf.toArray).validateUTF8 then some (buf.length, printed ++ [buf]) else none

/-- The loop of `sys_write` on a file, `count` bytes of which have been written. There is no
result if it panics, or a byte of the buffer is not mapped. -/
def sysWriteLoop {σ : Type} (write : List UInt8 → σ → Option (ℕ × σ)) (mem : Memory) (buf : UserPtr .u8)
    (len count : ℕ) (s : σ) : Option (ℕ × σ) :=
  if count < len then
    let chunkLen := min CHUNK_SIZE (len - count)
    let ptr := buf.add (BitVec.ofNat 64 count)
    match (ptr.readArray (BitVec.ofNat 64 CHUNK_SIZE) (BitVec.ofNat 64 chunkLen) mem).2 with
    | .ok (chunk, _) =>
      match write chunk s with
      | some (n, s) => if n = chunkLen then sysWriteLoop write mem buf len (count + chunkLen) s else none
      | none => none
    | .error _ => none
  else some (count, s)
termination_by len - count
decreasing_by
  unfold CHUNK_SIZE
  omega

/-- `sys_write`, from where the file has been found. -/
def sysWriteFile {σ : Type} (writable : Bool) (write : List UInt8 → σ → Option (ℕ × σ)) (mem : Memory)
    (buf : UserPtr .u8) (len : ℕ) (s : σ) : Option (ℤ × σ) :=
  if writable then (sysWriteLoop write mem buf len 0 s).map fun r => (r.1, r.2) else some (-1, s)

theorem length_readBuffer (len : ℕ) (bytes : List UInt8) :
    ((bytes ++ List.replicate len 0).take len).length = len * Layout.u8.size := by
  have hsize : Layout.u8.size = 1 := rfl
  rw [List.length_take, List.length_append, List.length_replicate, hsize]
  omega

theorem fits_readBuffer {len : ℕ} (h : len < 2 ^ 63) : len * Layout.u8.size < 2 ^ 63 := by
  rwa [show Layout.u8.size = 1 from rfl, Nat.mul_one]

/-- The kernel's buffer of `sys_read`: `vec![0u8; len]`, the beginning of which has been filled. -/
def readBuffer (len : Usize) (h : len.toNat < 2 ^ 63) (bytes : List UInt8) : Values Layout.u8 where
  len := len
  bytes := (bytes ++ List.replicate len.toNat 0).take len.toNat
  length_eq := length_readBuffer len.toNat bytes
  fits := fits_readBuffer h

/-- `sys_read`, from where the file has returned the bytes on. A vector is not larger than
`isize::MAX`. -/
def sysReadFile (buf : UserPtr .u8) (len : Usize) (bytes : List UInt8) : Uaccess ℕ :=
  if h : len.toNat < 2 ^ 63 then do
    buf.writeBuf (readBuffer len h bytes)
    pure bytes.length
  else .stop .assertion

end RCore.Os
