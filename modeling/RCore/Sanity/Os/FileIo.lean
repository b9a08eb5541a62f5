import RCore.Lib.Chunks
import RCore.Proofs.Mm.Uaccess
import RCore.Spec.Os.FileIo

/-! The loop of `sys_write` hands the bytes of the buffer to the file in chunks. -/

namespace RCore.Os

open RCore.Lib RCore.Mm Logged Memory

variable {σ : Type} {mem : Memory} {buf : UserPtr .u8} {bytes : List UInt8} {len : ℕ} {s s' : σ}
  {write : List UInt8 → σ → Option (ℕ × σ)}

/-- A buffer in user space with these bytes. -/
structure Buffer (mem : Memory) (buf : UserPtr .u8) (bytes : List UInt8) : Prop where
  pos : 0 < buf.ptr.toNat
  le : buf.ptr.toNat + bytes.length ≤ 2 ^ 48
  has : Has mem buf.ptr bytes

theorem add_u8 (buf : UserPtr .u8) (count : ℕ) :
    (buf.add (BitVec.ofNat 64 count)).ptr = buf.ptr + BitVec.ofNat 64 count := by
  have hone : BitVec.ofNat 64 Layout.u8.size = 1#64 := rfl
  unfold UserPtr.add
  rw [hone, BitVec.mul_one]

/-- What `read_array` copies of a buffer. -/
theorem Buffer.readArray (h : Buffer mem buf bytes) {n max : Usize} (hpos : 0 < bytes.length)
    (hlen : (if max ≤ n then max else n).toNat = bytes.length) :
    (buf.readArray n max mem).2 = .ok (bytes, mem) := by
  have hle := h.le
  have hload := load_spec h.has
  have hone : BitVec.ofNat 64 Layout.u8.size = 1#64 := rfl
  have hcheck : buf.check = true := by
    have hok : uaccessOk buf.ptr 1 = true :=
      uaccessOk_of_le h.pos (show buf.ptr.toNat + 1 ≤ 2 ^ 48 by omega)
    unfold UserPtr.check
    rw [hok, show Layout.u8.align = 1 from rfl, Nat.mod_one]
    rfl
  unfold UserPtr.readArray
  rw [uassert_bind, if_pos hcheck]
  generalize (if max ≤ n then max else n) = m at hlen ⊢
  have hspan : uaccessOk buf.ptr (m * BitVec.ofNat 64 Layout.u8.size) = true := by
    refine uaccessOk_of_le h.pos ?_
    rw [hone, BitVec.mul_one, hlen]
    exact hle
  unfold copyFromUser
  rw [uassert_bind, if_pos hspan, show Layout.u8.size = 1 from rfl, Nat.mul_one, hlen]
  exact hload

/-- The part of a buffer from `count` on. -/
theorem Buffer.drop (h : Buffer mem buf bytes) {count : ℕ} (hcount : count ≤ bytes.length) (n : ℕ) :
    Buffer mem (buf.add (BitVec.ofNat 64 count)) ((bytes.drop count).take n) := by
  have hle := h.le
  have hlt := buf.ptr.isLt
  have hptr : (buf.add (BitVec.ofNat 64 count)).ptr.toNat = buf.ptr.toNat + count := by
    rw [add_u8, BitVec.toNat_add, BitVec.toNat_ofNat]
    omega
  have hhas := h.has
  rw [← List.take_append_drop count bytes] at hhas
  have hright := hhas.right
  rw [List.length_take, Nat.min_eq_left hcount] at hright
  rw [← List.take_append_drop n (bytes.drop count)] at hright
  refine ⟨?_, ?_, ?_⟩
  · rw [hptr]
    exact Nat.add_pos_left h.pos count
  · rw [hptr, List.length_take, List.length_drop]
    omega
  · rw [add_u8]
    exact hright.left

/-- A chunk goes to the file, which has to take all of it. -/
def writeChunk (write : List UInt8 → σ → Option (ℕ × σ)) (s : σ) (chunk : List UInt8) : Option σ := do
  let (n, s) ← write chunk s
  if n = chunk.length then some s else none

/-- The loop writes the chunks one after the other. -/
theorem sysWriteLoop_eq (h : Buffer mem buf bytes) {count : ℕ} (hcount : count ≤ bytes.length) (s : σ) :
    sysWriteLoop write mem buf bytes.length count s =
      ((chunks CHUNK_SIZE (bytes.drop count)).foldlM (writeChunk write) s).map (bytes.length, ·) := by
  have hsize : 0 < CHUNK_SIZE := by decide
  induction hrest : bytes.length - count using Nat.strong_induction_on generalizing count s with
  | _ rest ih =>
    rw [sysWriteLoop]
    rcases Nat.eq_or_lt_of_le hcount with heq | hlt
    · rw [if_neg (by omega), List.drop_of_length_le heq.ge, chunks_nil hsize, heq]
      rfl
    · rw [if_pos hlt]
      have hne : bytes.drop count ≠ [] := by
        rw [ne_eq, List.drop_eq_nil_iff]
        omega
      have hlen : ((bytes.drop count).take CHUNK_SIZE).length = min CHUNK_SIZE (bytes.length - count) := by
        rw [List.length_take, List.length_drop]
      obtain ⟨chunkLen, hchunk⟩ : ∃ m, m = min CHUNK_SIZE (bytes.length - count) := ⟨_, rfl⟩
      rw [← hchunk] at hlen ⊢
      have hle : chunkLen ≤ 256 := hchunk ▸ Nat.min_le_left ..
      have hmin : ((if BitVec.ofNat 64 chunkLen ≤ BitVec.ofNat 64 CHUNK_SIZE then BitVec.ofNat 64 chunkLen
          else BitVec.ofNat 64 CHUNK_SIZE : Usize)).toNat = chunkLen := by
        have hto : (BitVec.ofNat 64 chunkLen).toNat = chunkLen := by
          rw [BitVec.toNat_ofNat]
          omega
        rw [if_pos, hto]
        rw [BitVec.le_def, hto]
        exact hle
      have hread := (h.drop hcount CHUNK_SIZE).readArray (by omega) (hmin.trans hlen.symm)
      have hnext : bytes.drop (count + CHUNK_SIZE) = bytes.drop (count + chunkLen) := by
        rcases Nat.lt_or_ge (bytes.length - count) CHUNK_SIZE with hshort | hlong
        · rw [List.drop_of_length_le (by omega), List.drop_of_length_le (by omega)]
        · rw [hchunk, Nat.min_eq_left hlong]
      dsimp only
      rw [hread, chunks_of_ne_nil hsize hne, List.foldlM_cons, List.drop_drop, hnext]
      unfold writeChunk
      rw [hlen]
      dsimp only
      cases hw : write ((bytes.drop count).take CHUNK_SIZE) s with
      | none => rfl
      | some r =>
        obtain ⟨n, s'⟩ := r
        dsimp only [Option.bind_eq_bind, Option.bind_some]
        split_ifs with hn
        · rw [Option.bind_some]
          exact ih _ (by omega) (by omega) s' rfl
        · rfl

end RCore.Os
