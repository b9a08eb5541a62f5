import RCore.Spec.Os.Pipe

/-! The ring buffer is a queue: `write_byte` appends, `read_byte` takes the first byte,
and the loops of `read` and `write` move as many bytes as there are or as fit. -/

namespace RCore.Os

open RCore.Lib

namespace PipeRingBuffer

variable (r : PipeRingBuffer)

theorem head_lt_size : r.head < 256 := r.head_lt

theorem tail_lt_size : r.tail < 256 := r.tail_lt

theorem availableRead_def : r.availableRead = if r.status = .empty then 0
    else if r.tail > r.head then r.tail - r.head else r.tail + 256 - r.head := rfl

theorem availableRead_le : r.availableRead ≤ 256 := by
  have := r.head_lt_size
  have := r.tail_lt_size
  rw [availableRead_def]
  split_ifs <;> omega

theorem tail_eq : r.tail = (r.head + r.availableRead) % 256 := by
  have hh := r.head_lt_size
  have ht := r.tail_lt_size
  have hn := r.status_normal
  rw [availableRead_def]
  split_ifs with he hlt
  · have : r.head = r.tail := by
      by_contra hne
      rw [hn.mpr hne] at he
      cases he
    omega
  · omega
  · omega

theorem availableRead_eq_zero : r.availableRead = 0 ↔ r.status = .empty := by
  have := r.head_lt_size
  have := r.tail_lt_size
  rw [availableRead_def]
  split_ifs with he <;> simp [he] <;> omega

theorem availableRead_eq_size : r.availableRead = 256 ↔ r.status = .full := by
  have hh := r.head_lt_size
  have ht := r.tail_lt_size
  have hn := r.status_normal
  rw [availableRead_def]
  cases hs : r.status with
  | empty => simp
  | normal =>
    have hne := hn.mp hs
    simp only [reduceCtorEq, if_false, iff_false]
    split_ifs <;> omega
  | full =>
    have heq : r.head = r.tail := by
      by_contra hne
      rw [hn.mpr hne] at hs
      cases hs
    simp only [reduceCtorEq, if_false, iff_true]
    rw [if_neg (by omega)]
    omega

/-- What is not taken is free. -/
theorem availableWrite_eq : r.availableWrite = 256 - r.availableRead := by
  rw [availableWrite]
  split_ifs with hf
  · rw [(availableRead_eq_size r).mpr hf]
  · rfl

@[simp] theorem length_contents : r.contents.length = r.availableRead := length_ring _ _ _ _

variable {r}

theorem availableRead_writeByte (h : r.availableRead < 256) (b : UInt8) :
    (r.writeByte b).availableRead = r.availableRead + 1 := by
  have hh := r.head_lt_size
  have ht := r.tail_eq
  have hle := (r.writeByte b).availableRead_le
  have ht' := (r.writeByte b).tail_eq
  have hpos : (r.writeByte b).availableRead ≠ 0 := by
    rw [Ne, availableRead_eq_zero, writeByte]
    split_ifs <;> simp
  change (r.tail + 1) % 256 = (r.head + _) % 256 at ht'
  omega

theorem contents_writeByte (h : r.availableRead < 256) (b : UInt8) :
    (r.writeByte b).contents = r.contents ++ [b] := by
  rw [contents, availableRead_writeByte h, contents]
  change ring 256 (Function.update r.arr r.tail b) r.head _ = _
  rw [r.tail_eq]
  exact ring_push h b

theorem availableRead_readByte (h : 0 < r.availableRead) :
    r.readByte.2.availableRead + 1 = r.availableRead := by
  have hh := r.head_lt_size
  have ht := r.tail_eq
  have hle := r.availableRead_le
  have ht' := r.readByte.2.tail_eq
  have hfull : r.readByte.2.availableRead ≠ 256 := by
    rw [Ne, availableRead_eq_size, readByte]
    simp only
    split_ifs <;> simp
  have hle' := r.readByte.2.availableRead_le
  change r.tail = ((r.head + 1) % 256 + _) % 256 at ht'
  omega

theorem contents_readByte (h : 0 < r.availableRead) :
    r.contents = r.readByte.1 :: r.readByte.2.contents := by
  have hn := availableRead_readByte h
  rw [contents, ← hn, ring_pop r.head_lt]
  rfl

end PipeRingBuffer

section loops

open PipeRingBuffer

theorem writeEnd_readBytes (n : ℕ) (c : ReadCall) (r : PipeRingBuffer) :
    (readBytes n c r).2.1.writeEnd = r.writeEnd := by
  induction n generalizing c r with
  | zero => rfl
  | succ n ih =>
    rw [readBytes]
    split_ifs
    · exact ih _ _
    · rfl

theorem writeEnd_readRound {n : ℕ} {c c' : ReadCall} {r r' : PipeRingBuffer} {bytes : List UInt8}
    (h : readRound n c r = some (c', r', bytes)) : r'.writeEnd = r.writeEnd := by
  rw [readRound] at h
  split_ifs at h
  · obtain ⟨closed, -, hc⟩ := Option.bind_eq_some_iff.mp h
    split_ifs at hc <;> cases hc <;> rfl
  · have hw := writeEnd_readBytes r.availableRead c r
    rwa [Option.some.inj h] at hw

theorem writeEnd_writeBytes (n : ℕ) (c : WriteCall) (r : PipeRingBuffer) :
    (writeBytes n c r).2.1.writeEnd = r.writeEnd := by
  induction n generalizing c r with
  | zero => rfl
  | succ n ih =>
    rw [writeBytes]
    split
    · exact ih _ _
    · rfl

theorem writeEnd_writeRound (c : WriteCall) (r : PipeRingBuffer) :
    (writeRound c r).2.1.writeEnd = r.writeEnd := by
  rw [writeRound]
  split_ifs
  · rfl
  · exact writeEnd_writeBytes _ _ _

/-- What the loop of `read` does in one round: it takes bytes out in order and hands
them on, and it returns when the buffer of the caller is full. -/
theorem readBytes_spec {n : ℕ} {c : ReadCall} {r : PipeRingBuffer} (hn : n ≤ r.availableRead)
    (hlen : c.filled.length ≤ c.len) (hresult : c.result = none) {c' : ReadCall}
    {r' : PipeRingBuffer} {bytes : List UInt8} (h : readBytes n c r = (c', r', bytes)) :
    r.contents = bytes ++ r'.contents ∧ c'.filled = c.filled ++ bytes ∧ c'.len = c.len ∧
      c'.filled.length ≤ c'.len ∧ r'.writeEnd = r.writeEnd ∧
      ∀ k, c'.result = some k → k = c'.filled.length ∧ k = c'.len := by
  induction n generalizing c r c' r' bytes with
  | zero =>
    cases h
    simp [hlen, hresult]
  | succ n ih =>
    rw [readBytes] at h
    split_ifs at h with hroom
    · have hpos : 0 < r.availableRead := by omega
      have hrest := availableRead_readByte hpos
      have hcons := contents_readByte hpos
      have hend : r.readByte.2.writeEnd = r.writeEnd := rfl
      cases hb : r.readByte with
      | mk byte r₁ =>
        simp only [hb] at h hrest hcons hend
        cases hloop : readBytes n { c with filled := c.filled ++ [byte] } r₁ with
        | mk c₁ rest =>
          obtain ⟨r₂, bytes₁⟩ := rest
          simp only [hloop, Prod.mk.injEq] at h
          obtain ⟨rfl, rfl, rfl⟩ := h
          obtain ⟨hq, hfilled, hlen', hle, hwe, hres⟩ := ih (by omega)
            (by simpa using hroom) (by exact hresult) hloop
          refine ⟨by rw [hcons, hq]; rfl, ?_, hlen', hle, hwe.trans hend, hres⟩
          rw [hfilled, List.append_assoc]
          rfl
    · cases h
      have heq : c.filled.length = c.len := by omega
      refine ⟨rfl, by simp, rfl, hlen, rfl, fun k hk => ?_⟩
      obtain rfl : c.filled.length = k := Option.some.inj hk
      exact ⟨rfl, heq⟩

/-- What the loop of `write` does in one round: it puts bytes in in order, and it
returns when none is left. -/
theorem writeBytes_spec {n : ℕ} {c : WriteCall} {r : PipeRingBuffer}
    (hn : n + r.availableRead ≤ 256) (hresult : c.result = none) {c' : WriteCall}
    {r' : PipeRingBuffer} {bytes : List UInt8} (h : writeBytes n c r = (c', r', bytes)) :
    r'.contents = r.contents ++ bytes ∧ c.rest = bytes ++ c'.rest ∧ c'.buf = c.buf ∧
      c'.writeSize = c.writeSize + bytes.length ∧ r'.writeEnd = r.writeEnd ∧
      ∀ k, c'.result = some k → k = c'.writeSize ∧ c'.rest = [] := by
  induction n generalizing c r c' r' bytes with
  | zero =>
    cases h
    simp [hresult]
  | succ n ih =>
    rw [writeBytes] at h
    cases hrest : c.rest with
    | nil =>
      simp only [hrest] at h
      cases h
      refine ⟨by simp, by simp, rfl, rfl, rfl, fun k hk => ?_⟩
      exact ⟨(Option.some.inj hk).symm, rfl⟩
    | cons byte rest =>
      simp only [hrest] at h
      have hlt : r.availableRead < 256 := by omega
      have havail := availableRead_writeByte hlt byte
      have hcont := contents_writeByte hlt byte
      cases hloop : writeBytes n { c with rest := rest, writeSize := c.writeSize + 1 }
          (r.writeByte byte) with
      | mk c₁ rr =>
        obtain ⟨r₂, bytes₁⟩ := rr
        simp only [hloop, Prod.mk.injEq] at h
        obtain ⟨rfl, rfl, rfl⟩ := h
        obtain ⟨hq, hr, hbuf, hsize, hwe, hres⟩ := ih (by omega) (by exact hresult) hloop
        refine ⟨?_, by rw [show rest = bytes₁ ++ c₁.rest from hr]; rfl, hbuf, ?_, hwe, hres⟩
        · rw [hq, hcont, List.append_assoc]
          rfl
        · rw [hsize, List.length_cons]
          simp only
          omega

end loops

end RCore.Os
