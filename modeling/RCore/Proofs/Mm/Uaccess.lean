import RCore.Sanity.Mm.Memory

/-! Which bytes the kernel dereferences at the addresses that a user gives it. -/

namespace RCore.Mm

open RCore.Lib Logged

/-- All bytes of the span are in `USER_ASPACE_RANGE`. -/
def Span.Inside (s : Span) : Prop :=
  ∀ i < s.len, USER_ASPACE_START ≤ s.byte i ∧ s.byte i < USER_ASPACE_END

variable {p q vaddr size ptr : Usize} {n : ℕ} {mem mem' : Memory} {T : Layout}

theorem toNat_one : (1 : Usize).toNat = 1 := rfl

theorem toNat_USER_ASPACE_END : USER_ASPACE_END.toNat = 2 ^ 48 := rfl

theorem lt_USER_ASPACE_END : p < USER_ASPACE_END ↔ p.toNat < 2 ^ 48 := Iff.rfl

namespace Span

theorem toNat_byte (s : Span) (i : ℕ) : (s.byte i).toNat = (s.start.toNat + i) % 2 ^ 64 := by
  rw [byte, BitVec.toNat_add, BitVec.toNat_ofNat]
  omega

/-- A span that is not empty is inside, exactly if it ends inside. -/
theorem inside_iff (s : Span) : s.Inside ↔ s.len = 0 ∨ s.start.toNat + s.len ≤ 2 ^ 48 := by
  have hstart := s.start.isLt
  constructor
  · intro h
    by_contra hc
    rw [not_or] at hc
    -- the first byte of the span that is not below the end
    obtain ⟨-, hlt⟩ := h (2 ^ 48 - s.start.toNat) (by omega)
    rw [lt_USER_ASPACE_END, toNat_byte] at hlt
    omega
  · intro h i hi
    refine ⟨BitVec.le_def.mpr (Nat.zero_le _), ?_⟩
    rw [lt_USER_ASPACE_END, toNat_byte]
    omega

end Span

theorem uaccessOk_iff : uaccessOk vaddr size = true ↔
    vaddr ≠ 0 ∧ vaddr.toNat ≤ (2 ^ 64 + 2 ^ 48 - size.toNat) % 2 ^ 64 := by
  have hsub : (USER_ASPACE_END - size).toNat = (2 ^ 64 + 2 ^ 48 - size.toNat) % 2 ^ 64 := by
    rw [BitVec.toNat_sub, toNat_USER_ASPACE_END]
    have := size.isLt
    omega
  have hstart : USER_ASPACE_START ≤ vaddr := BitVec.le_def.mpr (Nat.zero_le _)
  rw [uaccessOk, decide_eq_true hstart, Bool.and_true, Bool.and_eq_true, bne_iff_ne,
    decide_eq_true_iff, BitVec.le_def, hsub]

/-- A size that wraps around in the check is let through at every address. -/
theorem uaccessOk_span (hok : uaccessOk p 1 = true) (hn : n < 2 ^ 63) :
    (uaccessOk p (BitVec.ofNat 64 n) = true → (Span.mk p n).Inside) ↔ n ≤ 2 ^ 48 := by
  rw [uaccessOk_iff] at hok ⊢
  rw [Span.inside_iff, BitVec.toNat_ofNat]
  obtain ⟨hzero, hle⟩ := hok
  replace hle : p.toNat ≤ 2 ^ 48 - 1 := hle
  constructor
  · intro h
    by_contra hc
    have := h ⟨hzero, by omega⟩
    simp only at this
    omega
  · rintro h ⟨-, hle'⟩
    simp only
    omega

section calls

variable {α : Type} {x : Uaccess α} {f : Unit → Uaccess α} {len : Usize}

theorem uassert_bind (b : Bool) (f : Unit → Uaccess α) (mem : Memory) :
    (uassert b >>= f) mem = if b = true then f () mem else ([], .error .assertion) := by
  cases b with
  | true => rfl
  | false => rfl

theorem all_uassert_bind {b : Bool} :
    All Span.Inside (uassert b >>= f) mem ↔ (b = true → All Span.Inside (f ()) mem) := by
  rw [All, uassert_bind]
  split_ifs with hb
  · exact ⟨fun h _ => h, fun h => h hb⟩
  · exact iff_of_true (fun _ hw => absurd hw List.not_mem_nil) fun h => absurd h hb

theorem all_load {s : Span} : All Span.Inside (load s) mem ↔ s.Inside := by
  rw [All, load]
  exact List.forall_mem_singleton

theorem all_loadByte : All Span.Inside (loadByte p) mem ↔ p < USER_ASPACE_END := by
  rw [All, loadByte]
  refine List.forall_mem_singleton.trans ?_
  rw [Span.inside_iff, lt_USER_ASPACE_END]
  simp only [Nat.one_ne_zero, false_or]
  omega

theorem all_store {P : Span → Prop} {bytes : List UInt8} :
    All P (store p bytes) mem ↔ P ⟨p, bytes.length⟩ := by
  rw [All, store]
  exact List.forall_mem_singleton

theorem mul_ofNat (len : Usize) (size : ℕ) :
    len * BitVec.ofNat 64 size = BitVec.ofNat 64 (len.toNat * size) := by
  apply BitVec.eq_of_toNat_eq
  rw [BitVec.toNat_mul, BitVec.toNat_ofNat, BitVec.toNat_ofNat, Nat.mul_mod_mod]

/-- What the copies of whole values have in common: `check`, the check of the size, and the
access. -/
theorem all_copy (len : Usize) (h : len.toNat * T.size < 2 ^ 63)
    (hx : All Span.Inside x mem ↔ (Span.mk ptr (len.toNat * T.size)).Inside) :
    All Span.Inside (uassert (UserPtr.check (T := T) ⟨ptr⟩) >>= fun _ =>
      uassert (uaccessOk ptr (len * BitVec.ofNat 64 T.size)) >>= fun _ => x) mem ↔
      (UserPtr.check (T := T) ⟨ptr⟩ = true → len.toNat * T.size ≤ 2 ^ 48) := by
  rw [all_uassert_bind]
  refine imp_congr_right fun hcheck => ?_
  rw [UserPtr.check, Bool.and_eq_true] at hcheck
  rw [all_uassert_bind, hx, mul_ofNat, uaccessOk_span hcheck.1 h]

/-- The scan of `copy_from_user_str` checks every address. -/
theorem all_copyStrLoop (n : ℕ) (p : Usize) (mem : Memory) :
    All Span.Inside (copyStrLoop n p) mem := by
  induction n generalizing p mem with
  | zero => exact all_pure _ _ _
  | succ n ih =>
    rw [copyStrLoop, all_uassert_bind]
    intro hp
    rw [all_bind, all_loadByte]
    refine ⟨of_decide_eq_true hp, fun c mem' _ => ?_⟩
    split_ifs
    · exact all_pure _ _ _
    · rw [all_bind]
      exact ⟨ih _ _, fun _ _ _ => all_pure _ _ _⟩

/-- The bytes before the zero byte have been dereferenced as well. -/
theorem inside_of_find {i : ℕ} (h : All Span.Inside (UserPtr.find n p) mem)
    (hi : (UserPtr.find n p mem).2 = .ok (i, mem')) : (Span.mk p i).Inside := by
  induction n generalizing p mem i with
  | zero => cases hi
  | succ n ih =>
    rw [UserPtr.find, all_bind, all_loadByte] at h
    obtain ⟨hp, hrest⟩ := h
    rw [UserPtr.find] at hi
    cases hbyte : mem p with
    | none =>
      have hload : (loadByte p mem).2 = .error .fault := by rw [loadByte, hbyte]
      rw [bind_of_error hload] at hi
      cases hi
    | some c =>
      have hload : (loadByte p mem).2 = .ok (c, mem) := by rw [loadByte, hbyte]
      rw [bind_of_ok hload] at hi
      replace hrest := hrest c mem hload
      split_ifs at hi hrest with hc
      · cases hi
        exact fun j hj => absurd hj (Nat.not_lt_zero j)
      · rw [all_bind] at hrest
        cases hfind : (UserPtr.find n (p + 1) mem).2 with
        | error e =>
          rw [bind_of_error hfind] at hi
          cases hi
        | ok r =>
          rw [bind_of_ok hfind] at hi
          cases hi
          have hinside := ih hrest.1 hfind
          have hp' := lt_USER_ASPACE_END.mp hp
          rw [Span.inside_iff] at hinside ⊢
          simp only [BitVec.toNat_add, toNat_one] at hinside ⊢
          omega

/-- The search for the zero byte stays inside, exactly if it ends there. -/
theorem all_find (hn : 2 ^ 48 < n + p.toNat) (hpos : 0 < n) :
    All Span.Inside (UserPtr.find n p) mem ↔
      ∃ q, p ≤ q ∧ q < USER_ASPACE_END ∧ (mem q = none ∨ mem q = some 0) := by
  induction n generalizing p with
  | zero => cases hpos
  | succ n ih =>
    rw [UserPtr.find, all_bind, all_loadByte]
    by_cases hlt : p < USER_ASPACE_END
    · have hlt' := lt_USER_ASPACE_END.mp hlt
      have hnext : (p + 1).toNat = p.toNat + 1 := by
        rw [BitVec.toNat_add, toNat_one]
        omega
      -- a byte from `p` on is `p`, or one from `p + 1` on
      have hsplit : ∀ q : Usize, p ≤ q ↔ q = p ∨ p + 1 ≤ q := by
        intro q
        rw [BitVec.le_def, BitVec.le_def, hnext, ← BitVec.toNat_inj]
        omega
      simp only [hsplit, or_and_right, exists_or, exists_eq_left, hlt, true_and]
      cases hbyte : mem p with
      | none =>
        have hload : (loadByte p mem).2 = .error .fault := by rw [loadByte, hbyte]
        refine iff_of_true (fun c mem' hc => ?_) (.inl (.inl rfl))
        rw [hload] at hc
        cases hc
      | some c =>
        have hload : (loadByte p mem).2 = .ok (c, mem) := by rw [loadByte, hbyte]
        simp only [hload, Except.ok.injEq, Prod.mk.injEq, reduceCtorEq, false_or,
          Option.some.injEq]
        constructor
        · intro h
          replace h := h c mem ⟨rfl, rfl⟩
          split_ifs at h with hc
          · exact .inl hc
          · rw [all_bind, ih (by omega) (by omega)] at h
            exact .inr h.1
        · rintro h _ _ ⟨rfl, rfl⟩
          split_ifs with hc
          · exact all_pure _ _ _
          · rw [all_bind, ih (by omega) (by omega)]
            exact ⟨h.resolve_left hc, fun _ _ _ => all_pure _ _ _⟩
    · refine iff_of_false (fun h => hlt h.1) ?_
      rintro ⟨q, hq, hqlt, -⟩
      rw [lt_USER_ASPACE_END] at hlt hqlt
      rw [BitVec.le_def] at hq
      omega

theorem all_asSlice : All Span.Inside (UserPtr.asSlice (T := T) ⟨ptr⟩ len) mem ↔
    (len ≠ 0 → uaccessOk ptr len = true → (Span.mk ptr (len.toNat * T.size)).Inside) := by
  rw [UserPtr.asSlice]
  split_ifs with hlen
  · exact iff_of_true (all_pure _ _ _) fun h => absurd hlen h
  · rw [all_uassert_bind]
    exact ⟨fun h _ hok => List.forall_mem_singleton.mp (h hok),
      fun h hok => List.forall_mem_singleton.mpr (h hlen hok)⟩

/-- What the slice is, if the call returns. -/
theorem asSlice_ok {slice : Span}
    (h : (UserPtr.asSlice (T := T) ⟨ptr⟩ len mem).2 = .ok (slice, mem')) :
    (len = 0 ∧ slice = ⟨0, 0⟩) ∨
      (len ≠ 0 ∧ uaccessOk ptr len = true ∧ slice = ⟨ptr, len.toNat * T.size⟩) := by
  rw [UserPtr.asSlice] at h
  split_ifs at h with hlen
  · cases h
    exact .inl ⟨hlen, rfl⟩
  · rw [uassert_bind] at h
    split_ifs at h with hok
    cases h
    exact .inr ⟨hlen, hok, rfl⟩

theorem all_asStr : All Span.Inside (UserPtr.asStr ⟨ptr⟩ len) mem ↔
    (uaccessOk ptr 1 = true → len ≠ 0 → uaccessOk ptr len = true →
      (Span.mk ptr len.toNat).Inside) := by
  have hcheck : UserPtr.check (T := .u8) ⟨ptr⟩ = uaccessOk ptr 1 := by
    simp [UserPtr.check, Layout.u8, Nat.mod_one]
  rw [UserPtr.asStr, all_uassert_bind, hcheck]
  refine imp_congr_right fun _ => ?_
  rw [all_bind, all_asSlice, show Layout.u8.size = 1 from rfl, Nat.mul_one]
  refine ⟨fun h => h.1, fun h => ⟨h, fun slice mem' hslice => ?_⟩⟩
  rw [all_bind, all_load]
  refine ⟨?_, fun bytes _ _ => ?_⟩
  · rcases asSlice_ok hslice with ⟨-, rfl⟩ | ⟨hlen, hok, rfl⟩
    · exact fun j hj => absurd hj (Nat.not_lt_zero j)
    · rw [show Layout.u8.size = 1 from rfl, Nat.mul_one]
      exact h hlen hok
  · split
    · exact all_pure _ _ _
    · exact all_pure _ _ _

/-- After the search nothing new is dereferenced. -/
theorem all_asCStr : All Span.Inside (UserPtr.asCStr ⟨ptr⟩) mem ↔
    ∃ q, ptr ≤ q ∧ q < USER_ASPACE_END ∧ (mem q = none ∨ mem q = some 0) := by
  have hfuel : 2 ^ 48 < UserPtr.ADDRESSES + ptr.toNat := by
    rw [UserPtr.ADDRESSES]
    omega
  rw [← all_find hfuel (Nat.two_pow_pos 64), UserPtr.asCStr, all_bind]
  refine ⟨fun h => h.1, fun h => ⟨h, fun i mem' hi => ?_⟩⟩
  have hinside := inside_of_find h hi
  rw [all_asStr]
  intro _ hlen _
  rw [Span.inside_iff] at hinside ⊢
  simp only [BitVec.toNat_ofNat] at hinside ⊢
  omega

end calls

/-- When a call dereferences only bytes in `USER_ASPACE_RANGE`. -/
def PtrCall.Fits (ptr : Usize) (mem : Memory) : PtrCall → Prop
  -- the bytes are not more than the range has, so that the check does not wrap around
  | .read T | .write T _ _ => UserPtr.check (T := T) ⟨ptr⟩ = true → T.size ≤ 2 ^ 48
  | .readArray T n maxLen _ => UserPtr.check (T := T) ⟨ptr⟩ = true →
    min maxLen.toNat n.toNat * T.size ≤ 2 ^ 48
  | .writeBuf T buf => UserPtr.check (T := T) ⟨ptr⟩ = true → buf.len.toNat * T.size ≤ 2 ^ 48
  -- every byte is checked
  | .readStr _ => True
  -- the search ends inside, at a zero byte or at a byte that is not mapped
  | .readCStr | .asCStr =>
    ∃ q, ptr ≤ q ∧ q < USER_ASPACE_END ∧ (mem q = none ∨ mem q = some 0)
  -- the length does not wrap around, or by so much that the check fails
  | .asStr len => uaccessOk ptr 1 = true →
    len.toNat ≤ 2 ^ 48 ∨ 2 ^ 64 + 2 ^ 48 < ptr.toNat + len.toNat
  -- the length in elements passes, and so does that in bytes
  | .asSlice T len => uaccessOk ptr len = true →
    len.toNat * T.size = 0 ∨ ptr.toNat + len.toNat * T.size ≤ 2 ^ 48

/-- The kernel dereferences only bytes in `USER_ASPACE_RANGE` for a call on a user's pointer,
exactly if the call fits. -/
theorem user_pointers_iff (call : PtrCall) (ptr : Usize) (mem : Memory) :
    All Span.Inside (call.run ptr) mem ↔ call.Fits ptr mem := by
  cases call with
  | read T =>
    rw [PtrCall.run, all_map, PtrCall.Fits, ← Nat.one_mul T.size]
    exact all_copy 1 (by rw [toNat_one, Nat.one_mul]; exact T.size_lt) all_load
  | readArray T n maxLen h =>
    have hmin : (if maxLen ≤ n then maxLen else n).toNat = min maxLen.toNat n.toNat := by
      rw [apply_ite BitVec.toNat, Nat.min_def]
      rfl
    rw [PtrCall.run, all_map, PtrCall.Fits, ← hmin]
    refine all_copy _ ?_ all_load
    rw [hmin]
    exact (Nat.mul_le_mul_right _ (Nat.min_le_right _ _)).trans_lt h
  | readStr n =>
    rw [PtrCall.run, all_map, UserPtr.readStr, all_uassert_bind]
    refine iff_of_true (fun _ => ?_) trivial
    rw [copyFromUserStr, all_uassert_bind]
    exact fun _ => all_copyStrLoop _ _ _
  | readCStr =>
    rw [PtrCall.run, all_map, UserPtr.readCStr]
    exact all_asCStr
  | asCStr =>
    rw [PtrCall.run, all_map]
    exact all_asCStr
  | asStr len =>
    rw [PtrCall.run, all_map, all_asStr, PtrCall.Fits]
    refine imp_congr_right fun hcheck => ?_
    rw [uaccessOk_iff] at hcheck ⊢
    obtain ⟨hzero, hle⟩ := hcheck
    replace hle : ptr.toNat ≤ 2 ^ 48 - 1 := hle
    have hlen : len ≠ 0 ↔ len.toNat ≠ 0 := (BitVec.toNat_ne_iff_ne (y := 0)).symm
    have hlt := len.isLt
    simp only [hlen, hzero, ne_eq, not_false_eq_true, true_and, Span.inside_iff]
    omega
  | asSlice T len =>
    rw [PtrCall.run, all_map, all_asSlice, PtrCall.Fits, Span.inside_iff]
    constructor
    · intro h hok
      by_cases hlen : len = 0
      · exact .inl (by rw [hlen]; exact Nat.zero_mul _)
      · exact h hlen hok
    · exact fun h _ => h
  | write T value h =>
    rw [PtrCall.run, PtrCall.Fits, ← Nat.one_mul T.size]
    refine all_copy 1 (by rw [toNat_one, Nat.one_mul]; exact T.size_lt) ?_
    rw [all_store, value.length_eq, h]
  | writeBuf T buf =>
    refine all_copy _ buf.fits ?_
    rw [all_store, buf.length_eq]

/-- An address of the kernel that is used as a path: `sys_open` looks for the end of the
string in the memory of the kernel. As the start of a slice of 2^48 + 1 bytes it even
passes the check. -/
theorem kernel_memory_read : ∃ (ptr : Usize) (mem : Memory), USER_ASPACE_END ≤ ptr ∧
    ¬ All Span.Inside (PtrCall.asCStr.run ptr) mem ∧
    uaccessOk ptr (2 ^ 48 + 1) = true ∧
    ¬ All Span.Inside ((PtrCall.asSlice .u8 (2 ^ 48 + 1)).run ptr) mem := by
  refine ⟨0xffff000040080000, fun _ => some 0, by decide, ?_, by decide, ?_⟩
  · rw [PtrCall.run, all_map, all_asCStr]
    rintro ⟨q, hle, hlt, -⟩
    rw [BitVec.le_def] at hle
    exact absurd (hle.trans_lt (lt_USER_ASPACE_END.mp hlt)) (by decide)
  · rw [PtrCall.run, all_map, all_asSlice, Span.inside_iff]
    intro h
    exact absurd (h (by decide) (by decide)) (by decide)

/-! Values in user memory -/

open Memory

theorem uaccessOk_of_le (hpos : 0 < p.toNat) (hle : p.toNat + size.toNat ≤ 2 ^ 48) :
    uaccessOk p size = true := by
  rw [uaccessOk_iff]
  constructor
  · rintro rfl
    exact Nat.lt_irrefl 0 hpos
  · omega

/-- Where a `T` of the user can be: aligned, and all of it in user space. -/
structure UserPtr.Valid (T : Layout) (p : Usize) : Prop where
  pos : 0 < p.toNat
  le : p.toNat + T.size ≤ 2 ^ 48
  aligned : p.toNat % T.align = 0
  size_pos : 0 < T.size

namespace UserPtr.Valid

variable {bytes : List UInt8}

theorem check (h : UserPtr.Valid T p) : UserPtr.check (T := T) ⟨p⟩ = true := by
  have hle := h.le
  have hsize := h.size_pos
  have hone : uaccessOk p 1 = true := uaccessOk_of_le h.pos (show p.toNat + 1 ≤ _ by omega)
  rw [UserPtr.check, hone, Bool.true_and, beq_iff_eq]
  exact h.aligned

theorem uaccessOk (h : UserPtr.Valid T p) : uaccessOk p (1 * BitVec.ofNat 64 T.size) = true := by
  have hle := h.le
  refine uaccessOk_of_le h.pos ?_
  rw [mul_ofNat, toNat_one, Nat.one_mul, BitVec.toNat_ofNat]
  omega

theorem read (h : UserPtr.Valid T p) (hhas : Has mem p bytes) (hlen : bytes.length = T.size) :
    (UserPtr.read (T := T) ⟨p⟩ mem).2 = .ok (bytes, mem) := by
  have hload := load_spec hhas
  rw [hlen] at hload
  rw [UserPtr.read, uassert_bind, if_pos h.check, copyFromUser, uassert_bind, if_pos h.uaccessOk,
    toNat_one, Nat.one_mul]
  exact hload

theorem write (h : UserPtr.Valid T p) (hm : Mapped mem p.toNat (p.toNat + T.size)) (value : Values T)
    (hlen : value.bytes.length = T.size) :
    (UserPtr.write ⟨p⟩ value mem).2 = .ok ((), mem.write p value.bytes) := by
  have hle := h.le
  obtain ⟨old, hold⟩ := bytes_of_mapped hm (by omega)
  rw [UserPtr.write, uassert_bind, if_pos h.check, copyToUser, uassert_bind, if_pos h.uaccessOk, store,
    hlen, hold]

end UserPtr.Valid

end RCore.Mm
