import RCore.Spec.Mm.Uaccess

/-! What is in memory, and what a store leaves there. -/

namespace RCore.Mm

open RCore.Lib Logged

namespace Memory

/-- The bytes are in memory, from `p` on. -/
def Has (mem : Memory) (p : Usize) : List UInt8 → Prop
  | [] => True
  | byte :: bytes => mem p = some byte ∧ Has mem (p + 1) bytes

/-- The bytes from address `lo` up to `hi` are mapped. -/
def Mapped (mem : Memory) (lo hi : ℕ) : Prop :=
  ∀ p : Usize, lo ≤ p.toNat → p.toNat < hi → (mem p).isSome = true

/-- Only bytes from `lo` up to `hi` have changed, and what was mapped still is. -/
structure Changed (mem mem' : Memory) (lo hi : ℕ) : Prop where
  outside : ∀ p : Usize, p.toNat < lo ∨ hi ≤ p.toNat → mem' p = mem p
  mapped : ∀ p, (mem p).isSome = true → (mem' p).isSome = true

variable {mem mem' mem'' : Memory} {p q : Usize} {bytes bytes' : List UInt8} {byte : UInt8}
  {lo lo' hi hi' : ℕ}

theorem toNat_add_one (h : p.toNat + 1 < 2 ^ 64) : (p + 1).toNat = p.toNat + 1 := by
  rw [BitVec.toNat_add]
  exact Nat.mod_eq_of_lt h

theorem Changed.refl (mem : Memory) (lo hi : ℕ) : Changed mem mem lo hi :=
  ⟨fun _ _ => rfl, fun _ h => h⟩

theorem Changed.trans (h : Changed mem mem' lo hi) (h' : Changed mem' mem'' lo hi) :
    Changed mem mem'' lo hi :=
  ⟨fun p hp => (h'.outside p hp).trans (h.outside p hp), fun p hp => h'.mapped p (h.mapped p hp)⟩

theorem Changed.mono (h : Changed mem mem' lo hi) (hlo : lo' ≤ lo) (hhi : hi ≤ hi') :
    Changed mem mem' lo' hi' :=
  ⟨fun p hp => h.outside p (by omega), h.mapped⟩

theorem Mapped.changed (h : Mapped mem lo hi) (hc : Changed mem mem' lo' hi') : Mapped mem' lo hi :=
  fun p hp hp' => hc.mapped p (h p hp hp')

theorem Mapped.mono (h : Mapped mem lo hi) (hlo : lo ≤ lo') (hhi : hi' ≤ hi) : Mapped mem lo' hi' :=
  fun p hp hp' => h p (hlo.trans hp) (hp'.trans_le hhi)

namespace Has

theorem congr (h : Has mem p bytes) (hlt : p.toNat + bytes.length < 2 ^ 64)
    (hsame : ∀ q : Usize, p.toNat ≤ q.toNat → q.toNat < p.toNat + bytes.length →
      mem' q = mem q) : Has mem' p bytes := by
  induction bytes generalizing p with
  | nil => trivial
  | cons byte bytes ih =>
    rw [List.length_cons] at hlt hsame
    have hnext := toNat_add_one (p := p) (by omega)
    refine ⟨(hsame p (Nat.le_refl _) (by omega)).trans h.1, ih h.2 (by omega) fun q hq hq' => ?_⟩
    exact hsame q (by omega) (by omega)

/-- Bytes outside of what has changed are still there. -/
theorem changed (h : Has mem p bytes) (hlt : p.toNat + bytes.length < 2 ^ 64)
    (hc : Changed mem mem' lo hi) (hout : p.toNat + bytes.length ≤ lo ∨ hi ≤ p.toNat) :
    Has mem' p bytes :=
  h.congr hlt fun q _ _ => hc.outside q (by omega)

theorem append (h : Has mem p bytes) (h' : Has mem (p + BitVec.ofNat 64 bytes.length) bytes') :
    Has mem p (bytes ++ bytes') := by
  induction bytes generalizing p with
  | nil =>
    rw [List.length_nil, BitVec.add_zero] at h'
    exact h'
  | cons byte bytes ih =>
    refine ⟨h.1, ih h.2 ?_⟩
    rwa [List.length_cons, BitVec.ofNat_add, BitVec.add_comm _ (BitVec.ofNat 64 1),
      ← BitVec.add_assoc] at h'

theorem left (h : Has mem p (bytes ++ bytes')) : Has mem p bytes := by
  induction bytes generalizing p with
  | nil => trivial
  | cons byte bytes ih => exact ⟨h.1, ih h.2⟩

theorem right (h : Has mem p (bytes ++ bytes')) :
    Has mem (p + BitVec.ofNat 64 bytes.length) bytes' := by
  induction bytes generalizing p with
  | nil =>
    rw [List.length_nil, BitVec.add_zero]
    exact h
  | cons byte bytes ih =>
    rw [List.length_cons, BitVec.ofNat_add, BitVec.add_comm _ (BitVec.ofNat 64 1),
      ← BitVec.add_assoc]
    exact ih h.2

theorem get (h : Has mem p bytes) {i : ℕ} (hi : bytes[i]? = some byte) :
    mem (p + BitVec.ofNat 64 i) = some byte := by
  induction bytes generalizing p i with
  | nil => cases hi
  | cons first bytes ih =>
    cases i with
    | zero =>
      cases hi
      rw [BitVec.add_zero]
      exact h.1
    | succ i =>
      rw [List.getElem?_cons_succ] at hi
      rw [BitVec.ofNat_add, BitVec.add_comm _ (BitVec.ofNat 64 1), ← BitVec.add_assoc]
      exact ih h.2 hi

theorem bytes_eq (h : Has mem p bytes) : mem.bytes p bytes.length = some bytes := by
  induction bytes generalizing p with
  | nil => rfl
  | cons byte bytes ih =>
    rw [List.length_cons, Memory.bytes, h.1, ih h.2]
    rfl

end Has

theorem has_of_bytes {n : ℕ} (h : mem.bytes p n = some bytes) : Has mem p bytes ∧ bytes.length = n := by
  induction n generalizing p bytes with
  | zero =>
    cases h
    exact ⟨trivial, rfl⟩
  | succ n ih =>
    rw [Memory.bytes, Option.bind_eq_bind, Option.bind_eq_some_iff] at h
    obtain ⟨byte, hbyte, h⟩ := h
    rw [Option.bind_eq_bind, Option.bind_eq_some_iff] at h
    obtain ⟨rest, hrest, h⟩ := h
    cases h
    obtain ⟨hhas, hlen⟩ := ih hrest
    exact ⟨⟨hbyte, hhas⟩, congrArg (· + 1) hlen⟩

theorem bytes_of_mapped {n : ℕ} (h : Mapped mem p.toNat (p.toNat + n))
    (hlt : p.toNat + n < 2 ^ 64) : ∃ bytes, mem.bytes p n = some bytes := by
  induction n generalizing p with
  | zero => exact ⟨[], rfl⟩
  | succ n ih =>
    have hnext := toNat_add_one (p := p) (by omega)
    obtain ⟨byte, hbyte⟩ := Option.isSome_iff_exists.mp (h p (Nat.le_refl _) (by omega))
    obtain ⟨bytes, hbytes⟩ := ih (p := p + 1) (h.mono (by omega) (by omega)) (by omega)
    exact ⟨byte :: bytes, by rw [Memory.bytes, hbyte, hbytes]; rfl⟩

theorem write_changed (mem : Memory) (p : Usize) (bytes : List UInt8)
    (hlt : p.toNat + bytes.length < 2 ^ 64) :
    Changed mem (mem.write p bytes) p.toNat (p.toNat + bytes.length) := by
  induction bytes generalizing mem p with
  | nil => exact .refl _ _ _
  | cons byte bytes ih =>
    rw [List.length_cons] at hlt ⊢
    have hnext := toNat_add_one (p := p) (by omega)
    have hfirst : Changed mem (Function.update mem p (some byte)) p.toNat (p.toNat + 1) := by
      refine ⟨fun q hq => Function.update_of_ne ?_ _ _, fun q hq => ?_⟩
      · rintro rfl
        omega
      · rw [Function.update_apply]
        split_ifs
        · rfl
        · exact hq
    exact (hfirst.mono (Nat.le_refl _) (by omega)).trans
      ((ih _ (p + 1) (by omega)).mono (by omega) (by omega))

theorem write_has (mem : Memory) (p : Usize) (bytes : List UInt8)
    (hlt : p.toNat + bytes.length < 2 ^ 64) : Has (mem.write p bytes) p bytes := by
  induction bytes generalizing mem p with
  | nil => trivial
  | cons byte bytes ih =>
    rw [List.length_cons] at hlt
    have hnext := toNat_add_one (p := p) (by omega)
    refine ⟨?_, ih _ (p + 1) (by omega)⟩
    rw [write, (write_changed _ (p + 1) bytes (by omega)).outside p (by omega)]
    exact Function.update_self _ _ _

end Memory

open Memory

variable {mem mem' : Memory} {p : Usize} {bytes : List UInt8}

/-- A store to bytes that are mapped. -/
theorem store_spec (hm : Mapped mem p.toNat (p.toNat + bytes.length))
    (hlt : p.toNat + bytes.length < 2 ^ 64) :
    ∃ mem', (store p bytes mem).2 = .ok ((), mem') ∧ Has mem' p bytes ∧
      Changed mem mem' p.toNat (p.toNat + bytes.length) := by
  obtain ⟨old, hold⟩ := bytes_of_mapped hm hlt
  exact ⟨mem.write p bytes, by rw [store, hold], write_has _ _ _ hlt, write_changed _ _ _ hlt⟩

theorem load_spec (h : Has mem p bytes) : (load ⟨p, bytes.length⟩ mem).2 = .ok (bytes, mem) := by
  rw [load, h.bytes_eq]

/-- The search finds the zero byte that ends a string. -/
theorem find_spec {n : ℕ} (h : Has mem p (bytes ++ [0])) (hzero : 0 ∉ bytes)
    (hn : bytes.length < n) : (UserPtr.find n p mem).2 = .ok (bytes.length, mem) := by
  induction bytes generalizing p n with
  | nil =>
    obtain ⟨n, rfl⟩ := Nat.exists_eq_add_one.mpr hn
    have hload : (loadByte p mem).2 = .ok (0, mem) := by rw [loadByte, h.1]
    rw [UserPtr.find, bind_of_ok hload]
    rfl
  | cons byte bytes ih =>
    rw [List.length_cons] at hn
    obtain ⟨n, rfl⟩ := Nat.exists_eq_add_one.mpr (Nat.zero_lt_of_lt hn)
    have hload : (loadByte p mem).2 = .ok (byte, mem) := by rw [loadByte, h.1]
    rw [List.mem_cons, not_or] at hzero
    rw [UserPtr.find, bind_of_ok hload, if_neg (Ne.symm hzero.1),
      bind_of_ok (ih h.2 hzero.2 (by omega))]
    rfl

end RCore.Mm
