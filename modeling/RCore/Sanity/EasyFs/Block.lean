import RCore.Spec.EasyFs.Block

/-! What the typed views of a block give back after a store, and what a program
that opens one block does. -/

namespace RCore.EasyFs

open RCore.Lib

theorem u32At_setU32_self (b : Block) {i : ℕ} (v : U32) (hi : i < 128) :
    u32At (setU32 b i v) i = v :=
  field_splice_self b (32 * i) v (by omega)

theorem u32At_setU32_ne (b : Block) {i j : ℕ} (v : U32) (h : i ≠ j) :
    u32At (setU32 b i v) j = u32At b j :=
  field_splice_disjoint b (32 * i) (32 * j) v (by omega)

section bytes

variable {n : ℕ}

theorem byteAt_setByte_self (b : BitVec n) {i : ℕ} (v : UInt8) (hi : 8 * i + 8 ≤ n) :
    byteAt (setByte b i v) i = v := by
  rw [byteAt, setByte, field_splice_self b (8 * i) v.toBitVec (by omega)]

theorem byteAt_setByte_ne (b : BitVec n) {i j : ℕ} (v : UInt8) (h : i ≠ j) :
    byteAt (setByte b i v) j = byteAt b j := by
  rw [byteAt, setByte, field_splice_disjoint b (8 * i) (8 * j) v.toBitVec (by omega), byteAt]

@[simp] theorem byteAt_zero (i : ℕ) : byteAt (0 : BitVec n) i = 0 := by
  rw [byteAt, field_zero]
  rfl

/-- Copying a slice replaces exactly the bytes it covers. -/
theorem byteAt_copyFromSlice (b : BitVec n) (off : ℕ) (src : List UInt8)
    (h : 8 * (off + src.length) ≤ n) (i : ℕ) :
    byteAt (copyFromSlice b off src) i =
      if off ≤ i ∧ i < off + src.length then src.getD (i - off) 0 else byteAt b i := by
  induction src generalizing b off with
  | nil => simp [copyFromSlice]
  | cons v src ih =>
    simp only [List.length_cons] at h
    rw [copyFromSlice, ih _ _ (by omega)]
    rcases Nat.lt_trichotomy i off with hlt | heq | hgt
    · rw [if_neg (by omega), if_neg (by omega), byteAt_setByte_ne b v (by omega)]
    · subst heq
      rw [if_neg (by omega), if_pos (by simp), byteAt_setByte_self b v (by omega)]
      simp
    · have hd : i - off = i - (off + 1) + 1 := by omega
      rw [byteAt_setByte_ne b v (by omega), hd, List.getD_cons_succ, List.length_cons]
      by_cases hc : i < off + 1 + src.length
      · rw [if_pos (by omega), if_pos (by omega)]
      · rw [if_neg (by omega), if_neg (by omega)]

/-- A value in memory is determined by its bytes. -/
theorem eq_of_byteAt_eq {m : ℕ} {b b' : BitVec n} (hn : n = 8 * m)
    (h : ∀ i < m, byteAt b i = byteAt b' i) : b = b' := by
  apply BitVec.eq_of_getLsbD_eq
  intro i hi
  have hb := congrArg (fun v => v.toBitVec.getLsbD (i % 8)) (h (i / 8) (by omega))
  have hdm : 8 * (i / 8) + i % 8 = i := Nat.div_add_mod i 8
  have hm : i % 8 < 8 := Nat.mod_lt i (by decide)
  simpa only [byteAt, getLsbD_field, decide_eq_true hm, Bool.true_and, hdm] using hb

end bytes

variable {α : Type} {id offset w : ℕ} {held : List ℕ} {d d' : Disk}

theorem run_readAt {f : BitVec w → Fs α} (hid : id ∉ held) (hw : 8 * offset + w ≤ 4096) :
    (readAt id offset w f).run held d =
      (f (field (d id) (8 * offset) w)).run (id :: held) d := by
  cases hf : (f (field (d id) (8 * offset) w)).run (id :: held) d with
  | none => simp [readAt, Prog.run, hid, hw, hf]
  | some r => simp [readAt, Prog.run, hid, hw, hf]

theorem run_modifyAt {f : BitVec w → Fs (BitVec w × α)} {v : BitVec w} {a : α} {e : Disk}
    (hid : id ∉ held) (hw : 8 * offset + w ≤ 4096)
    (hf : (f (field (d id) (8 * offset) w)).run (id :: held) d = some ((v, a), e)) :
    (modifyAt id offset w f).run held d =
      some (a, Function.update e id (splice (d id) (8 * offset) v)) := by
  apply Prog.run_modify_of hid
  simp only [hw, if_true]
  rw [Prog.run_bind_of hf]
  rfl

/-- Inversion: a `modify` that gave a result ran its closure to a result. -/
theorem run_modifyAt_eq_some {f : BitVec w → Fs (BitVec w × α)} {a : α}
    (h : (modifyAt id offset w f).run held d = some (a, d')) :
    id ∉ held ∧ ∃ v d₁, (f (field (d id) (8 * offset) w)).run (id :: held) d = some ((v, a), d₁) ∧
      d' = Function.update d₁ id (splice (d id) (8 * offset) v) := by
  obtain ⟨hid, v, d₁, hb, rfl⟩ := Prog.run_modify_eq_some h
  refine ⟨hid, ?_⟩
  split_ifs at hb
  · obtain ⟨⟨x, a'⟩, d₂, hf, hr⟩ := Prog.run_bind_eq_some hb
    simp only [Prog.run_pure, Option.some.injEq, Prod.mk.injEq] at hr
    obtain ⟨⟨rfl, rfl⟩, rfl⟩ := hr
    exact ⟨x, d₂, hf, rfl⟩
  · simp at hb

/-- A closure that only computes the value it leaves behind. -/
theorem run_modifyAt_pure_some {g : BitVec w → BitVec w} {u : Unit}
    (h : (modifyAt id offset w fun b => pure (g b, ())).run held d = some (u, d')) :
    d' = Function.update d id (splice (d id) (8 * offset) (g (field (d id) (8 * offset) w))) := by
  obtain ⟨-, v, d₁, hg, rfl⟩ := run_modifyAt_eq_some h
  simp only [Prog.run_pure, Option.some.injEq, Prod.mk.injEq] at hg
  obtain ⟨⟨rfl, -⟩, rfl⟩ := hg
  rfl

/-- A whole block opened for reading. -/
theorem run_readBlock {f : Block → Fs α} (hid : id ∉ held) :
    (readAt id 0 4096 f).run held d = (f (d id)).run (id :: held) d := by
  rw [run_readAt hid (by decide)]
  simp

/-- A whole block opened for writing. -/
theorem run_modifyBlock {f : Block → Fs (Block × α)} {v : Block} {a : α} {e : Disk}
    (hid : id ∉ held) (hf : (f (d id)).run (id :: held) d = some ((v, a), e)) :
    (modifyAt id 0 4096 f).run held d = some (a, Function.update e id v) := by
  rw [run_modifyAt (v := v) (a := a) (e := e) hid (by decide) (by simpa using hf)]
  simp

theorem run_sync : blockCacheSyncAll.run [] d = some ((), d) := rfl

end RCore.EasyFs
