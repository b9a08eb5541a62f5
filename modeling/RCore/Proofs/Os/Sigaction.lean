import RCore.Proofs.Mm.Uaccess
import RCore.Proofs.Os.Exec
import RCore.Proofs.Os.Kill
import RCore.Spec.Os.Sigaction

/-! `sys_sigaction`: whether it saves the action that was set, and sets the one it is given. -/

namespace RCore.Os

open RCore.Lib RCore.Mm Logged Memory SignalFlags

variable {mem mem' : Memory} {p a o x : Usize} {actions : SignalActions} {action : SignalAction}
  {signum : ℤ} {padding : Vector UInt8 4}

/-! Actions in memory -/

namespace SignalAction

theorem ofBytes_toBytes (action : SignalAction) (padding : Vector UInt8 4) :
    ofBytes (action.toBytes padding) = action := by
  have hlen : (leBytes action.handler.toBitVec).length = 8 := length_leBytes _
  have hmask : Nat.ofDigits 256 (((List.range 4).map fun i =>
      UInt8.ofNat (action.mask.bits.toNat / 256 ^ i)).map UInt8.toNat) = action.mask.bits.toNat := by
    have hlt := action.mask.bits.isLt
    simp only [List.range_succ, List.range_zero, List.nil_append, List.cons_append, List.map_cons,
      List.map_nil, UInt8.toNat_ofNat', Nat.ofDigits_cons, Nat.ofDigits_nil]
    omega
  have htake : (action.toBytes padding).take 8 = leBytes action.handler.toBitVec := by
    rw [toBytes, List.append_assoc, List.take_left' hlen]
  have hdrop : ((action.toBytes padding).drop 8).take 4 =
      (List.range 4).map fun i => UInt8.ofNat (action.mask.bits.toNat / 256 ^ i) := by
    rw [toBytes, List.append_assoc, List.drop_left' hlen, List.take_left' (by simp)]
  rw [ofBytes, htake, hdrop, ofLeBytes_leBytes, hmask, BitVec.ofNat_toNat, BitVec.setWidth_eq]

end SignalAction

/-- The action at an address. -/
def actionAt (mem : Memory) (p : Usize) : Option SignalAction := (mem.bytes p 16).map .ofBytes

/-- An address that a user can give for an action. -/
structure ActionPtr (mem : Memory) (p : Usize) : Prop where
  valid : UserPtr.Valid Layout.signalAction p
  mapped : Mapped mem p.toNat (p.toNat + 16)

namespace ActionPtr

theorem lt (h : ActionPtr mem p) : p.toNat + 16 < 2 ^ 64 :=
  h.valid.le.trans_lt (by decide)

theorem ne_zero (h : ActionPtr mem p) : p ≠ 0 := by
  rintro rfl
  exact Nat.lt_irrefl 0 h.valid.pos

theorem exists_action (h : ActionPtr mem p) : ∃ action, actionAt mem p = some action := by
  obtain ⟨bytes, hbytes⟩ := bytes_of_mapped h.mapped h.lt
  exact ⟨.ofBytes bytes, by rw [actionAt, hbytes]; rfl⟩

/-- What is read is the action at the address. -/
theorem read (h : ActionPtr mem p) (haction : actionAt mem p = some action) :
    (readAction p mem).2 = .ok (action, mem) := by
  obtain ⟨bytes, hbytes, rfl⟩ := Option.map_eq_some_iff.mp haction
  obtain ⟨hhas, hlen⟩ := has_of_bytes hbytes
  rw [readAction, bind_of_ok (h.valid.read hhas hlen)]
  rfl

/-- What is written is the action at the address then. -/
theorem write (h : ActionPtr mem p) (action : SignalAction) (padding : Vector UInt8 4) :
    ∃ mem', (writeAction p action padding mem).2 = .ok ((), mem') ∧
      mem' = mem.write p (action.toBytes padding) ∧ actionAt mem' p = some action ∧
      (∀ q, ActionPtr mem q → ActionPtr mem' q) := by
  have hlen := action.length_toBytes padding
  have hlt : p.toNat + (action.toBytes padding).length < 2 ^ 64 := by rw [hlen]; exact h.lt
  refine ⟨_, h.valid.write h.mapped _ hlen, rfl, ?_, fun q hq => ⟨hq.valid, ?_⟩⟩
  · have hbytes := (write_has mem p (action.toBytes padding) hlt).bytes_eq
    rw [hlen] at hbytes
    rw [actionAt, show (action.toValues padding).bytes = action.toBytes padding from rfl, hbytes,
      Option.map_some, SignalAction.ofBytes_toBytes]
  · exact hq.mapped.changed (write_changed mem p (action.toBytes padding) hlt)

end ActionPtr

/-- Bytes that are apart from those that are written stay. -/
theorem actionAt_write (h : ActionPtr mem p) (action : SignalAction) (padding : Vector UInt8 4)
    (hq : ActionPtr mem a) (hapart : a.toNat + 16 ≤ p.toNat ∨ p.toNat + 16 ≤ a.toNat) :
    actionAt (mem.write p (action.toBytes padding)) a = actionAt mem a := by
  obtain ⟨bytes, hbytes⟩ := bytes_of_mapped hq.mapped hq.lt
  obtain ⟨hhas, hlen⟩ := has_of_bytes hbytes
  have hwritten := action.length_toBytes padding
  have hlt : p.toNat + (action.toBytes padding).length < 2 ^ 64 := by rw [hwritten]; exact h.lt
  have hbound := hq.lt
  have hhas' := hhas.changed (by omega) (write_changed mem p (action.toBytes padding) hlt) (by omega)
  have hbytes' := hhas'.bytes_eq
  rw [hlen] at hbytes'
  rw [actionAt, actionAt, hbytes, hbytes']

/-! The call -/

/-- What is written to `old_action`: the action that was set, or its handler only. -/
def savedAction (old user : SignalAction) : SignalAction :=
  if old.mask ≠ TRAP_QUIT then old else { user with handler := old.handler }

theorem savedAction_eq_iff (old user : SignalAction) :
    savedAction old user = old ↔ old.mask ≠ TRAP_QUIT ∨ user.mask = TRAP_QUIT := by
  rw [savedAction]
  split_ifs with hmask
  · exact iff_of_true rfl (.inl hmask)
  · obtain ⟨handler, mask⟩ := old
    rw [not_not] at hmask
    subst hmask
    rw [SignalAction.mk.injEq]
    exact ⟨fun h => .inr h.2, fun h => ⟨rfl, h.resolve_left (not_not.mpr rfl)⟩⟩

theorem shift_ne {sig : Fin (MAX_SIG + 1)} (hkill : sig ≠ 9) (hstop : sig ≠ 19) :
    (⟨shift sig⟩ : SignalFlags) ≠ SIGKILL ∧ (⟨shift sig⟩ : SignalFlags) ≠ SIGSTOP := by
  revert sig
  decide +kernel

/-- What the call does. -/
theorem sigaction_spec (sig : Fin (MAX_SIG + 1)) (hkill : sig ≠ 9) (hstop : sig ≠ 19)
    (ha : ActionPtr mem a) (ho : ActionPtr mem o) (actions : SignalActions) (padding : Vector UInt8 4)
    {user : SignalAction} (huser : actionAt mem o = some user) :
    ∃ new mem', (sigaction actions sig a o padding mem).2 =
        .ok ((0, ⟨Function.update actions.table sig new⟩), mem') ∧
      mem' = mem.write o ((savedAction (actions.table sig) user).toBytes padding) ∧
      actionAt mem' a = some new ∧ actionAt mem' o = some (savedAction (actions.table sig) user) ∧
      ∀ q, ActionPtr mem q → ActionPtr mem' q := by
  have hrange : 0 ≤ (sig : ℤ) ∧ (sig : ℤ) ≤ MAX_SIG := ⟨by omega, by have := sig.isLt; omega⟩
  obtain ⟨hk, hs⟩ := shift_ne hkill hstop
  have hgo : ¬ (a = 0 ∨ o = 0 ∨ (⟨shift sig⟩ : SignalFlags) = SIGKILL ∨
      (⟨shift sig⟩ : SignalFlags) = SIGSTOP) := by
    rintro (h | h | h | h)
    · exact ha.ne_zero h
    · exact ho.ne_zero h
    · exact hk h
    · exact hs h
  obtain ⟨mem', hwrite, hmem', ho', hptr⟩ := ho.write (savedAction (actions.table sig) user) padding
  obtain ⟨new, hnew⟩ := (hptr a ha).exists_action
  refine ⟨new, mem', ?_, hmem', hnew, ho', hptr⟩
  have hsig : (⟨(sig : ℤ).toNat, by omega⟩ : Fin (MAX_SIG + 1)) = sig := Fin.ext (Int.toNat_natCast _)
  simp only [sigaction, dif_pos hrange, fromBits, if_neg hgo, hsig]
  have hread := (hptr a ha).read hnew
  rw [savedAction] at hwrite
  split_ifs at hwrite ⊢ with hmask
  · rw [bind_of_ok hwrite, bind_of_ok hread]
    rfl
  · rw [bind_of_ok (ho.read huser), bind_of_ok hwrite, bind_of_ok hread]
    rfl

/-- The call in the kernel is given the action that is read, and sets it in the process of the
current task. -/
theorem sysSigaction_of_sigaction {k : Kernel} {pid : ℕ} {proc : Process} {user : SignalAction}
    (hproc : k.proc = .ok (pid, proc)) (hlock : .signalActions pid ∉ k.leakedLocks)
    (sig : Fin (MAX_SIG + 1)) (hkill : sig ≠ 9) (hstop : sig ≠ 19) (ha : ActionPtr mem a)
    (ho : ActionPtr mem o) (padding : Vector UInt8 4) (huser : actionAt mem o = some user) :
    ∃ new mem', (sigaction proc.signalActions sig a o padding mem).2 =
        .ok ((0, ⟨Function.update proc.signalActions.table sig new⟩), mem') ∧
      k.sysSigaction sig (some (.mapped new)) (some (.mapped ())) =
        .ok (.ret 0, k.modifyProc pid fun p =>
          { p with signalActions := ⟨Function.update p.signalActions.table sig new⟩ }) := by
  obtain ⟨new, mem', hrun, -⟩ := sigaction_spec sig hkill hstop ha ho proc.signalActions padding huser
  refine ⟨new, mem', hrun, ?_⟩
  have hrange : 0 ≤ (sig : ℤ) ∧ (sig : ℤ) ≤ MAX_SIG := ⟨by omega, by have := sig.isLt; omega⟩
  obtain ⟨hk, hs⟩ := shift_ne hkill hstop
  have hgo : ¬ ((⟨shift sig⟩ : SignalFlags) = SIGKILL ∨ (⟨shift sig⟩ : SignalFlags) = SIGSTOP) := by
    rintro (h | h)
    · exact hk h
    · exact hs h
  have hsig : (⟨(sig : ℤ).toNat, by omega⟩ : Fin (MAX_SIG + 1)) = sig := Fin.ext (Int.toNat_natCast _)
  have hfree : k.lock (.signalActions pid) = .ok () := if_neg hlock
  simp only [Kernel.sysSigaction, dif_pos hrange, fromBits, if_neg hgo, hproc, Bind.bind, Except.bind,
    hfree, Kernel.access, hsig]
  rfl

theorem actionPtr_zero {p : Usize} (hvalid : UserPtr.Valid Layout.signalAction p) :
    ActionPtr (fun _ => some 0) p := ⟨hvalid, fun _ _ _ => rfl⟩

/-- A table in which a handler is set for every signal. -/
def SignalActions.handled : SignalActions := ⟨fun _ => ⟨0x4000, .empty⟩⟩

end RCore.Os
