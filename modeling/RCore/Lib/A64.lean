import Mathlib

/-! A part of the A64 instruction set, at EL1: moves, loads and stores of pairs of registers,
branches, and how exceptions are taken and returned from. -/

namespace RCore.Lib.A64

abbrev Word := BitVec 64

abbrev Mem := Word → BitVec 8

/-- The word at an address, the lowest byte first. -/
def load (m : Mem) (a : Word) : Word :=
  .ofFnLE fun i : Fin 64 => (m (a + BitVec.ofNat 64 (i / 8))).getLsbD (i % 8)

def store (m : Mem) (a w : Word) : Mem := fun b =>
  if (b - a).toNat < 8 then w.extractLsb' (8 * (b - a).toNat) 8 else m b

/-- The address of word number `i` from `a` on. -/
def slot (a : Word) (i : ℕ) : Word := a + BitVec.ofNat 64 (8 * i)

/-- Words that are stored one after the other, each at its number from `a` on. -/
def stores (m : Mem) (a : Word) : List (ℕ × Word) → Mem
  | [] => m
  | (i, w) :: l => stores (store m (slot a i) w) a l

section memory

variable {m m' : Mem} {a b w : Word} {i k n : ℕ} {l : List (ℕ × Word)}

theorem load_congr (h : ∀ i < 8, m' (a + BitVec.ofNat 64 i) = m (a + BitVec.ofNat 64 i)) :
    load m' a = load m a := by
  unfold load
  congr 1
  funext i
  rw [h (i / 8) (by omega)]

theorem load_store_self (m : Mem) (a w : Word) : load (store m a w) a = w := by
  apply BitVec.eq_of_getLsbD_eq
  intro i hi
  have hoff : (a + BitVec.ofNat 64 (i / 8) - a).toNat = i / 8 := by
    rw [BitVec.add_comm, BitVec.add_sub_cancel, BitVec.toNat_ofNat, Nat.mod_eq_of_lt (by omega)]
  rw [load, BitVec.getLsbD_ofFnLE, dif_pos hi, store, if_pos (by rw [hoff]; omega), hoff,
    BitVec.getLsbD_extractLsb', decide_eq_true (Nat.mod_lt _ (by omega)), Bool.true_and,
    Nat.div_add_mod]

/-- Words that do not overlap. -/
theorem load_store_of_disjoint (h₁ : 8 ≤ (b - a).toNat) (h₂ : (b - a).toNat ≤ 2 ^ 64 - 8) :
    load (store m a w) b = load m b := by
  apply load_congr
  intro i hi
  have hoff : (b + BitVec.ofNat 64 i - a).toNat = (b - a).toNat + i := by
    rw [show b + BitVec.ofNat 64 i - a = b - a + BitVec.ofNat 64 i by abel, BitVec.toNat_add,
      BitVec.toNat_ofNat]
    omega
  rw [store, if_neg (by rw [hoff]; omega)]

theorem load_store_slot (hi : 8 * (i + 1) ≤ 2 ^ 64) (hk : 8 * (k + 1) ≤ 2 ^ 64) :
    load (store m (slot a i) w) (slot a k) = if k = i then w else load m (slot a k) := by
  split_ifs with hki
  · rw [hki, load_store_self]
  · have hdiff : (slot a k - slot a i).toNat = (2 ^ 64 - 8 * i + 8 * k) % 2 ^ 64 := by
      rw [slot, slot, show a + BitVec.ofNat 64 (8 * k) - (a + BitVec.ofNat 64 (8 * i)) =
        BitVec.ofNat 64 (8 * k) - BitVec.ofNat 64 (8 * i) by abel, BitVec.toNat_sub,
        BitVec.toNat_ofNat, BitVec.toNat_ofNat]
      omega
    apply load_store_of_disjoint <;> rw [hdiff] <;> omega

/-- What is loaded is what has been stored there last. -/
theorem load_stores (hn : 8 * n ≤ 2 ^ 64) (hl : ∀ p ∈ l, p.1 < n) (hk : k < n) :
    load (stores m a l) (slot a k) = (l.reverse.lookup k).getD (load m (slot a k)) := by
  induction l generalizing m with
  | nil => rfl
  | cons p l ih =>
    obtain ⟨i, w⟩ := p
    have hi : i < n := hl (i, w) List.mem_cons_self
    rw [stores, ih fun p hp => hl p (List.mem_cons_of_mem _ hp), List.reverse_cons, List.lookup_append,
      load_store_slot (by omega) (by omega)]
    cases l.reverse.lookup k with
    | some w' => rfl
    | none =>
      by_cases hki : k = i
      · simp [hki]
      · have hne : (k == i) = false := beq_false_of_ne hki
        simp [List.lookup, hne, hki]

/-- Nothing else changes. -/
theorem stores_apply (hn : 8 * n ≤ 2 ^ 64) (hl : ∀ p ∈ l, p.1 < n) (hb : 8 * n ≤ (b - a).toNat) :
    stores m a l b = m b := by
  induction l generalizing m with
  | nil => rfl
  | cons p l ih =>
    obtain ⟨i, w⟩ := p
    have hi : i < n := hl (i, w) List.mem_cons_self
    have hoff : (b - slot a i).toNat = (b - a).toNat - 8 * i := by
      rw [slot, show b - (a + BitVec.ofNat 64 (8 * i)) = b - a - BitVec.ofNat 64 (8 * i) by abel,
        BitVec.toNat_sub, BitVec.toNat_ofNat]
      omega
    rw [stores, ih fun p hp => hl p (List.mem_cons_of_mem _ hp), store, if_neg (by rw [hoff]; omega)]

/-- The `n` bytes at two addresses do not overlap. -/
def Apart (n : ℕ) (a b : Word) : Prop := n ≤ (b - a).toNat ∧ n ≤ (a - b).toNat

instance (n : ℕ) (a b : Word) : Decidable (Apart n a b) := inferInstanceAs (Decidable (_ ∧ _))

/-- A change to the bytes at `a` is none to the words at `b`. -/
theorem load_slot_of_apart (hab : Apart n a b) (h : ∀ c, n ≤ (c - a).toNat → m' c = m c)
    (hk : 8 * (k + 1) ≤ n) : load m' (slot b k) = load m (slot b k) := by
  obtain ⟨hba, hflip⟩ := hab
  apply load_congr
  intro i hi
  apply h
  rw [slot, show b + BitVec.ofNat 64 (8 * k) + BitVec.ofNat 64 i - a =
    b - a + (BitVec.ofNat 64 (8 * k) + BitVec.ofNat 64 i) by abel, ← BitVec.ofNat_add,
    BitVec.toNat_add, BitVec.toNat_ofNat]
  rw [BitVec.toNat_sub] at hba hflip ⊢
  omega

end memory

inductive SysReg where
  | spEl0
  | elrEl1
  | spsrEl1
  | tpidrEl0
  | ttbr0El1
deriving DecidableEq

/-- Registers are written as numerals. -/
scoped instance neZero : NeZero 31 := ⟨by decide⟩

/-- The registers, with `sp` that of EL1, and memory. -/
structure State where
  x : Fin 31 → Word
  sp : Word
  sys : SysReg → Word
  mem : Mem
  pc : Word
  pstate : Word

/-- The register that an address is relative to. -/
inductive Base where
  | sp
  | x (r : Fin 31)

/-- The offset of a pair is in words. -/
inductive Instr where
  | stp (r₁ r₂ : Fin 31) (base : Base) (offset : ℕ)
  | ldp (r₁ r₂ : Fin 31) (base : Base) (offset : ℕ)
  /-- `mov r, imm` -/
  | mov (r : Fin 31) (imm : Word)
  /-- `mov r, sp` -/
  | movFromSp (r : Fin 31)
  /-- `mov sp, r` -/
  | movToSp (r : Fin 31)
  | mrs (r : Fin 31) (reg : SysReg)
  | msr (reg : SysReg) (r : Fin 31)
  | addSp (imm : ℕ)
  | subSp (imm : ℕ)
  | b (target : Word)
  | bl (target : Word)
  | ret
  | eret

namespace State

def base (s : State) : Base → Word
  | .sp => s.sp
  | .x r => s.x r

def setX (s : State) (r : Fin 31) (w : Word) : State := { s with x := Function.update s.x r w }

def setSys (s : State) (reg : SysReg) (w : Word) : State :=
  { s with sys := Function.update s.sys reg w }

def next (s : State) : State := { s with pc := s.pc + 4 }

end State

/-- What an instruction does. Both words of a pair are loaded before a register is written. -/
def Instr.exec (s : State) : Instr → State
  | .stp r₁ r₂ base k => { s with mem := stores s.mem (s.base base) [(k, s.x r₁), (k + 1, s.x r₂)] }.next
  | .ldp r₁ r₂ base k =>
    ((s.setX r₁ (load s.mem (slot (s.base base) k))).setX r₂ (load s.mem (slot (s.base base) (k + 1)))).next
  | .mov r imm => (s.setX r imm).next
  | .movFromSp r => (s.setX r s.sp).next
  | .movToSp r => { s with sp := s.x r }.next
  | .mrs r reg => (s.setX r (s.sys reg)).next
  | .msr reg r => (s.setSys reg (s.x r)).next
  | .addSp imm => { s with sp := s.sp + BitVec.ofNat 64 imm }.next
  | .subSp imm => { s with sp := s.sp - BitVec.ofNat 64 imm }.next
  | .b target => { s with pc := target }
  | .bl target => { s.setX 30 (s.pc + 4) with pc := target }
  | .ret => { s with pc := s.x 30 }
  | .eret => { s with pc := s.sys .elrEl1, pstate := s.sys .spsrEl1 }

/-- Instructions one after the other. -/
def run (s : State) : List Instr → State
  | [] => s
  | i :: is => run (i.exec s) is

theorem run_append (s : State) (is js : List Instr) : run s (is ++ js) = run (run s is) js := by
  induction is generalizing s with
  | nil => rfl
  | cons i is ih => exact ih (i.exec s)

/-- Registers are loaded in pairs: `2 * k + d` and the next one from word `2 * k` on. -/
def loadPairs (base : Base) (d : ℕ) (ks : List ℕ) : List Instr :=
  ks.map fun k => .ldp (Fin.ofNat 31 (2 * k + d)) (Fin.ofNat 31 (2 * k + d + 1)) base (2 * k)

theorem run_loadPairs (s : State) (base : Base) (d : ℕ) (ks : List ℕ) (hks : ∀ k ∈ ks, 2 * k + d + 1 < 31)
    (hbase : ∀ r, base = .x r → r.val < d) : ∃ pc, run s (loadPairs base d ks) =
      { s with
        x := fun r => if d ≤ r.val ∧ (r.val - d) / 2 ∈ ks then load s.mem (slot (s.base base) (r.val - d)) else s.x r
        pc } := by
  induction ks generalizing s with
  | nil => exact ⟨s.pc, by simp [loadPairs, run]⟩
  | cons k ks ih =>
    have hk := hks k List.mem_cons_self
    obtain ⟨s₁, hs₁⟩ : ∃ s₁, s₁ =
      (Instr.ldp (Fin.ofNat 31 (2 * k + d)) (Fin.ofNat 31 (2 * k + d + 1)) base (2 * k)).exec s := ⟨_, rfl⟩
    have hx : ∀ r, s₁.x r =
        if d ≤ r.val ∧ (r.val - d) / 2 = k then load s.mem (slot (s.base base) (r.val - d)) else s.x r := by
      intro r
      rw [hs₁]
      change Function.update (Function.update s.x _ (load s.mem (slot (s.base base) (2 * k)))) _
        (load s.mem (slot (s.base base) (2 * k + 1))) r = _
      simp only [Function.update_apply, Fin.ext_iff, Fin.val_ofNat]
      grind
    have hb : s₁.base base = s.base base := by
      cases base with
      | sp => rw [hs₁]; rfl
      | x r => exact (hx r).trans (if_neg (by have := hbase r rfl; omega))
    obtain ⟨pc, hrun⟩ := ih s₁ fun k hk => hks k (List.mem_cons_of_mem _ hk)
    refine ⟨pc, ?_⟩
    change run (Instr.exec s _) (loadPairs base d ks) = _
    rw [← hs₁, hrun, hb]
    rw [hs₁] at hx ⊢
    congr 1
    funext r
    rw [hx]
    change (if _ then load s.mem _ else _) = _
    simp only [List.mem_cons]
    grind

/-- Why an exception is taken, and from where, in the order of the vectors. -/
inductive Kind where
  | synchronous
  | irq
  | fiq
  | sError

inductive Source where
  | currentSpEl0
  | currentSpElx
  | lowerAArch64
  | lowerAArch32

/-- The number of the vector. -/
def vector (kind : Kind) (source : Source) : ℕ := 4 * source.ctorIdx + kind.ctorIdx

/-- EL1 with its own stack pointer, and all exceptions masked. -/
def PSTATE_TAKEN : Word := 0x3c5

/-- An exception is taken to EL1. Vectors are 128 bytes apart. -/
def State.takeException (s : State) (vbar : Word) (kind : Kind) (source : Source) : State :=
  { (s.setSys .elrEl1 s.pc).setSys .spsrEl1 s.pstate with
    pc := vbar + BitVec.ofNat 64 (128 * vector kind source)
    pstate := PSTATE_TAKEN }

end RCore.Lib.A64
