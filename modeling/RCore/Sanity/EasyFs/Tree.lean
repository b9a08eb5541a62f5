import RCore.Sanity.EasyFs.Block
import RCore.Spec.EasyFs.Layout

/-! The block tree of an inode, as a list of pointers. A `Slot` is a place that
holds a block id: an entry of the inode, of the indirect block, of the double
indirect block or of a block below it. A file of `n` blocks uses the slots
`slotsUpTo n`, in the order in which `increase_size` fills and `clear_size`
empties them. -/

namespace RCore.EasyFs

open RCore.Lib

inductive Slot where
  | direct (i : ℕ)
  | ind1
  | word1 (j : ℕ)
  | ind2
  | sub (a : ℕ)
  | leaf (a b : ℕ)
deriving DecidableEq

namespace Slot

/-- The block id in a slot. -/
def load (d : Disk) (x : DiskInode) : Slot → U32
  | .direct i => x.direct i
  | .ind1 => x.indirect1
  | .word1 j => u32At (d x.indirect1.toNat) j
  | .ind2 => x.indirect2
  | .sub a => u32At (d x.indirect2.toNat) a
  | .leaf a b => u32At (d (u32At (d x.indirect2.toNat) a).toNat) b

/-- The slot that holds the id of the block this slot lies in, if it does not
lie in the inode itself. -/
def base : Slot → Option Slot
  | .word1 _ => some .ind1
  | .sub _ => some .ind2
  | .leaf a _ => some (.sub a)
  | _ => none

/-- The position of the slot in its block. -/
def pos : Slot → ℕ
  | .word1 j => j
  | .sub a => a
  | .leaf _ b => b
  | _ => 0

/-- The slot with `v` in it. -/
def store (s : Disk × DiskInode) (σ : Slot) (v : U32) : Disk × DiskInode :=
  match σ with
  | .direct i => (s.1, s.2.setDirect i v)
  | .ind1 => (s.1, s.2.setIndirect1 v)
  | .ind2 => (s.1, s.2.setIndirect2 v)
  | .word1 j =>
    let c := s.2.indirect1.toNat
    (Function.update s.1 c (setU32 (s.1 c) j v), s.2)
  | .sub a =>
    let c := s.2.indirect2.toNat
    (Function.update s.1 c (setU32 (s.1 c) a v), s.2)
  | .leaf a b =>
    let c := (u32At (s.1 s.2.indirect2.toNat) a).toNat
    (Function.update s.1 c (setU32 (s.1 c) b v), s.2)

def storeAll (s : Disk × DiskInode) : List Slot → List U32 → Disk × DiskInode
  | σ :: T, v :: vs => storeAll (store s σ v) T vs
  | _, _ => s

/-- The indices of the slot are in range. -/
def Ok : Slot → Prop
  | .direct i => i < 28
  | .word1 j => j < 128
  | .sub a => a < 128
  | .leaf a b => a < 128 ∧ b < 128
  | _ => True

/-- The number of the data block with which a file starts to use the slot. -/
def index : Slot → ℕ
  | .direct i => i
  | .ind1 => 28
  | .word1 j => 28 + j
  | .ind2 => 156
  | .sub a => 156 + 128 * a
  | .leaf a b => 156 + 128 * a + b

end Slot

open Slot

/-- The slots that the double indirect tree needs for its block number `q`. -/
def subSlots (q : ℕ) : List Slot :=
  if q % 128 = 0 then [.sub (q / 128), .leaf (q / 128) (q % 128)]
  else [.leaf (q / 128) (q % 128)]

/-- The slots that a file needs for its block number `k`. The last one holds the
id of that block. -/
def slots (k : ℕ) : List Slot :=
  if k < 28 then [.direct k]
  else if k = 28 then [.ind1, .word1 0]
  else if k < 156 then [.word1 (k - 28)]
  else if k = 156 then .ind2 :: subSlots 0
  else subSlots (k - 156)

/-- The slot of the id of data block `k`. -/
def dataSlot (k : ℕ) : Slot :=
  if k < 28 then .direct k
  else if k < 156 then .word1 (k - 28)
  else .leaf ((k - 156) / 128) ((k - 156) % 128)

def slotsFrom (k m : ℕ) : List Slot := (List.range' k m).flatMap slots

def slotsUpTo (n : ℕ) : List Slot := slotsFrom 0 n

/-- The blocks a file of `n` blocks owns: data blocks and indirect blocks. -/
def ownedUpTo (d : Disk) (x : DiskInode) (n : ℕ) : List U32 := (slotsUpTo n).map (load d x)

namespace Slot

theorem load_of_base {d : Disk} {x : DiskInode} {σ β : Slot} (h : σ.base = some β) :
    load d x σ = u32At (d (load d x β).toNat) σ.pos := by
  cases σ <;> simp only [base, Option.some.injEq, reduceCtorEq] at h <;> subst h <;> rfl

theorem store_of_base {d : Disk} {x : DiskInode} {σ β : Slot} {v : U32} (h : σ.base = some β) :
    store (d, x) σ v = (Function.update d (load d x β).toNat
      (setU32 (d (load d x β).toNat) σ.pos v), x) := by
  cases σ <;> simp only [base, Option.some.injEq, reduceCtorEq] at h <;> subst h <;> rfl

theorem store_fst_of_base {d : Disk} {x : DiskInode} {σ β : Slot} {v : U32}
    (h : σ.base = some β) : (store (d, x) σ v).1 = Function.update d (load d x β).toNat
      (setU32 (d (load d x β).toNat) σ.pos v) := by
  rw [store_of_base h]

theorem store_fst_of_base_none {s : Disk × DiskInode} {σ : Slot} {v : U32} (h : σ.base = none) :
    (store s σ v).1 = s.1 := by
  cases σ <;> simp only [base, reduceCtorEq] at h <;> rfl

/-- Slots in one block are told apart by their positions. -/
theorem pos_ne {σ τ β : Slot} (hσ : σ.base = some β) (hτ : τ.base = some β) (h : σ ≠ τ) :
    σ.pos ≠ τ.pos := by
  cases σ <;> simp only [base, Option.some.injEq, reduceCtorEq] at hσ <;> subst hσ <;>
    cases τ <;> simp_all [base, pos]

theorem pos_lt {σ β : Slot} (hσ : σ.base = some β) (h : σ.Ok) : σ.pos < 128 := by
  cases σ <;> simp_all [base, pos, Ok]

/-- Storing into one slot of the inode keeps the other slots of the inode. -/
theorem load_store_inode {d : Disk} {x : DiskInode} {σ τ : Slot} {v : U32}
    (hσ : σ.base = none) (hτ : τ.base = none) (h : τ ≠ σ) (hok : σ.Ok) (hok' : τ.Ok) :
    load (store (d, x) σ v).1 (store (d, x) σ v).2 τ = load d x τ := by
  cases σ <;> simp only [base, reduceCtorEq] at hσ <;>
    cases τ <;> simp only [base, reduceCtorEq] at hτ <;>
    simp only [Ok, ne_eq, direct.injEq, reduceCtorEq, not_true_eq_false] at hok hok' h <;>
    exact field_splice_disjoint _ _ _ _ (by omega)

theorem load_store_inode_self {d : Disk} {x : DiskInode} {σ : Slot} {v : U32}
    (hσ : σ.base = none) (hok : σ.Ok) :
    load (store (d, x) σ v).1 (store (d, x) σ v).2 σ = v := by
  cases σ <;> simp only [base, reduceCtorEq] at hσ <;> simp only [Ok] at hok <;>
    exact field_splice_self _ _ _ (by omega)

end Slot

/-- A set of slots that holds, with each slot, the one its block hangs on. -/
structure Closed (S : List Slot) : Prop where
  ok : ∀ σ ∈ S, σ.Ok
  base : ∀ σ ∈ S, ∀ β, σ.base = some β → β ∈ S

/-- `T` can be appended to `S` slot by slot. -/
inductive Extends : List Slot → List Slot → Prop
  | nil (S : List Slot) : Extends S []
  | cons {S T : List Slot} {σ : Slot} (ok : σ.Ok) (fresh : σ ∉ S)
      (base : ∀ β, σ.base = some β → β ∈ S) (rest : Extends (S ++ [σ]) T) : Extends S (σ :: T)

theorem Closed.snoc {S : List Slot} {σ : Slot} (h : Closed S) (hok : σ.Ok)
    (hb : ∀ β, σ.base = some β → β ∈ S) : Closed (S ++ [σ]) := by
  constructor
  · intro τ hτ
    rcases List.mem_append.mp hτ with hτ | hτ
    · exact h.ok τ hτ
    · rw [List.mem_singleton.mp hτ]; exact hok
  · intro τ hτ β hβ
    apply List.mem_append_left
    rcases List.mem_append.mp hτ with hτ | hτ
    · exact h.base τ hτ β hβ
    · exact hb β (List.mem_singleton.mp hτ ▸ hβ)

/-- The depth of a slot in the tree. -/
def depth : Slot → ℕ
  | .word1 _ => 1
  | .sub _ => 1
  | .leaf _ _ => 2
  | _ => 0

theorem depth_base {σ β : Slot} (h : σ.base = some β) : depth β < depth σ := by
  cases σ <;> simp only [Slot.base, Option.some.injEq, reduceCtorEq] at h <;> subst h <;>
    simp [depth]

variable {d : Disk} {x : DiskInode} {S : List Slot}

/-- Filling a new slot keeps all the old ones, when no block is shared. -/
theorem load_store (hS : Closed S) (hnd : (S.map (load d x)).Nodup) {σ : Slot} (hok : σ.Ok)
    (hσ : σ ∉ S) (hb : ∀ β, σ.base = some β → β ∈ S) (v : U32) {τ : Slot} (hτ : τ ∈ S) :
    load (store (d, x) σ v).1 (store (d, x) σ v).2 τ = load d x τ := by
  -- induction on the depth of `τ`: its block is where it was, by hypothesis
  induction hn : depth τ using Nat.strong_induction_on generalizing τ with
  | _ n ih =>
    have hne : τ ≠ σ := fun he => hσ (he ▸ hτ)
    cases hbτ : τ.base with
    | none =>
      cases hbσ : σ.base with
      | none => exact load_store_inode hbσ hbτ hne hok (hS.ok τ hτ)
      | some β =>
        rw [store_of_base hbσ]
        cases τ <;> simp only [Slot.base, reduceCtorEq] at hbτ <;> rfl
    | some γ =>
      have hγ := hS.base τ hτ γ hbτ
      rw [load_of_base hbτ, load_of_base hbτ, ih _ (hn ▸ depth_base hbτ) hγ rfl]
      cases hbσ : σ.base with
      | none => rw [store_fst_of_base_none hbσ]
      | some β =>
        rw [store_fst_of_base hbσ]
        by_cases hγβ : γ = β
        · subst hγβ
          rw [Function.update_self, u32At_setU32_ne _ _ (pos_ne hbσ hbτ hne.symm)]
        · have hload : (load d x γ).toNat ≠ (load d x β).toNat := by
            intro he
            exact hγβ (List.inj_on_of_nodup_map hnd hγ (hb β hbσ) (BitVec.eq_of_toNat_eq he))
          rw [Function.update_of_ne hload]

theorem load_store_self (hS : Closed S) (hnd : (S.map (load d x)).Nodup) {σ : Slot} (hok : σ.Ok)
    (hσ : σ ∉ S) (hb : ∀ β, σ.base = some β → β ∈ S) (v : U32) :
    load (store (d, x) σ v).1 (store (d, x) σ v).2 σ = v := by
  cases hbσ : σ.base with
  | none => exact load_store_inode_self hbσ hok
  | some β =>
    rw [load_of_base hbσ, load_store hS hnd hok hσ hb v (hb β hbσ), store_fst_of_base hbσ,
      Function.update_self, u32At_setU32_self _ _ (pos_lt hbσ hok)]

/-- The inode fields that no slot touches. -/
theorem size_store (s : Disk × DiskInode) (σ : Slot) (v : U32) :
    (store s σ v).2.size = s.2.size := by
  cases σ with
  | word1 j => rfl
  | sub a => rfl
  | leaf a b => rfl
  | ind1 => exact congrArg BitVec.toNat (field_splice_disjoint _ _ _ _ (by omega))
  | ind2 => exact congrArg BitVec.toNat (field_splice_disjoint _ _ _ _ (by omega))
  | direct i => exact congrArg BitVec.toNat (field_splice_disjoint _ _ _ _ (by omega))

theorem type_store (s : Disk × DiskInode) {σ : Slot} (hok : σ.Ok) (v : U32) :
    (store s σ v).2.type_ = s.2.type_ := by
  cases σ with
  | word1 j => rfl
  | sub a => rfl
  | leaf a b => rfl
  | ind1 => exact field_splice_disjoint _ _ _ _ (by omega)
  | ind2 => exact field_splice_disjoint _ _ _ _ (by omega)
  | direct i =>
    have hi : i < 28 := hok
    exact field_splice_disjoint _ _ _ _ (by omega)

/-- The bytes of an inode that no field covers. -/
def DiskInode.padding (x : DiskInode) : BitVec 24 := field x 1000 24

theorem DiskInode.padding_setSize (n : ℕ) : (x.setSize n).padding = x.padding :=
  field_splice_disjoint _ _ _ _ (by omega)

theorem padding_store (s : Disk × DiskInode) {σ : Slot} (hok : σ.Ok) (v : U32) :
    (store s σ v).2.padding = s.2.padding := by
  cases σ with
  | word1 j => rfl
  | sub a => rfl
  | leaf a b => rfl
  | ind1 => exact field_splice_disjoint _ _ _ _ (by omega)
  | ind2 => exact field_splice_disjoint _ _ _ _ (by omega)
  | direct i =>
    have hi : i < 28 := hok
    exact field_splice_disjoint _ _ _ _ (by omega)

/-- What filling the slots `T` with `vs` does to an inode that uses `S`. Only the
blocks change that a slot of `T` lies in. -/
structure Stored (d : Disk) (x : DiskInode) (S T : List Slot) (vs : List U32)
    (d' : Disk) (x' : DiskInode) : Prop where
  loads : (S ++ T).map (load d' x') = S.map (load d x) ++ vs
  frame : ∀ b, (∀ σ ∈ T, ∀ β, σ.base = some β → (load d' x' β).toNat ≠ b) → d' b = d b
  size : x'.size = x.size
  type_ : x'.type_ = x.type_

/-- The slots that were in use hold what they held. -/
theorem Stored.load_eq {T : List Slot} {vs : List U32} {d' : Disk} {x' : DiskInode}
    (h : Stored d x S T vs d' x') {σ : Slot} (hσ : σ ∈ S) : load d' x' σ = load d x σ := by
  have hloads := h.loads
  rw [List.map_append] at hloads
  have hS := List.append_inj_left hloads (by simp)
  exact List.map_inj_left.mp hS σ hσ

theorem storeAll_spec {T : List Slot} {vs : List U32} (hS : Closed S) (hT : Extends S T)
    (hlen : vs.length = T.length) (hnd : (S.map (load d x) ++ vs).Nodup) :
    Stored d x S T vs (storeAll (d, x) T vs).1 (storeAll (d, x) T vs).2 := by
  induction T generalizing d x S vs with
  | nil =>
    obtain rfl : vs = [] := List.length_eq_zero_iff.mp hlen
    exact ⟨by simp [storeAll], fun b _ => rfl, rfl, rfl⟩
  | cons σ T ih =>
    obtain ⟨v, vs, rfl⟩ : ∃ v vs', vs = v :: vs' := List.exists_cons_of_length_eq_add_one hlen
    obtain - | ⟨hok, hσ, hb, hT⟩ := hT
    have hndS : (S.map (load d x)).Nodup := hnd.of_append_left
    set s := store (d, x) σ v with hs
    have hkeep : ∀ τ ∈ S, load s.1 s.2 τ = load d x τ :=
      fun τ hτ => load_store hS hndS hok hσ hb v hτ
    have hload : (S ++ [σ]).map (load s.1 s.2) = S.map (load d x) ++ [v] := by
      rw [List.map_append, List.map_singleton, load_store_self hS hndS hok hσ hb,
        List.map_congr_left hkeep]
    have hnd' : ((S ++ [σ]).map (load s.1 s.2) ++ vs).Nodup := by
      rw [hload, List.append_assoc]
      exact hnd
    have h := ih (hS.snoc hok hb) hT (by simpa using hlen) hnd'
    rw [storeAll, ← hs, show s = (s.1, s.2) from rfl]
    refine ⟨?_, ?_, ?_, ?_⟩
    · have := h.loads
      rw [hload] at this
      simpa using this
    · intro b hbd
      rw [h.frame b fun τ hτ => hbd τ (List.mem_cons_of_mem _ hτ)]
      cases hbσ : σ.base with
      | none => rw [hs, store_fst_of_base_none hbσ]
      | some β =>
        have hβ : load _ _ β = load d x β :=
          (h.load_eq (List.mem_append_left _ (hb β hbσ))).trans (hkeep β (hb β hbσ))
        have hne := hbd σ List.mem_cons_self β hbσ
        rw [hβ] at hne
        rw [hs, store_fst_of_base hbσ, Function.update_of_ne hne.symm]
    · rw [h.size, hs, size_store]
    · rw [h.type_, hs, type_store _ hok]

end RCore.EasyFs
