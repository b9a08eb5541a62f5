import RCore.Sanity.EasyFs.Bytes

/-! Filling slots, word by word: which words of the disk change, and what the outcome
depends on. -/

namespace RCore.EasyFs

open RCore.Lib Slot

variable {held : List ℕ} {d e : Disk} {x : DiskInode} {S T : List Slot} {vs : List U32}

theorem storeAll_setSize (n : ℕ) (T : List Slot) (vs : List U32) (d : Disk) (x : DiskInode) :
    storeAll (d, x.setSize n) T vs =
      ((storeAll (d, x) T vs).1, (storeAll (d, x) T vs).2.setSize n) := by
  induction T generalizing d x vs with
  | nil => rw [storeAll_nil, storeAll_nil]
  | cons σ T ih =>
    cases vs with
    | nil => rfl
    | cons v vs => rw [storeAll, storeAll, DiskInode.store_setSize, ih]

theorem padding_storeAll (hT : ∀ σ ∈ T, σ.Ok) (vs : List U32) (s : Disk × DiskInode) :
    (storeAll s T vs).2.padding = s.2.padding := by
  induction T generalizing s vs with
  | nil => rw [storeAll_nil]
  | cons σ T ih =>
    cases vs with
    | nil => rfl
    | cons v vs =>
      rw [storeAll, ih (fun τ hτ => hT τ (by simp [hτ])), padding_store _ (hT σ (by simp))]

/-- Filling one slot changes one word. -/
theorem u32At_store {σ : Slot} {v : U32} {c p : ℕ}
    (h : ∀ β, σ.base = some β → (load d x β).toNat = c → σ.pos ≠ p) :
    u32At ((store (d, x) σ v).1 c) p = u32At (d c) p := by
  cases hb : σ.base with
  | none => rw [store_fst_of_base_none hb]
  | some β =>
    rw [store_fst_of_base hb, Function.update_apply]
    split_ifs with hc
    · rw [u32At_setU32_ne _ _ (h β hb hc.symm), hc]
    · rfl

/-- Filling the first of the slots leaves the others to be filled as before, and what
the slots in use hold is what they hold in the end. -/
theorem Extends.filled {σ : Slot} {v : U32} (hS : Closed S) (hT : Extends S (σ :: T))
    (hlen : vs.length = T.length) (hnd : (S.map (load d x) ++ v :: vs).Nodup) :
    Closed (S ++ [σ]) ∧ Extends (S ++ [σ]) T ∧
    ((S ++ [σ]).map (load (store (d, x) σ v).1 (store (d, x) σ v).2) ++ vs).Nodup ∧
    ∀ τ ∈ S, load (storeAll (store (d, x) σ v) T vs).1 (storeAll (store (d, x) σ v) T vs).2 τ =
      load d x τ := by
  obtain - | ⟨hok, hσ, hb, hT⟩ := hT
  have hndS : (S.map (load d x)).Nodup := hnd.of_append_left
  have hkeep : ∀ τ ∈ S, load (store (d, x) σ v).1 (store (d, x) σ v).2 τ = load d x τ :=
    fun τ hτ => load_store hS hndS hok hσ hb v hτ
  have hload : (S ++ [σ]).map (load (store (d, x) σ v).1 (store (d, x) σ v).2) =
      S.map (load d x) ++ [v] := by
    rw [List.map_append, List.map_singleton, load_store_self hS hndS hok hσ hb,
      List.map_congr_left hkeep]
  have hnd' : ((S ++ [σ]).map (load (store (d, x) σ v).1 (store (d, x) σ v).2) ++ vs).Nodup := by
    rw [hload, List.append_assoc]
    exact hnd
  have hclosed := hS.snoc hok hb
  refine ⟨hclosed, hT, hnd', fun τ hτ => ?_⟩
  have hst := storeAll_spec hclosed hT hlen hnd'
  exact (hst.load_eq (List.mem_append_left _ hτ)).trans (hkeep τ hτ)

/-- Filling slots changes the words that the slots lie in, and no others. -/
theorem u32At_storeAll (hS : Closed S) (hT : Extends S T) (hlen : vs.length = T.length)
    (hnd : (S.map (load d x) ++ vs).Nodup) {c p : ℕ}
    (h : ∀ τ ∈ T, ∀ β, τ.base = some β →
      (load (storeAll (d, x) T vs).1 (storeAll (d, x) T vs).2 β).toNat = c → τ.pos ≠ p) :
    u32At ((storeAll (d, x) T vs).1 c) p = u32At (d c) p := by
  induction T generalizing d x S vs with
  | nil => rw [storeAll_nil]
  | cons σ T ih =>
    obtain ⟨v, vs, rfl⟩ : ∃ v vs', vs = v :: vs' := List.exists_cons_of_length_eq_add_one hlen
    rw [List.length_cons, List.length_cons, Nat.add_right_cancel_iff] at hlen
    obtain ⟨hS', hT', hnd', hkeep⟩ := hT.filled hS hlen hnd
    have hfirst : u32At ((store (d, x) σ v).1 c) p = u32At (d c) p := by
      apply u32At_store
      intro β hβ hc
      obtain - | ⟨-, -, hb, -⟩ := hT
      exact h σ List.mem_cons_self β hβ (by rw [storeAll, hkeep β (hb β hβ), hc])
    rw [← hfirst, storeAll]
    rw [storeAll] at h
    generalize store (d, x) σ v = s at *
    exact ih (d := s.1) (x := s.2) hS' hT' hlen hnd' fun τ hτ => h τ (List.mem_cons_of_mem _ hτ)

/-- Filling slots depends on the blocks that they lie in, and on no others. -/
theorem storeAll_congr {D : ℕ → Prop} (hS : Closed S) (hT : Extends S T)
    (hlen : vs.length = T.length) (hnd : (S.map (load d x) ++ vs).Nodup)
    (he : ∀ c, ¬ D c → e c = d c)
    (hout : ∀ τ ∈ S ++ T, ∀ β, τ.base = some β →
      ¬ D (load (storeAll (d, x) T vs).1 (storeAll (d, x) T vs).2 β).toNat) :
    (storeAll (e, x) T vs).2 = (storeAll (d, x) T vs).2 ∧
    (∀ c, ¬ D c → (storeAll (e, x) T vs).1 c = (storeAll (d, x) T vs).1 c) ∧
    ∀ c, D c → (storeAll (e, x) T vs).1 c = e c := by
  induction T generalizing d e x S vs with
  | nil =>
    rw [storeAll_nil, storeAll_nil]
    exact ⟨rfl, he, fun _ _ => rfl⟩
  | cons σ T ih =>
    obtain ⟨v, vs, rfl⟩ : ∃ v vs', vs = v :: vs' := List.exists_cons_of_length_eq_add_one hlen
    rw [List.length_cons, List.length_cons, Nat.add_right_cancel_iff] at hlen
    obtain ⟨hS', hT', hnd', hkeep⟩ := hT.filled hS hlen hnd
    obtain - | ⟨-, -, hb, -⟩ := hT
    rw [storeAll] at hout
    -- the slots in use hold the same on both disks
    have hload : ∀ τ ∈ S, load e x τ = load d x τ := by
      intro τ hτ
      refine load_congr hS (fun τ hτ β hβ => he _ ?_) hτ
      rw [← hkeep β (hS.base τ hτ β hβ)]
      exact hout τ (List.mem_append_left _ hτ) β hβ
    have hstore : (store (e, x) σ v).2 = (store (d, x) σ v).2 ∧
        (∀ c, ¬ D c → (store (e, x) σ v).1 c = (store (d, x) σ v).1 c) ∧
        ∀ c, D c → (store (e, x) σ v).1 c = e c := by
      cases hσ : σ.base with
      | none =>
        rw [store_fst_of_base_none hσ, store_fst_of_base_none hσ]
        refine ⟨?_, he, fun _ _ => rfl⟩
        cases σ <;> simp only [Slot.base, reduceCtorEq] at hσ <;> rfl
      | some β =>
        have hD : ¬ D (load d x β).toNat := by
          rw [← hkeep β (hb β hσ)]
          exact hout σ (by simp) β hσ
        rw [store_of_base hσ, store_of_base hσ, hload β (hb β hσ), he _ hD]
        refine ⟨rfl, fun c hc => ?_, fun c hc => ?_⟩
        · simp only [Function.update_apply, he c hc]
        · have hne : c ≠ (load d x β).toNat := by
            rintro rfl
            exact hD hc
          exact Function.update_of_ne hne _ _
    obtain ⟨hx, hin, hD⟩ := hstore
    have hs : store (e, x) σ v = ((store (e, x) σ v).1, (store (d, x) σ v).2) := Prod.ext rfl hx
    obtain ⟨hx', hin', hD'⟩ := ih (d := (store (d, x) σ v).1) (e := (store (e, x) σ v).1)
      (x := (store (d, x) σ v).2) hS' hT' hlen hnd' hin fun τ hτ => hout τ (by simpa using hτ)
    rw [storeAll, storeAll, hs]
    exact ⟨hx', hin', fun c hc => (hD' c hc).trans (hD c hc)⟩

end RCore.EasyFs
