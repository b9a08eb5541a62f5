import RCore.Sanity.Mm.Frame

/-! The allocator over whole runs: from `init` on, by any calls of `alloc` and `dealloc`. What
it has handed out and what it keeps for reuse are together the values that it has got to. -/

namespace RCore.Mm.FreeListAllocator

/-- The runs, with the values that `alloc` has returned and `dealloc` has not taken back. -/
inductive Run (start stop : ℕ) : FreeListAllocator → List ℕ → Prop
  | init : Run start stop (empty.init start stop) []
  | alloc {a a' : FreeListAllocator} {out : List ℕ} {value : ℕ} (h : Run start stop a out)
      (ha : a.alloc = some (value, a')) : Run start stop a' (value :: out)
  | dealloc {a a' : FreeListAllocator} {out : List ℕ} {value : ℕ} (h : Run start stop a out)
      (hd : a.dealloc value = .ok a') : Run start stop a' (out.erase value)

/-- The values `out` are those that are handed out. -/
structure Tracks (start stop : ℕ) (a : FreeListAllocator) (out : List ℕ) : Prop where
  ok : a.Ok
  start : a.start = start
  stop : a.stop = stop
  nodup : out.Nodup
  mem : ∀ v, v ∈ out ↔ v ∈ a.outstanding

variable {start stop value : ℕ} {a a' : FreeListAllocator} {out : List ℕ}

theorem alloc_start (ha : a.alloc = some (value, a')) : a'.start = a.start := by
  unfold FreeListAllocator.alloc at ha
  split at ha
  · cases ha
    rfl
  · split_ifs at ha
    cases ha
    rfl

/-- `dealloc` passes its assertions for the values that are handed out. -/
theorem dealloc_eq_ok : a.dealloc value = .ok a' ↔
    value ∈ a.outstanding ∧ a' = { a with freeList := value :: a.freeList } := by
  unfold FreeListAllocator.dealloc
  split_ifs with h
  · rw [Except.ok.injEq, and_iff_right (mem_outstanding.mpr h), eq_comm]
  · exact iff_of_false nofun fun hv => h (mem_outstanding.mp hv.1)

theorem tracks_init (hle : start ≤ stop) : Tracks start stop (empty.init start stop) [] where
  ok := ⟨le_rfl, hle, fun _ h => absurd h List.not_mem_nil, List.nodup_nil⟩
  start := rfl
  stop := rfl
  nodup := List.nodup_nil
  mem v := by
    refine iff_of_false List.not_mem_nil fun hv => ?_
    obtain ⟨hlow, hhigh, -⟩ := mem_outstanding.mp hv
    exact absurd (lt_of_le_of_lt hlow hhigh) (lt_irrefl start)

namespace Tracks

variable (h : Tracks start stop a out)
include h

theorem alloc (ha : a.alloc = some (value, a')) : Tracks start stop a' (value :: out) := by
  obtain ⟨hok, hstop, -, hfresh, hout⟩ := h.ok.alloc ha
  refine ⟨hok, (alloc_start ha).trans h.start, hstop.trans h.stop, ?_, fun v => ?_⟩
  · exact List.nodup_cons.mpr ⟨fun hmem => hfresh ((h.mem value).mp hmem), h.nodup⟩
  · rw [hout, List.mem_cons, Set.mem_insert_iff, h.mem v]

theorem dealloc (hd : a.dealloc value = .ok a') : Tracks start stop a' (out.erase value) := by
  obtain ⟨hv, rfl⟩ := dealloc_eq_ok.mp hd
  obtain ⟨a', hd', hok, -, hout⟩ := h.ok.dealloc hv
  obtain rfl := (dealloc_eq_ok.mp hd').2
  refine ⟨hok, h.start, h.stop, h.nodup.erase value, fun v => ?_⟩
  rw [hout, h.nodup.mem_erase_iff, Set.mem_sdiff, Set.mem_singleton_iff, h.mem v, and_comm]

/-- What has been handed out, and what is kept for reuse, is all up to `nextAvailable`. -/
theorem perm : (out ++ a.freeList).Perm (List.range' start (a.nextAvailable - start)) := by
  have hstart := h.ok.start_le
  rw [h.start] at hstart
  have hdisj : out.Disjoint a.freeList := fun v hv => (mem_outstanding.mp ((h.mem v).mp hv)).2.2
  refine (List.perm_ext_iff_of_nodup (h.nodup.append h.ok.nodup hdisj) List.nodup_range').mpr fun v => ?_
  rw [List.mem_append, List.mem_range'_1, h.mem v, mem_outstanding, h.start, Nat.add_sub_cancel' hstart]
  constructor
  · rintro (⟨hlow, hhigh, -⟩ | hfree)
    · exact ⟨hlow, hhigh⟩
    · exact h.start ▸ h.ok.range v hfree
  · rintro ⟨hlow, hhigh⟩
    by_cases hfree : v ∈ a.freeList
    · exact .inr hfree
    · exact .inl ⟨hlow, hhigh, hfree⟩

theorem mem_or_mem (v : ℕ) : v ∈ out ∨ v ∈ a.freeList ↔ start ≤ v ∧ v < a.nextAvailable := by
  have hstart := h.ok.start_le
  rw [h.start] at hstart
  rw [← List.mem_append, h.perm.mem_iff, List.mem_range'_1, Nat.add_sub_cancel' hstart]

theorem availableSpace_add : a.availableSpace + out.length = stop - start := by
  have hlen := h.perm.length_eq
  rw [List.length_append, List.length_range'] at hlen
  have hstart := h.ok.start_le
  have hnext := h.ok.next_le
  rw [h.start] at hstart
  rw [h.stop] at hnext
  unfold availableSpace
  rw [h.stop]
  omega

/-- On `usize` the sum of `available_space` may wrap around; the difference does not show it. -/
theorem availableSpace_usize : BitVec.ofNat 64 a.freeList.length + BitVec.ofNat 64 a.stop -
    BitVec.ofNat 64 a.nextAvailable = BitVec.ofNat 64 a.availableSpace := by
  have hnext := h.ok.next_le
  have hsum : a.freeList.length + a.stop = a.availableSpace + a.nextAvailable := by
    unfold availableSpace
    omega
  rw [← BitVec.ofNat_add, hsum, BitVec.ofNat_add, BitVec.add_sub_cancel]

theorem alloc_eq_none : a.alloc = none ↔ ∀ v, start ≤ v → v < stop → v ∈ out := by
  have hnext := h.ok.next_le
  rw [h.stop] at hnext
  unfold FreeListAllocator.alloc
  split
  · next value freeList hfree =>
    -- a value that is kept for reuse is in the range, and not handed out
    have hmem : value ∈ a.freeList := by
      rw [hfree]
      exact List.mem_cons_self
    have hrange := h.ok.range value hmem
    rw [h.start] at hrange
    refine iff_of_false nofun fun hall => ?_
    have hvalue := (h.mem value).mp (hall value hrange.1 (lt_of_lt_of_le hrange.2 hnext))
    exact (mem_outstanding.mp hvalue).2.2 hmem
  · next hfree =>
    rw [h.stop]
    split_ifs with hfull
    · refine iff_of_true rfl fun v hlow hhigh => (h.mem v).mpr (mem_outstanding.mpr ?_)
      rw [h.start, hfree]
      exact ⟨hlow, lt_of_lt_of_le hhigh hfull, List.not_mem_nil⟩
    · refine iff_of_false nofun fun hall => ?_
      have hstart := h.ok.start_le
      rw [h.start] at hstart
      have hmem := (h.mem _).mp (hall a.nextAvailable hstart (not_le.mp hfull))
      exact absurd (mem_outstanding.mp hmem).2.1 (lt_irrefl _)

theorem dealloc_iff (v : ℕ) : (∃ a', a.dealloc v = .ok a') ↔ v ∈ out := by
  rw [h.mem v]
  constructor
  · rintro ⟨a', hd⟩
    exact (dealloc_eq_ok.mp hd).1
  · intro hv
    exact ⟨_, dealloc_eq_ok.mpr ⟨hv, rfl⟩⟩

end Tracks

theorem Run.tracks (hle : start ≤ stop) (h : Run start stop a out) : Tracks start stop a out := by
  induction h with
  | init => exact tracks_init hle
  | alloc _ ha ih => exact ih.alloc ha
  | dealloc _ hd ih => exact ih.dealloc hd

/-- In every run the values that are handed out are distinct, in the range and not free; with
the free ones, which are distinct, they are those up to `nextAvailable`; the space that is
available is what remains of the range, on `usize` as well; `alloc` fails when all of the
range is handed out, and only then; and `dealloc` takes what is handed out, and nothing
else. -/
theorem free_list_allocator (hle : start ≤ stop) (h : Run start stop a out) :
    out.Nodup ∧ (∀ v ∈ out, start ≤ v ∧ v < stop ∧ v ∉ a.freeList) ∧ a.freeList.Nodup ∧
      (∀ v, v ∈ out ∨ v ∈ a.freeList ↔ start ≤ v ∧ v < a.nextAvailable) ∧
      a.availableSpace + out.length = stop - start ∧
      BitVec.ofNat 64 a.freeList.length + BitVec.ofNat 64 a.stop - BitVec.ofNat 64 a.nextAvailable =
        BitVec.ofNat 64 a.availableSpace ∧
      (a.alloc = none ↔ ∀ v, start ≤ v → v < stop → v ∈ out) ∧
      ∀ v, (∃ a', a.dealloc v = .ok a') ↔ v ∈ out := by
  have ht := h.tracks hle
  refine ⟨ht.nodup, fun v hv => ?_, ht.ok.nodup, ht.mem_or_mem, ht.availableSpace_add,
    ht.availableSpace_usize, ht.alloc_eq_none, ht.dealloc_iff⟩
  have hout := (ht.mem v).mp hv
  have hlow := (mem_outstanding.mp hout).1
  have hhigh := ht.ok.lt_stop hout
  rw [ht.start] at hlow
  rw [ht.stop] at hhigh
  exact ⟨hlow, hhigh, (mem_outstanding.mp hout).2.2⟩

/-- Of two values one is handed out, given back, and handed out again, with the other. -/
theorem free_list_allocator_two : Run 3 5 ⟨3, 5, 5, []⟩ [4, 3] ∧
    FreeListAllocator.alloc ⟨3, 5, 5, []⟩ = none := by
  have h : Run 3 5 ⟨3, 5, 5, []⟩ [4, 3] := by
    have h₁ : Run 3 5 ⟨3, 5, 4, []⟩ [3] := .alloc .init rfl
    have hd : FreeListAllocator.dealloc ⟨3, 5, 4, []⟩ 3 = .ok ⟨3, 5, 4, [3]⟩ := rfl
    have h₂ : Run 3 5 ⟨3, 5, 4, [3]⟩ [] := h₁.dealloc hd
    have h₃ : Run 3 5 ⟨3, 5, 4, []⟩ [3] := .alloc h₂ rfl
    exact .alloc h₃ rfl
  obtain ⟨-, -, -, -, -, -, hnone, -⟩ := free_list_allocator (by decide) h
  refine ⟨h, hnone.mpr fun v hlow hhigh => ?_⟩
  have hv : v = 4 ∨ v = 3 := by omega
  rcases hv with rfl | rfl <;> decide

end RCore.Mm.FreeListAllocator
