import Mathlib.Data.List.GetD
import RCore.Sanity.EasyFs.Block
import RCore.Spec.EasyFs.Layout

/-! Directory entries: a name of at most 27 bytes without a zero byte, and an inode
number, go through the 32 bytes of an entry and come back. -/

namespace RCore.EasyFs

open RCore.Lib

variable {held : List ℕ} {d : Disk}

namespace DirEntry

/-- The names that an entry can hold. -/
def ValidName (name : String) : Prop :=
  (strBytes name).length ≤ NAME_LENGTH_LIMIT ∧ ∀ c ∈ strBytes name, c ≠ 0

instance (name : String) : Decidable (ValidName name) :=
  inferInstanceAs (Decidable (_ ∧ _))

/-- The entry that `new` builds. -/
def entryOf (name : String) (inodeNumber : ℕ) : DirEntry :=
  splice (copyFromSlice (0 : DirEntry) 0 (strBytes name)) 224 (BitVec.ofNat 32 inodeNumber)

theorem run_new {name : String} {p : ℕ} (h : (strBytes name).length ≤ 28) :
    (new name p).run held d = some (entryOf name p, d) :=
  Prog.run_bind_of (Prog.run_assert h _ _) _

theorem run_new_some {name : String} {p : ℕ} {e : DirEntry} {d' : Disk}
    (h : (new name p).run held d = some (e, d')) :
    (strBytes name).length ≤ 28 ∧ e = entryOf name p ∧ d' = d := by
  by_cases hlen : (strBytes name).length ≤ 28
  · rw [run_new hlen] at h
    cases h
    exact ⟨hlen, rfl, rfl⟩
  · rw [new, Prog.run_bind, Prog.assert, if_neg hlen] at h
    cases h

/-- What `name` returns, if it does not panic. -/
def nameOf (e : DirEntry) : Option String := do
  let len ← (List.range (NAME_LENGTH_LIMIT + 1)).find? fun i => byteAt e i == 0
  String.fromUTF8? ⟨((List.range len).map (byteAt e)).toArray⟩

theorem run_name (e : DirEntry) :
    e.name.run held d = e.nameOf.map fun s => (s, d) := by
  rw [name, nameOf, Prog.run_bind]
  cases (List.range (NAME_LENGTH_LIMIT + 1)).find? fun i => byteAt e i == 0 with
  | none => rfl
  | some len =>
    simp only [Prog.run_ofOption_some, Option.bind_some, Option.bind_eq_bind]
    cases String.fromUTF8? ⟨((List.range len).map (byteAt e)).toArray⟩ <;> rfl

@[simp] theorem length_asBytes (e : DirEntry) : e.asBytes.length = 32 := by simp [asBytes]

theorem ofBytes_asBytes (e : DirEntry) : ofBytes e.asBytes = e := by
  apply eq_of_byteAt_eq (m := 32) rfl
  intro i hi
  rw [ofBytes, byteAt_copyFromSlice _ _ _ (by simp), length_asBytes, if_pos ⟨by omega, by omega⟩]
  simp [asBytes, hi]

theorem byteAt_entryOf {name : String} {p i : ℕ} (hlen : (strBytes name).length ≤ 28)
    (hi : i < 28) : byteAt (entryOf name p) i = (strBytes name).getD i 0 := by
  rw [entryOf, byteAt, field_splice_disjoint _ _ _ _ (by omega), ← byteAt,
    byteAt_copyFromSlice _ _ _ (by omega)]
  split_ifs with h
  · rfl
  · rw [byteAt_zero, List.getD_eq_default _ _ (by omega)]

theorem inodeNumber_entryOf (name : String) {p : ℕ} (hp : p < 2 ^ 32) :
    (entryOf name p).inodeNumber = p := by
  rw [inodeNumber, entryOf, field_splice_self _ _ _ (by omega), BitVec.toNat_ofNat,
    Nat.mod_eq_of_lt hp]

theorem fromUTF8_strBytes (name : String) :
    String.fromUTF8? ⟨(strBytes name).toArray⟩ = some name := by
  simp only [strBytes, String.fromUTF8?, String.toUTF8_eq_toByteArray, Array.toArray_toList,
    dif_pos name.isValidUTF8]
  rfl

/-- A valid name comes back out of its entry. -/
theorem nameOf_entryOf {name : String} {p : ℕ} (h : ValidName name) :
    (entryOf name p).nameOf = some name := by
  obtain ⟨hlen, hnz⟩ := h
  change _ ≤ 27 at hlen
  have hbyte : ∀ i < 28, byteAt (entryOf name p) i = (strBytes name).getD i 0 :=
    fun i hi => byteAt_entryOf (by omega) hi
  have hfind : (List.range (NAME_LENGTH_LIMIT + 1)).find?
      (fun i => byteAt (entryOf name p) i == 0) = some (strBytes name).length := by
    rw [List.find?_range_eq_some]
    refine ⟨?_, List.mem_range.mpr (by change _ < 28; omega), fun i hi => ?_⟩
    · rw [hbyte _ (by omega), List.getD_eq_default _ _ (le_refl _)]
      rfl
    · rw [hbyte i (by omega), List.getD_eq_getElem _ _ hi]
      simpa using hnz _ (List.getElem_mem hi)
  have hmap : (List.range (strBytes name).length).map (byteAt (entryOf name p)) =
      strBytes name := by
    apply List.ext_getElem (by simp)
    intro i hi _
    rw [List.length_map, List.length_range] at hi
    simp [hbyte i (by omega), hi]
  rw [nameOf, hfind]
  simp only [Option.bind_eq_bind, Option.bind_some, hmap]
  exact fromUTF8_strBytes name

end DirEntry

end RCore.EasyFs
