import Mathlib

/-! Text as a list of bytes, and where it can be cut. -/

namespace RCore.Lib

/-- The bytes are those of characters in UTF-8. -/
def IsText (bytes : List UInt8) : Prop := (ByteArray.mk bytes.toArray).validateUTF8 = true

instance (bytes : List UInt8) : Decidable (IsText bytes) := inferInstanceAs (Decidable (_ = true))

/-- A character begins with this byte. -/
def Starts (bytes : List UInt8) (i : ℕ) : Prop := ∃ byte, bytes[i]? = some byte ∧ byte.IsUTF8FirstByte

variable {bytes : List UInt8} {s : String} {i j k : ℕ}

section string

variable (hs : s.toByteArray = ByteArray.mk bytes.toArray)
include hs

theorem rawEndPos_eq : s.rawEndPos = ⟨bytes.length⟩ := by
  have hsize : s.utf8ByteSize = bytes.length := by
    rw [← String.size_toByteArray, hs]
    simp [ByteArray.size]
  ext
  simpa using hsize

theorem getElem?_eq_getUTF8Byte (h : (⟨k⟩ : String.Pos.Raw) < s.rawEndPos) :
    bytes[k]? = some (s.getUTF8Byte ⟨k⟩ h) := by
  have hk := h
  rw [rawEndPos_eq hs] at hk
  obtain ⟨b, hb⟩ := s
  cases hs
  rw [List.getElem?_eq_getElem (show k < bytes.length from hk)]
  rfl

theorem isValid_iff_starts : String.Pos.Raw.IsValid s ⟨k⟩ ↔ k = bytes.length ∨ Starts bytes k := by
  rw [String.Pos.Raw.isValid_iff_isUTF8FirstByte]
  refine or_congr ?_ ⟨?_, ?_⟩
  · rw [rawEndPos_eq hs, String.Pos.Raw.mk.injEq]
  · rintro ⟨h, hfirst⟩
    exact ⟨_, getElem?_eq_getUTF8Byte hs h, hfirst⟩
  · rintro ⟨byte, hbyte, hfirst⟩
    have hk : (⟨k⟩ : String.Pos.Raw) < s.rawEndPos := by
      rw [rawEndPos_eq hs]
      exact (List.getElem?_eq_some_iff.mp hbyte).1
    rw [getElem?_eq_getUTF8Byte hs hk] at hbyte
    cases hbyte
    exact ⟨hk, hfirst⟩

theorem extract_eq (i j : ℕ) : s.toByteArray.extract i j = ByteArray.mk ((bytes.drop i).take (j - i)).toArray := by
  rw [hs]
  ext1
  simp

end string

theorem IsText.append {bytes' : List UInt8} (h : IsText bytes) (h' : IsText bytes') : IsText (bytes ++ bytes') := by
  have happ : ByteArray.mk bytes.toArray ++ ByteArray.mk bytes'.toArray = ByteArray.mk (bytes ++ bytes').toArray := by
    ext1
    simp
  unfold IsText at *
  rw [ByteArray.validateUTF8_eq_true_iff] at *
  rw [← happ]
  exact h.append h'

theorem IsText.replicate {byte : UInt8} (h : IsText [byte]) (n : ℕ) : IsText (List.replicate n byte) := by
  induction n with
  | zero => exact (by decide : IsText [])
  | succ n ih => exact h.append ih

/-- A piece of a text is a text if a character begins where the piece begins, and where it
ends. -/
theorem IsText.piece_iff (h : IsText bytes) (hij : i < j) (hj : j ≤ bytes.length) :
    IsText ((bytes.drop i).take (j - i)) ↔ Starts bytes i ∧ (j = bytes.length ∨ Starts bytes j) := by
  obtain ⟨s, hs⟩ : ∃ s : String, s.toByteArray = ByteArray.mk bytes.toArray :=
    ⟨.ofByteArray _ (ByteArray.validateUTF8_eq_true_iff.mp h), rfl⟩
  have hcut := String.Pos.Raw.isValidUTF8_extract_iff (s := s) ⟨i⟩ ⟨j⟩ hij.le (by rw [rawEndPos_eq hs]; exact hj)
  unfold IsText
  rw [ByteArray.validateUTF8_eq_true_iff, ← extract_eq hs i j, hcut, or_iff_right, isValid_iff_starts hs,
    isValid_iff_starts hs, or_iff_right (hij.trans_le hj).ne]
  rw [String.Pos.Raw.mk.injEq]
  exact hij.ne

end RCore.Lib
