import Mathlib.Data.UInt
import Simmis.Library.Text

/-!
# Texts of code units

Java strings as lists of UTF-16 code units, where nothing but the units matters.
-/

namespace Simmis.CodeUnits

open List

/-- `str/blank?` -/
def isBlank (s : List UInt16) : Bool := s.all fun u ↦ Text.isWhitespace (Char.ofNat u.toNat)

/-- `[0-9a-f]` -/
def isHexDigit (u : UInt16) : Bool := 48 ≤ u ∧ u ≤ 57 ∨ 97 ≤ u ∧ u ≤ 102

/-- The text of a UUID in lower case. -/
def isUuid (s : List UInt16) : Bool :=
  s.length = 36 && s.zipIdx.all fun u ↦
    if u.2 ∈ [8, 13, 18, 23] then u.1 = 45 else isHexDigit u.1

section

variable {s : List UInt16} (h : isUuid s = true)
include h

theorem length_of_isUuid : s.length = 36 := by
  simp only [isUuid, Bool.and_eq_true, decide_eq_true_eq] at h
  exact h.1

/-- The units of a UUID. -/
theorem marks_of_isUuid : ∀ u ∈ s, u = 45 ∨ isHexDigit u := by
  intro u hu
  obtain ⟨i, hi, rfl⟩ := mem_iff_getElem.mp hu
  simp only [isUuid, Bool.and_eq_true, all_eq_true] at h
  have hmark := h.2 (s[i], i) (by simp [mem_zipIdx_iff_getElem?, getElem?_eq_getElem hi])
  split at hmark
  · exact .inl (by simpa using hmark)
  · exact .inr hmark

/-- A UUID is not blank. -/
theorem isBlank_of_isUuid : isBlank s = false := by
  have hpositive : 0 < s.length := by
    rw [length_of_isUuid h]
    decide
  obtain ⟨u, s, rfl⟩ := exists_cons_of_ne_nil (ne_nil_of_length_pos hpositive)
  have hall : ∀ n < 128, 45 ≤ n → Text.isWhitespace (Char.ofNat n) = false := by decide
  have hbounds : u.toNat < 128 ∧ 45 ≤ u.toNat := by
    rcases marks_of_isUuid h u (by simp) with rfl | hhex
    · decide
    · simp only [isHexDigit, decide_eq_true_eq, UInt16.le_iff_toNat_le, UInt16.reduceToNat] at hhex
      omega
  rw [isBlank, all_cons, hall u.toNat hbounds.1 hbounds.2, Bool.false_and]

end

end Simmis.CodeUnits
