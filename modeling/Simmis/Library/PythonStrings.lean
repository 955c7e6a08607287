import Simmis.Library.JavaStrings

/-!
# Python strings

Strings as sequences of code points, in which a surrogate may stand as a point of its own, and their
way from and to Java strings.
-/

namespace Simmis

open List

structure PyString where
  points : List ℕ
deriving DecidableEq

namespace PyString

def ofString (s : String) : PyString := ⟨s.toList.map Char.toNat⟩

instance : Coe String PyString := ⟨ofString⟩

/-- `len` -/
def len (s : PyString) : ℕ := s.points.length

def isSurrogate (p : ℕ) : Bool := 0xD800 ≤ p ∧ p < 0xE000

/-- `s.encode("utf-8")` does not raise. -/
def encodable (s : PyString) : Bool := s.points.all fun p ↦ p < 0x110000 && !isSurrogate p

def unitsOfPoint (p : ℕ) : List UInt16 :=
  if p < 0x10000 then [p.toUInt16]
  else [(0xD800 + (p - 0x10000) / 0x400).toUInt16, (0xDC00 + (p - 0x10000) % 0x400).toUInt16]

/-- The same text in code units. -/
def utf16 (s : PyString) : JavaString := ⟨s.points.flatMap unitsOfPoint⟩

end PyString

namespace JavaString

def isHigh (u : ℕ) : Bool := 0xD800 ≤ u ∧ u < 0xDC00
def isLow (u : ℕ) : Bool := 0xDC00 ≤ u ∧ u < 0xE000

/-- `getBytes` writes a question mark for a lone surrogate. -/
def single (u : ℕ) : ℕ := if isHigh u || isLow u then 63 else u

/-- The code points of code units. -/
def decode : List ℕ → List ℕ
  | [] => []
  | [u] => [single u]
  | u :: v :: rest =>
    if isHigh u && isLow v then
      (0x10000 + (u - 0xD800) * 0x400 + (v - 0xDC00)) :: decode rest
    else single u :: decode (v :: rest)

/-- What is read from the UTF-8 bytes of a string. -/
def received (s : JavaString) : PyString := ⟨decode s.code⟩

/-- No surrogate stands alone. -/
def IsText (s : JavaString) : Prop := ∃ t : PyString, t.encodable = true ∧ t.utf16 = s

end JavaString

namespace PyString

open JavaString (decode)

theorem decode_single {p : ℕ} (hp : isSurrogate p = false) (rest : List ℕ) :
    decode (p :: rest) = p :: decode rest := by
  have hhigh : JavaString.isHigh p = false := by
    simp only [isSurrogate, JavaString.isHigh, decide_eq_false_iff_not] at hp ⊢
    omega
  have hlow : JavaString.isLow p = false := by
    simp only [isSurrogate, JavaString.isLow, decide_eq_false_iff_not] at hp ⊢
    omega
  cases rest <;> simp [decode, JavaString.single, hhigh, hlow]

theorem decode_pair {n : ℕ} (hn : n < 0x100000) (rest : List ℕ) :
    decode ((0xD800 + n / 0x400) :: (0xDC00 + n % 0x400) :: rest) =
      (0x10000 + n) :: decode rest := by
  have hhigh : JavaString.isHigh (0xD800 + n / 0x400) := by
    simp only [JavaString.isHigh, decide_eq_true_eq]
    omega
  have hlow : JavaString.isLow (0xDC00 + n % 0x400) := by
    simp only [JavaString.isLow, decide_eq_true_eq]
    omega
  have hpoint : 0x10000 + (0xD800 + n / 0x400 - 0xD800) * 0x400 + (0xDC00 + n % 0x400 - 0xDC00) =
      0x10000 + n := by
    omega
  rw [decode, hhigh, hlow, Bool.and_self, if_pos rfl, hpoint]

theorem toUInt16_toNat {n : ℕ} (hn : n < 0x10000) : n.toUInt16.toNat = n := by
  simpa using Nat.mod_eq_of_lt hn

/-- The units of a point as numbers. -/
theorem code_unitsOfPoint {p : ℕ} (hp : p < 0x110000) :
    (unitsOfPoint p).map UInt16.toNat = if p < 0x10000 then [p]
      else [0xD800 + (p - 0x10000) / 0x400, 0xDC00 + (p - 0x10000) % 0x400] := by
  unfold unitsOfPoint
  split
  · next hsmall => rw [map_singleton, toUInt16_toNat hsmall]
  · have hhigh : 0xD800 + (p - 0x10000) / 0x400 < 0x10000 := by omega
    have hlow : 0xDC00 + (p - 0x10000) % 0x400 < 0x10000 := by omega
    rw [map_cons, map_singleton, toUInt16_toNat hhigh, toUInt16_toNat hlow]

theorem encodable_cons {p : ℕ} {points : List ℕ} (h : (PyString.mk (p :: points)).encodable) :
    p < 0x110000 ∧ isSurrogate p = false ∧ (PyString.mk points).encodable := by
  simpa [encodable, and_assoc] using h

/-- A text comes back from its code units. -/
theorem received_utf16 {s : PyString} (hs : s.encodable) : s.utf16.received = s := by
  obtain ⟨points⟩ := s
  unfold utf16 JavaString.received JavaString.code
  induction points with
  | nil => rfl
  | cons p points ih =>
    obtain ⟨hp, hsurrogate, hpoints⟩ := encodable_cons hs
    have hrest : decode ((points.flatMap unitsOfPoint).map UInt16.toNat) = points :=
      congrArg PyString.points (ih hpoints)
    simp only [flatMap_cons, map_append, code_unitsOfPoint hp]
    split
    · rw [singleton_append, decode_single hsurrogate, hrest]
    · next hlarge =>
      have hpoint : 0x10000 + (p - 0x10000) = p := by omega
      rw [cons_append, singleton_append, decode_pair (by omega), hrest, hpoint]

theorem utf16_injective {s t : PyString} (hs : s.encodable) (ht : t.encodable)
    (h : s.utf16 = t.utf16) : s = t := by
  rw [← received_utf16 hs, h, received_utf16 ht]

theorem len_le_count (s : PyString) : s.len ≤ s.utf16.count := by
  obtain ⟨points⟩ := s
  unfold len utf16 JavaString.count
  induction points with
  | nil => simp
  | cons p points ih =>
    have hp : 1 ≤ (unitsOfPoint p).length := by
      unfold unitsOfPoint
      split <;> simp
    simp only [flatMap_cons, length_append, length_cons] at ih ⊢
    omega

/-- The characters of an ASCII text are its code units and its code points. -/
theorem utf16_ascii {s : PyString} (hs : ∀ p ∈ s.points, p < 128) :
    s.utf16.code = s.points ∧ s.encodable := by
  constructor
  · unfold utf16 JavaString.code
    rw [map_flatMap]
    calc
      s.points.flatMap (fun p ↦ (unitsOfPoint p).map UInt16.toNat) =
          s.points.flatMap fun p ↦ [p] := by
        apply flatMap_congr
        intro p hp
        have hsmall := hs p hp
        rw [code_unitsOfPoint (by omega), if_pos (by omega)]
      _ = s.points := flatMap_pure_eq_map id s.points |>.trans (map_id _)
  · apply all_eq_true.mpr
    intro p hp
    have hsmall := hs p hp
    simp only [isSurrogate, Bool.and_eq_true, decide_eq_true_eq, Bool.not_eq_true',
      decide_eq_false_iff_not]
    omega

end PyString

namespace JavaString

theorem IsText.utf16_received {s : JavaString} (h : s.IsText) :
    s.received.encodable ∧ s.received.utf16 = s := by
  obtain ⟨t, ht, rfl⟩ := h
  rw [PyString.received_utf16 ht]
  exact ⟨ht, rfl⟩

theorem received_ascii {s : JavaString} (hs : ∀ u ∈ s.code, u < 128) :
    s.received.points = s.code := by
  unfold received
  generalize s.code = code at hs
  induction code with
  | nil => rfl
  | cons u code ih =>
    obtain ⟨hu, hcode⟩ := forall_mem_cons.mp hs
    have hsurrogate : PyString.isSurrogate u = false := by
      simp only [PyString.isSurrogate, decide_eq_false_iff_not]
      omega
    rw [PyString.decode_single hsurrogate]
    exact congrArg (u :: ·) (ih hcode)

theorem isText_ascii {s : JavaString} (hs : ∀ u ∈ s.code, u < 128) : s.IsText := by
  have hpoints := received_ascii hs
  have hascii : ∀ p ∈ s.received.points, p < 128 := by rwa [hpoints]
  obtain ⟨hcode, hencodable⟩ := PyString.utf16_ascii hascii
  exact ⟨s.received, hencodable, code_injective (hcode.trans hpoints)⟩

end JavaString

end Simmis
