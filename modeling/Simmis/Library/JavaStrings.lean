import Mathlib.Data.List.Lex
import Mathlib.Data.UInt

/-!
# Java strings

Strings as sequences of UTF-16 code units, in which a surrogate may stand alone. They are ordered by
their units.
-/

namespace Simmis

structure JavaString where
  units : List UInt16
deriving DecidableEq

namespace JavaString

def unitsOfChar (c : Char) : List UInt16 :=
  if c.toNat < 0x10000 then [c.toNat.toUInt16]
  else
    let n := c.toNat - 0x10000
    [(0xD800 + n / 0x400).toUInt16, (0xDC00 + n % 0x400).toUInt16]

def ofString (s : String) : JavaString := ⟨s.toList.flatMap unitsOfChar⟩

instance : Coe String JavaString := ⟨ofString⟩

/-- `count` of a string. -/
def count (s : JavaString) : ℕ := s.units.length

instance : Append JavaString := ⟨fun s t ↦ ⟨s.units ++ t.units⟩⟩

/-- The units as numbers, by which strings are ordered. -/
def code (s : JavaString) : List ℕ := s.units.map UInt16.toNat

theorem code_injective : Function.Injective code := by
  intro s t h
  obtain ⟨s⟩ := s
  obtain ⟨t⟩ := t
  have hunits : s = t := List.map_injective_iff.mpr (fun _ _ ↦ UInt16.toNat.inj) h
  rw [hunits]

instance : LinearOrder JavaString := LinearOrder.lift' code code_injective

end JavaString

end Simmis
