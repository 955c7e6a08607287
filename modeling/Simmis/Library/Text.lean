import Mathlib.Algebra.BigOperators.Group.List.Basic
import Mathlib.Algebra.Ring.Nat

/-!
# Java strings

Lengths in UTF-16 code units, and the blank strings of `clojure.string/blank?`.
-/

namespace Simmis.Text

/-- `count` of a string. -/
def count (s : String) : ℕ := (s.toList.map fun c ↦ if c.toNat < 0x10000 then 1 else 2).sum

/-- `Character/isWhitespace`: separators that break, and the control whitespace. -/
def isWhitespace (c : Char) : Bool :=
  let n := c.toNat
  (0x09 ≤ n ∧ n ≤ 0x0D) ∨ (0x1C ≤ n ∧ n ≤ 0x20) ∨ n = 0x1680 ∨
    (0x2000 ≤ n ∧ n ≤ 0x200A ∧ n ≠ 0x2007) ∨ n = 0x2028 ∨ n = 0x2029 ∨ n = 0x205F ∨ n = 0x3000

def isBlank (s : String) : Bool := s.toList.all isWhitespace

/-- `[0-9a-f]` -/
def isHex (c : Char) : Bool := ('0' ≤ c ∧ c ≤ '9') ∨ ('a' ≤ c ∧ c ≤ 'f')

/-- `re-find` of `n` characters in a row that satisfy `p`. -/
def hasRun (p : Char → Bool) (n : ℕ) (s : String) : Bool :=
  s.toList.tails.any fun t ↦ n ≤ t.length ∧ (t.take n).all p

end Simmis.Text
