import Mathlib.Data.List.Infix

/-!
# Longest common subsequences

The recursion on two lists that computes the length of their longest common subsequence, and the
bound that makes a common subsequence of that length a longest one.
-/

namespace Simmis.Subsequences

open List

variable {α : Type*}

/-- `l` is a longest common subsequence. -/
structure Longest (l xs ys : List α) : Prop where
  left : l.Sublist xs
  right : l.Sublist ys
  longest : ∀ k : List α, k.Sublist xs → k.Sublist ys → k.length ≤ l.length

variable [DecidableEq α]

def lcsLength : List α → List α → ℕ
  | [], _ => 0
  | _ :: _, [] => 0
  | x :: xs, y :: ys =>
    if x = y then lcsLength xs ys + 1 else max (lcsLength xs (y :: ys)) (lcsLength (x :: xs) ys)
termination_by xs ys => xs.length + ys.length

variable {x y : α} {l xs ys : List α}

theorem lcsLength_nil_left : lcsLength [] ys = 0 := by rw [lcsLength]

theorem lcsLength_nil_right : lcsLength xs [] = 0 := by
  cases xs with
  | nil => rw [lcsLength]
  | cons x xs => rw [lcsLength]

theorem lcsLength_cons_self : lcsLength (x :: xs) (x :: ys) = lcsLength xs ys + 1 := by
  rw [lcsLength, if_pos rfl]

theorem lcsLength_cons_of_ne (h : x ≠ y) :
    lcsLength (x :: xs) (y :: ys) = max (lcsLength xs (y :: ys)) (lcsLength (x :: xs) ys) := by
  rw [lcsLength, if_neg h]

theorem length_le_lcsLength (hx : l.Sublist xs) (hy : l.Sublist ys) :
    l.length ≤ lcsLength xs ys := by
  induction xs, ys using lcsLength.induct generalizing l with
  | case1 ys => simp [sublist_nil.mp hx]
  | case2 x xs => simp [sublist_nil.mp hy]
  | case3 xs y ys ih =>
    rw [lcsLength_cons_self]
    have htail : l.tail.length ≤ lcsLength xs ys := by
      apply ih
      · exact hx.tail
      · exact hy.tail
    rw [length_tail] at htail
    omega
  | case4 x xs y ys hne ihleft ihright =>
    rw [lcsLength_cons_of_ne hne]
    rcases sublist_cons_iff.mp hx with hx' | ⟨k, rfl, -⟩
    · exact (ihleft hx' hy).trans (le_max_left ..)
    · rcases sublist_cons_iff.mp hy with hy' | ⟨k', heq, -⟩
      · exact (ihright hx hy').trans (le_max_right ..)
      · exact absurd (cons.inj heq).1 hne

/-- A common subsequence that is as long as the recursion says is a longest one. -/
theorem Longest.of_length (hx : l.Sublist xs) (hy : l.Sublist ys)
    (hlength : l.length = lcsLength xs ys) : Longest l xs ys where
  left := hx
  right := hy
  longest := fun _ hkx hky ↦ (length_le_lcsLength hkx hky).trans hlength.ge

end Simmis.Subsequences
