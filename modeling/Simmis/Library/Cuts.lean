import Mathlib.Data.List.Basic

/-!
# Cutting a list at a mark

A list is cut at the first place of a mark. The cut stays where it is if more is appended, and a
mark that comes only behind some elements cuts behind them.
-/

namespace Simmis.Cuts

variable {α : Type*} [DecidableEq α]

/-- What stands before the first mark, and what stands behind it. -/
def cut (mark : α) : List α → Option (List α × List α)
  | [] => none
  | a :: s =>
    if a = mark then some ([], s)
    else (cut mark s).map fun split ↦ (a :: split.1, split.2)

variable {mark : α}

theorem cut_mark {before after : List α} (h : mark ∉ before) :
    cut mark (before ++ mark :: after) = some (before, after) := by
  induction before with
  | nil => simp [cut]
  | cons a before ih =>
    simp only [List.mem_cons, not_or] at h
    simp [cut, Ne.symm h.1, ih h.2]

theorem cut_eq_none {s : List α} : cut mark s = none ↔ mark ∉ s := by
  induction s with
  | nil => simp [cut]
  | cons a s ih =>
    by_cases ha : a = mark
    · simp [cut, ha]
    · simp [cut, ha, Ne.symm ha, ih]

theorem cut_eq_some {s before after : List α} :
    cut mark s = some (before, after) ↔ mark ∉ before ∧ s = before ++ mark :: after := by
  constructor
  · intro h
    have hmem : mark ∈ s := by
      by_contra hmem
      simp [cut_eq_none.mpr hmem] at h
    obtain ⟨before', after', hs, hbefore⟩ := List.eq_append_cons_of_mem hmem
    rw [hs, cut_mark hbefore] at h
    cases h
    exact ⟨hbefore, hs⟩
  · rintro ⟨hbefore, rfl⟩
    exact cut_mark hbefore

theorem cut_append {s before after : List α} (h : cut mark s = some (before, after))
    (more : List α) : cut mark (s ++ more) = some (before, after ++ more) := by
  obtain ⟨hbefore, rfl⟩ := cut_eq_some.mp h
  simpa using @cut_mark _ _ _ _ (after ++ more) hbefore

theorem cut_later {s more before after : List α} (h : cut mark s = none)
    (hcut : cut mark (s ++ more) = some (before, after)) : s.length ≤ before.length := by
  obtain ⟨-, hsplit⟩ := cut_eq_some.mp hcut
  have hs := cut_eq_none.mp h
  rcases List.append_eq_append_iff.mp hsplit with ⟨later, rfl, -⟩ | ⟨later, hlater, hrest⟩
  · simp
  · cases later with
    | nil => simp [hlater]
    | cons a later =>
      have ha : mark = a := by simpa using congrArg List.head? hrest
      exact absurd (by simp [hlater, ha]) hs

end Simmis.Cuts
