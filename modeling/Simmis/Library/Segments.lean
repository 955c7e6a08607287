import Mathlib.Data.List.Basic

/-!
# Segments

A sequence is split at a separator. The proper ancestors of a sequence are its first segments, joined
again; they can be computed one from the other, or each on its own.
-/

namespace Simmis.Segments

open List

variable {α β : Type*}

theorem modifyHead_map {γ δ : Type*} (f : γ → δ) (g : γ → γ) (h : δ → δ)
    (hfg : ∀ x, f (g x) = h (f x)) (l : List γ) :
    (l.modifyHead g).map f = (l.map f).modifyHead h := by
  cases l with
  | nil => rfl
  | cons x l => simp [hfg]

variable {b : β}

theorem splitOn_append [DecidableEq β] {word : List β} (hword : b ∉ word) (l : List β) :
    (word ++ l).splitOn b = (l.splitOn b).modifyHead (word ++ ·) := by
  induction word with
  | nil => cases h : l.splitOn b <;> simp [h]
  | cons c word ih =>
    simp only [mem_cons, not_or] at hword
    have hne : ¬ (c == b) := by simpa using Ne.symm hword.1
    rw [cons_append, splitOn_cons_eq_if_modifyHead, if_neg hne, ih hword.2,
      modifyHead_modifyHead]
    rfl

variable {a : α} {f : α → List β} {l : List α}

/-- Splitting undoes writing, if only the separator is written with one. -/
theorem splitOn_flatMap [DecidableEq α] [DecidableEq β] (ha : f a = [b]) (hf : ∀ x ∈ l, x ≠ a → b ∉ f x) :
    (l.flatMap f).splitOn b = (l.splitOn a).map (·.flatMap f) := by
  induction l with
  | nil => simp
  | cons x l ih =>
    obtain ⟨hfx, hfl⟩ := forall_mem_cons.mp hf
    rw [flatMap_cons, splitOn_cons_eq_if_modifyHead]
    by_cases hx : x = a
    · rw [if_pos (by simpa using hx), hx, ha, singleton_append,
        splitOn_cons_eq_if_modifyHead, if_pos (by simp), ih hfl]
      rfl
    · rw [if_neg (by simpa using hx), splitOn_append (hfx hx), ih hfl]
      symm
      apply modifyHead_map
      intro segment
      rw [flatMap_cons]

variable (sep : α)

/-- Join two paths. -/
def join (path segment : List α) : List α := path ++ sep :: segment

/-- Each ancestor from the one before. -/
def running : List (List α) → List (List α)
  | [] => []
  | segment :: segments => segments.scanl (join sep) segment

/-- The ancestors that are made of the first `n` segments each. -/
def leading (segments : List (List α)) : List (List α) :=
  (List.range' 1 (segments.length - 1)).map fun n ↦ [sep].intercalate (segments.take n)

theorem intercalate_join (path segment : List α) (segments : List (List α)) :
    [sep].intercalate (join sep path segment :: segments) =
      [sep].intercalate (path :: segment :: segments) := by
  cases segments with
  | nil => simp [join, intercalate]
  | cons next segments => simp [join, intercalate]

theorem running_dropLast (segments : List (List α)) :
    (running sep segments).dropLast = leading sep segments := by
  cases segments with
  | nil => rfl
  | cons first segments =>
    change (segments.scanl (join sep) first).dropLast = leading sep (first :: segments)
    unfold leading
    induction segments generalizing first with
    | nil => simp
    | cons second segments ih =>
      have hne : segments.scanl (join sep) (join sep first second) ≠ [] := by
        cases segments <;> simp
      rw [scanl_cons, dropLast_cons_of_ne_nil hne, ih (join sep first second)]
      have hlength : (first :: second :: segments).length - 1 = segments.length + 1 := by simp
      have hlength' : (join sep first second :: segments).length - 1 = segments.length := by simp
      rw [hlength, hlength', range'_succ, map_cons]
      congr 1
      · simp [intercalate]
      · rw [← List.map_add_range' (a := 1) 1 segments.length, List.map_map]
        apply map_congr_left
        intro n hn
        obtain ⟨k, rfl⟩ : ∃ k, n = k + 1 := ⟨n - 1, by
          have hn := (mem_range'_1.mp hn).1
          omega⟩
        have hnext : 1 + (k + 1) = k + 1 + 1 := by omega
        simp only [Function.comp_apply, hnext, take_succ_cons]
        exact intercalate_join sep first second (segments.take k)

theorem flatMap_intercalate (ha : f a = [b]) (segments : List (List α)) :
    ([a].intercalate segments).flatMap f = [b].intercalate (segments.map (·.flatMap f)) := by
  induction segments with
  | nil => rfl
  | cons segment segments ih =>
    cases segments with
    | nil => simp [intercalate]
    | cons next segments =>
      simp only [intercalate, intersperse_cons_cons, flatten_cons, map_cons,
        flatMap_append, flatMap_cons, flatMap_nil, ha, append_nil] at ih ⊢
      rw [ih]

/-- The ancestors of a written path are its ancestors, written. -/
theorem leading_flatMap (ha : f a = [b]) (segments : List (List α)) :
    leading b (segments.map (·.flatMap f)) = (leading a segments).map (·.flatMap f) := by
  unfold leading
  rw [List.length_map, List.map_map]
  apply map_congr_left
  intro n _
  rw [Function.comp_apply, flatMap_intercalate ha, map_take]

theorem intercalate_take_prefix (segments : List (List α)) (n : ℕ) :
    [sep].intercalate (segments.take n) <+: [sep].intercalate segments := by
  induction segments generalizing n with
  | nil => simp
  | cons segment segments ih =>
    cases n with
    | zero => exact nil_prefix
    | succ n =>
      cases segments with
      | nil => simp
      | cons next segments =>
        cases n with
        | zero => simp [intercalate]
        | succ n =>
          have hrest := ih (n + 1)
          simp only [take_succ_cons, intercalate, intersperse_cons_cons, flatten_cons] at hrest ⊢
          exact (prefix_append_right_inj _).mpr ((prefix_append_right_inj _).mpr hrest)

/-- An ancestor is a prefix. -/
theorem prefix_of_mem_leading [DecidableEq α] {path : List α}
    (h : path ∈ leading sep (l.splitOn sep)) : path <+: l := by
  obtain ⟨n, -, rfl⟩ := mem_map.mp h
  calc
    [sep].intercalate ((l.splitOn sep).take n) <+: [sep].intercalate (l.splitOn sep) :=
      intercalate_take_prefix sep _ n
    _ = l := intercalate_splitOn sep

theorem intercalate_append {l r : List (List α)} (hl : l ≠ []) (hr : r ≠ []) :
    [sep].intercalate (l ++ r) = [sep].intercalate l ++ sep :: [sep].intercalate r := by
  induction l with
  | nil => exact absurd rfl hl
  | cons x l ih =>
    cases l with
    | nil =>
      cases r with
      | nil => exact absurd rfl hr
      | cons y r => simp [intercalate]
    | cons y l =>
      have hrest := ih (cons_ne_nil y l)
      simp only [cons_append, intercalate, intersperse_cons_cons, flatten_cons] at hrest ⊢
      rw [hrest]
      simp

/-- The ancestors of a sequence are what stands before one of its separators. -/
theorem mem_leading [DecidableEq α] {path : List α} :
    path ∈ leading sep (l.splitOn sep) ↔ ∃ rest, l = path ++ sep :: rest := by
  constructor
  · intro h
    obtain ⟨n, hn, rfl⟩ := mem_map.mp h
    obtain ⟨hlow, hhigh⟩ := mem_range'_1.mp hn
    have htake : (l.splitOn sep).take n ≠ [] := by
      rw [Ne, take_eq_nil_iff, not_or]
      exact ⟨by omega, splitOn_ne_nil sep l⟩
    have hdrop : (l.splitOn sep).drop n ≠ [] := by
      rw [Ne, drop_eq_nil_iff]
      omega
    refine ⟨[sep].intercalate ((l.splitOn sep).drop n), ?_⟩
    rw [← intercalate_append sep htake hdrop, take_append_drop]
    exact (intercalate_splitOn sep).symm
  · rintro ⟨rest, rfl⟩
    have hpath := length_pos_iff.mpr (splitOn_ne_nil sep path)
    have hrest := length_pos_iff.mpr (splitOn_ne_nil sep rest)
    refine mem_map.mpr ⟨(path.splitOn sep).length, ?_, ?_⟩
    · rw [mem_range'_1, splitOn_append_cons_self, length_append]
      omega
    · rw [splitOn_append_cons_self, take_left, intercalate_splitOn]

end Simmis.Segments
