import Mathlib.Data.List.DropRight

/-!
# Fields between separators

A sequence is split at a separator the way Java does it: the empty fields at its end are dropped,
and a sequence without a separator is its own only field. Fields are joined again by the separator.
-/

namespace Fields

open List Option

variable {α : Type}

/-- `clojure.string/join`, of one separator. -/
def join (sep : α) (fields : List (List α)) : List α := [sep].intercalate fields

/-- Fields that a join can be split into again. -/
structure Proper (sep : α) (fields : List (List α)) : Prop where
  notMem : ∀ field ∈ fields, sep ∉ field
  last : ∀ field, fields.getLast? = some field → field ≠ []

variable {sep : α} {s field : List α} {fields : List (List α)}

theorem join_cons (hne : fields ≠ []) :
    join sep (field :: fields) = field ++ sep :: join sep fields := by
  rw [join, intercalate_cons_of_ne_nil hne, join]
  simp

theorem join_concat (hne : fields ≠ []) :
    join sep (fields ++ [field]) = join sep fields ++ sep :: field := by
  induction fields with
  | nil => exact absurd rfl hne
  | cons first fields ih =>
    by_cases hfields : fields = []
    · simp [hfields, join]
    · rw [cons_append, join_cons (by simp), ih hfields, join_cons hfields, append_assoc,
        cons_append]

theorem mem_join {a : α} (hfield : field ∈ fields) (ha : a ∈ field) : a ∈ join sep fields := by
  induction fields with
  | nil => simp at hfield
  | cons first fields ih =>
    by_cases hfields : fields = []
    · simp_all [join]
    · rw [join_cons hfields, mem_append, mem_cons]
      rcases mem_cons.mp hfield with rfl | hfield
      · exact .inl ha
      · exact .inr (.inr (ih hfield))

/-- A join is written entry by entry. -/
theorem join_flatMap {β : Type} {sep' : β} {f : α → List β} (hsep : f sep = [sep']) :
    (join sep fields).flatMap f = join sep' (fields.map (·.flatMap f)) := by
  induction fields with
  | nil => rfl
  | cons first fields ih =>
    by_cases hfields : fields = []
    · simp [hfields, join]
    · rw [join_cons hfields, map_cons, join_cons (by simpa using hfields), flatMap_append,
        flatMap_cons, hsep, ih, singleton_append]

theorem getLast_join (hlast : fields.getLast? = some field) (hne : field ≠ []) :
    (join sep fields).getLast? = field.getLast? := by
  obtain ⟨init, rfl⟩ := getLast?_eq_some_iff.mp hlast
  by_cases hinit : init = []
  · simp [hinit, join]
  · obtain ⟨a, field, rfl⟩ := exists_cons_of_ne_nil hne
    rw [join_concat hinit, getLast?_append, getLast?_cons_cons]
    simp [getLast?_cons]

theorem Proper.map (h : Proper sep fields) {f : List α → List α}
    (hsep : ∀ field, sep ∉ field → sep ∉ f field) (hne : ∀ field, field ≠ [] → f field ≠ []) :
    Proper sep (fields.map f) where
  notMem _ hmem := by
    obtain ⟨field, hfield, rfl⟩ := mem_map.mp hmem
    exact hsep field (h.notMem field hfield)
  last _ hlast := by
    rw [getLast?_map] at hlast
    obtain ⟨field, hfield, rfl⟩ := map_eq_some_iff.mp hlast
    exact hne field (h.last field hfield)

theorem Proper.getLast_ne (h : Proper sep fields) : (join sep fields).getLast? ≠ some sep := by
  cases hlast : fields.getLast? with
  | none =>
    rw [getLast?_eq_none_iff.mp hlast]
    simp [join]
  | some field =>
    rw [getLast_join hlast (h.last field hlast)]
    intro hsep
    exact h.notMem field (mem_of_getLast? hlast) (mem_of_getLast? hsep)

variable [DecidableEq α]

/-- `String.split`, of one separator and no limit. -/
def split (sep : α) (s : List α) : List (List α) :=
  if sep ∈ s then (s.splitOn sep).rdropWhile (· = []) else [s]

theorem mem_splitOn (h : field ∈ s.splitOn sep) : sep ∉ field := by
  induction s generalizing field with
  | nil =>
    rw [splitOn_nil, mem_singleton] at h
    simp [h]
  | cons a s ih =>
    rw [splitOn_cons_eq_if_modifyHead] at h
    split at h
    · rcases mem_cons.mp h with rfl | h
      · simp
      · exact ih h
    · rename_i ha
      have hne : sep ≠ a := fun heq ↦ ha (by simp [heq])
      cases hs : s.splitOn sep with
      | nil => simp [hs] at h
      | cons first fields =>
        rw [hs, modifyHead_cons, mem_cons] at h
        rcases h with rfl | h
        · have hfirst : sep ∉ first := ih (by rw [hs]; exact mem_cons_self)
          exact not_mem_cons_of_ne_of_not_mem hne hfirst
        · exact ih (by rw [hs]; exact mem_cons_of_mem _ h)

theorem mem_split (h : field ∈ split sep s) : sep ∉ field := by
  rw [split] at h
  split at h
  · exact mem_splitOn (( rdropWhile_prefix _ _).subset h)
  · rename_i hs
    rwa [mem_singleton.mp h]

/-- The fields of a sequence do not end with an empty one. -/
theorem split_proper (hs : s ≠ []) : Proper sep (split sep s) where
  notMem _ := mem_split
  last field hlast := by
    rw [split] at hlast
    split at hlast
    · have hne : (s.splitOn sep).rdropWhile (· = []) ≠ [] := by
        intro hnil
        simp [hnil] at hlast
      have hkept := rdropWhile_last_not (· = []) (s.splitOn sep) hne
      rw [getLast?_eq_some_getLast hne, some.injEq] at hlast
      simpa [hlast] using hkept
    · simp_all

theorem split_join (h : Proper sep fields) (hne : fields ≠ []) :
    split sep (join sep fields) = fields := by
  have hsplit : (join sep fields).splitOn sep = fields := splitOn_intercalate sep h.notMem hne
  rw [split, hsplit]
  split
  · rw [rdropWhile_eq_self_iff]
    intro hfields
    simpa using h.last _ (getLast?_eq_some_getLast hfields)
  · rename_i hsep
    rw [splitOn_eq_singleton hsep] at hsplit
    exact hsplit

/-- Joining the fields gives the sequence back, unless a separator stands at its end. -/
theorem join_split : join sep (split sep s) = s ↔ s.getLast? ≠ some sep := by
  constructor
  · intro hjoin
    by_cases hs : s = []
    · simp [hs]
    · rw [← hjoin]
      exact (split_proper hs).getLast_ne
  · intro hlast
    rw [split]
    split
    · have hjoin : join sep (s.splitOn sep) = s := intercalate_splitOn sep
      have hself : (s.splitOn sep).rdropWhile (· = []) = s.splitOn sep := by
        rw [rdropWhile_eq_self_iff]
        intro hfields hnil
        obtain ⟨init, hinit⟩ := getLast?_eq_some_iff.mp (getLast?_eq_some_getLast hfields)
        rw [of_decide_eq_true hnil] at hinit
        by_cases hempty : init = []
        · rw [hinit, hempty] at hjoin
          rename_i hmem
          rw [← hjoin] at hmem
          simp [join] at hmem
        · rw [hinit, join_concat hempty] at hjoin
          exact hlast (by rw [← hjoin, getLast?_concat])
      rw [hself, hjoin]
    · simp [join]

end Fields
