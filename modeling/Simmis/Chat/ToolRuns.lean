import Simmis.Chat.Threads
import Mathlib.Data.List.SplitBy

/-!
# Runs of tool calls

Stretches of two or more consecutive tool calls of a timeline are shown as one row, which has the
key of its first call.
-/

namespace Simmis.Chat

open List Option

variable {U T : Type}

/-- A row that is shown: one of the timeline, or `:eval-run`. -/
inductive Shown (U T : Type)
  | row (row : Row U T)
  | run (id : U) (ts : T) (items : List (Row U T))
deriving DecidableEq

namespace Shown

/-- `:entity/uuid` -/
def key : Shown U T → U
  | .row r => r.item.id
  | .run id _ _ => id

/-- The rows that it stands for. -/
def items : Shown U T → List (Row U T)
  | .row r => [r]
  | .run _ _ items => items

/-- A run, or a call that is shown by itself. -/
def showsCalls : Shown U T → Bool
  | .row r => r.item.kind = .evalEntry
  | .run .. => true

end Shown

def isCall (row : Row U T) : Bool := row.item.kind = .evalEntry

/-- `min-run-length` -/
def minRunLength : ℕ := 2

/-- `partition-by` -/
def stretches (rows : List (Row U T)) : List (List (Row U T)) :=
  rows.splitBy fun a b ↦ isCall a == isCall b

def showStretch : List (Row U T) → List (Shown U T)
  | [] => []
  | first :: rest =>
    if isCall first ∧ minRunLength ≤ (first :: rest).length then
      [.run first.item.id (rest.getLastD first).item.ts (first :: rest)]
    else (first :: rest).map .row

/-- `group-tool-runs` -/
def groupToolRuns (rows : List (Row U T)) : List (Shown U T) := (stretches rows).flatMap showStretch

section Stretches

variable {rows stretch more : List (Row U T)} {first : Row U T}

theorem isChain_isCall {b : Bool} (h : ∀ row ∈ stretch, isCall row = b) :
    stretch.IsChain fun x y ↦ (isCall x == isCall y) := by
  induction stretch with
  | nil => exact .nil
  | cons x stretch ih =>
    rw [isChain_cons]
    refine ⟨fun y hy ↦ ?_, ih fun row hrow ↦ h row (mem_cons_of_mem _ hrow)⟩
    rw [h x mem_cons_self, h y (mem_cons_of_mem _ (mem_of_mem_head? hy)), beq_self_eq_true]

theorem isCall_of_isChain (h : (first :: stretch).IsChain fun x y ↦ (isCall x == isCall y)) :
    ∀ row ∈ first :: stretch, isCall row = isCall first := by
  induction stretch generalizing first with
  | nil => simp
  | cons y stretch ih =>
    rw [isChain_cons_cons, beq_iff_eq] at h
    intro row hrow
    rcases mem_cons.mp hrow with rfl | hrow
    · rfl
    · rw [ih h.2 row hrow, h.1]

/-- A stretch is calls or it is none. -/
theorem isCall_of_mem_stretches (h : first :: stretch ∈ stretches rows) :
    ∀ row ∈ first :: stretch, isCall row = isCall first :=
  isCall_of_isChain (isChain_of_mem_splitBy h)

theorem ne_nil_of_mem_stretches (h : stretch ∈ stretches rows) : stretch ≠ [] :=
  ne_nil_of_mem_splitBy h

/-- What follows a stretch lengthens it, or comes after it. -/
theorem stretches_append (hall : ∀ row ∈ first :: stretch, isCall row = isCall first) :
    stretches (first :: stretch ++ more) =
      (first :: stretch ++ more.takeWhile fun row ↦ isCall row == isCall first) ::
        stretches (more.dropWhile fun row ↦ isCall row == isCall first) := by
  set same := more.takeWhile fun row ↦ isCall row == isCall first
  set rest := more.dropWhile fun row ↦ isCall row == isCall first with hrest
  have hmore : more = same ++ rest := takeWhile_append_dropWhile.symm
  have hlong : ∀ row ∈ first :: stretch ++ same, isCall row = isCall first := by
    intro row hrow
    rcases mem_append.mp hrow with hrow | hrow
    · exact hall row hrow
    · have hsame := mem_takeWhile_imp hrow
      exact eq_of_beq hsame
  have hborder : ∀ x ∈ (first :: stretch ++ same).getLast?, ∀ y ∈ rest.head?,
      (isCall x == isCall y) = false := by
    intro x hx y hy
    rw [hlong x (mem_of_mem_getLast? hx)]
    have hnot := head?_dropWhile_not (fun row ↦ isCall row == isCall first) more
    rw [← hrest, mem_def.mp hy] at hnot
    rw [Bool.beq_comm]
    simpa using hnot
  have hsplit : (first :: stretch ++ same) ++ rest = first :: stretch ++ more := by
    rw [append_assoc, ← hmore]
  unfold stretches
  rw [← hsplit, splitBy_append hborder, splitBy_of_isChain (by simp) (isChain_isCall hlong)]
  rfl

/-- What follows a timeline changes its last stretch at most. -/
theorem stretches_concat {init : List (List (Row U T))}
    (h : stretches rows = init ++ [first :: stretch]) :
    stretches (rows ++ more) = init ++ stretches (first :: stretch ++ more) := by
  obtain ⟨hflatten, hnil, hchains, hborders⟩ := splitBy_eq_iff.mp h
  have hall : ∀ row ∈ first :: stretch, isCall row = isCall first :=
    isCall_of_isChain (hchains _ (mem_append_right _ (mem_singleton_self _)))
  obtain ⟨hinit, -, hborder⟩ := isChain_append.mp hborders
  have hrest := splitBy_eq_iff.mp (rfl : stretches (first :: stretch ++ more) = _)
  apply splitBy_eq_iff.mpr
  refine ⟨?_, ?_, ?_, ?_⟩
  · rw [flatten_append, ← hrest.1, hflatten]
    simp
  · rw [mem_append, not_or]
    exact ⟨fun hmem ↦ hnil (mem_append_left _ hmem), hrest.2.1⟩
  · intro m hm
    rcases mem_append.mp hm with hm | hm
    · exact hchains m (mem_append_left _ hm)
    · exact hrest.2.2.1 m hm
  · refine isChain_append.mpr ⟨hinit, hrest.2.2.2, fun x hx y hy ↦ ?_⟩
    obtain ⟨hxne, hne, hlast⟩ := hborder x hx (first :: stretch) rfl
    rw [stretches_append hall, head?_cons, mem_some_iff] at hy
    subst hy
    exact ⟨hxne, cons_ne_nil _ _, hlast⟩

end Stretches

section Rows

variable {rows stretch more : List (Row U T)} {first : Row U T} {shown : Shown U T}

theorem showStretch_run (hcall : isCall first)
    (hlength : minRunLength ≤ (first :: stretch).length) : showStretch (first :: stretch) =
      [.run first.item.id (stretch.getLastD first).item.ts (first :: stretch)] :=
  if_pos ⟨hcall, hlength⟩

section

variable (stretch : List (Row U T))

theorem showStretch_cases : (∃ first rest, stretch = first :: rest ∧ isCall first ∧
      minRunLength ≤ stretch.length ∧ showStretch stretch =
        [.run first.item.id (rest.getLastD first).item.ts stretch]) ∨
    showStretch stretch = stretch.map .row ∧
      (stretch.length < minRunLength ∨ ∃ first ∈ stretch.head?, isCall first = false) := by
  cases stretch with
  | nil => exact .inr ⟨rfl, .inl Nat.zero_lt_two⟩
  | cons first rest =>
    by_cases h : isCall first ∧ minRunLength ≤ (first :: rest).length
    · exact .inl ⟨first, rest, rfl, h.1, h.2, if_pos h⟩
    · refine .inr ⟨if_neg h, ?_⟩
      rw [not_and_or, not_le] at h
      rcases h with h | h
      · exact .inr ⟨first, rfl, by simpa using h⟩
      · exact .inl h

theorem flatMap_items_showStretch : (showStretch stretch).flatMap Shown.items = stretch := by
  rcases showStretch_cases stretch with ⟨first, rest, -, -, -, h⟩ | ⟨h, -⟩
  · rw [h]
    exact append_nil _
  · rw [h, flatMap_map]
    exact flatMap_singleton' stretch

theorem map_key_showStretch :
    ((showStretch stretch).map Shown.key).Sublist (stretch.map fun row ↦ row.item.id) := by
  rcases showStretch_cases stretch with ⟨first, rest, hstretch, -, -, h⟩ | ⟨h, -⟩
  · rw [h, hstretch]
    exact .cons_cons _ (nil_sublist _)
  · rw [h, List.map_map]
    exact .refl _

end

theorem showsCalls_showStretch (hall : ∀ row ∈ first :: stretch, isCall row = isCall first)
    (h : shown ∈ showStretch (first :: stretch)) : shown.showsCalls = isCall first := by
  rcases showStretch_cases (first :: stretch) with ⟨_, _, hstretch, hcall, -, heq⟩ | ⟨heq, -⟩
  · rw [heq, mem_singleton] at h
    cases hstretch
    rw [h, hcall]
    rfl
  · rw [heq] at h
    obtain ⟨row, hrow, rfl⟩ := mem_map.mp h
    exact hall row hrow

theorem showStretch_ne_nil (first : Row U T) (stretch : List (Row U T)) :
    showStretch (first :: stretch) ≠ [] := by
  intro h
  have hitems := flatMap_items_showStretch (first :: stretch)
  rw [h] at hitems
  exact nomatch hitems

/-- A stretch of calls is one row. -/
theorem showStretch_calls (stretch : List (Row U T)) (hcall : isCall first) :
    ∃ shown, showStretch (first :: stretch) = [shown] := by
  rcases showStretch_cases (first :: stretch) with ⟨_, _, -, -, -, heq⟩ | ⟨heq, hshort | hnone⟩
  · exact ⟨_, heq⟩
  · have hnil : stretch = [] := by
      apply eq_nil_of_length_eq_zero
      change stretch.length + 1 < 2 at hshort
      omega
    exact ⟨.row first, by rw [heq, hnil]; rfl⟩
  · obtain ⟨x, hx, hnot⟩ := hnone
    rw [head?_cons, mem_some_iff] at hx
    subst hx
    exact absurd (hcall.symm.trans hnot) (by decide)

/-- No call stands beside another one. -/
def Apart (a b : Shown U T) : Prop := ¬ (a.showsCalls = true ∧ b.showsCalls = true)

theorem isChain_showStretch (hall : ∀ row ∈ first :: stretch, isCall row = isCall first) :
    (showStretch (first :: stretch)).IsChain Apart := by
  cases hcall : isCall first with
  | true =>
    obtain ⟨shown, heq⟩ := showStretch_calls stretch hcall
    rw [heq]
    exact .singleton shown
  | false =>
    have hnone : ∀ shown ∈ showStretch (first :: stretch), shown.showsCalls = false :=
      fun shown h ↦ (showsCalls_showStretch hall h).trans hcall
    refine List.Pairwise.isChain (pairwise_of_forall_mem_list fun a ha b _ h ↦ ?_)
    exact absurd (h.1.symm.trans (hnone a ha)) (by decide)

/-- Stretches that take turns are shown apart. -/
theorem isChain_flatMap {l : List (List (Row U T))}
    (hl : ∀ s ∈ l, ∃ first rest, s = first :: rest ∧ ∀ row ∈ s, isCall row = isCall first)
    (hborder : l.IsChain fun a b ↦ ∃ ha hb, (isCall (a.getLast ha) == isCall (b.head hb)) = false) :
    (l.flatMap showStretch).IsChain Apart := by
  induction l with
  | nil => exact .nil
  | cons s l ih =>
    obtain ⟨first, rest, rfl, hall⟩ := hl _ mem_cons_self
    rw [flatMap_cons]
    refine isChain_append.mpr ⟨isChain_showStretch hall,
      ih (fun s hs ↦ hl s (mem_cons_of_mem _ hs)) hborder.tail, fun x hx y hy ↦ ?_⟩
    cases l with
    | nil => exact nomatch hy
    | cons t l =>
      obtain ⟨first', rest', rfl, hall'⟩ := hl _ (mem_cons_of_mem _ mem_cons_self)
      obtain ⟨hne, _, hdiffer⟩ := (isChain_cons_cons.mp hborder).1
      rw [flatMap_cons, head?_append_of_ne_nil _ (showStretch_ne_nil first' rest')] at hy
      rintro ⟨hxcalls, hycalls⟩
      rw [showsCalls_showStretch hall (mem_of_mem_getLast? hx)] at hxcalls
      rw [showsCalls_showStretch hall' (mem_of_mem_head? hy)] at hycalls
      rw [head_cons, hycalls, hall _ (getLast_mem hne), hxcalls] at hdiffer
      exact nomatch hdiffer

theorem stretches_uniform : ∀ s ∈ stretches rows,
    ∃ first rest, s = first :: rest ∧ ∀ row ∈ s, isCall row = isCall first := by
  intro s hs
  cases s with
  | nil => exact absurd rfl (ne_nil_of_mem_stretches hs)
  | cons first rest => exact ⟨first, rest, rfl, isCall_of_mem_stretches hs⟩

/-- What the rows of grouped tool calls say of a timeline. -/
structure Grouped (rows : List (Row U T)) (shown : List (Shown U T)) : Prop where
  lossless : shown.flatMap Shown.items = rows
  maximal : shown.IsChain Apart
  runs : ∀ id ts items, .run id ts items ∈ shown → 2 ≤ items.length ∧
    (∀ row ∈ items, row.item.kind = .evalEntry) ∧ id ∈ (items.head?.map (·.item.id))
  keys : (rows.map fun row ↦ row.item.id).Nodup → (shown.map Shown.key).Nodup

theorem groupToolRuns_lossless (rows : List (Row U T)) :
    (groupToolRuns rows).flatMap Shown.items = rows := by
  unfold groupToolRuns
  rw [flatMap_assoc]
  simp only [flatMap_items_showStretch]
  rw [flatMap_id']
  exact flatten_splitBy _ rows

theorem map_key_groupToolRuns (rows : List (Row U T)) :
    ((groupToolRuns rows).map Shown.key).Sublist (rows.map fun row ↦ row.item.id) := by
  have hflatMap (l : List (List (Row U T))) : ((l.flatMap showStretch).map Shown.key).Sublist
      (l.flatten.map fun row ↦ row.item.id) := by
    induction l with
    | nil => exact .refl _
    | cons s l ih =>
      rw [flatMap_cons, map_append, flatten_cons, map_append]
      exact (map_key_showStretch s).append ih
  have hrows := hflatMap (stretches rows)
  unfold stretches at hrows
  rwa [flatten_splitBy] at hrows

/-- No row is lost; runs are maximal, of two calls or more, with distinct keys. -/
theorem groupToolRuns_grouped (rows : List (Row U T)) : Grouped rows (groupToolRuns rows) where
  lossless := groupToolRuns_lossless rows
  maximal := isChain_flatMap stretches_uniform
    (isChain_getLast_head_splitBy (fun a b ↦ isCall a == isCall b) rows)
  runs id ts items hmem := by
    obtain ⟨s, hs, hshown⟩ := mem_flatMap.mp hmem
    rcases showStretch_cases s with ⟨first, rest, hstretch, hcall, hlength, heq⟩ | ⟨heq, -⟩
    · rw [heq, mem_singleton, Shown.run.injEq] at hshown
      obtain ⟨rfl, -, rfl⟩ := hshown
      subst hstretch
      refine ⟨hlength, fun row hrow ↦ ?_, rfl⟩
      have hrowCall := (isCall_of_mem_stretches hs row hrow).trans hcall
      exact of_decide_eq_true hrowCall
    · rw [heq] at hshown
      obtain ⟨row, -, hrow⟩ := mem_map.mp hshown
      exact nomatch hrow
  keys hnodup := hnodup.sublist (map_key_groupToolRuns rows)

/-- Appended rows change nothing before the last shown row, and only lengthen the runs. -/
structure Extended (shown later : List (Shown U T)) : Prop where
  before : shown.dropLast <+: later
  runs : ∀ (i : ℕ) id ts items, shown[i]? = some (Shown.run id ts items) →
    ∃ ts' rest, later[i]? = some (Shown.run id ts' (items ++ rest))

theorem extended_showStretch (first : Row U T) (stretch same : List (Row U T))
    (rest : List (Shown U T)) : Extended (showStretch (first :: stretch))
      (showStretch (first :: stretch ++ same) ++ rest) := by
  cases hcall : isCall first with
  | true =>
    obtain ⟨shown, hshown⟩ := showStretch_calls stretch hcall
    rw [hshown]
    refine ⟨ nil_prefix, fun i id ts items hi ↦ ?_⟩
    rw [getElem?_singleton, ite_none_right_eq_some] at hi
    obtain ⟨rfl, rfl⟩ := hi.imp_right some.inj
    rcases showStretch_cases (first :: stretch) with ⟨_, _, hstretch, -, hlength, heq⟩ | ⟨heq, -⟩
    · cases hstretch
      rw [hshown, singleton_inj, Shown.run.injEq] at heq
      obtain ⟨rfl, -, rfl⟩ := heq
      have hlong : minRunLength ≤ (first :: (stretch ++ same)).length := by
        simp only [length_cons, length_append] at hlength ⊢
        omega
      exact ⟨_, same, by rw [cons_append, showStretch_run hcall hlong]; rfl⟩
    · rw [hshown] at heq
      exact nomatch heq
  | false =>
    have hrows (l : List (Row U T)) : showStretch (first :: l) = (first :: l).map .row := by
      rcases showStretch_cases (first :: l) with ⟨_, _, hcons, hcall', -⟩ | ⟨heq, -⟩
      · cases hcons
        exact absurd (hcall.symm.trans hcall') (by decide)
      · exact heq
    rw [cons_append, hrows, hrows, ← cons_append, map_append, append_assoc]
    constructor
    · exact ( dropLast_prefix _).trans (prefix_append _ _)
    · intro i id ts items hi
      obtain ⟨row, -, hrow⟩ := mem_map.mp (mem_of_getElem? hi)
      exact nomatch hrow

theorem groupToolRuns_extended (rows more : List (Row U T)) :
    Extended (groupToolRuns rows) (groupToolRuns (rows ++ more)) := by
  rcases eq_nil_or_concat (stretches rows) with hnil | ⟨init, last, hconcat⟩
  · have hempty : groupToolRuns rows = [] := by
      unfold groupToolRuns
      rw [hnil]
      rfl
    rw [hempty]
    exact ⟨ nil_prefix, fun _ _ _ _ h ↦ nomatch h⟩
  · rw [concat_eq_append] at hconcat
    have hlast : last ∈ stretches rows := by simp [hconcat]
    obtain ⟨first, stretch, rfl, hall⟩ := stretches_uniform last hlast
    have hextended := extended_showStretch first stretch
      (more.takeWhile fun row ↦ isCall row == isCall first)
      ((stretches (more.dropWhile fun row ↦ isCall row == isCall first)).flatMap showStretch)
    rw [← flatMap_cons, ← stretches_append hall] at hextended
    unfold groupToolRuns
    rw [hconcat, stretches_concat hconcat, flatMap_append, flatMap_append, flatMap_singleton]
    constructor
    · rw [dropLast_append_of_ne_nil (showStretch_ne_nil first stretch)]
      exact prefix_append_right_inj _ |>.mpr hextended.before
    · intro i id ts items hi
      rw [getElem?_append] at hi ⊢
      split at hi
      · next hlt => exact ⟨ts, [], by rw [if_pos hlt, hi, append_nil]⟩
      · next hge => rw [if_neg hge]; exact hextended.runs _ _ _ _ hi

/-- Grouping is lossless, and stable when rows are appended. -/
theorem grouping_lossless_stable (rows more : List (Row U T)) : Grouped rows (groupToolRuns rows) ∧
      Extended (groupToolRuns rows) (groupToolRuns (rows ++ more)) :=
  ⟨groupToolRuns_grouped rows, groupToolRuns_extended rows more⟩

end Rows

end Simmis.Chat
